import Mathlib.Data.List.Forall2
import RomLinker.Proofs.Listing.Longest
import RomLinker.Proofs.Listing.Reader
import RomLinker.Proofs.Listing.Shift
import RomLinker.Proofs.Numeral

/-!
The lexemes of a list tile it, if they are found by an engine that takes the longest match
(`lexemes_tile`). All of it follows from the pieces that the engine cuts the source into, each of which
is what its own text and the text behind it make it (`fits_of_cover`). The lexer of the list is one of
them but for the kind of some words (`alike_lexemes`, `lexemes_eq_byRules`).
-/
namespace RomLinker

def Span.Has (s : Span) (i : Nat) : Prop := s.start ≤ i ∧ i < s.stop

namespace Listing

namespace Lexeme

def text : Lexeme → String
  | .token t => t.text
  | .stray text _ => text

def span : Lexeme → Span
  | .token t => t.span
  | .stray _ span => span

def piece : Lexeme → PieceKind
  | .token t => .token t.kind
  | .stray .. => .stray

/-- What the lexer answers where it finds the lexeme. -/
def answer : Lexeme → Checked Token
  | .token t => .ok t
  | .stray text span => .error ⟨.unexpectedText text, span⟩

/-- A lexeme of a source, between the text before it and the text behind. -/
structure Stands (x : Lexeme) (source before behind : List Char) : Prop where
  source : source = before ++ x.text.toList ++ behind
  filled : x.text ≠ ""
  span : x.span = ⟨size before, size before + size x.text.toList⟩
  fits : x.piece.Fits x.text.toList behind

end Lexeme

def newlineAt (i : Nat) : Lexeme := .token ⟨.newline, "\n", ⟨i, i + 1⟩⟩

/-- The lexemes of a source by what they are to its text: each stands at its place and is what the
rules make of it; they are in order and do not overlap; what they leave free is white space and
comments; and a line feed is always a token of its own. -/
structure Tiles (source : String) (found : List Lexeme) : Prop where
  stands : ∀ x ∈ found, ∃ before behind, x.Stands source.toList before behind
  ordered : found.Pairwise fun x y => x.span.stop ≤ y.span.start
  gaps : ∀ i < source.utf8ByteSize, (∀ x ∈ found, ¬ x.span.Has i) →
    ∃ before gap behind, source.toList = before ++ gap ++ behind ∧ size before ≤ i ∧
      i < size before + size gap ∧ Skipped gap behind ∧
      ∀ j, size before ≤ j → j < size before + size gap → ∀ x ∈ found, ¬ x.span.Has j
  feeds : ∀ x ∈ found, '\n' ∈ x.text.toList → ∃ i, x = newlineAt i
  once : ∀ before behind, source.toList = before ++ '\n' :: behind →
    found.count (newlineAt (size before)) = 1
  inner : ∀ t, .token t ∈ found → t.kind ≠ .endOfFile

/-! ### Lexers -/

namespace Engine
variable (engine : Engine)

def lexemes (source : String) : List Lexeme := place 0 (cover engine source.toList)

/-- The lexeme that comes next in a text that starts at `start`, where it ends, and what is left. -/
def next (start : Nat) : List Char → Option (Lexeme × Nat × List Char)
  | [] => none
  | c :: cs =>
    let text := engine.taken c cs
    let stop := start + size text
    match (engine c cs).1.lexeme? (String.ofList text) ⟨start, stop⟩ with
    | some x => some (x, stop, engine.left c cs)
    | none => next stop (engine.left c cs)
termination_by cs => cs.length
decreasing_by
  simp only [left, List.length_drop, List.length_cons]
  omega

end Engine

/-- A lexer in its source: how many bytes are behind it, what is in front of it, and whether it has
come to the end. -/
structure Lexer where
  place : Nat
  rest : List Char
  ended : Bool

namespace Lexer
variable (engine : Engine) (eof : Token)

def start (source : String) : Lexer := ⟨0, source.toList, false⟩

/-- The answer to a call for the next token. At the end it is the end of the file, now and from then
on. -/
def token (l : Lexer) : Checked Token × Lexer :=
  if l.ended then (.ok eof, l)
  else match engine.next l.place l.rest with
    | some (x, place, rest) => (x.answer, ⟨place, rest, false⟩)
    | none => (.ok eof, { l with ended := true })

/-- The answer to a call behind as many others. -/
def answer : Nat → Lexer → Checked Token
  | 0, l => (l.token engine eof).1
  | n + 1, l => answer n (l.token engine eof).2

end Lexer

variable {cs text behind before : List Char} {kind : PieceKind} {start : Nat} {x : Lexeme}
  {pieces front back : List (PieceKind × List Char)} {engine : Engine} {source : String}

theorem fits_of_cover (longest : engine.LongestMatch)
    (split : cover engine cs = front ++ (kind, text) :: back) :
    kind.Fits text (back.map (·.2)).flatten ∧ text ≠ [] := by
  fun_induction cover engine cs generalizing front with
  | case1 => cases front <;> cases split
  | case2 c cs kind' n first ih =>
    cases front with
    | nil =>
      obtain ⟨same, rfl⟩ := List.cons.inj split
      cases same
      have fits := longest.fits c cs
      unfold Engine.taken Engine.left at fits
      rw [first] at fits
      rw [flatten_cover]
      exact ⟨fits, List.cons_ne_nil c _⟩
    | cons p front => exact ih (List.cons.inj split).2

theorem lexeme?_eq_some {text : String} {span : Span} (h : kind.lexeme? text span = some x) :
    x.text = text ∧ x.span = span ∧ x.piece = kind := by
  cases kind <;> cases h <;> exact ⟨rfl, rfl, rfl⟩

theorem mem_place : x ∈ place start pieces ↔ ∃ front kind text back,
    pieces = front ++ (kind, text) :: back ∧
      kind.lexeme? (String.ofList text) ⟨start + size (front.map (·.2)).flatten,
        start + size (front.map (·.2)).flatten + size text⟩ = some x := by
  constructor
  · intro member
    induction pieces generalizing start with
    | nil => cases member
    | cons piece pieces ih =>
      obtain ⟨kind, text⟩ := piece
      rcases List.mem_append.mp member with here | later
      · exact ⟨[], kind, text, pieces, rfl, Option.mem_toList.mp here⟩
      · obtain ⟨front, kind', text', back, rfl, found⟩ := ih later
        refine ⟨(kind, text) :: front, kind', text', back, rfl, ?_⟩
        rw [List.map_cons, List.flatten_cons, size_append, ← Nat.add_assoc]
        exact found
  · rintro ⟨front, kind, text, back, rfl, found⟩
    rw [place_append, List.mem_append, place, List.mem_append]
    exact Or.inr (Or.inl (Option.mem_toList.mpr found))

theorem bounds_of_mem_place (member : x ∈ place start pieces) :
    start ≤ x.span.start ∧ x.span.stop ≤ start + size (pieces.map (·.2)).flatten := by
  obtain ⟨front, kind, text, back, rfl, found⟩ := mem_place.mp member
  rw [(lexeme?_eq_some found).2.1, List.map_append, List.flatten_append, size_append, List.map_cons,
    List.flatten_cons, size_append]
  exact ⟨by dsimp only; omega, by dsimp only; omega⟩

theorem pairwise_place (start : Nat) (pieces : List (PieceKind × List Char)) :
    (place start pieces).Pairwise fun x y => x.span.stop ≤ y.span.start := by
  induction pieces generalizing start with
  | nil => exact List.Pairwise.nil
  | cons piece pieces ih =>
    obtain ⟨kind, text⟩ := piece
    rw [place, List.pairwise_append]
    refine ⟨?_, ih _, fun x here y later => ?_⟩
    · cases kind <;> simp [PieceKind.lexeme?]
    · rw [(lexeme?_eq_some (Option.mem_toList.mp here)).2.1]
      exact (bounds_of_mem_place later).1

theorem exists_piece {i : Nat} (low : start ≤ i) (high : i < start + size (pieces.map (·.2)).flatten) :
    ∃ front kind text back, pieces = front ++ (kind, text) :: back ∧
      start + size (front.map (·.2)).flatten ≤ i ∧
      i < start + size (front.map (·.2)).flatten + size text := by
  induction pieces generalizing start with
  | nil => exact absurd high (Nat.not_lt.mpr low)
  | cons piece pieces ih =>
    obtain ⟨kind, text⟩ := piece
    rw [List.map_cons, List.flatten_cons, size_append, ← Nat.add_assoc] at high
    by_cases here : i < start + size text
    · exact ⟨[], kind, text, pieces, rfl, low, here⟩
    · obtain ⟨front, kind', text', back, rfl, below, above⟩ := ih (Nat.not_lt.mp here) high
      refine ⟨(kind, text) :: front, kind', text', back, rfl, ?_, ?_⟩ <;>
        rw [List.map_cons, List.flatten_cons, size_append, ← Nat.add_assoc]
      · exact below
      · exact above

theorem newline_of_accepts {rule : Rule} (accepts : rule.Accepts text) (feed : '\n' ∈ text) :
    rule = .token .newline ∧ text = ['\n'] := by
  have never {p : Char → Bool} (free : p '\n' = false) (all : ∀ c ∈ text, p c = true) :
      rule = .token .newline ∧ text = ['\n'] := by
    rw [all '\n' feed] at free
    cases free
  cases rule with
  | blanks => exact never (by decide) accepts.2
  | comment =>
    obtain ⟨inner, rfl, free⟩ := accepts
    exact absurd feed (List.not_mem_cons_of_ne_of_not_mem (by decide) free)
  | token kind =>
    rcases accepts_token accepts with ⟨rfl, rfl⟩ | ⟨rfl, rfl⟩ | rfl | rfl | rfl | command
    · exact ⟨rfl, rfl⟩
    · exact absurd feed (by decide)
    · exact never (by decide) (accepts_word_of_number accepts).2
    · exact never (by decide) accepts.2
    · obtain ⟨inner, rfl, -, free⟩ := accepts
      exact absurd feed (by simp [free])
    · have plain : ∀ command ∈ commands, '\n' ∉ command.2 := by decide
      exact absurd feed (plain _ command)

theorem newline_of_fits (fits : kind.Fits text behind) (feed : '\n' ∈ text) :
    kind = .token .newline ∧ text = ['\n'] := by
  cases kind with
  | skipped =>
    rcases fits with blanks | ⟨inner, rfl, free, -⟩
    · cases blanks '\n' feed
    · exact absurd feed (List.not_mem_cons_of_ne_of_not_mem (by decide) free)
  | token kind =>
    obtain ⟨same, rfl⟩ := newline_of_accepts fits.accepts feed
    exact ⟨congrArg _ (Rule.token.inj same), rfl⟩
  | stray =>
    rcases fits.shape with ⟨c, rfl⟩ | ⟨inner, rfl, -, free⟩
    · obtain rfl := List.mem_singleton.mp feed
      exact absurd (List.prefix_append ['\n'] behind) (fits.none (.token .newline) ['\n'] rfl)
    · exact absurd feed (List.not_mem_cons_of_ne_of_not_mem (by decide) free)

theorem newlineAt_mem_place (longest : engine.LongestMatch) (split : cs = before ++ '\n' :: behind) :
    newlineAt (start + size before) ∈ place start (cover engine cs) := by
  fun_induction cover engine cs generalizing start before with
  | case1 => simp at split
  | case2 c cs kind n first ih =>
    have fits := longest.fits c cs
    unfold Engine.taken Engine.left at fits
    rw [first] at fits
    have whole : (c :: cs.take n) ++ cs.drop n = before ++ '\n' :: behind := by
      rw [← split, List.cons_append, List.take_append_drop]
    rw [place, List.mem_append]
    rcases List.append_eq_append_iff.mp whole with ⟨more, rfl, rest⟩ | ⟨_ | ⟨x, more⟩, text, rest⟩
    · rw [size_append, ← Nat.add_assoc]
      exact Or.inr (ih rest)
    · have later : newlineAt (start + size (c :: cs.take n) + size []) ∈
          place (start + size (c :: cs.take n)) (cover engine (cs.drop n)) := ih rest.symm
      rw [List.append_nil] at text
      rw [← text]
      exact Or.inr later
    · obtain ⟨rfl, -⟩ := List.cons.inj rest
      obtain ⟨rfl, alone⟩ := newline_of_fits fits (by simp [text])
      rw [alone] at text
      have first : before = [] := by
        cases before with
        | nil => rfl
        | cons y before => simp at text
      subst first
      rw [alone]
      exact Or.inl (List.mem_singleton.mpr rfl)

/-! ### The lexemes of a source -/

theorem stands_of_mem_lexemes (longest : engine.LongestMatch) (member : x ∈ engine.lexemes source) :
    ∃ before behind, x.Stands source.toList before behind := by
  obtain ⟨front, kind, text, back, split, found⟩ := mem_place.mp member
  obtain ⟨same, span, piece⟩ := lexeme?_eq_some found
  obtain ⟨fits, filled⟩ := fits_of_cover longest split
  have chars : x.text.toList = text := by rw [same, String.toList_ofList]
  refine ⟨(front.map (·.2)).flatten, (back.map (·.2)).flatten, ⟨?_, ?_, ?_, ?_⟩⟩
  · rw [chars, ← flatten_cover engine source.toList, split]
    simp
  · rw [← chars] at filled
    exact fun none => filled (by rw [none]; rfl)
  · rw [span, chars, Nat.zero_add]
  · rw [chars, piece]
    exact fits

theorem exists_gap (longest : engine.LongestMatch) {i : Nat} (inside : i < source.utf8ByteSize)
    (free : ∀ x ∈ engine.lexemes source, ¬ x.span.Has i) :
    ∃ before gap behind, source.toList = before ++ gap ++ behind ∧ size before ≤ i ∧
      i < size before + size gap ∧ Skipped gap behind ∧
      ∀ j, size before ≤ j → j < size before + size gap → ∀ x ∈ engine.lexemes source, ¬ x.span.Has j := by
  have whole : size ((cover engine source.toList).map (·.2)).flatten = source.utf8ByteSize := by
    rw [flatten_cover, size_toList]
  have placed : i < 0 + size ((cover engine source.toList).map (·.2)).flatten := by omega
  obtain ⟨front, kind, gap, back, split, below, above⟩ := exists_piece (Nat.zero_le i) placed
  have skipped : kind = .skipped := by
    cases found : kind.lexeme? (String.ofList gap) ⟨0 + size (front.map (·.2)).flatten,
        0 + size (front.map (·.2)).flatten + size gap⟩ with
    | none => cases kind <;> first | rfl | cases found
    | some x =>
      have member := mem_place.mpr ⟨front, kind, gap, back, split, found⟩
      have has : x.span.Has i := by
        rw [(lexeme?_eq_some found).2.1]
        exact ⟨below, above⟩
      exact absurd has (free x member)
  subst skipped
  have fits : Skipped gap (back.map (·.2)).flatten := (fits_of_cover longest split).1
  rw [Nat.zero_add] at below above
  refine ⟨(front.map (·.2)).flatten, gap, (back.map (·.2)).flatten, ?_, below, above,
    fits, fun j low high x member has => ?_⟩
  · rw [← flatten_cover engine source.toList, split]
    simp
  · rw [Engine.lexemes, split, place_append, Nat.zero_add] at member
    rcases List.mem_append.mp member with earlier | later
    · have bound := (bounds_of_mem_place earlier).2
      have stop := has.2
      omega
    · have behind : x ∈ place (size (front.map (·.2)).flatten + size gap) back := later
      have bound := (bounds_of_mem_place behind).1
      have first := has.1
      omega

theorem kind_of_mem (longest : engine.LongestMatch) {t : Token} (member : .token t ∈ engine.lexemes source) :
    t.kind ≠ .endOfFile := by
  obtain ⟨before, behind, stands⟩ := stands_of_mem_lexemes longest member
  have fits : Longest (.token t.kind) t.text.toList behind := stands.fits
  intro same
  rw [same] at fits
  cases fits.accepts

theorem start_lt_stop (longest : engine.LongestMatch) (member : x ∈ engine.lexemes source) :
    x.span.start < x.span.stop := by
  obtain ⟨before, behind, stands⟩ := stands_of_mem_lexemes longest member
  have long : 0 < x.text.toList.length := by
    rw [List.length_pos_iff, ne_eq, String.toList_eq_nil_iff]
    exact stands.filled
  have bytes : x.text.toList.length ≤ size x.text.toList := Text.length_le_utf8ByteSize _
  rw [stands.span]
  dsimp only
  omega

theorem nodup_lexemes (longest : engine.LongestMatch) (source : String) : (engine.lexemes source).Nodup := by
  refine (pairwise_place 0 _).imp_of_mem fun {x y} member _ apart => ?_
  rintro rfl
  have filled := start_lt_stop longest member
  omega

theorem eq_newlineAt (longest : engine.LongestMatch) (member : x ∈ engine.lexemes source)
    (feed : '\n' ∈ x.text.toList) : ∃ i, x = newlineAt i := by
  obtain ⟨before, behind, stands⟩ := stands_of_mem_lexemes longest member
  obtain ⟨piece, text⟩ := newline_of_fits stands.fits feed
  have span := stands.span
  rw [text] at span
  have text : x.text = "\n" := String.toList_inj.mp text
  refine ⟨size before, ?_⟩
  cases x with
  | stray text span => cases piece
  | token t =>
    obtain ⟨kind, text', span'⟩ := t
    cases piece
    cases text
    cases span
    rfl

theorem newlineAt_mem (longest : engine.LongestMatch) (split : source.toList = before ++ '\n' :: behind) :
    newlineAt (size before) ∈ engine.lexemes source := by
  have member : newlineAt (0 + size before) ∈ engine.lexemes source := newlineAt_mem_place longest split
  rwa [Nat.zero_add] at member

theorem place_cover (engine : Engine) (start : Nat) (cs : List Char) :
    place start (cover engine cs) = match engine.next start cs with
      | none => []
      | some (x, stop, rest) => x :: place stop (cover engine rest) := by
  fun_induction Engine.next engine start cs with
  | case1 => rw [cover_nil]; rfl
  | case2 start c cs text stop x found =>
    rw [cover_cons, place]
    change ((engine c cs).1.lexeme? (String.ofList text) ⟨start, stop⟩).toList ++ _ = _
    rw [found]
    rfl
  | case3 start c cs text stop skipped ih =>
    rw [cover_cons, place]
    change ((engine c cs).1.lexeme? (String.ofList text) ⟨start, stop⟩).toList ++ _ = _
    rw [skipped]
    exact ih

theorem answer_of_ended (eof : Token) (n : Nat) {l : Lexer} (ended : l.ended = true) :
    Lexer.answer engine eof n l = .ok eof := by
  have here : l.token engine eof = (.ok eof, l) := if_pos ended
  induction n with
  | zero => rw [Lexer.answer, here]
  | succ n ih => rw [Lexer.answer, here, ih]

theorem answer_eq (eof : Token) (n start : Nat) (cs : List Char) :
    Lexer.answer engine eof n ⟨start, cs, false⟩ =
      ((place start (cover engine cs))[n]?.map Lexeme.answer).getD (.ok eof) := by
  have step : Lexer.token engine eof ⟨start, cs, false⟩ = match engine.next start cs with
      | some (x, place, rest) => (x.answer, ⟨place, rest, false⟩)
      | none => (.ok eof, ⟨start, cs, true⟩) := rfl
  induction n generalizing start cs with
  | zero =>
    rw [place_cover, Lexer.answer, step]
    rcases engine.next start cs with _ | ⟨x, stop, rest⟩ <;> rfl
  | succ n ih =>
    rw [place_cover, Lexer.answer, step]
    rcases engine.next start cs with _ | ⟨x, stop, rest⟩
    · exact answer_of_ended eof n rfl
    · exact ih stop rest rfl

/-- With an engine that takes the longest match, the lexer tiles the source with its tokens and errors,
one for a call, and has nothing behind them but the end of the source. -/
theorem lexemes_tile (longest : engine.LongestMatch) (source : String) :
    Tiles source (engine.lexemes source) ∧
      ∀ n, Lexer.answer engine (endOf source) n (.start source) =
        ((engine.lexemes source)[n]?.map Lexeme.answer).getD (.ok (endOf source)) := by
  constructor
  · constructor
    · exact fun x member => stands_of_mem_lexemes longest member
    · exact pairwise_place 0 _
    · exact fun i inside free => exists_gap longest inside free
    · exact fun x member feed => eq_newlineAt longest member feed
    · intro before behind split
      rw [(nodup_lexemes longest source).count, if_pos (newlineAt_mem longest split)]
    · exact fun t member => kind_of_mem longest member
  · exact fun n => answer_eq (endOf source) n 0 source.toList

theorem lexemes_tile_line : byRules.LongestMatch ∧
    Tiles "ff 1up.asm: ;\n" [.token ⟨.number, "ff", ⟨0, 2⟩⟩, .token ⟨.word, "1up.asm", ⟨3, 10⟩⟩,
      .stray ":" ⟨10, 11⟩, newlineAt 13] ∧
    Lexer.answer byRules (endOf "ff 1up.asm: ;\n") 4 (.start "ff 1up.asm: ;\n") =
      .ok ⟨.endOfFile, "", ⟨14, 14⟩⟩ := by
  have found : byRules.lexemes "ff 1up.asm: ;\n" = [.token ⟨.number, "ff", ⟨0, 2⟩⟩,
      .token ⟨.word, "1up.asm", ⟨3, 10⟩⟩, .stray ":" ⟨10, 11⟩, newlineAt 13] := by
    decide +kernel
  obtain ⟨tiles, answers⟩ := lexemes_tile longestMatch_byRules "ff 1up.asm: ;\n"
  rw [found] at tiles answers
  exact ⟨longestMatch_byRules, tiles, (answers 4).trans rfl⟩

/-! ### The lexer of the list -/

/-- The lexer of the list cuts its lines one by one, and is one engine among others. -/
theorem lexemes_eq (source : String) : lexemes source = Engine.lexemes firstOfText source := by
  suffices h : ∀ start cs, (linesFrom start cs).flatMap Line.lexemes = lexemesOfText start cs from
    h 0 source.toList
  intro start cs
  induction cs using lineInduction generalizing start with
  | line cs whole =>
    rw [linesFrom_line whole, lexemesOfText_line start whole]
    simp [Line.lexemes, Line.content]
  | below cs rest whole ih =>
    rw [linesFrom_append whole, lexemesOfText_append start whole, List.flatMap_cons, ih]
    simp [Line.lexemes, Line.content, Line.ending, Line.stop]

/-- What the lexer has in place of a lexeme by the rules: the same, or a number in place of a word. -/
def Lexeme.Alike (x y : Lexeme) : Prop :=
  y = x ∨ ∃ text span, x = .token ⟨.word, text, span⟩ ∧ y = .token ⟨.number, text, span⟩

theorem alike_place (start : Nat) (cs : List Char) :
    List.Forall₂ Lexeme.Alike (place start (cover byRules cs)) (place start (cover firstOfText cs)) := by
  fun_induction cover byRules cs generalizing start with
  | case1 =>
    rw [cover_nil]
    exact .nil
  | case2 c cs kind n first ih =>
    rw [cover_cons]
    rcases firstOfText_cases c cs with same | ⟨-, m, rules, lexed⟩
    · rw [same, first, place, place]
      cases kind with
      | skipped => exact ih _
      | token kind => exact .cons (Or.inl rfl) (ih _)
      | stray => exact .cons (Or.inl rfl) (ih _)
    · cases first.symm.trans rules
      rw [lexed, place, place]
      exact .cons (Or.inr ⟨_, _, rfl, rfl⟩) (ih _)

/-- The lexer finds what the rules say, where they say, and takes some words for numbers. -/
theorem alike_lexemes (source : String) :
    List.Forall₂ Lexeme.Alike (byRules.lexemes source) (lexemes source) := by
  rw [lexemes_eq]
  exact alike_place 0 source.toList

/-- Without white space outside ASCII, all that the lexer finds is what the rules say. -/
theorem lexemes_eq_byRules (ascii : ∀ c ∈ source.toList, Text.isBlank c = true → c.toNat < 0x80) :
    lexemes source = byRules.lexemes source := by
  rw [lexemes_eq, Engine.lexemes, Engine.lexemes]
  congr 1
  generalize source.toList = cs at ascii
  fun_induction cover byRules cs with
  | case1 => rw [cover_nil]
  | case2 c cs kind n first ih =>
    have rest := ih fun x member => ascii x (List.mem_cons_of_mem c (List.mem_of_mem_drop member))
    have same : firstOfText c cs = (kind, n) := by
      rcases firstOfText_cases c cs with same | ⟨broken, -⟩
      · rw [same, first]
      · rw [brokenOffLength_of_ascii ascii] at broken
        cases broken
    rw [cover_cons, same, rest]

theorem exists_of_forall₂ {α β : Type} {R : α → β → Prop} {as : List α} {bs : List β} {b : β}
    (related : List.Forall₂ R as bs) (member : b ∈ bs) : ∃ a ∈ as, R a b := by
  induction related with
  | nil => cases member
  | cons first rest ih =>
    rcases List.mem_cons.mp member with rfl | member
    · exact ⟨_, List.mem_cons_self, first⟩
    · obtain ⟨a, inside, here⟩ := ih member
      exact ⟨a, List.mem_cons_of_mem _ inside, here⟩

theorem stands_of_mem (member : x ∈ lexemes source) :
    ∃ (y : Lexeme) (before behind : List Char), y.Stands source.toList before behind ∧ y.Alike x := by
  obtain ⟨y, inside, alike⟩ := exists_of_forall₂ (alike_lexemes source) member
  obtain ⟨before, behind, stands⟩ := stands_of_mem_lexemes longestMatch_byRules inside
  exact ⟨y, before, behind, stands, alike⟩

theorem fits_of_mem {t : Token} (member : .token t ∈ lexemes source) :
    ∃ kind behind, PieceKind.Fits (.token kind) t.text.toList behind ∧
      (kind = t.kind ∨ kind = .word ∧ t.kind = .number) := by
  obtain ⟨y, before, behind, stands, alike⟩ := stands_of_mem member
  rcases alike with rfl | ⟨text, span, rfl, same⟩
  · exact ⟨t.kind, behind, stands.fits, Or.inl rfl⟩
  · cases same
    exact ⟨.word, behind, stands.fits, Or.inr ⟨rfl, rfl⟩⟩

theorem newlineAt_mem_lexemes (split : source.toList = before ++ '\n' :: behind) :
    newlineAt (size before) ∈ lexemes source := by
  have rules := newlineAt_mem longestMatch_byRules split
  obtain ⟨x, member, alike⟩ := exists_of_forall₂ (alike_lexemes source).flip rules
  rcases alike with rfl | ⟨text, span, word, -⟩
  · exact member
  · cases word

end Listing
end RomLinker
