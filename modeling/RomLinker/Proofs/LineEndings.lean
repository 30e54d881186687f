import RomLinker.Proofs.Listing.Spans
import RomLinker.Proofs.Settings.Moving

/-!
Line feeds with a carriage return in front of each. The lines of a text lose their carriage returns
(`lines_withReturns`). In the list such a carriage return is skipped, or the last piece of its line takes it in,
which is no token then (`returned_cover`); so each line gives the same statement, or a fault as before
(`statement?_return`).
-/
namespace RomLinker

namespace Text

/-- A text with a carriage return in front of each line feed. -/
def withReturns (cs : List Char) : List Char := cs.flatMap fun c => if c = '\n' then ['\r', '\n'] else [c]

def crlf (text : String) : String := String.ofList (withReturns text.toList)

theorem withReturns_line {line : List Char} (whole : '\n' ∉ line) : withReturns line = line := by
  induction line with
  | nil => rfl
  | cons c line ih =>
    obtain ⟨other, below⟩ := not_or.mp (List.mem_cons.not.mp whole)
    rw [withReturns, List.flatMap_cons, if_neg (Ne.symm other)]
    exact congrArg (c :: ·) (ih below)

theorem withReturns_append {line : List Char} (whole : '\n' ∉ line) (rest : List Char) :
    withReturns (line ++ '\n' :: rest) = (line ++ ['\r']) ++ '\n' :: withReturns rest := by
  have front := withReturns_line whole
  unfold withReturns at front ⊢
  rw [List.flatMap_append, front, List.append_assoc]
  rfl

/-- Lines lose a carriage return at their end, so that there is no other one. -/
theorem lines_withReturns {cs : List Char} (plain : '\r' ∉ cs) : lines (withReturns cs) = lines cs := by
  induction cs using Listing.lineInduction with
  | line cs whole => rw [withReturns_line whole]
  | below line rest whole ih =>
    obtain ⟨here, below⟩ := not_or.mp (List.mem_append.not.mp plain)
    have inner : ∀ c ∈ line, c ≠ '\n' := fun c member same => whole (same ▸ member)
    have closed : ∀ c ∈ line ++ ['\r'], c ≠ '\n' := by
      intro c member
      rcases List.mem_append.mp member with member | last
      · exact inner c member
      · rw [List.mem_singleton.mp last]
        decide
    have bare : dropReturn line = line := if_neg fun last => here (List.mem_of_getLast? last)
    have cut : dropReturn (line ++ ['\r']) = line := by
      rw [dropReturn, if_pos List.getLast?_concat, List.dropLast_concat]
    rw [withReturns_append whole, lines_append_cons closed, lines_append_cons inner, cut, bare,
      ih (not_or.mp (List.mem_cons.not.mp below)).2]

end Text

namespace Listing
open Text

/-- The pieces of a line, and those of the line with a carriage return at its end. -/
inductive Returned : List (PieceKind × List Char) → List (PieceKind × List Char) → Prop
  | skipped (pieces : List (PieceKind × List Char)) : Returned pieces (pieces ++ [(.skipped, ['\r'])])
  | taken (front : List (PieceKind × List Char)) (kind : PieceKind) (text : List Char)
    (other : ∀ k, kind ≠ .token k) : Returned (front ++ [(kind, text)]) (front ++ [(kind, text ++ ['\r'])])

theorem Returned.cons {pieces others : List (PieceKind × List Char)} (returned : Returned pieces others)
    (p : PieceKind × List Char) : Returned (p :: pieces) (p :: others) := by
  cases returned with
  | skipped pieces => exact .skipped (p :: pieces)
  | taken front kind text other => exact .taken (p :: front) kind text other

theorem quoted?_return (cs : List Char) :
    (∃ found, quoted? cs = some found ∧ quoted? (cs ++ ['\r']) = some found) ∨
      (quoted? cs = none ∧ quoted? (cs ++ ['\r']) = none) := by
  have all : (cs ++ ['\r']).length = cs.length + 1 := List.length_append
  have reach : (cs ++ ['\r']).findIdx (· == '"') = if cs.findIdx (· == '"') < cs.length
      then cs.findIdx (· == '"') else cs.length + 1 := by
    rw [List.findIdx_append, Nat.add_comm cs.length]
    rfl
  unfold quoted?
  rw [reach]
  by_cases inside : cs.findIdx (· == '"') < cs.length
  · have quote := List.findIdx_getElem (w := inside)
    have here : cs[cs.findIdx (· == '"')]? = some '"' := by
      rw [List.getElem?_eq_getElem inside, eq_of_beq quote]
    rw [if_pos inside]
    dsimp only
    rw [List.getElem?_append_left inside, if_pos here]
    exact Or.inl ⟨_, rfl, rfl⟩
  · rw [if_neg inside]
    dsimp only
    rw [List.getElem?_eq_none (Nat.not_lt.mp inside), List.getElem?_eq_none (Nat.le_of_eq all)]
    exact Or.inr ⟨rfl, rfl⟩

/-- The first piece of a line stays as it is, unless it is all of the line and no token. -/
theorem firstPiece_return (c : Char) (cs : List Char) :
    firstPiece c (cs ++ ['\r']) = firstPiece c cs ∨
      ∃ kind : PieceKind, (∀ k, kind ≠ .token k) ∧ firstPiece c cs = (kind, cs.length) ∧
        firstPiece c (cs ++ ['\r']) = (kind, cs.length + 1) := by
  have longer : (cs ++ ['\r']).length = cs.length + 1 := List.length_append
  unfold firstPiece
  by_cases skipped : isSkipped c = true
  · -- blanks go on up to the carriage return, or up to what stopped them before
    simp only [if_pos skipped, List.findIdx_append]
    split
    · exact Or.inl rfl
    · rename_i all
      have bound := @List.findIdx_le_length _ (!isSkipped ·) cs
      have here : cs.findIdx (!isSkipped ·) = cs.length := by omega
      refine Or.inr ⟨.skipped, nofun, by rw [here], ?_⟩
      rw [Nat.add_comm]
      rfl
  · by_cases comment : c = ';'
    · simp only [if_neg skipped, if_pos comment, longer]
      exact Or.inr ⟨.skipped, nofun, rfl, rfl⟩
    · simp only [if_neg skipped, if_neg comment]
      by_cases quote : c = '"'
      · subst quote
        have rule (xs : List Char) : longest '"' xs = quoted? xs := rfl
        rw [rule, rule]
        rcases quoted?_return cs with ⟨found, here, there⟩ | ⟨here, there⟩
        · rw [here, there]
          exact Or.inl rfl
        · rw [here, there]
          exact Or.inr ⟨.stray, nofun, rfl, by rw [← longer]; rfl⟩
      · have halts : Halts ['\r'] := fun x first => Or.inr (Option.some.inj first).symm
        rw [longest_append halts quote]
        left
        cases longest c cs with
        | none => simp only [if_neg quote]
        | some found => rfl

theorem returned_cover (cs : List Char) : Returned (cover firstPiece cs) (cover firstPiece (cs ++ ['\r'])) := by
  fun_induction cover firstPiece cs with
  | case1 =>
    have alone : cover firstPiece ['\r'] = [(.skipped, ['\r'])] := by decide +kernel
    rw [List.nil_append, alone]
    exact .skipped []
  | case2 c cs kind n first ih =>
    rw [List.cons_append, cover_cons]
    rcases firstPiece_return c cs with same | ⟨kind', other, here, longer⟩
    · have reach := firstPiece_le c cs
      rw [first] at reach same
      rw [same, List.take_append_of_le_length reach, List.drop_append_of_le_length reach]
      exact ih.cons _
    · cases first.symm.trans here
      have all : (cs ++ ['\r']).length = cs.length + 1 := List.length_append
      rw [longer, ← all, List.take_length, List.drop_length, List.take_length, List.drop_length, cover_nil]
      exact .taken [] kind (c :: cs) other

/-- Both have the same lexemes, or end with something stray. -/
theorem Returned.place {pieces others : List (PieceKind × List Char)} (returned : Returned pieces others)
    (start : Nat) : place start others = place start pieces ∨
      ∃ front text text' span span', place start pieces = front ++ [.stray text span] ∧
        place start others = front ++ [.stray text' span'] := by
  cases returned with
  | skipped pieces =>
    left
    rw [place_append]
    exact List.append_nil _
  | taken front kind text other =>
    rw [place_append, place_append]
    cases kind with
    | skipped => exact Or.inl rfl
    | token kind => exact absurd rfl (other kind)
    | stray => exact Or.inr ⟨_, _, _, _, _, rfl, rfl⟩

/-! ### Lines -/

theorem tokens_return (start : Nat) (cs : List Char) (closed : Bool) (ts : List Token) :
    (Line.mk start (cs ++ ['\r']) closed).content = ts.map .token ↔
      (Line.mk start cs closed).content = ts.map .token := by
  have stray {front : List Lexeme} {text : String} {span : Span} :
      front ++ [.stray text span] ≠ ts.map Lexeme.token := by
    intro same
    have member : .stray text span ∈ ts.map Lexeme.token := by
      rw [← same]
      exact List.mem_append_right _ List.mem_cons_self
    obtain ⟨t, -, other⟩ := List.mem_map.mp member
    cases other
  simp only [Line.content, lexemesFrom_eq]
  rcases (returned_cover cs).place start with same | ⟨front, _, _, _, _, here, there⟩
  · rw [same]
  · rw [here, there]
    exact ⟨fun same => absurd same stray, fun same => absurd same stray⟩

/-- A line says the same with a carriage return at its end, unless it says nothing that can be understood. -/
theorem statement?_return (start : Nat) (cs : List Char) (closed : Bool) (said : Option Statement) :
    (Line.mk start (cs ++ ['\r']) closed).statement? = .ok said ↔
      (Line.mk start cs closed).statement? = .ok said := by
  cases said with
  | none =>
    rw [statement?_eq_none, statement?_eq_none]
    exact tokens_return start cs closed []
  | some s =>
    rw [statement?_eq_some, statement?_eq_some]
    exact exists_congr fun ts => and_congr_left fun _ => tokens_return start cs closed ts

theorem parsed_return (start : Nat) (cs : List Char) (closed : Bool) :
    let l : Line := ⟨start, cs, closed⟩
    let m : Line := ⟨start, cs ++ ['\r'], closed⟩
    m.parsed.statements = l.parsed.statements ∧ m.parsed.faults.length = l.parsed.faults.length := by
  intro l m
  have same := statement?_return start cs closed
  unfold Line.parsed
  cases here : l.statement? with
  | ok said =>
    rw [(same said).mpr here]
    exact ⟨rfl, rfl⟩
  | error e =>
    cases there : m.statement? with
    | ok said =>
      rw [(same said).mp there] at here
      cases here
    | error e' => exact ⟨rfl, rfl⟩

/-- The line of a text that a byte is in: how many line feeds there are in front of it. -/
def lineAt : List Char → Nat → Nat
  | [], _ => 0
  | c :: cs, i => if i < c.utf8Size then 0 else (if c = '\n' then 1 else 0) + lineAt cs (i - c.utf8Size)

theorem size_cons (c : Char) (cs : List Char) : size (c :: cs) = c.utf8Size + size cs := by
  have one : size [c] = c.utf8Size := String.utf8ByteSize_singleton
  rw [← one, ← size_append]
  rfl

theorem lineAt_inside {line : List Char} (whole : '\n' ∉ line) (rest : List Char) {i : Nat}
    (inside : i ≤ size line) : lineAt (line ++ rest) i = 0 := by
  induction line generalizing i with
  | nil =>
    obtain rfl : i = 0 := Nat.le_zero.mp inside
    cases rest with
    | nil => rfl
    | cons c rest => exact if_pos (Char.utf8Size_pos c)
  | cons c line ih =>
    obtain ⟨other, below⟩ := not_or.mp (List.mem_cons.not.mp whole)
    rw [size_cons] at inside
    rw [List.cons_append, lineAt, if_neg (Ne.symm other)]
    split
    · rfl
    · rw [ih below (by omega)]

theorem lineAt_below {line : List Char} (whole : '\n' ∉ line) (rest : List Char) (i : Nat) :
    lineAt (line ++ '\n' :: rest) (size line + 1 + i) = 1 + lineAt rest i := by
  induction line with
  | nil =>
    have feed : '\n'.utf8Size = 1 := rfl
    have none : size [] = 0 := rfl
    rw [List.nil_append, lineAt, if_neg (by omega), if_pos rfl]
    congr 2
    omega
  | cons c line ih =>
    obtain ⟨other, below⟩ := not_or.mp (List.mem_cons.not.mp whole)
    have past : c.utf8Size + size line + 1 + i - c.utf8Size = size line + 1 + i := by omega
    rw [size_cons, List.cons_append, lineAt, if_neg (by omega), if_neg (Ne.symm other), past, ih below]
    omega

theorem lines_of_faults (l : Line) (whole : '\n' ∉ l.text) (rest : List Char) :
    l.parsed.faults.map (fun e => lineAt (l.text ++ rest) (e.span.start - l.start)) =
      List.replicate l.parsed.faults.length 0 := by
  rw [List.eq_replicate_iff, List.length_map]
  refine ⟨rfl, fun n member => ?_⟩
  obtain ⟨e, fault, rfl⟩ := List.mem_map.mp member
  have alone : e ∈ (collect [l]).faults := List.mem_append_left _ fault
  obtain ⟨m, same, failed⟩ := mem_faults_collect.mp alone
  obtain rfl := List.mem_singleton.mp same
  have stop : m.stop = m.start + size m.text := rfl
  have bounds := start_of_mem_faults failed
  exact lineAt_inside whole rest (by omega)

def faultLines (start : Nat) (cs : List Char) : List Nat :=
  (collect (linesFrom start cs)).faults.map fun e => lineAt cs (e.span.start - start)

theorem faultLines_line {line : List Char} (whole : '\n' ∉ line) (start : Nat) :
    faultLines start line = List.replicate (Line.mk start line false).parsed.faults.length 0 := by
  have one := lines_of_faults ⟨start, line, false⟩ whole []
  rw [List.append_nil] at one
  rw [faultLines, linesFrom_line whole, collect_cons, ← one]
  exact congrArg (List.map _) (List.append_nil _)

theorem faultLines_append {line : List Char} (whole : '\n' ∉ line) (start : Nat) (rest : List Char) :
    faultLines start (line ++ '\n' :: rest) =
      List.replicate (Line.mk start line true).parsed.faults.length 0 ++
        (faultLines (start + size line + 1) rest).map (1 + ·) := by
  have one := lines_of_faults ⟨start, line, true⟩ whole ('\n' :: rest)
  rw [faultLines, linesFrom_append whole, collect_cons, ← one, faultLines, List.map_map]
  refine (List.map_append ..).trans (congrArg _ (List.map_congr_left fun e below => ?_))
  obtain ⟨l, member, failed⟩ := mem_faults_collect.mp below
  have first := le_start_of_mem member
  have bounds := start_of_mem_faults failed
  have place : e.span.start - start = size line + 1 + (e.span.start - (start + size line + 1)) := by omega
  rw [place]
  exact lineAt_below whole rest _

theorem parsed_moved (start other : Nat) (cs : List Char) (closed : Bool) :
    let l : Line := ⟨start, cs, closed⟩
    let m : Line := ⟨other, cs, closed⟩
    m.parsed.statements.map (Statement.settled none) = l.parsed.statements.map (Statement.settled none) ∧
      m.parsed.faults.length = l.parsed.faults.length := by
  have base (k : Nat) : (Line.mk k cs closed).parsed = (Line.mk 0 cs closed).parsed.shift k := by
    rw [← parsed_shift, Line.shift, Nat.zero_add]
  have same (k : Nat) (xs : List Statement) :
      (xs.map (Statement.shift k)).map (Statement.settled none) = xs.map (Statement.settled none) := by
    rw [List.map_map]
    exact List.map_congr_left fun s _ => settled_shift k s
  dsimp only
  rw [base start, base other]
  simp only [Parsed.shift, same, List.length_map, true_and]

/-- Line by line a list says the same, and has a fault on the same lines. -/
theorem collect_withReturns (cs : List Char) (start other : Nat) :
    (collect (linesFrom other (withReturns cs))).statements.map (Statement.settled none) =
        (collect (linesFrom start cs)).statements.map (Statement.settled none) ∧
      faultLines other (withReturns cs) = faultLines start cs := by
  induction cs using lineInduction generalizing start other with
  | line cs whole =>
    obtain ⟨statements, faults⟩ := parsed_moved start other cs false
    rw [withReturns_line whole]
    constructor
    · rw [linesFrom_line whole, linesFrom_line whole]
      simpa [collect, Parsed.append, Parsed.empty] using statements
    · rw [faultLines_line whole, faultLines_line whole, faults]
  | below line rest whole ih =>
    obtain ⟨moved, counted⟩ := parsed_moved start other line true
    obtain ⟨statements, faults⟩ := parsed_return other line true
    have closed : '\n' ∉ line ++ ['\r'] := by simpa using whole
    obtain ⟨below, lines⟩ := ih (start + size line + 1) (other + size (line ++ ['\r']) + 1)
    rw [withReturns_append whole]
    constructor
    · rw [linesFrom_append closed, linesFrom_append whole, collect_cons, collect_cons]
      simp only [Parsed.append, List.map_append, below, statements, moved]
    · rw [faultLines_append closed, faultLines_append whole, faults, counted, lines]

end Listing

open Listing in
/-- Line endings do not matter. With a carriage return in front of each line feed a list has the same
statements but for their spans, and as many faults, each on the same line; and the directives of a text
without carriage returns are the same, or have the same fault. -/
theorem line_endings (source : String) :
    said (Text.crlf source) = said source ∧
    (Listing.parse (Text.crlf source)).faults.map (fun e => lineAt (Text.crlf source).toList e.span.start) =
      (Listing.parse source).faults.map (fun e => lineAt source.toList e.span.start) ∧
    ('\r' ∉ source.toList → Directives.parse (Text.crlf source) = Directives.parse source) := by
  have chars : (Text.crlf source).toList = Text.withReturns source.toList := String.toList_ofList
  obtain ⟨statements, faults⟩ := collect_withReturns source.toList 0 0
  refine ⟨?_, ?_, fun plain => ?_⟩
  · rw [said, said, parse_eq_collect, parse_eq_collect, chars]
    exact statements
  · rw [parse_eq_collect, parse_eq_collect, chars]
    exact faults
  · rw [Directives.parse, Directives.parse, chars, Text.lines_withReturns plain]

open Listing in
/-- A carriage return behind a quote that nothing closes, and one behind a directive. -/
theorem line_endings_open_quote :
    let source := "level:\n5 \"a\n;>bytes 2\n"
    '\r' ∉ source.toList ∧ said (Text.crlf source) = said source ∧
      (Listing.parse (Text.crlf source)).faults.map (fun e => lineAt (Text.crlf source).toList e.span.start) = [1] ∧
      Directives.parse (Text.crlf source) = Directives.parse source := by
  intro source
  have plain : '\r' ∉ source.toList := by decide
  have one : (Listing.parse source).faults.map (fun e => lineAt source.toList e.span.start) = [1] := by
    decide +kernel
  obtain ⟨statements, faults, directives⟩ := line_endings source
  exact ⟨plain, statements, faults.trans one, directives plain⟩

end RomLinker
