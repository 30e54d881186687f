import RomLinker.Proofs.Listing.Cutting
import RomLinker.Proofs.Listing.Reader

/-!
Recovery after a fault. The reader finds what `parse` finds line by line (`readText_eq_parse`),
since every way out of a line, with a statement or with a fault, leaves it in front of the next one
(`agrees_statement`).
-/
namespace RomLinker.Listing

section
variable {α β γ δ : Type} {eof stop : Token} {line behind tail : List Lexeme}

/-- What follows the lexemes of a line: the line feed and the list below, or nothing. -/
inductive Closes (eof : Token) : Token → List Lexeme → List Lexeme → Prop
  | line (stop : Token) (tail : List Lexeme) (feed : stop.kind = .newline) :
    Closes eof stop (.token stop :: tail) tail
  | source (last : eof.kind = .endOfFile) : Closes eof eof [] []

def OneLine (line : List Lexeme) : Prop := ∀ t, .token t ∈ line → t.kind.endsLine = false

structure Inside (behind line : List Lexeme) (r : Reader) : Prop where
  rest : r.rest = line ++ behind
  last : r.last?.any TokenKind.endsLine = false
  whole : OneLine line

structure Past (tail : List Lexeme) (r : Reader) : Prop where
  rest : r.rest = tail
  last : r.last?.any TokenKind.endsLine = true

theorem Closes.endsLine (closes : Closes eof stop behind tail) : stop.kind.endsLine = true := by
  cases closes with
  | line _ _ feed => rw [feed]; rfl
  | source last => rw [last]; rfl

theorem endsLine_iff {kind : TokenKind} :
    kind.endsLine = true ↔ kind = .newline ∨ kind = .endOfFile := by
  simp [TokenKind.endsLine]

theorem namesFile_of_endsLine {kind : TokenKind} (ends : kind.endsLine = true) :
    kind.namesFile = false ∧ kind ≠ .number := by
  rcases endsLine_iff.mp ends with rfl | rfl <;> exact ⟨rfl, nofun⟩

theorem OneLine.behind_first {x : Lexeme} (whole : OneLine (x :: line)) : OneLine line :=
  fun t member => whole t (List.mem_cons_of_mem x member)

theorem dropLine_append (closes : Closes eof stop behind tail) (whole : OneLine line) :
    dropLine (line ++ behind) = tail := by
  induction line with
  | nil =>
    cases closes with
    | source => rfl
    | line _ _ feed => exact if_pos feed
  | cons x line ih =>
    cases x with
    | stray text span => exact ih whole.behind_first
    | token t =>
      have other : t.kind ≠ .newline := by
        intro same
        have inner := whole t List.mem_cons_self
        rw [same] at inner
        cases inner
      rw [List.cons_append, dropLine, if_neg other, ih whole.behind_first]

theorem Past.recover {r : Reader} (past : Past tail r) : r.recover.rest = tail := by
  rw [Reader.recover, if_pos past.last, past.rest]

theorem Inside.recover {r : Reader} (closes : Closes eof stop behind tail)
    (inside : Inside behind line r) : r.recover.rest = tail := by
  have open' : ¬ r.last?.any TokenKind.endsLine = true := by
    rw [inside.last]
    decide
  rw [Reader.recover, if_neg open', inside.rest]
  exact dropLine_append closes inside.whole

/-- What a step inside a line and an action of the reader come to together. If both fail, it is with
the same fault, and the reader goes on with what is below the line. -/
def Meets (tail : List Lexeme) (after : α → β → Reader → Prop) :
    Checked α → EStateM.Result (Flagged Fault) Reader β → Prop
  | .ok a, .ok b r => after a b r
  | .error e, .error e' r => e' = e ∧ r.recover.rest = tail
  | _, _ => False

theorem Meets.outcome {after : α → Reader → Prop} {step : Checked α}
    {result : EStateM.Result (Flagged Fault) Reader α}
    (meets : Meets tail (fun a b r => b = a ∧ after a r) step result) :
    (∃ a r, step = .ok a ∧ result = .ok a r ∧ after a r) ∨
      ∃ e r, step = .error e ∧ result = .error e r ∧ r.recover.rest = tail := by
  cases step with
  | error e =>
    cases result with
    | error e' r =>
      obtain ⟨rfl, left⟩ := meets
      exact Or.inr ⟨e', r, rfl, rfl, left⟩
    | ok b r => exact meets.elim
  | ok a =>
    cases result with
    | error e' r => exact meets.elim
    | ok b r =>
      obtain ⟨rfl, holds⟩ := meets
      exact Or.inl ⟨b, r, rfl, rfl, holds⟩

/-- An action does the same in some readers as a step inside the line. -/
structure Agrees (tail : List Lexeme) (before : Reader → Prop) (step : Checked α) (action : Reads β)
    (after : α → β → Reader → Prop) : Prop where
  run : ∀ r, before r → Meets tail after step (action r)

namespace Agrees
variable {before : Reader → Prop} {middle : α → β → Reader → Prop} {last : γ → δ → Reader → Prop}
  {step : Checked α} {action : Reads β}

theorem bind {f : α → Checked γ} {g : β → Reads δ} (first : Agrees tail before step action middle)
    (rest : ∀ a b, Agrees tail (middle a b) (f a) (g b) last) :
    Agrees tail before (step >>= f) (action >>= g) last := by
  refine ⟨fun r holds => ?_⟩
  have reached := first.run r holds
  change Meets tail last (Except.bind step f) (EStateM.bind action g r)
  unfold EStateM.bind
  cases stepped : step with
  | error e =>
    cases acted : action r with
    | error e' t =>
      rw [stepped, acted] at reached
      exact reached
    | ok b t =>
      rw [stepped, acted] at reached
      exact reached.elim
  | ok a =>
    cases acted : action r with
    | error e' t =>
      rw [stepped, acted] at reached
      exact reached.elim
    | ok b t =>
      rw [stepped, acted] at reached
      exact (rest a b).run t reached

theorem pure {a : α} {b : β} (holds : ∀ r, before r → middle a b r) :
    Agrees tail before (Pure.pure a) (Pure.pure b) middle := ⟨holds⟩

theorem throw (e : Flagged Fault) (settled : ∀ r, before r → r.recover.rest = tail) :
    Agrees tail before (MonadExcept.throw e : Checked α) (MonadExcept.throw e : Reads β) middle :=
  ⟨fun r holds => ⟨rfl, settled r holds⟩⟩

theorem given {fact : Prop} (agrees : fact → Agrees tail before step action middle) :
    Agrees tail (fun r => fact ∧ before r) step action middle :=
  ⟨fun r ⟨fact, holds⟩ => (agrees fact).run r holds⟩

/-- The common case, where the action comes to a part of what the step does. -/
theorem bind_eq {h : α → β} {reached : α → Reader → Prop} {f : α → Checked γ} {g : β → Reads δ}
    (first : Agrees tail before step action fun a b r => b = h a ∧ reached a r)
    (rest : ∀ a, Agrees tail (reached a) (f a) (g (h a)) last) :
    Agrees tail before (step >>= f) (action >>= g) last := by
  apply first.bind
  intro a b
  apply Agrees.given
  rintro rfl
  exact rest a

theorem or {before' : Reader → Prop} (left : Agrees tail before step action middle)
    (right : Agrees tail before' step action middle) :
    Agrees tail (fun r => before r ∨ before' r) step action middle :=
  ⟨fun r holds => holds.elim (left.run r) (right.run r)⟩

theorem check (step : Checked α) (settled : ∀ r, before r → r.recover.rest = tail) :
    Agrees tail before step (Reader.check step) fun a b r => b = a ∧ before r := by
  refine ⟨fun r holds => ?_⟩
  cases step with
  | error e => exact ⟨rfl, settled r holds⟩
  | ok a => exact ⟨rfl, holds⟩

end Agrees

theorem agrees_next (closes : Closes eof stop behind tail) :
    Agrees tail (Inside behind line) (next stop line) (Reader.token eof) fun found t r =>
      t = found.1 ∧ ((found.1.kind.endsLine = false ∧ Inside behind found.2 r) ∨
        (found.1 = stop ∧ Past tail r)) := by
  refine ⟨fun r inside => ?_⟩
  obtain ⟨rest, last?⟩ := r
  obtain ⟨rfl, last, whole⟩ := inside
  cases line with
  | nil =>
    cases closes with
    | line stop tail feed =>
      have ends : (some stop.kind).any TokenKind.endsLine = true := by rw [feed]; rfl
      exact ⟨rfl, Or.inr ⟨rfl, rfl, ends⟩⟩
    | source file =>
      have ends : (some eof.kind).any TokenKind.endsLine = true := by rw [file]; rfl
      exact ⟨rfl, Or.inr ⟨rfl, rfl, ends⟩⟩
  | cons x line =>
    cases x with
    | stray text span => exact ⟨rfl, Inside.recover closes ⟨rfl, rfl, whole.behind_first⟩⟩
    | token t =>
      have inner := whole t List.mem_cons_self
      exact ⟨rfl, Or.inl ⟨inner, rfl, inner, whole.behind_first⟩⟩

theorem agrees_kind (wanted : TokenKind → Bool) {fault : TokenKind → Fault}
    {a : α} {b : β} {t : Token} {before : Reader → Prop} {after : α → β → Reader → Prop}
    (settled : ∀ r, before r → r.recover.rest = tail)
    (passes : wanted t.kind = true → ∀ r, before r → after a b r) :
    Agrees tail before (if wanted t.kind then pure a else throw ⟨fault t.kind, t.span⟩)
      (if wanted t.kind then pure b else throw ⟨fault t.kind, t.span⟩) after := by
  by_cases good : wanted t.kind = true
  · rw [if_pos good, if_pos good]
    exact Agrees.pure (passes good)
  · rw [if_neg good, if_neg good]
    exact Agrees.throw _ settled

theorem agrees_path (what : Needed) (closes : Closes eof stop behind tail) :
    Agrees tail (Inside behind line) (nextPath what stop line) (Reader.pathToken what eof)
      fun found t r => t = found.1 ∧ Inside behind found.2 r := by
  refine (agrees_next closes).bind_eq fun found => ?_
  apply Agrees.or
  · apply Agrees.given
    intro inner
    exact agrees_kind TokenKind.namesFile (fun _ inside => inside.recover closes)
      fun _ _ inside => ⟨rfl, inside⟩
  · apply Agrees.given
    intro last
    have other := (namesFile_of_endsLine closes.endsLine).1
    refine agrees_kind TokenKind.namesFile (fun _ past => past.recover) ?_
    intro names
    rw [last, other] at names
    cases names

theorem agrees_end (closes : Closes eof stop behind tail) :
    Agrees tail (Inside behind line) (expectEnd stop line) (Reader.lineEnd eof)
      fun _ _ r => Past tail r := by
  refine (agrees_next closes).bind_eq fun found => ?_
  simp only [← endsLine_iff]
  apply Agrees.or
  · apply Agrees.given
    intro inner
    refine agrees_kind TokenKind.endsLine (fun _ inside => inside.recover closes) ?_
    intro ends
    rw [inner] at ends
    cases ends
  · apply Agrees.given
    intro _
    exact agrees_kind TokenKind.endsLine (fun _ past => past.recover) fun _ _ past => past

theorem agrees_finish (closes : Closes eof stop behind tail) (s : Statement) :
    Agrees tail (Inside behind line) (expectEnd stop line >>= fun _ => pure s)
      (Reader.lineEnd eof >>= fun _ => pure s) fun s s' r => s' = s ∧ Past tail r := by
  apply (agrees_end closes).bind
  intro _ _
  exact Agrees.pure fun _ past => ⟨rfl, past⟩

theorem agrees_itemsFrom (closes : Closes eof stop behind tail) (whole : OneLine line)
    (done : List Item) :
    Meets tail (fun found found' r => found' = found ∧ Past tail r) (items done line)
      (Reader.itemsFrom eof done (line ++ behind)) := by
  induction line generalizing done with
  | nil =>
    cases closes with
    | line stop tail feed =>
      have ends : stop.kind.endsLine = true := by rw [feed]; rfl
      rw [List.nil_append, Reader.itemsFrom_end tail ends]
      exact ⟨rfl, rfl, ends⟩
    | source last =>
      have ends : eof.kind.endsLine = true := by rw [last]; rfl
      exact ⟨rfl, rfl, ends⟩
  | cons x line ih =>
    have below := whole.behind_first
    cases x with
    | stray text span => exact ⟨rfl, Inside.recover closes ⟨rfl, rfl, below⟩⟩
    | token t =>
      have inner := whole t List.mem_cons_self
      have settled : (Reader.mk (line ++ behind) (some t.kind)).recover.rest = tail :=
        Inside.recover closes ⟨rfl, inner, below⟩
      rw [List.cons_append]
      by_cases byte : t.IsByte done
      · obtain ⟨number, some⟩ := byte
        obtain ⟨item, before, rfl⟩ := List.exists_cons_of_ne_nil some
        rw [items_byte line number, Reader.itemsFrom_byte _ number]
        cases t.byte with
        | error e => exact ⟨rfl, settled⟩
        | ok byte => exact ih below _
      · rw [items_file line byte, Reader.itemsFrom_file _ inner byte]
        by_cases file : t.kind.namesFile = true
        · rw [if_pos file, if_pos file]
          exact ih below _
        · rw [if_neg file, if_neg file]
          exact ⟨rfl, settled⟩

theorem agrees_slotLine (closes : Closes eof stop behind tail) (slot : SlotKey) (first : Token) :
    Agrees tail (Inside behind line) (slotLine slot first line) (Reader.slotLine slot first eof)
      fun s s' r => s' = s ∧ Past tail r := by
  have found : Agrees tail (Inside behind line) (items [] line) (Reader.items eof)
      fun found found' r => found' = found ∧ Past tail r := by
    refine ⟨fun r inside => ?_⟩
    unfold Reader.items
    rw [inside.rest]
    exact agrees_itemsFrom closes inside.whole []
  refine found.bind_eq fun items => ?_
  cases items.getLast? with
  | none => exact Agrees.throw _ fun _ past => past.recover
  | some last => exact Agrees.pure fun _ past => ⟨rfl, past⟩

/-- Every way out of a statement leaves the reader in front of the next line. -/
theorem agrees_statement (closes : Closes eof stop behind tail) (first : Token) :
    Agrees tail (Inside behind line) (statement first line stop) (Reader.statement first eof)
      fun s s' r => s' = s ∧ Past tail r := by
  have settled (line : List Lexeme) : ∀ r, Inside behind line r → r.recover.rest = tail :=
    fun _ inside => inside.recover closes
  cases kind : first.kind with
  | verbose =>
    rw [statement_verbose _ _ kind, Reader.statement, kind]
    refine (agrees_path .onOrOff closes).bind_eq fun found => ?_
    refine (Agrees.check found.1.onOrOff (settled _)).bind_eq fun on => ?_
    exact agrees_finish closes _
  | rom =>
    rw [statement, Reader.statement, kind]
    exact (agrees_path .romFileName closes).bind_eq fun found => agrees_finish closes _
  | file role =>
    rw [statement, Reader.statement, kind]
    exact (agrees_path .fileName closes).bind_eq fun found => agrees_finish closes _
  | freeram =>
    rw [statement_freeram _ _ kind, Reader.statement, kind]
    refine (agrees_next closes).bind_eq fun found => ?_
    apply Agrees.or
    · apply Agrees.given
      intro _
      refine (Agrees.check found.1.ramAddress (settled _)).bind_eq fun address => ?_
      exact agrees_finish closes _
    · -- the line is over, and what ends it is no address to either of the two
      apply Agrees.given
      intro last
      obtain ⟨t, rest⟩ := found
      obtain rfl : t = stop := last
      have failed : t.ramAddress = .error ⟨.needed .ramAddress t.kind, t.span⟩ :=
        if_neg (namesFile_of_endsLine closes.endsLine).2
      dsimp only
      rw [failed]
      exact ⟨fun _ past => ⟨rfl, past.recover⟩⟩
  | context kind' =>
    rw [statement, Reader.statement, kind]
    exact agrees_finish closes _
  | star =>
    rw [statement, Reader.statement, kind]
    exact agrees_slotLine closes _ _
  | number =>
    rw [statement, Reader.statement, kind]
    exact (Agrees.check first.hex (settled _)).bind_eq fun index => agrees_slotLine closes _ _
  | newline | word | quoted | endOfFile =>
    rw [statement, Reader.statement, kind]
    exact Agrees.throw _ (settled _)

/-! ### Lines of a list -/

/-- A line adds what `Line.parsed` says, and the reader goes on below it. -/
theorem readFrom_line {l : Line} (closes : Closes eof l.ending behind tail)
    (whole : OneLine l.content) :
    Reader.readFrom eof (l.content ++ behind) = l.parsed.append (Reader.readFrom eof tail) := by
  unfold Line.parsed Line.statement?
  cases read : l.content with
  | nil =>
    rw [List.nil_append, Parsed.empty_append]
    cases closes with
    | line _ _ feed => rw [Reader.readFrom, if_pos feed]
    | source => rfl
  | cons x rest =>
    rw [read] at whole
    have below := whole.behind_first
    cases x with
    | stray text span =>
      have settled : (Reader.mk (rest ++ behind) none).recover.rest = tail :=
        Inside.recover closes ⟨rfl, rfl, below⟩
      rw [List.cons_append, Reader.readFrom, settled]
    | token first =>
      have inner := whole first List.mem_cons_self
      have feed : first.kind ≠ .newline := by
        intro same
        rw [same] at inner
        cases inner
      have file : first.kind ≠ .endOfFile := by
        intro same
        rw [same] at inner
        cases inner
      have meets := (agrees_statement closes first).run ⟨rest ++ behind, some first.kind⟩
        ⟨rfl, inner, below⟩
      rw [List.cons_append, Reader.readFrom, if_neg feed, if_neg file]
      dsimp only
      rcases meets.outcome with ⟨s, r, step, acted, past⟩ | ⟨e, r, step, acted, left⟩
      · rw [step, acted]
        dsimp only
        rw [past.rest]
        rfl
      · rw [step, acted]
        dsimp only
        rw [left]
        rfl

theorem oneLine_content (l : Line) : OneLine l.content := by
  intro t member
  obtain ⟨feed, file⟩ := (formed_of_mem_content member).inside
  cases ends : t.kind.endsLine with
  | false => rfl
  | true => exact ((endsLine_iff.mp ends).elim feed file).elim

theorem readFrom_lexemesOfText (start : Nat) (cs : List Char) :
    Reader.readFrom ⟨.endOfFile, "", .point (start + size cs)⟩ (lexemesOfText start cs) =
      collect (linesFrom start cs) := by
  induction cs using lineInduction generalizing start with
  | line cs whole =>
    have read := readFrom_line (l := ⟨start, cs, false⟩) (.source rfl) (oneLine_content _)
    rw [List.append_nil, Reader.readFrom] at read
    rw [lexemesOfText_line start whole, linesFrom_line whole]
    exact read
  | below cs rest whole ih =>
    have feed : size ('\n' :: rest) = 1 + size rest := size_append ['\n'] rest
    have last : start + size (cs ++ '\n' :: rest) = start + size cs + 1 + size rest := by
      rw [size_append, feed]
      omega
    have closes : Closes ⟨.endOfFile, "", .point (start + size cs + 1 + size rest)⟩
        (Line.ending ⟨start, cs, true⟩) _ (lexemesOfText (start + size cs + 1) rest) :=
      .line _ _ rfl
    have read := readFrom_line closes (oneLine_content _)
    rw [lexemesOfText_append start whole, linesFrom_append whole, last, collect_cons, ← ih]
    exact read

def readText (source : String) : Parsed :=
  Reader.readFrom (endOf source) (lexemesOfText 0 source.toList)

theorem readText_eq_parse (source : String) : readText source = parse source := by
  have read := readFrom_lexemesOfText 0 source.toList
  rw [Nat.zero_add, size_toList, ← parse_eq_collect] at read
  exact read

end

end RomLinker.Listing
