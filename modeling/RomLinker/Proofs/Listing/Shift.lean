import RomLinker.Proofs.Listing.Lines

/-!
A line means the same wherever it stands. Further down in a list it gives the same statement or the
same fault with the spans moved (`parsed_shift`), so that a list below another one adds what it says
by itself (`parse_append`).
-/
namespace RomLinker

def Span.shift (k : Nat) (s : Span) : Span := ⟨s.start + k, s.stop + k⟩

theorem Span.join_shift (k : Nat) (a b : Span) : (a.shift k).join (b.shift k) = (a.join b).shift k := by
  simp [Span.join, Span.shift, Nat.add_min_add_right, Nat.add_max_add_right]

namespace Listing

def Token.shift (k : Nat) (t : Token) : Token := { t with span := t.span.shift k }

def Lexeme.shift (k : Nat) : Lexeme → Lexeme
  | .token t => .token (t.shift k)
  | .stray text span => .stray text (span.shift k)

def Line.shift (k : Nat) (l : Line) : Line := { l with start := l.start + k }

def Item.shift (k : Nat) (item : Item) : Item := { item with span := item.span.shift k }

def Statement.shift (k : Nat) : Statement → Statement
  | .verbose on span => .verbose on (span.shift k)
  | .rom path span => .rom path (span.shift k)
  | .file role path span => .file role path (span.shift k)
  | .freeram address span => .freeram address (span.shift k)
  | .header context span => .header context (span.shift k)
  | .slot key slotSpan items span =>
    .slot key (slotSpan.shift k) (items.map (Item.shift k)) (span.shift k)

/-- A fault keeps its text. -/
def Flagged.shift {φ : Type} (k : Nat) (e : Flagged φ) : Flagged φ := { e with span := e.span.shift k }

def Parsed.shift (k : Nat) (p : Parsed) : Parsed :=
  ⟨p.statements.map (Statement.shift k), p.faults.map (Flagged.shift k)⟩

def Checked.shift {α β : Type} (k : Nat) (move : α → β) : Checked α → Checked β
  | .ok a => .ok (move a)
  | .error e => .error (e.shift k)

section
variable {α β γ δ : Type} (k : Nat)

theorem shift_bind {move : α → β} {move' : γ → δ} {step : Checked α} {f : α → Checked γ}
    {g : β → Checked δ} (rest : ∀ a, g (move a) = (f a).shift k move') :
    step.shift k move >>= g = Checked.shift k move' (step >>= f) := by
  cases step with
  | error e => rfl
  | ok a => exact rest a

def shiftRead (found : Token × List Lexeme) : Token × List Lexeme :=
  (found.1.shift k, found.2.map (Lexeme.shift k))

theorem next_shift (stop : Token) (line : List Lexeme) :
    next (stop.shift k) (line.map (Lexeme.shift k)) = (next stop line).shift k (shiftRead k) := by
  cases line with
  | nil => rfl
  | cons x line => cases x <;> rfl

theorem nextPath_shift (what : Needed) (stop : Token) (line : List Lexeme) :
    nextPath what (stop.shift k) (line.map (Lexeme.shift k)) =
      (nextPath what stop line).shift k (shiftRead k) := by
  unfold nextPath
  rw [next_shift]
  apply shift_bind
  rintro ⟨t, rest⟩
  change (if t.kind.namesFile then _ else _) = Checked.shift k _ (ite _ _ _)
  split <;> rfl

theorem expectEnd_shift (stop : Token) (line : List Lexeme) :
    expectEnd (stop.shift k) (line.map (Lexeme.shift k)) = (expectEnd stop line).shift k id := by
  unfold expectEnd
  rw [next_shift]
  apply shift_bind
  rintro ⟨t, rest⟩
  change (if t.kind = .newline ∨ t.kind = .endOfFile then _ else _) = Checked.shift k _ (ite _ _ _)
  split <;> rfl

theorem hex_shift (t : Token) : (t.shift k).hex = t.hex.shift k id := by
  have digits : (t.shift k).digits = t.digits := rfl
  rw [hex_eq, hex_eq, digits]
  cases Text.word? t.digits <;> rfl

theorem byte_shift (t : Token) : (t.shift k).byte = t.byte.shift k id := by
  unfold Token.byte
  rw [hex_shift]
  apply shift_bind
  intro value
  change (if value > 0xFF then _ else _) = Checked.shift k _ (ite _ _ _)
  split <;> rfl

theorem onOrOff_shift (t : Token) : (t.shift k).onOrOff = t.onOrOff.shift k id := by
  unfold Token.onOrOff
  change (if t.text = "on" then _ else if t.text = "off" then _ else _) = _
  split
  · rfl
  · split <;> rfl

theorem ramAddress_shift (t : Token) : (t.shift k).ramAddress = t.ramAddress.shift k id := by
  unfold Token.ramAddress
  change (if t.kind = .number then _ else _) = _
  split
  · rw [hex_shift]
    apply shift_bind
    intro address
    change (if address > 0xFFFFFF then _ else _) = Checked.shift k _ (ite _ _ _)
    split <;> rfl
  · rfl

theorem addByte_shift (item : Item) (byte : UInt8) (span : Span) :
    (item.shift k).addByte byte (span.shift k) = (item.addByte byte span).shift k := by
  unfold Item.addByte Item.shift
  rw [Span.join_shift]

theorem items_shift (done : List Item) (line : List Lexeme) :
    items (done.map (Item.shift k)) (line.map (Lexeme.shift k)) =
      (items done line).shift k (List.map (Item.shift k)) := by
  induction line generalizing done with
  | nil =>
    simp only [List.map_nil, items, Checked.shift, List.map_reverse, List.map_map]
    rfl
  | cons x line ih =>
    cases x with
    | stray text span => rfl
    | token t =>
      have kind : (t.shift k).kind = t.kind := rfl
      have some : (t.shift k).IsByte (done.map (Item.shift k)) ↔ t.IsByte done := by
        simp [Token.IsByte, kind]
      by_cases byte : t.IsByte done
      · obtain ⟨number, given⟩ := byte
        obtain ⟨item, before, rfl⟩ := List.exists_cons_of_ne_nil given
        change items (item.shift k :: before.map (Item.shift k))
          (.token (t.shift k) :: line.map (Lexeme.shift k)) = _
        rw [items_byte _ (kind.trans number), items_byte _ number, byte_shift]
        apply shift_bind
        intro byte
        rw [← ih]
        exact congrArg (fun i => items (i :: before.map (Item.shift k)) _) (addByte_shift k ..)
      · change items _ (.token (t.shift k) :: line.map (Lexeme.shift k)) = _
        rw [items_file _ (mt some.mp byte), items_file _ byte, kind]
        split
        · exact ih (⟨t.path, [], t.span⟩ :: done)
        · rfl

theorem slotLine_shift (slot : SlotKey) (first : Token) (line : List Lexeme) :
    slotLine slot (first.shift k) (line.map (Lexeme.shift k)) =
      (slotLine slot first line).shift k (Statement.shift k) := by
  unfold slotLine
  have none := items_shift k [] line
  rw [List.map_nil] at none
  rw [none]
  apply shift_bind
  intro found
  rw [List.getLast?_map]
  cases found.getLast? with
  | none => rfl
  | some last =>
    exact congrArg (fun span => Except.ok (Statement.slot slot (first.span.shift k) _ span))
      (Span.join_shift k ..)

theorem finish_shift (stop : Token) (line : List Lexeme) {s s' : Statement} (moved : s' = s.shift k) :
    (expectEnd (stop.shift k) (line.map (Lexeme.shift k)) >>= fun _ => pure s') =
      Checked.shift k (Statement.shift k) (expectEnd stop line >>= fun _ => pure s) := by
  rw [expectEnd_shift, moved]
  exact shift_bind k fun _ => rfl

theorem statement_shift (first stop : Token) (line : List Lexeme) :
    statement (first.shift k) (line.map (Lexeme.shift k)) (stop.shift k) =
      (statement first line stop).shift k (Statement.shift k) := by
  have same : (first.shift k).kind = first.kind := rfl
  have join (t : Token) : (first.shift k).span.join (t.shift k).span = (first.span.join t.span).shift k :=
    Span.join_shift k ..
  cases kind : first.kind with
  | verbose =>
    rw [statement_verbose _ _ (same.trans kind), statement_verbose _ _ kind, nextPath_shift]
    apply shift_bind
    intro found
    change (found.1.shift k).onOrOff >>= _ = _
    rw [onOrOff_shift]
    apply shift_bind
    intro on
    exact finish_shift k stop _ (congrArg (Statement.verbose on) (join _))
  | rom =>
    rw [statement, statement, same, kind]
    dsimp only
    rw [nextPath_shift]
    apply shift_bind
    intro found
    exact finish_shift k stop _ (congrArg (Statement.rom found.1.path) (join _))
  | file role =>
    rw [statement, statement, same, kind]
    dsimp only
    rw [nextPath_shift]
    apply shift_bind
    intro found
    exact finish_shift k stop _ (congrArg (Statement.file role found.1.path) (join _))
  | freeram =>
    rw [statement_freeram _ _ (same.trans kind), statement_freeram _ _ kind, next_shift]
    apply shift_bind
    intro found
    change (found.1.shift k).ramAddress >>= _ = _
    rw [ramAddress_shift]
    apply shift_bind
    intro address
    exact finish_shift k stop _ (congrArg (Statement.freeram address) (join _))
  | context kind' =>
    rw [statement, statement, same, kind]
    exact finish_shift k stop line rfl
  | star =>
    rw [statement, statement, same, kind]
    exact slotLine_shift k _ first line
  | number =>
    rw [statement, statement, same, kind]
    dsimp only
    rw [hex_shift]
    apply shift_bind
    intro index
    exact slotLine_shift k _ first line
  | newline | word | quoted | endOfFile =>
    rw [statement, statement, same, kind]
    rfl

end

/-! ### A list further down -/

section
variable (k : Nat)

theorem place_shift (start : Nat) (pieces : List (PieceKind × List Char)) :
    place (start + k) pieces = (place start pieces).map (Lexeme.shift k) := by
  induction pieces generalizing start with
  | nil => rfl
  | cons piece pieces ih =>
    obtain ⟨kind, text⟩ := piece
    have stop : start + k + size text = start + size text + k := by omega
    simp only [place, List.map_append, stop, ih]
    cases kind <;> rfl

theorem statement?_shift (l : Line) :
    (l.shift k).statement? = l.statement?.shift k (Option.map (Statement.shift k)) := by
  have content : (l.shift k).content = l.content.map (Lexeme.shift k) := by
    rw [Line.content, Line.content, lexemesFrom_eq, lexemesFrom_eq]
    exact place_shift k l.start (cover firstPiece l.text)
  have ending : (l.shift k).ending = l.ending.shift k := by
    have stop : (l.shift k).stop = l.stop + k := Nat.add_right_comm ..
    have behind : l.stop + k + 1 = l.stop + 1 + k := Nat.add_right_comm ..
    obtain ⟨start, text, closed⟩ := l
    unfold Line.ending
    rw [stop, behind]
    cases closed <;> rfl
  unfold Line.statement?
  rw [content, ending]
  cases l.content with
  | nil => rfl
  | cons x rest =>
    cases x with
    | stray text span => rfl
    | token first =>
      change some <$> statement (first.shift k) (rest.map (Lexeme.shift k)) _ =
        Checked.shift k _ (some <$> statement first rest l.ending)
      rw [statement_shift]
      cases statement first rest l.ending <;> rfl

theorem parsed_shift (l : Line) : (l.shift k).parsed = l.parsed.shift k := by
  unfold Line.parsed
  rw [statement?_shift]
  rcases l.statement? with e | _ | s <;> rfl

theorem shift_append (p q : Parsed) : (p.append q).shift k = (p.shift k).append (q.shift k) := by
  simp [Parsed.append, Parsed.shift]

theorem collect_linesFrom_shift (start : Nat) (cs : List Char) :
    collect (linesFrom (start + k) cs) = (collect (linesFrom start cs)).shift k := by
  induction cs using lineInduction generalizing start with
  | line cs whole =>
    rw [linesFrom_line whole, linesFrom_line whole, collect_cons, collect_cons, shift_append,
      ← parsed_shift]
    rfl
  | below cs rest whole ih =>
    have next : start + k + size cs + 1 = start + size cs + 1 + k := by omega
    rw [linesFrom_append whole, linesFrom_append whole, collect_cons, collect_cons, shift_append,
      ← parsed_shift, next, ih]
    rfl

def Ended (cs : List Char) : Prop := cs = [] ∨ cs.getLast? = some '\n'

theorem collect_linesFrom_nil (start : Nat) : collect (linesFrom start []) = .empty := by
  have content : (Line.mk start [] false).content = [] := by
    rw [Line.content, lexemesFrom_eq, cover_nil]
    rfl
  rw [linesFrom_line List.not_mem_nil, collect_cons, Line.parsed, Line.statement?, content]
  rfl

theorem collect_append {a : List Char} (ended : Ended a) (start : Nat) (b : List Char) :
    collect (linesFrom start (a ++ b)) =
      (collect (linesFrom start a)).append (collect (linesFrom (start + size a) b)) := by
  induction a using lineInduction generalizing start with
  | line a whole =>
    rcases ended with rfl | last
    · rw [collect_linesFrom_nil, Parsed.empty_append]
      rfl
    · exact absurd (List.mem_of_getLast? last) whole
  | below line rest whole ih =>
    have bottom : Ended rest := by
      rcases ended with none | last
      · simp at none
      · rw [List.getLast?_append] at last
        cases rest with
        | nil => exact Or.inl rfl
        | cons x rest =>
          right
          simpa using last
    have feed : size ('\n' :: rest) = 1 + size rest := size_append ['\n'] rest
    have place : start + size (line ++ '\n' :: rest) = start + size line + 1 + size rest := by
      rw [size_append, feed]
      omega
    rw [List.append_assoc, List.cons_append, linesFrom_append whole, linesFrom_append whole,
      collect_cons, collect_cons, ih bottom, Parsed.append_assoc, place]

end

theorem parse_append {a : String} (ended : Ended a.toList) (b : String) :
    parse (a ++ b) = (parse a).append ((parse b).shift a.utf8ByteSize) := by
  rw [parse_eq_collect, parse_eq_collect, parse_eq_collect, String.toList_append,
    collect_append ended, size_toList, collect_linesFrom_shift]

end Listing
end RomLinker
