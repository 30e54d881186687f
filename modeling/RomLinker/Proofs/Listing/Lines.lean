import RomLinker.Listing.Statement

/-!
A list as the sum of its lines. What a line gives is a `Parsed` of its own, and these are joined in
order (`parse_eq_collect`). A text is either one line or a line with a text below it, so that proofs
about texts go by induction on their lines (`lineInduction`).
-/
namespace RomLinker.Listing

namespace Parsed

def empty : Parsed := ⟨[], []⟩

def append (p q : Parsed) : Parsed := ⟨p.statements ++ q.statements, p.faults ++ q.faults⟩

def ofStatement (s : Statement) : Parsed := ⟨[s], []⟩

def ofFault (e : Flagged Fault) : Parsed := ⟨[], [e]⟩

theorem empty_append (p : Parsed) : empty.append p = p := rfl

theorem append_empty (p : Parsed) : p.append empty = p := by
  simp [append, empty]

theorem append_assoc (p q r : Parsed) : (p.append q).append r = p.append (q.append r) := by
  simp [append]

end Parsed

def Line.parsed (l : Line) : Parsed :=
  match l.statement? with
  | .ok none => .empty
  | .ok (some s) => .ofStatement s
  | .error e => .ofFault e

def collect (ls : List Line) : Parsed := ls.foldr (fun l p => l.parsed.append p) .empty

theorem collect_cons (l : Line) (ls : List Line) : collect (l :: ls) = l.parsed.append (collect ls) :=
  rfl

theorem reverse_add (p : Parsed) (l : Line) : (p.add l).reverse = p.reverse.append l.parsed := by
  unfold Parsed.add Line.parsed
  rcases l.statement? with e | _ | s <;>
    simp [Parsed.reverse, Parsed.append, Parsed.empty, Parsed.ofStatement, Parsed.ofFault]

theorem reverse_foldl_add (ls : List Line) (p : Parsed) :
    (ls.foldl Parsed.add p).reverse = p.reverse.append (collect ls) := by
  induction ls generalizing p with
  | nil => exact (Parsed.append_empty _).symm
  | cons l ls ih => rw [List.foldl_cons, ih, reverse_add, Parsed.append_assoc, collect_cons]

def linesFrom (start : Nat) (cs : List Char) : List Line :=
  (foldLines (fun ls l => l :: ls) [] start [] cs).reverse

theorem parse_eq_collect (source : String) : parse source = collect (linesFrom 0 source.toList) := by
  rw [parse_eq, reverse_foldl_add]
  rfl

theorem foldLines_append {β : Type} {f : β → Line → β} {init : β} {start : Nat} {before line : List Char}
    (whole : '\n' ∉ line) (rest : List Char) :
    foldLines f init start before (line ++ rest) =
      foldLines f init start (line.reverse ++ before) rest := by
  induction line generalizing before with
  | nil => rfl
  | cons c line ih =>
    have other : c ≠ '\n' := by
      intro same
      exact whole (same ▸ List.mem_cons_self)
    have tail : '\n' ∉ line := fun member => whole (List.mem_cons_of_mem c member)
    rw [List.cons_append, foldLines, if_neg other, ih tail, List.reverse_cons, List.append_assoc]
    rfl

theorem linesFrom_line {start : Nat} {line : List Char} (whole : '\n' ∉ line) :
    linesFrom start line = [⟨start, line, false⟩] := by
  have last : foldLines (fun ls l => l :: ls) ([] : List Line) start [] (line ++ []) = _ :=
    foldLines_append whole []
  rw [List.append_nil, List.append_nil] at last
  rw [linesFrom, last, foldLines, List.reverse_reverse]
  rfl

theorem linesFrom_append {start : Nat} {line : List Char} (whole : '\n' ∉ line) (rest : List Char) :
    linesFrom start (line ++ '\n' :: rest) =
      ⟨start, line, true⟩ :: linesFrom (start + size line + 1) rest := by
  have cut := foldLines_eq (fun ls l => l :: ls) [⟨start, line, true⟩] (start + size line + 1) [] rest
  rw [linesFrom, foldLines_append whole, foldLines, if_pos rfl, List.append_nil, List.reverse_reverse]
  change (foldLines (fun ls l => l :: ls) [⟨start, line, true⟩] (start + size line + 1) [] rest).reverse = _
  rw [cut, List.foldl_flip_cons_eq_append', List.reverse_append, List.reverse_reverse]
  rfl

theorem size_toList (source : String) : size source.toList = source.utf8ByteSize := by
  rw [size, String.ofList_toList]

theorem size_append (a b : List Char) : size (a ++ b) = size a + size b := by
  rw [size, String.ofList_append, String.utf8ByteSize_append]
  rfl

/-- A text is one line, or a line with a text below it. -/
theorem lineInduction {motive : List Char → Prop}
    (line : ∀ cs, '\n' ∉ cs → motive cs)
    (below : ∀ cs rest, '\n' ∉ cs → motive rest → motive (cs ++ '\n' :: rest)) (cs : List Char) :
    motive cs :=
  Text.stretchInduction '\n' line below cs

def Token.onOrOff (t : Token) : Checked Bool :=
  if t.text = "on" then .ok true
  else if t.text = "off" then .ok false
  else .error ⟨.notOnOrOff t.text, t.span⟩

def Token.ramAddress (t : Token) : Checked Address :=
  if t.kind = .number then do
    let address ← t.hex
    if address > 0xFFFFFF then throw ⟨.addressTooLarge, t.span⟩ else return address
  else .error ⟨.needed .ramAddress t.kind, t.span⟩

def Token.digits (t : Token) : List Char :=
  match t.text.toList with
  | '$' :: digits => digits
  | digits => digits

theorem hex_eq (t : Token) : t.hex =
    match Text.word? t.digits with
    | some value => .ok value
    | none => .error ⟨.invalidHex t.text, t.span⟩ := rfl

def Token.byte (t : Token) : Checked UInt8 := do
  let value ← t.hex
  if value > 0xFF then throw ⟨.byteTooLarge value, t.span⟩ else return value.toUInt8

/-- An item with one more byte, in front of those that come later in the line. -/
def Item.addByte (item : Item) (byte : UInt8) (span : Span) : Item :=
  { item with bytes := byte :: item.bytes, span := item.span.join span }

/-- Tokens that are bytes of the last item where there is one. -/
def Token.IsByte (t : Token) (done : List Item) : Prop := t.kind = .number ∧ done ≠ []

section
variable {t : Token} {done before : List Item} {item : Item} (rest : List Lexeme)

theorem items_byte (number : t.kind = .number) : items (item :: before) (.token t :: rest) =
    t.byte >>= fun byte => items (item.addByte byte t.span :: before) rest := by
  rw [items.eq_def]
  simp only [number]
  unfold Token.byte
  cases t.hex with
  | error e => rfl
  | ok value =>
    change (if value > 0xFF then _ else _) = Except.bind (ite _ _ _) _
    split <;> rfl

theorem items_file (file : ¬ t.IsByte done) : items done (.token t :: rest) =
    if t.kind.namesFile then items (⟨t.path, [], t.span⟩ :: done) rest
    else .error ⟨.needed .fileName t.kind, t.span⟩ := by
  rw [items.eq_def]
  dsimp only
  split
  · rename_i number
    exact absurd ⟨number, nofun⟩ file
  · rfl

end

section
variable {first : Token} (rest : List Lexeme) (stop : Token)

theorem statement_verbose (same : first.kind = .verbose) :
    statement first rest stop = do
      let (t, rest) ← nextPath .onOrOff stop rest
      let on ← t.onOrOff
      expectEnd stop rest
      return .verbose on (first.span.join t.span) := by
  unfold statement
  rw [same]
  cases nextPath .onOrOff stop rest with
  | error e => rfl
  | ok found =>
    change (if found.1.text = "on" then _ else _) = Except.bind (ite _ _ _) _
    split
    · rfl
    · split <;> rfl

theorem statement_freeram (same : first.kind = .freeram) :
    statement first rest stop = do
      let (t, rest) ← next stop rest
      let address ← t.ramAddress
      expectEnd stop rest
      return .freeram address (first.span.join t.span) := by
  unfold statement
  rw [same]
  cases next stop rest with
  | error e => rfl
  | ok found =>
    obtain ⟨t, rest⟩ := found
    change (if t.kind ≠ .number then _ else _) = Except.bind (Token.ramAddress t) _
    unfold Token.ramAddress
    by_cases number : t.kind = .number
    · rw [if_neg (not_not_intro number), if_pos number]
      cases t.hex with
      | error e => rfl
      | ok address =>
        change (if address > 0xFFFFFF then _ else _) = Except.bind (ite _ _ _) _
        split <;> rfl
    · rw [if_pos number, if_neg number]
      rfl

end

end RomLinker.Listing
