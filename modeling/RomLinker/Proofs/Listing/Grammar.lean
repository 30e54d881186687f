import RomLinker.Proofs.Listing.Lines
import RomLinker.Proofs.Listing.Pieces
import RomLinker.Proofs.Numeral
import RomLinker.Proofs.Outcome

/-!
The grammar of the list. `Spells` says which tokens are a statement, and which one. It rests on what
a token is by itself: the number of its digits (`Token.Value`) or the path that it names
(`Token.Names`), which is what the linker reads from it (`hex_eq_ok`, `names_iff`).
-/
namespace RomLinker.Listing

/-- The number that hex digits stand for, behind digits worth `high`. -/
def hexFrom (high : Nat) (digits : List Char) : Nat :=
  digits.foldl (fun high c => high * 16 + (Text.hexDigit? c).getD 0) high

namespace Token

/-- The value of a number, which can be of any size. -/
structure Value (t : Token) (value : Nat) : Prop where
  number : t.kind = .number
  read : ∃ digits, digits ≠ [] ∧ (∀ c ∈ digits, Text.isHexDigit c = true) ∧
    (t.text.toList = digits ∨ t.text.toList = '$' :: digits) ∧ hexFrom 0 digits = value

inductive Names (t : Token) : String → Prop
  | bare (kind : t.kind = .word ∨ t.kind = .number) : Names t t.text
  | quoted (path : String) (kind : t.kind = .quoted)
    (text : t.text.toList = '"' :: path.toList ++ ['"']) (plain : '"' ∉ path.toList) : Names t path

end Token

/-- The items of a line from `item` on, when some tokens are left behind those of `item`. A number
is one more byte of the last item, and a word or a quoted path begins the next one. -/
inductive Continues : Item → List Token → List Item → Prop
  | done (item : Item) : Continues item [] [item]
  | byte (item : Item) (t : Token) (byte : UInt8) (ts : List Token) (items : List Item)
    (value : t.Value byte.toNat)
    (rest : Continues ⟨item.file, item.bytes ++ [byte], item.span.join t.span⟩ ts items) :
    Continues item (t :: ts) items
  | file (item : Item) (t : Token) (path : String) (ts : List Token) (items : List Item)
    (later : t.kind ≠ .number) (named : t.Names path)
    (rest : Continues ⟨path, [], t.span⟩ ts items) : Continues item (t :: ts) (item :: items)

/-- The items of a slot's line. The first token names a file even if it is a number. -/
inductive Files : List Token → List Item → Prop
  | mk (t : Token) (path : String) (ts : List Token) (items : List Item) (named : t.Names path)
    (rest : Continues ⟨path, [], t.span⟩ ts items) : Files (t :: ts) items

section
variable {P : Item → Prop} {item : Item} {ts : List Token} {found : List Item}

theorem Continues.all (continues : Continues item ts found) (here : P item)
    (byte : ∀ t ∈ ts, ∀ item byte, P item → P ⟨item.file, item.bytes ++ [byte], item.span.join t.span⟩)
    (file : ∀ t ∈ ts, ∀ path, t.Names path → P ⟨path, [], t.span⟩) : ∀ item ∈ found, P item := by
  induction continues with
  | done item => simpa using here
  | byte item t value ts found _ _ ih =>
    exact ih (byte t List.mem_cons_self item value here)
      (fun u member => byte u (List.mem_cons_of_mem t member))
      fun u member => file u (List.mem_cons_of_mem t member)
  | file item t path ts found later named _ ih =>
    have below := ih (file t List.mem_cons_self path named)
      (fun u member => byte u (List.mem_cons_of_mem t member))
      fun u member => file u (List.mem_cons_of_mem t member)
    exact List.forall_mem_cons.mpr ⟨here, below⟩

/-- What holds of a token as an item, and still behind each byte, holds of all items. -/
theorem Files.all (files : Files ts found)
    (byte : ∀ t ∈ ts, ∀ item byte, P item → P ⟨item.file, item.bytes ++ [byte], item.span.join t.span⟩)
    (file : ∀ t ∈ ts, ∀ path, t.Names path → P ⟨path, [], t.span⟩) : ∀ item ∈ found, P item := by
  cases files with
  | mk t path ts _ named continues =>
    exact continues.all (file t List.mem_cons_self path named)
      (fun u member => byte u (List.mem_cons_of_mem t member))
      fun u member => file u (List.mem_cons_of_mem t member)

end

inductive Spells : List Token → Statement → Prop
  | verbose (command t : Token) (on : Bool) (first : command.kind = .verbose)
    (kind : t.kind.namesFile = true) (text : t.text = if on then "on" else "off") :
    Spells [command, t] (.verbose on (command.span.join t.span))
  | rom (command t : Token) (path : String) (first : command.kind = .rom) (named : t.Names path) :
    Spells [command, t] (.rom path (command.span.join t.span))
  | file (role : FileRole) (command t : Token) (path : String) (first : command.kind = .file role)
    (named : t.Names path) : Spells [command, t] (.file role path (command.span.join t.span))
  | freeram (command t : Token) (address : Address) (first : command.kind = .freeram)
    (value : t.Value address.toNat) (fits : address.toNat ≤ 0xFFFFFF) :
    Spells [command, t] (.freeram address (command.span.join t.span))
  | header (context : ContextKind) (command : Token) (first : command.kind = .context context) :
    Spells [command] (.header context command.span)
  | aggregate (star : Token) (ts : List Token) (items : List Item) (last : Item)
    (first : star.kind = .star) (files : Files ts items) (ends : items.getLast? = some last) :
    Spells (star :: ts) (.slot .aggregate star.span items (star.span.join last.span))
  | slot (t : Token) (index : Nat) (ts : List Token) (items : List Item) (last : Item)
    (value : t.Value index) (fits : index < 0x100000000) (files : Files ts items)
    (ends : items.getLast? = some last) :
    Spells (t :: ts) (.slot (.index index) t.span items (t.span.join last.span))

section
variable {t : Token}

theorem word?_eq_some {digits : List Char} {value : UInt32} (unsigned : digits.head? ≠ some '+') :
    Text.word? digits = some value ↔ digits ≠ [] ∧ (∀ c ∈ digits, Text.isHexDigit c = true) ∧
      hexFrom 0 digits = value.toNat := by
  have bare : Text.word? digits =
      (Text.value? 16 0x100000000 Text.hexDigit? digits).map UInt32.ofNat := by
    unfold Text.word?
    split
    · exact absurd rfl unsigned
    · rfl
  rw [bare]
  exact Text.map_value?_eq_some

theorem digits_eq {digits : List Char} (plain : digits.head? ≠ some '$')
    (text : t.text.toList = digits ∨ t.text.toList = '$' :: digits) : t.digits = digits := by
  unfold Token.digits
  rcases text with text | text
  · rw [text]
    split
    · exact absurd rfl plain
    · rfl
  · rw [text]
    rfl

theorem hex_eq_ok (formed : t.Formed) (number : t.kind = .number) {value : UInt32} :
    t.hex = .ok value ↔ t.Value value.toNat := by
  obtain ⟨digit, rest, hex, text⟩ := formed.number number
  have plain {c : Char} (other : Text.isHexDigit c = false) : (digit :: rest).head? ≠ some c := by
    intro same
    obtain rfl := Option.some.inj same
    rw [hex] at other
    cases other
  have digits : t.digits = digit :: rest := digits_eq (plain (by decide)) text
  have unsigned : t.digits.head? ≠ some '+' := digits ▸ plain (by decide)
  have read : t.hex = .ok value ↔ Text.word? t.digits = some value := by
    rw [hex_eq]
    cases Text.word? t.digits <;> simp
  rw [read, word?_eq_some unsigned]
  constructor
  · rintro ⟨some, all, same⟩
    refine ⟨number, t.digits, some, all, ?_, same⟩
    rw [digits]
    exact text
  · rintro ⟨-, ds, some, all, text, same⟩
    have plain' : ds.head? ≠ Option.some '$' := by
      intro first
      exact absurd (all '$' (List.mem_of_head? first)) (by decide)
    rw [digits_eq plain' text]
    exact ⟨some, all, same⟩

theorem byte_eq_ok (formed : t.Formed) (number : t.kind = .number) {byte : UInt8} :
    t.byte = .ok byte ↔ t.Value byte.toNat := by
  unfold Token.byte
  constructor
  · intro read
    obtain ⟨w, value, read⟩ := Except.bind_eq_ok.mp read
    split at read
    · cases read
    · rename_i small
      cases read
      have same : w.toUInt8.toNat = w.toNat := by
        have fits : w.toNat ≤ 0xFF := UInt32.le_iff_toNat_le.mp (UInt32.not_lt.mp small)
        rw [UInt32.toNat_toUInt8]
        omega
      rw [same]
      exact (hex_eq_ok formed number).mp value
  · intro value
    have wide : byte.toUInt32.toNat = byte.toNat := UInt8.toNat_toUInt32 byte
    have read : t.hex = .ok byte.toUInt32 := (hex_eq_ok formed number).mpr (wide.symm ▸ value)
    have small : ¬ byte.toUInt32 > 0xFF := by
      have fits := byte.toNat_lt
      rw [gt_iff_lt, UInt32.lt_iff_toNat_lt, wide]
      change ¬ 0xFF < byte.toNat
      omega
    rw [read]
    change (if byte.toUInt32 > 0xFF then _ else _) = _
    rw [if_neg small, UInt8.toUInt8_toUInt32]
    rfl

theorem ramAddress_eq_ok (formed : t.Formed) {address : Address} :
    t.ramAddress = .ok address ↔ t.Value address.toNat ∧ address.toNat ≤ 0xFFFFFF := by
  have limit : ¬ address > 0xFFFFFF ↔ address.toNat ≤ 0xFFFFFF := by
    rw [gt_iff_lt, UInt32.not_lt, UInt32.le_iff_toNat_le]
    rfl
  unfold Token.ramAddress
  constructor
  · intro read
    split at read
    · rename_i number
      obtain ⟨w, value, read⟩ := Except.bind_eq_ok.mp read
      split at read
      · cases read
      · rename_i small
        cases read
        exact ⟨(hex_eq_ok formed number).mp value, limit.mp small⟩
    · cases read
  · rintro ⟨value, fits⟩
    have read : t.hex = .ok address := (hex_eq_ok formed value.number).mpr value
    rw [if_pos value.number, read]
    exact if_neg (limit.mpr fits)

theorem onOrOff_eq_ok {on : Bool} : t.onOrOff = .ok on ↔ t.text = if on then "on" else "off" := by
  unfold Token.onOrOff
  split
  · rename_i same
    rw [same]
    cases on <;> simp
  · rename_i other
    split
    · rename_i same
      rw [same]
      cases on <;> simp
    · rename_i neither
      cases on <;> simp [other, neither]

theorem names_iff (formed : t.Formed) {path : String} :
    t.Names path ↔ t.kind.namesFile = true ∧ t.path = path := by
  have kinds : t.kind.namesFile = true ↔ t.kind = .word ∨ t.kind = .quoted ∨ t.kind = .number := by
    simp [TokenKind.namesFile, or_assoc]
  have inner {text : List Char} (whole : t.text.toList = '"' :: text ++ ['"']) (plain : '"' ∉ text)
      (kind : t.kind = .quoted) : t.path = String.ofList text := by
    have kept : text.filter (· != '"') = text := by
      rw [List.filter_eq_self]
      intro c member
      have other : c ≠ '"' := fun same => plain (same ▸ member)
      exact bne_iff_ne.mpr other
    rw [Token.path, if_pos kind, whole, List.filter_append, List.filter_cons, kept]
    simp
  rw [kinds]
  constructor
  · rintro (kind | ⟨path, kind, text, plain⟩)
    · have other : t.kind ≠ .quoted := by
        rcases kind with kind | kind <;> rw [kind] <;> exact nofun
      exact ⟨kind.elim Or.inl (Or.inr ∘ Or.inr), if_neg other⟩
    · have same := inner text plain kind
      rw [String.ofList_toList] at same
      exact ⟨Or.inr (Or.inl kind), same⟩
  · rintro ⟨kind, rfl⟩
    by_cases quoted : t.kind = .quoted
    · obtain ⟨text, whole, plain⟩ := formed.quoted quoted
      have same := inner whole plain quoted
      rw [same]
      exact .quoted _ quoted (by rw [String.toList_ofList]; exact whole)
        (by rw [String.toList_ofList]; exact plain)
    · have bare : t.path = t.text := if_neg quoted
      rw [bare]
      exact .bare (kind.imp id fun h => h.resolve_left quoted)

end

end RomLinker.Listing
