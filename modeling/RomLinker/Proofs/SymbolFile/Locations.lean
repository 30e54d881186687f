import RomLinker.Proofs.Extmod
import RomLinker.Proofs.Numeral
import RomLinker.Proofs.SymbolFile.Sections

/-!
What an entry says. `Locates` is the form of a line with a location, whose fields are hex numbers of any
size. A line is read as a label exactly if both of its fields have at most 32 bits, and the address is made
by shifting the bank, which can lose bits of it, and joining the offset, which can share some with it
(`label?_of_locates`).
-/
namespace RomLinker

namespace Text

def marks : List Char := [':', ';', '[']

theorem plain_of_isHexDigit {c : Char} (hex : isHexDigit c = true) : isBlank c = false ∧ c ∉ marks ∧ c ≠ '+' := by
  have all : ∀ n < 0x80, isHexDigit (Char.ofNat n) = true →
      isBlank (Char.ofNat n) = false ∧ Char.ofNat n ∉ marks ∧ Char.ofNat n ≠ '+' := by decide
  have here := all c.toNat (toNat_lt_of_isHexDigit hex)
  rw [Char.ofNat_toNat] at here
  exact here hex

/-- A hex number of any size, with an optional plus sign. -/
inductive Number : List Char → Nat → Prop
  | bare (digits : List Char) (filled : digits ≠ []) (hex : ∀ c ∈ digits, isHexDigit c = true) :
    Number digits (valueBehind 16 hexDigit? 0 digits)
  | signed (digits : List Char) (filled : digits ≠ []) (hex : ∀ c ∈ digits, isHexDigit c = true) :
    Number ('+' :: digits) (valueBehind 16 hexDigit? 0 digits)

variable {cs : List Char} {value : Nat}

theorem Number.filled (number : Number cs value) : cs ≠ [] := by
  cases number with
  | bare digits filled hex => exact filled
  | signed digits filled hex => exact List.cons_ne_nil _ _

theorem Number.plain (number : Number cs value) : ∀ c ∈ cs, isBlank c = false ∧ c ∉ marks := by
  have plain {digits : List Char} (hex : ∀ c ∈ digits, isHexDigit c = true) :
      ∀ c ∈ digits, isBlank c = false ∧ c ∉ marks := by
    intro c member
    obtain ⟨solid, bare, -⟩ := plain_of_isHexDigit (hex c member)
    exact ⟨solid, bare⟩
  cases number with
  | bare digits filled hex => exact plain hex
  | signed digits filled hex => exact List.forall_mem_cons.mpr ⟨by decide, plain hex⟩

theorem word?_eq_some_iff {w : UInt32} : word? cs = some w ↔ Number cs w.toNat := by
  have reads (digits : List Char) : (value? 16 0x100000000 hexDigit? digits).map UInt32.ofNat = some w ↔ _ :=
    map_value?_eq_some
  constructor
  · unfold word?
    split
    · rename_i digits
      rw [reads]
      rintro ⟨filled, hex, same⟩
      exact same ▸ .signed digits filled hex
    · rw [reads]
      rintro ⟨filled, hex, same⟩
      exact same ▸ .bare cs filled hex
  · intro number
    generalize same : w.toNat = value at number
    cases number with
    | bare digits filled hex =>
      have unsigned : ∀ c ∈ cs, c ≠ '+' := fun c member => (plain_of_isHexDigit (hex c member)).2.2
      rw [Address.word?_of_unsigned unsigned, reads]
      exact ⟨filled, hex, same.symm⟩
    | signed digits filled hex =>
      exact (reads digits).mpr ⟨filled, hex, same.symm⟩

theorem Number.unique {other : Nat} (number : Number cs value) (again : Number cs other) : value = other := by
  have sign : isHexDigit '+' = false := by decide
  cases number with
  | bare digits filled hex =>
    cases again with
    | bare _ _ _ => rfl
    | signed rest _ _ => cases sign.symm.trans (hex '+' List.mem_cons_self)
  | signed digits filled hex =>
    generalize front : '+' :: digits = cs at again
    cases again with
    | bare _ _ others => cases sign.symm.trans (others '+' (front ▸ List.mem_cons_self))
    | signed rest _ _ => rw [List.cons_inj_right _ |>.mp front]

end Text

namespace SymbolFile
open Text

/-- A line that has a location, with the numbers in it and the name behind it. -/
def Locates (line : List Char) (bank offset : Nat) (name : List Char) : Prop :=
  ∃ high low c rest, line = high ++ ':' :: low ++ c :: rest ∧ Number high bank ∧ Number low offset ∧
    isBlank c = true ∧ trim rest = name

variable {line name : List Char} {bank offset : Nat} {l : Label}

/-- The first blank ends a location, and the first colon parts its fields. -/
theorem Locates.cut (locates : Locates line bank offset name) :
    ∃ high low rest, cutAt? isBlank line = some (high ++ ':' :: low, rest) ∧
      cutAt? (· == ':') (high ++ ':' :: low) = some (high, low) ∧ Number high bank ∧ Number low offset ∧
      trim rest = name := by
  obtain ⟨high, low, c, rest, rfl, first, second, blank, named⟩ := locates
  have solid : ∀ x ∈ high ++ ':' :: low, isBlank x = false := by
    intro x member
    rcases List.mem_append.mp member with member | member
    · exact (first.plain x member).1
    · rcases List.mem_cons.mp member with rfl | member
      · decide
      · exact (second.plain x member).1
  have bare : ∀ x ∈ high, (x == ':') = false := by
    intro x member
    have plain := (first.plain x member).2
    simp [marks] at plain
    simp [plain]
  exact ⟨high, low, rest, cutAt?_append_cons blank solid rest, cutAt?_append_cons rfl bare low, first, second, named⟩

theorem Locates.unique {bank' offset' : Nat} {name' : List Char} (locates : Locates line bank offset name)
    (again : Locates line bank' offset' name') : bank = bank' ∧ offset = offset' ∧ name = name' := by
  obtain ⟨high, low, rest, outer, inner, first, second, rfl⟩ := locates.cut
  obtain ⟨high', low', rest', outer', inner', first', second', rfl⟩ := again.cut
  obtain ⟨fields, rfl⟩ := Prod.mk.inj (Option.some.inj (outer.symm.trans outer'))
  rw [← fields] at inner'
  obtain ⟨rfl, rfl⟩ := Prod.mk.inj (Option.some.inj (inner.symm.trans inner'))
  exact ⟨first.unique first', second.unique second', rfl⟩

theorem plain_of_locates (locates : Locates line bank offset name) :
    isHeading line = false ∧ isEntry line = true := by
  obtain ⟨high, low, c, rest, rfl, first, -⟩ := locates
  obtain ⟨x, digits, rfl⟩ := List.exists_cons_of_ne_nil first.filled
  have plain := (first.plain x List.mem_cons_self).2
  simp [marks] at plain
  simp [isHeading, isEntry, plain]

theorem label?_eq_some : label? line = some l ↔ ∃ high low : UInt32,
    Locates line high.toNat low.toNat l.name.toList ∧ l.address = high <<< 16 ||| low := by
  constructor
  · intro read
    simp only [label?, Option.bind_eq_bind, Option.bind_eq_some_iff, Prod.exists] at read
    obtain ⟨location, rest, found, high, low, fields, bank, first, offset, second, made⟩ := read
    obtain ⟨c, blank, rfl⟩ := cutAt?_eq_some found
    obtain ⟨colon, here, rfl⟩ := cutAt?_eq_some fields
    obtain rfl := Option.some.inj made
    obtain rfl : colon = ':' := by simpa using here
    refine ⟨bank, offset, ⟨high, low, c, rest, rfl, ?_, ?_, blank, ?_⟩, rfl⟩
    · exact word?_eq_some_iff.mp first
    · exact word?_eq_some_iff.mp second
    · exact String.toList_ofList.symm
  · rintro ⟨bank, offset, locates, address⟩
    obtain ⟨high, low, rest, outer, inner, first, second, named⟩ := locates.cut
    have whole : l = ⟨String.ofList (trim rest), bank <<< 16 ||| offset⟩ := by
      rw [named, String.ofList_toList, ← address]
    rw [label?, outer]
    simp [inner, word?_eq_some_iff.mpr first, word?_eq_some_iff.mpr second, whole]

theorem or_add_and (a b : Nat) : (a ||| b) + (a &&& b) = a + b := by
  induction a using Nat.strongRecOn generalizing b with
  | ind a ih =>
    by_cases zero : a = 0
    · simp [zero]
    · have halves := ih (a / 2) (by omega) (b / 2)
      have either : (a ||| b) % 2 = 1 ↔ a % 2 = 1 ∨ b % 2 = 1 := Nat.or_mod_two_eq_one
      have both : (a &&& b) % 2 = 1 ↔ a % 2 = 1 ∧ b % 2 = 1 := Nat.and_mod_two_eq_one
      rw [← Nat.or_div_two, ← Nat.and_div_two] at halves
      omega

def joined (bank offset : Nat) : Address := UInt32.ofNat (bank * 0x10000 ||| offset)

theorem joined_toNat (high low : UInt32) : joined high.toNat low.toNat = high <<< 16 ||| low := by
  have sixteen : (16 : UInt32).toNat % 32 = 16 := rfl
  have small : low.toNat % 2 ^ 32 = low.toNat := Nat.mod_eq_of_lt low.toNat_lt
  rw [← UInt32.toNat_inj, joined, UInt32.toNat_ofNat', UInt32.toNat_or, UInt32.toNat_shiftLeft, sixteen,
    Nat.or_mod_two_pow, small, Nat.shiftLeft_eq]

/-- The sum comes out as long as the bank loses no bit, and shares none with the offset. -/
theorem joined_exact_iff (small : offset < 0x100000000) :
    (joined bank offset).toNat = bank * 0x10000 + offset ↔
      bank < 0x10000 ∧ bank * 0x10000 &&& offset = 0 := by
  have parts := or_add_and (bank * 0x10000) offset
  have value : (joined bank offset).toNat = (bank * 0x10000 ||| offset) % 0x100000000 := UInt32.toNat_ofNat'
  constructor
  · intro sum
    have below : (bank * 0x10000 ||| offset) % 0x100000000 < 0x100000000 := Nat.mod_lt _ (by decide)
    have most : (bank * 0x10000 ||| offset) % 0x100000000 ≤ bank * 0x10000 ||| offset := Nat.mod_le _ _
    omega
  · rintro ⟨narrow, apart⟩
    have fits : bank * 0x10000 ||| offset < 2 ^ 32 := Nat.or_lt_two_pow (by omega) small
    omega

theorem and_of_narrow (small : offset < 0x10000) : bank * 0x10000 &&& offset = 0 := by
  have parts := or_add_and (bank * 0x10000) offset
  have sum : 0x10000 * bank + offset = 0x10000 * bank ||| offset :=
    Nat.two_pow_add_eq_or_of_lt (i := 16) small bank
  rw [Nat.mul_comm bank] at parts ⊢
  omega

theorem label?_of_locates (locates : Locates line bank offset name) :
    label? line = if bank < 0x100000000 ∧ offset < 0x100000000 then
      some ⟨String.ofList name, joined bank offset⟩ else none := by
  split
  · rename_i small
    have first : (UInt32.ofNat bank).toNat = bank := UInt32.toNat_ofNat_of_lt' small.1
    have second : (UInt32.ofNat offset).toNat = offset := UInt32.toNat_ofNat_of_lt' small.2
    refine label?_eq_some.mpr ⟨UInt32.ofNat bank, UInt32.ofNat offset, ?_, ?_⟩
    · rw [first, second, String.toList_ofList]
      exact locates
    · rw [← joined_toNat, first, second]
  · rename_i wide
    rw [Option.eq_none_iff_forall_ne_some]
    intro l read
    obtain ⟨high, low, again, -⟩ := label?_eq_some.mp read
    obtain ⟨rfl, rfl, -⟩ := locates.unique again
    exact wide ⟨high.toNat_lt, low.toNat_lt⟩

theorem label?_eq_none : label? line = none ↔
    ∀ bank offset name, Locates line bank offset name → 0x100000000 ≤ bank ∨ 0x100000000 ≤ offset := by
  constructor
  · intro none bank offset name locates
    rw [label?_of_locates locates] at none
    split at none
    · cases none
    · omega
  · intro wide
    rw [Option.eq_none_iff_forall_ne_some]
    intro l read
    obtain ⟨high, low, locates, -⟩ := label?_eq_some.mp read
    have first : high.toNat < 0x100000000 := high.toNat_lt
    have second : low.toNat < 0x100000000 := low.toNat_lt
    have past := wide _ _ _ locates
    omega

/-- The labels of a symbol file are what its entries are read as, in order. An entry without a location is passed
over, and so is one with a field of more than 32 bits; any other one is a label, by the name behind its location.
The address is the bank times 0x10000 plus the offset exactly if the bank loses no bit when it is shifted and
shares none with the offset. So it is where both fields have the size of a bank and of an offset, and then the
address has at most 24 bits. -/
theorem parse_addresses (text : String) :
    parse text = (entries trim (text.toList.splitOn '\n')).filterMap (label? ∘ trim) ∧
    ∀ line : List Char,
      ((∀ bank offset name, ¬ Locates line bank offset name) → label? line = none) ∧
      ∀ bank offset name, Locates line bank offset name →
        (label? line = if bank < 0x100000000 ∧ offset < 0x100000000 then
          some ⟨String.ofList name, joined bank offset⟩ else none) ∧
        (offset < 0x100000000 → ((joined bank offset).toNat = bank * 0x10000 + offset ↔
          bank < 0x10000 ∧ bank * 0x10000 &&& offset = 0)) ∧
        (bank < 0x100 → offset < 0x10000 →
          (joined bank offset).toNat = bank * 0x10000 + offset ∧ (joined bank offset).toNat < 0x1000000) := by
  refine ⟨parse_eq_entries text, fun line => ⟨fun bare => ?_, fun bank offset name locates => ?_⟩⟩
  · exact label?_eq_none.mpr fun bank offset name locates => absurd locates (bare bank offset name)
  refine ⟨label?_of_locates locates, fun small => joined_exact_iff small, fun narrow short => ?_⟩
  have small : offset < 0x100000000 := by omega
  have sum : (joined bank offset).toNat = bank * 0x10000 + offset :=
    (joined_exact_iff small).mpr ⟨by omega, and_of_narrow short⟩
  refine ⟨sum, ?_⟩
  rw [sum]
  omega

/-- Fields of more digits than a bank and an offset have are taken as they are: an address past 24 bits, an offset
that is joined and not added, and a bank that is lost as a whole. -/
theorem wide_fields_taken :
    parse "[labels]\n100:8000 wide\n01:18000 mixed\n10000:0000 lost\n" =
      [⟨"wide", 0x1008000⟩, ⟨"mixed", 0x18000⟩, ⟨"lost", 0⟩] := by
  decide +kernel

end SymbolFile
end RomLinker
