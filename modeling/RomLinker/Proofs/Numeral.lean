import Mathlib.Algebra.Group.Nat.Defs
import RomLinker.Address

/-!
Numerals read back. The reader takes the digits of a numeral to its value (`valueFrom?_numeral`), so
that different numbers have different numerals, and an address reads back as its low 24 bits
(`parse?_render`). An address that was read has no more bits than these (`parse?_lt`).
-/
namespace RomLinker.Text

theorem hexDigit?_digitChar {d : Nat} (h : d < 16) : hexDigit? (digitChar d) = some d := by
  revert d
  decide

theorem decimalDigit?_digitChar {d : Nat} (h : d < 10) : decimalDigit? (digitChar d) = some d := by
  revert d
  decide

theorem lt_of_hexDigit? {c : Char} {d : Nat} (read : hexDigit? c = some d) : d < 16 := by
  have order (a b : Char) : a ≤ b ↔ a.toNat ≤ b.toNat := UInt32.le_iff_toNat_le
  have digits : '0'.toNat = 0x30 ∧ '9'.toNat = 0x39 := by decide
  have letters : 'a'.toNat = 0x61 ∧ 'f'.toNat = 0x66 ∧ 'A'.toNat = 0x41 ∧ 'F'.toNat = 0x46 := by decide
  simp only [hexDigit?, order] at read
  split at read
  · cases read
    omega
  · split at read
    · cases read
      omega
    · split at read
      · cases read
        omega
      · cases read

theorem numeral_of_lt {base n : Nat} (h : n < base) : numeral base n = [digitChar n] := by
  rw [numeral, dif_pos (Or.inr h)]

theorem numeral_of_le {base n : Nat} (two : 2 ≤ base) (h : base ≤ n) :
    numeral base n = numeral base (n / base) ++ [digitChar (n % base)] := by
  rw [numeral, dif_neg (by omega)]

theorem exists_digit_of_mem_numeral {base n : Nat} (two : 2 ≤ base) {c : Char}
    (h : c ∈ numeral base n) : ∃ d < base, c = digitChar d := by
  induction n using Nat.strongRecOn with
  | ind n ih =>
    by_cases small : n < base
    · rw [numeral_of_lt small] at h
      exact ⟨n, small, List.mem_singleton.mp h⟩
    · have shorter : n / base < n := Nat.div_lt_self (by omega) (by omega)
      rw [numeral_of_le two (by omega)] at h
      rcases List.mem_append.mp h with h | h
      · exact ih _ shorter h
      · exact ⟨n % base, Nat.mod_lt _ (by omega), List.mem_singleton.mp h⟩

/-! ### Values -/

section
variable {base bound : Nat} {digit? : Char → Option Nat}

theorem valueFrom?_append (high : Nat) (xs ys : List Char) :
    valueFrom? base bound digit? high (xs ++ ys) =
      (valueFrom? base bound digit? high xs).bind fun v => valueFrom? base bound digit? v ys := by
  induction xs generalizing high with
  | nil => rfl
  | cons c cs ih =>
    simp only [List.cons_append, valueFrom?]
    split
    · split
      · exact ih _
      · rfl
    · rfl

theorem valueFrom?_singleton {high d : Nat} (read : digit? (digitChar d) = some d)
    (small : high * base + d < bound) :
    valueFrom? base bound digit? high [digitChar d] = some (high * base + d) := by
  simp [valueFrom?, read, small]

theorem valueFrom?_numeral (two : 2 ≤ base) (read : ∀ d < base, digit? (digitChar d) = some d)
    {n : Nat} (small : n < bound) : valueFrom? base bound digit? 0 (numeral base n) = some n := by
  induction n using Nat.strongRecOn with
  | ind n ih =>
    by_cases one : n < base
    · rw [numeral_of_lt one, valueFrom?_singleton (read n one) (by omega)]
      simp
    · have shorter : n / base < n := Nat.div_lt_self (by omega) (by omega)
      have whole : n / base * base + n % base = n := by
        rw [Nat.mul_comm]
        exact Nat.div_add_mod n base
      rw [numeral_of_le two (by omega), valueFrom?_append, ih _ shorter (by omega), Option.bind_some,
        valueFrom?_singleton (read _ (Nat.mod_lt _ (by omega))) (by omega), whole]

theorem numeral_injective (two : 2 ≤ base) (read : ∀ d < base, digit? (digitChar d) = some d)
    {m n : Nat} (same : numeral base m = numeral base n) : m = n := by
  have left := valueFrom?_numeral two read (show m < max m n + 1 by omega)
  have right := valueFrom?_numeral two read (show n < max m n + 1 by omega)
  rw [same] at left
  exact Option.some.inj (left.symm.trans right)

theorem takeWhile_numeral_append (two : 2 ≤ base)
    (read : ∀ d < base, digit? (digitChar d) = some d) (n : Nat) {rest : List Char}
    (stop : ∀ c ∈ rest.head?, digit? c = none) :
    (numeral base n ++ rest).takeWhile (fun c => (digit? c).isSome) = numeral base n := by
  rw [List.takeWhile_append_of_pos]
  · cases rest with
    | nil => simp
    | cons c cs => simp [stop c rfl]
  · intro c member
    obtain ⟨d, small, rfl⟩ := exists_digit_of_mem_numeral two member
    simp [read d small]

/-- A numeral ends where the digits end. -/
theorem numeral_append_inj (two : 2 ≤ base) (read : ∀ d < base, digit? (digitChar d) = some d)
    {m n : Nat} {s t : List Char} (left : ∀ c ∈ s.head?, digit? c = none)
    (right : ∀ c ∈ t.head?, digit? c = none)
    (same : numeral base m ++ s = numeral base n ++ t) : m = n ∧ s = t := by
  have digits : numeral base m = numeral base n := by
    rw [← takeWhile_numeral_append two read m left, same, takeWhile_numeral_append two read n right]
  obtain rfl := numeral_injective two read digits
  exact ⟨rfl, List.append_cancel_left same⟩

/-- The number that digits stand for, of any size, behind digits worth `high`. -/
def valueBehind (base : Nat) (digit? : Char → Option Nat) (high : Nat) (digits : List Char) : Nat :=
  digits.foldl (fun high c => high * base + (digit? c).getD 0) high

theorem le_valueBehind (pos : 0 < base) (high : Nat) (digits : List Char) :
    high ≤ valueBehind base digit? high digits := by
  induction digits generalizing high with
  | nil => exact Nat.le_refl _
  | cons c digits ih =>
    calc high ≤ high * base := Nat.le_mul_of_pos_right high pos
      _ ≤ high * base + (digit? c).getD 0 := Nat.le_add_right _ _
      _ ≤ _ := ih _

theorem valueFrom?_eq_some (pos : 0 < base) {high value : Nat} {digits : List Char}
    (small : high < bound) : valueFrom? base bound digit? high digits = some value ↔
      (∀ c ∈ digits, (digit? c).isSome = true) ∧ valueBehind base digit? high digits = value ∧
        value < bound := by
  induction digits generalizing high with
  | nil =>
    constructor
    · intro read
      obtain rfl := Option.some.inj read
      exact ⟨nofun, rfl, small⟩
    · rintro ⟨-, rfl, -⟩
      rfl
  | cons c digits ih =>
    rw [List.forall_mem_cons, valueFrom?]
    cases digit : digit? c with
    | none => simp
    | some d =>
      have next : valueBehind base digit? high (c :: digits) =
          valueBehind base digit? (high * base + d) digits := by
        simp only [valueBehind, List.foldl_cons, digit, Option.getD_some]
      rw [next]
      dsimp only
      split
      · rename_i fits
        rw [ih fits]
        exact ⟨fun h => ⟨⟨rfl, h.1⟩, h.2⟩, fun h => ⟨h.1.2, h.2⟩⟩
      · rename_i wide
        constructor
        · exact nofun
        · rintro ⟨-, rfl, fits⟩
          have grows : high * base + d ≤ valueBehind base digit? (high * base + d) digits :=
            le_valueBehind pos _ _
          omega

theorem value?_eq_some (pos : 0 < base) (room : 0 < bound) {value : Nat} {digits : List Char} :
    value? base bound digit? digits = some value ↔ digits ≠ [] ∧
      (∀ c ∈ digits, (digit? c).isSome = true) ∧ valueBehind base digit? 0 digits = value ∧
        value < bound := by
  unfold value?
  cases digits with
  | nil => simp
  | cons c digits =>
    have read : valueFrom? base bound digit? 0 (c :: digits) = some value ↔ _ :=
      valueFrom?_eq_some pos room
    simpa using read

end

theorem map_value?_eq_some {digits : List Char} {w : UInt32} :
    (value? 16 0x100000000 hexDigit? digits).map UInt32.ofNat = some w ↔ digits ≠ [] ∧
      (∀ c ∈ digits, isHexDigit c = true) ∧ valueBehind 16 hexDigit? 0 digits = w.toNat := by
  have read {n : Nat} : value? 16 0x100000000 hexDigit? digits = some n ↔ _ :=
    value?_eq_some (by decide) (by decide)
  rw [Option.map_eq_some_iff]
  constructor
  · rintro ⟨n, found, rfl⟩
    obtain ⟨filled, hex, same, small⟩ := read.mp found
    have kept : (UInt32.ofNat n).toNat = n := UInt32.toNat_ofNat_of_lt' small
    exact ⟨filled, hex, same.trans kept.symm⟩
  · rintro ⟨filled, hex, same⟩
    exact ⟨w.toNat, read.mpr ⟨filled, hex, same, w.toNat_lt⟩, UInt32.ofNat_toNat⟩

theorem hex_append_inj {m n : Nat} {s t : List Char} (left : ∀ c ∈ s.head?, hexDigit? c = none)
    (right : ∀ c ∈ t.head?, hexDigit? c = none) (same : numeral 16 m ++ s = numeral 16 n ++ t) :
    m = n ∧ s = t :=
  numeral_append_inj (by decide) (fun _ => hexDigit?_digitChar) left right same

theorem decimal_append_inj {m n : Nat} {s t : List Char}
    (left : ∀ c ∈ s.head?, decimalDigit? c = none) (right : ∀ c ∈ t.head?, decimalDigit? c = none)
    (same : numeral 10 m ++ s = numeral 10 n ++ t) : m = n ∧ s = t :=
  numeral_append_inj (by decide) (fun _ => decimalDigit?_digitChar) left right same

theorem valueFrom?_fixedHex {bound : Nat} (width n : Nat) (room : Nat.pow 16 width ≤ bound) :
    valueFrom? 16 bound hexDigit? 0 (fixedHex width n) = some (n % Nat.pow 16 width) := by
  induction width generalizing n with
  | zero => simp [fixedHex, valueFrom?, Nat.mod_one]
  | succ width ih =>
    have split : Nat.pow 16 (width + 1) = 16 * Nat.pow 16 width := Nat.pow_succ'
    have digits : n / 16 % Nat.pow 16 width * 16 + n % 16 = n % Nat.pow 16 (width + 1) := by
      rw [split, Nat.mod_mul, Nat.mul_comm, Nat.add_comm]
    have below : n % Nat.pow 16 (width + 1) < bound :=
      Nat.lt_of_lt_of_le (Nat.mod_lt _ (Nat.pow_pos (by decide))) room
    rw [fixedHex, valueFrom?_append,
      ih _ (Nat.le_trans (Nat.pow_le_pow_right (by decide) (Nat.le_succ width)) room),
      Option.bind_some, valueFrom?_singleton (hexDigit?_digitChar (Nat.mod_lt _ (by decide)))
        (by omega), digits]

/-! ### Bounds -/

theorem valueFrom?_lt {base bound : Nat} {digit? : Char → Option Nat}
    (small : ∀ c d, digit? c = some d → d < base) {high v : Nat} {cs : List Char}
    (read : valueFrom? base bound digit? high cs = some v) : v < (high + 1) * base ^ cs.length := by
  induction cs generalizing high with
  | nil =>
    cases read
    simp
  | cons c cs ih =>
    unfold valueFrom? at read
    split at read
    · rename_i d digit
      simp only at read
      split at read
      · have room : high * base + d + 1 ≤ (high + 1) * base := by
          have below := small c d digit
          rw [Nat.add_mul]
          omega
        calc v < (high * base + d + 1) * base ^ cs.length := ih read
          _ ≤ (high + 1) * base * base ^ cs.length := Nat.mul_le_mul_right _ room
          _ = (high + 1) * base ^ (c :: cs).length := by
            rw [List.length_cons, Nat.pow_succ', Nat.mul_assoc]
      · cases read
    · cases read

theorem length_le_utf8ByteSize (cs : List Char) : cs.length ≤ (String.ofList cs).utf8ByteSize := by
  induction cs with
  | nil => exact Nat.zero_le _
  | cons c cs ih =>
    have first : 0 < c.utf8Size := Char.utf8Size_pos c
    have split : String.ofList (c :: cs) = String.singleton c ++ String.ofList cs := by
      rw [String.singleton_eq_ofList, ← String.ofList_append]
      rfl
    rw [split, String.utf8ByteSize_append, String.utf8ByteSize_singleton, List.length_cons]
    omega

theorem word?_lt {cs : List Char} {a : UInt32} (read : word? cs = some a) : a.toNat < 16 ^ cs.length := by
  unfold word? at read
  obtain ⟨v, value, rfl⟩ := Option.map_eq_some_iff.mp read
  have shorter : ∀ digits : List Char, digits.length ≤ cs.length →
      value? 16 0x100000000 hexDigit? digits = some v → v < 16 ^ cs.length := by
    intro digits short value
    unfold value? at value
    split at value
    · cases value
    · have below := valueFrom?_lt (fun _ _ => lt_of_hexDigit?) value
      rw [Nat.zero_add, Nat.one_mul] at below
      exact Nat.lt_of_lt_of_le below (Nat.pow_le_pow_right (by decide) short)
  have small : v < 16 ^ cs.length := by
    split at value
    · exact shorter _ (Nat.le_succ _) value
    · exact shorter _ (Nat.le_refl _) value
  have low : (UInt32.ofNat v).toNat ≤ v := by
    rw [UInt32.toNat_ofNat']
    exact Nat.mod_le _ _
  omega

end RomLinker.Text

namespace RomLinker.Address
open Text

theorem digitChar_plain {d : Nat} (h : d < 16) :
    digitChar d ≠ '+' ∧ isBlank (digitChar d) = false ∧ (digitChar d).utf8Size = 1 := by
  revert d
  decide

theorem utf8ByteSize_fixedHex (width n : Nat) : (String.ofList (fixedHex width n)).utf8ByteSize = width := by
  induction width generalizing n with
  | zero => rfl
  | succ width ih =>
    have last := (digitChar_plain (Nat.mod_lt n (by decide : 0 < 16))).2.2
    rw [fixedHex, String.ofList_append, String.utf8ByteSize_append, ih, ← String.singleton_eq_ofList,
      String.utf8ByteSize_singleton, last]

theorem trim_dollar_fixedHex (width n : Nat) :
    trim ('$' :: fixedHex (width + 1) n) = '$' :: fixedHex (width + 1) n := by
  have start : isBlank '$' = false := by decide
  have stop := (digitChar_plain (Nat.mod_lt n (by decide : 0 < 16))).2.1
  simp [trim, trimStart, trimEnd, fixedHex, start, stop]

/-- Without a sign in front, the digits alone are read. -/
theorem word?_of_unsigned {cs : List Char} (unsigned : ∀ c ∈ cs, c ≠ '+') :
    word? cs = (value? 16 0x100000000 hexDigit? cs).map UInt32.ofNat := by
  unfold word?
  split
  · exact absurd rfl (unsigned _ List.mem_cons_self)
  · rfl

theorem word?_fixedHex {width : Nat} (n : Nat) (pos : 0 < width) (room : width ≤ 8) :
    word? (fixedHex width n) = some (UInt32.ofNat (n % Nat.pow 16 width)) := by
  have unsigned : ∀ c ∈ fixedHex width n, c ≠ '+' := by
    intro c member
    obtain ⟨d, small, rfl⟩ := exists_digit_of_mem_fixedHex member
    exact (digitChar_plain small).1
  have digits : (fixedHex width n).isEmpty = false := by
    rw [List.isEmpty_eq_false_iff, ← List.length_pos_iff, length_fixedHex]
    exact pos
  have fits : Nat.pow 16 width ≤ 0x100000000 := Nat.pow_le_pow_right (n := 16) (by decide) room
  rw [word?_of_unsigned unsigned, value?, digits, valueFrom?_fixedHex width n fits]
  rfl

theorem parse?_render (a : Address) : parse? a.render = some (UInt32.ofNat (a.toNat % limit)) := by
  have size := utf8ByteSize_fixedHex 6 (a.toNat % limit)
  simp only [parse?, render, String.toList_ofList, trim_dollar_fixedHex, size]
  rw [if_neg (by decide), word?_fixedHex _ (by decide) (by decide)]
  show some (UInt32.ofNat (a.toNat % limit % limit)) = _
  rw [Nat.mod_mod]

theorem parse?_lt {s : String} {a : Address} (read : parse? s = some a) : a.toNat < limit := by
  have shape : ∃ digits : List Char,
      (if (String.ofList digits).utf8ByteSize > 6 then none else word? digits) = some a := ⟨_, read⟩
  obtain ⟨digits, read⟩ := shape
  split at read
  · cases read
  · rename_i short
    have few := Nat.le_trans (length_le_utf8ByteSize digits) (Nat.le_of_not_lt short)
    calc a.toNat < 16 ^ digits.length := word?_lt read
      _ ≤ 16 ^ 6 := Nat.pow_le_pow_right (by decide) few
      _ = limit := rfl

end RomLinker.Address
