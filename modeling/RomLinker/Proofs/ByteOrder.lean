import Mathlib.Data.List.Sort
import RomLinker.Text.Utf8

/-!
The order of texts is the order of their bytes (`Text.bytes_lt`). A list that ascends in some order is known by
its members (`eq_of_ascending`).
-/
namespace RomLinker

theorem eq_of_ascending {α β : Type} [LT β] [Std.Irrefl (· < · : β → β → Prop)] [IsTrans β (· < ·)] {key : α → β}
    {xs ys : List α} (ascending : xs.Pairwise fun a b => key a < key b)
    (ascending' : ys.Pairwise fun a b => key a < key b) (members : ∀ a, a ∈ xs ↔ a ∈ ys) : xs = ys := by
  have irrefl : Std.Irrefl fun a b => key a < key b := ⟨fun a => Std.Irrefl.irrefl (key a)⟩
  have antisymm : Std.Antisymm fun a b => key a < key b := by
    refine ⟨fun a b before after => ?_⟩
    exact absurd (IsTrans.trans _ _ _ before after) (Std.Irrefl.irrefl (key a))
  exact ascending.eq_of_mem_iff ascending' members

namespace Text

def bytes (s : String) : List UInt8 := s.toUTF8.data.toList

theorem bytes_eq (s : String) : bytes s = s.toList.flatMap String.utf8EncodeChar := by
  have whole : s.toUTF8 = s.toList.utf8Encode := by
    rw [String.toUTF8_eq_toByteArray, ← String.toByteArray_ofList, String.ofList_toList]
  rw [bytes, whole, List.utf8Encode, List.data_toByteArray]

theorem byte_lt {m n : Nat} {xs ys : List UInt8} (small : n < 256) (less : m < n) :
    UInt8.ofNat m :: xs < UInt8.ofNat n :: ys := by
  have first : UInt8.ofNat m < UInt8.ofNat n :=
    (UInt8.ofNat_lt_iff_lt (Nat.lt_trans less small) small).mpr less
  exact List.cons_lt_cons_iff.mpr (Or.inl first)

theorem bytes_lt_of_le {m n : Nat} {xs ys : List UInt8} (small : n < 256) (le : m ≤ n)
    (rest : m = n → xs < ys) : UInt8.ofNat m :: xs < UInt8.ofNat n :: ys := by
  rcases Nat.lt_or_eq_of_le le with less | same
  · exact byte_lt small less
  · exact List.cons_lt_cons_iff.mpr (Or.inr ⟨congrArg UInt8.ofNat same, rest same⟩)

/-- A smaller character has a smaller first byte if it has fewer bytes. If it has as many, its digits
decide, from the highest one on. -/
theorem encode_lt {c d : Char} (before : c < d) (xs ys : List UInt8) :
    String.utf8EncodeChar c ++ xs < String.utf8EncodeChar d ++ ys := by
  have less : c.val.toNat < d.val.toNat := UInt32.lt_iff_toNat_lt.mp (Char.lt_def.mp before)
  have bound : d.val.toNat < 0x110000 := by
    rcases d.valid with low | ⟨-, high⟩
    · exact Nat.lt_trans low (by decide)
    · exact high
  unfold String.utf8EncodeChar
  generalize c.val.toNat = m at less
  generalize d.val.toNat = n at less bound
  dsimp only
  -- by the length of the smaller one, since 127, 2047 and 65535 are the last codes of their lengths
  by_cases one : m ≤ 127
  · rw [if_pos one]
    split
    · exact byte_lt (by omega) less
    · split
      · exact byte_lt (by omega) (by omega)
      · split
        · exact byte_lt (by omega) (by omega)
        · exact byte_lt (by omega) (by omega)
  rw [if_neg one, if_neg (show ¬n ≤ 127 by omega)]
  by_cases two : m ≤ 2047
  · rw [if_pos two]
    split
    · apply bytes_lt_of_le (by omega) (by omega)
      intro first
      exact byte_lt (by omega) (by omega)
    · split
      · exact byte_lt (by omega) (by omega)
      · exact byte_lt (by omega) (by omega)
  rw [if_neg two, if_neg (show ¬n ≤ 2047 by omega)]
  by_cases three : m ≤ 65535
  · rw [if_pos three]
    split
    · apply bytes_lt_of_le (by omega) (by omega)
      intro first
      apply bytes_lt_of_le (by omega) (by omega)
      intro second
      exact byte_lt (by omega) (by omega)
    · exact byte_lt (by omega) (by omega)
  rw [if_neg three, if_neg (show ¬n ≤ 65535 by omega)]
  apply bytes_lt_of_le (by omega) (by omega)
  intro first
  apply bytes_lt_of_le (by omega) (by omega)
  intro second
  apply bytes_lt_of_le (by omega) (by omega)
  intro third
  exact byte_lt (by omega) (by omega)

theorem bytes_lt {s t : String} (before : s < t) : bytes s < bytes t := by
  rw [bytes_eq, bytes_eq]
  have less : s.toList < t.toList := String.lt_iff.mp before
  generalize s.toList = cs at less
  generalize t.toList = ds at less
  induction less with
  | nil =>
    rename_i d ds
    obtain ⟨b, bs, encoded⟩ := List.exists_cons_of_ne_nil (String.utf8EncodeChar_ne_nil (c := d))
    rw [List.flatMap_cons, encoded]
    exact List.nil_lt_cons _ _
  | rel before => exact encode_lt before _ _
  | cons _ ih => exact List.append_left_lt ih

end Text
end RomLinker
