import Mathlib.Algebra.BigOperators.Group.List.Basic
import Mathlib.Algebra.GroupWithZero.Nat
import RomLinker.Image.Checksum

/-!
What the checksum sums up: the image, mirrored until its size is a power of two (`checksum_mirrored`). The
sum is taken without building that image; it comes out the same in whole numbers (`wholeSum`) as in words
that wrap.
-/
namespace RomLinker.Image

def byteSum (bytes : List UInt8) : Nat := (bytes.map UInt8.toNat).sum

@[simp] theorem byteSum_nil : byteSum [] = 0 := rfl

@[simp] theorem byteSum_cons (b : UInt8) (bytes : List UInt8) :
    byteSum (b :: bytes) = b.toNat + byteSum bytes := by simp [byteSum]

@[simp] theorem byteSum_append (xs ys : List UInt8) : byteSum (xs ++ ys) = byteSum xs + byteSum ys := by
  simp [byteSum]

/-- A block repeated from its start until there are `span` bytes. -/
def cycle (block : List UInt8) (span : Nat) : List UInt8 :=
  (List.range span).map fun i => block.getD (i % block.length) 0

@[simp] theorem length_cycle (block : List UInt8) (span : Nat) : (cycle block span).length = span := by
  simp [cycle]

theorem map_getD_range (block : List UInt8) :
    ((List.range block.length).map fun i => block.getD (i % block.length) 0) = block := by
  refine List.ext_getElem (by simp) fun i _ bound => ?_
  simp [Nat.mod_eq_of_lt bound, bound]

theorem cycle_mul (block : List UInt8) (n : Nat) :
    cycle block (block.length * (n + 1)) = cycle block (block.length * n) ++ block := by
  have again : ((List.range block.length).map fun i =>
      block.getD ((block.length * n + i) % block.length) 0) = block := by
    simp only [Nat.mul_add_mod]
    exact map_getD_range block
  rw [cycle, Nat.mul_succ, List.range_add, List.map_append, List.map_map]
  exact congrArg _ again

theorem byteSum_cycle (block : List UInt8) (n : Nat) :
    byteSum (cycle block (block.length * n)) = byteSum block * n := by
  induction n with
  | zero => rfl
  | succ n ih => rw [cycle_mul, byteSum_append, ih, Nat.mul_succ]

theorem powerBelow_pos (n : Nat) : 0 < powerBelow n := Nat.two_pow_pos _

/-- A block of a power of two repeats. Of any other block the part behind the largest power of two is itself
mirrored up to that size first. -/
def mirror (block : List UInt8) (span : Nat) : List UInt8 :=
  if _h : block = [] then []
  else
    let base := powerBelow block.length
    if base = block.length then cycle block span
    else cycle (block.take base ++ mirror (block.drop base) base) span
termination_by block.length
decreasing_by
  have pos := powerBelow_pos block.length
  have filled := List.length_pos_iff.mpr _h
  rw [List.length_drop]
  omega

/-- The sum of the mirrored image from the sums of its parts, in whole numbers. -/
def wholeSum (block : List UInt8) (span : Nat) : Nat :=
  if _h : block = [] then 0
  else
    let base := powerBelow block.length
    if base = block.length then byteSum block * (span / base)
    else (byteSum (block.take base) + wholeSum (block.drop base) base) * (span / (base * 2))
termination_by block.length
decreasing_by
  have pos := powerBelow_pos block.length
  have filled := List.length_pos_iff.mpr _h
  rw [List.length_drop]
  omega

theorem length_mirror {block : List UInt8} (filled : block ≠ []) (span : Nat) :
    (mirror block span).length = span := by
  rw [mirror, dif_neg filled]
  dsimp only
  split <;> exact length_cycle _ _

/-- The largest power of two that a block has room for, and how often it fits into a larger one. -/
theorem exists_powerBelow {n k : Nat} (pos : n ≠ 0) (fits : n ≤ 2 ^ k) :
    ∃ j, powerBelow n = 2 ^ j ∧ 2 ^ j ≤ n ∧ n < 2 ^ j * 2 ∧ j ≤ k ∧ (2 ^ j ≠ n → j < k) := by
  have below : 2 ^ n.log2 ≤ n := Nat.log2_self_le pos
  have above : n < 2 ^ (n.log2 + 1) := Nat.lt_log2_self
  refine ⟨n.log2, rfl, below, above, ?_, fun uneven => ?_⟩
  · exact (Nat.pow_le_pow_iff_right Nat.one_lt_two).mp (Nat.le_trans below fits)
  · exact (Nat.pow_lt_pow_iff_right Nat.one_lt_two).mp (Nat.lt_of_lt_of_le (Nat.lt_of_le_of_ne below uneven) fits)

theorem two_pow_mul_div {j k : Nat} (le : j ≤ k) : 2 ^ j * (2 ^ k / 2 ^ j) = 2 ^ k :=
  Nat.mul_div_cancel' (Nat.pow_dvd_pow 2 le)

theorem byteSum_mirror (block : List UInt8) {k : Nat} (fits : block.length ≤ 2 ^ k) :
    byteSum (mirror block (2 ^ k)) = wholeSum block (2 ^ k) := by
  induction size : block.length using Nat.strongRecOn generalizing block k with
  | ind n ih =>
    rw [mirror, wholeSum]
    by_cases empty : block = []
    · simp [empty]
    have filled : block.length ≠ 0 := fun none => empty (List.length_eq_zero_iff.mp none)
    obtain ⟨j, power, below, above, le, lt⟩ := exists_powerBelow filled fits
    rw [dif_neg empty, dif_neg empty]
    dsimp only
    rw [power]
    by_cases even : 2 ^ j = block.length
    · have parts := byteSum_cycle block (2 ^ k / 2 ^ j)
      rw [← even, two_pow_mul_div le] at parts
      rw [if_pos even, if_pos even, parts]
    · -- the rest is not empty, and its mirror doubles the front
      have rest : block.drop (2 ^ j) ≠ [] := by
        rw [ne_eq, List.drop_eq_nil_iff]
        omega
      have smaller : (block.drop (2 ^ j)).length < n := by
        have pos := Nat.two_pow_pos j
        rw [List.length_drop]
        omega
      have behind := ih _ smaller (block.drop (2 ^ j)) (k := j) (by rw [List.length_drop]; omega) rfl
      have double : (block.take (2 ^ j) ++ mirror (block.drop (2 ^ j)) (2 ^ j)).length = 2 ^ (j + 1) := by
        rw [List.length_append, List.length_take_of_le below, length_mirror rest, Nat.pow_succ]
        omega
      have parts := byteSum_cycle (block.take (2 ^ j) ++ mirror (block.drop (2 ^ j)) (2 ^ j))
        (2 ^ k / 2 ^ (j + 1))
      rw [double, two_pow_mul_div (lt even), byteSum_append, behind] at parts
      rw [if_neg even, if_neg even, parts, Nat.pow_succ]

def slice (data : ByteArray) (i n : Nat) : List UInt8 := (data.data.toList.drop i).take n

variable {data : ByteArray} {i n : Nat}

theorem length_slice (inside : i + n ≤ data.size) : (slice data i n).length = n := by
  have size : data.data.toList.length = data.size := rfl
  rw [slice, List.length_take, List.length_drop, size]
  omega

theorem slice_succ (inside : i + (n + 1) ≤ data.size) :
    slice data i (n + 1) = data.get! i :: slice data (i + 1) n := by
  have bound : i < data.data.toList.length := by
    have size : data.data.toList.length = data.size := rfl
    omega
  have first : data.data.toList[i] = data.get! i := by
    rw [ByteArray.get!, getElem!_pos data.data i (by simpa using bound), Array.getElem_toList]
  rw [slice, List.drop_eq_getElem_cons bound, List.take_succ_cons, first]
  rfl

theorem take_slice {m : Nat} (le : m ≤ n) : (slice data i n).take m = slice data i m := by
  rw [slice, List.take_take, Nat.min_eq_left le, slice]

theorem drop_slice (m : Nat) : (slice data i n).drop m = slice data (i + m) (n - m) := by
  rw [slice, List.drop_take, List.drop_drop, slice]

theorem toNat_sumFrom (sum : UInt32) (inside : i + n ≤ data.size) :
    (sumFrom data sum i n).toNat = (sum.toNat + byteSum (slice data i n)) % 2 ^ 32 := by
  induction n generalizing sum i with
  | zero => simp [sumFrom, slice, Nat.mod_eq_of_lt sum.toNat_lt]
  | succ n ih =>
    rw [sumFrom, ih _ (by omega), slice_succ inside, byteSum_cons, UInt32.toNat_add, UInt8.toNat_toUInt32,
      Nat.mod_add_mod, Nat.add_assoc]

/-- Neither the wrapping nor the lower bound of the factor makes a difference. -/
theorem toNat_repeatedSum {len k : Nat} (inside : i + len ≤ data.size) (fits : len ≤ 2 ^ k) :
    (repeatedSum data i len (2 ^ k)).toNat = wholeSum (slice data i len) (2 ^ k) % 2 ^ 32 := by
  induction len using Nat.strongRecOn generalizing i k with
  | ind len ih =>
    have size := length_slice inside
    rw [repeatedSum, wholeSum]
    by_cases empty : len = 0
    · have nothing : slice data i len = [] := List.length_eq_zero_iff.mp (size.trans empty)
      rw [dif_pos empty, dif_pos nothing]
      rfl
    have filled : slice data i len ≠ [] := fun nothing => empty (by rw [← size, nothing]; rfl)
    obtain ⟨j, power, below, above, le, lt⟩ := exists_powerBelow empty fits
    rw [dif_neg empty, dif_neg filled, size]
    dsimp only
    rw [power]
    by_cases even : 2 ^ j = len
    · rw [if_pos even, if_pos even, UInt32.toNat_mul, toNat_sumFrom 0 inside, UInt32.toNat_ofNat',
        UInt32.toNat_zero, Nat.zero_add, ← Nat.mul_mod]
    · have pos := Nat.two_pow_pos j
      have behind := ih (len - 2 ^ j) (by omega) (i := i + 2 ^ j) (k := j) (by omega) (by omega)
      -- the span is at least twice the front, so that the bound of the factor is never reached
      have factor : 1 ≤ 2 ^ k / (2 ^ j * 2) := by
        rw [← Nat.pow_succ]
        exact Nat.div_pos (Nat.pow_le_pow_right (by decide) (lt even)) (Nat.two_pow_pos _)
      rw [if_neg even, if_neg even, Nat.max_eq_left factor, UInt32.toNat_mul, UInt32.toNat_add, behind,
        toNat_sumFrom 0 (by omega), UInt32.toNat_ofNat', UInt32.toNat_zero, Nat.zero_add,
        ← Nat.add_mod, ← Nat.mul_mod, take_slice below, drop_slice]

open private Nat.nextPowerOfTwo.go from Init.Data.Nat.Power2.Basic in
theorem le_nextPowerOfTwo (n : Nat) : n ≤ n.nextPowerOfTwo := by
  have reaches (power : Nat) (pos : power > 0) : n ≤ Nat.nextPowerOfTwo.go n power pos := by
    fun_induction Nat.nextPowerOfTwo.go n power pos with
    | case1 power pos below ih => exact ih
    | case2 power pos reached => exact Nat.le_of_not_lt reached
  exact reaches 1 _

/-- The checksum is the sum of the mirrored image, modulo 2^16: of all bytes there are when the image is
repeated to the next power of two. The sum of the parts gives the same in whole numbers. -/
theorem checksum_mirrored (body : ByteArray) :
    let span := body.size.nextPowerOfTwo
    let image := mirror body.data.toList span
    (checksum body).toNat = byteSum image % 2 ^ 16 ∧
      wholeSum body.data.toList span = byteSum image ∧
      image.length = if body.size = 0 then 0 else span := by
  intro span image
  obtain ⟨k, power⟩ := Nat.isPowerOfTwo_nextPowerOfTwo body.size
  have size : body.data.toList.length = body.size := rfl
  have fits : body.size ≤ 2 ^ k := power ▸ le_nextPowerOfTwo body.size
  have whole : slice body 0 body.size = body.data.toList := by
    rw [slice, List.drop_zero, ← size, List.take_length]
  have sum : wholeSum body.data.toList span = byteSum image := by
    change _ = byteSum (mirror _ body.size.nextPowerOfTwo)
    rw [power, byteSum_mirror _ (size ▸ fits), ← power]
  refine ⟨?_, sum, ?_⟩
  · have inside : 0 + body.size ≤ body.size := by omega
    have words := toNat_repeatedSum inside fits
    rw [whole, ← power] at words
    have mask : (0xFFFF : UInt32).toNat = 2 ^ 16 - 1 := rfl
    rw [checksum, UInt32.toNat_toUInt16, UInt32.toNat_and, words, sum, mask, Nat.and_two_pow_sub_one_eq_mod,
      Nat.mod_mod, Nat.mod_mod_of_dvd _ (Nat.pow_dvd_pow 2 (by decide))]
  · split
    · rename_i none
      have empty : body.data.toList = [] := List.length_eq_zero_iff.mp none
      change (mirror body.data.toList span).length = 0
      rw [empty, mirror, dif_pos rfl]
      rfl
    · rename_i some
      exact length_mirror (fun empty => some (by rw [← size, empty]; rfl)) span

example : mirror [1, 2, 3, 4, 5, 6, 7] 8 = [1, 2, 3, 4, 5, 6, 7, 7] := by decide +kernel

end RomLinker.Image
