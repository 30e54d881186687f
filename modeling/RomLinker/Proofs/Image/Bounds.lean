import RomLinker.Proofs.Image.Mirror
import RomLinker.Session

/-!
Bounds. Each reader of a ROM has a guarded form that gives nothing where it would read a byte that is not
there, cut where there is nothing to cut, or need more than 32 bits for an offset. None of this happens, whatever
the file (`acceptWithin_eq`).
-/
namespace RomLinker

namespace Image

def byteWithin (data : ByteArray) (i : Nat) : Option UInt8 := data.data[i]?

def wordWithin (data : ByteArray) (i : Nat) : Option UInt16 := do
  let low ← byteWithin data i
  let high ← byteWithin data (i + 1)
  return low.toUInt16 ||| high.toUInt16 <<< 8

def partWithin (data : ByteArray) (start stop : Nat) : Option ByteArray :=
  if start ≤ stop ∧ stop ≤ data.size then some (data.extract start stop) else none

def offsetWithin (n : Nat) : Option Nat := if n < 0x100000000 then some n else none

def sumWithin (data : ByteArray) (sum : UInt32) (i : Nat) : Nat → Option UInt32
  | 0 => some sum
  | n + 1 => do
    let b ← byteWithin data i
    sumWithin data (sum + b.toUInt32) (i + 1) n

/-- The block that is summed up is cut in two behind its largest power of two, by which the span is divided. -/
def repeatedSumWithin (data : ByteArray) (i len span : Nat) : Option UInt32 :=
  if _h : len = 0 then some 0
  else
    let base := powerBelow len
    if base = 0 ∨ len < base then none
    else if base = len then do
      let sum ← sumWithin data 0 i len
      return sum * UInt32.ofNat (span / base)
    else do
      let next ← offsetWithin (i + base)
      let double ← offsetWithin (base * 2)
      let front ← sumWithin data 0 i base
      let rest ← repeatedSumWithin data next (len - base) base
      return (front + rest) * UInt32.ofNat (max (span / double) 1)
termination_by len
decreasing_by have : 0 < powerBelow len := Nat.two_pow_pos len.log2; omega

def checksumWithin (body : ByteArray) : Option UInt16 := do
  let span ← offsetWithin body.size.nextPowerOfTwo
  let sum ← repeatedSumWithin body 0 body.size span
  return (sum &&& 0xFFFF).toUInt16

variable {data : ByteArray} {i n : Nat}

theorem byteWithin_eq (inside : i < data.size) : byteWithin data i = some (data.get! i) := by
  have bound : i < data.data.size := inside
  rw [byteWithin, getElem?_pos data.data i bound, ByteArray.get!, getElem!_pos data.data i bound]

theorem partWithin_eq {start stop : Nat} (ordered : start ≤ stop) (inside : stop ≤ data.size) :
    partWithin data start stop = some (data.extract start stop) := if_pos ⟨ordered, inside⟩

theorem offsetWithin_eq (small : n < 0x100000000) : offsetWithin n = some n := if_pos small

theorem sumWithin_eq (sum : UInt32) (inside : i + n ≤ data.size) :
    sumWithin data sum i n = some (sumFrom data sum i n) := by
  induction n generalizing sum i with
  | zero => rfl
  | succ n ih =>
    rw [sumWithin, byteWithin_eq (by omega)]
    exact ih _ (by omega)

theorem repeatedSumWithin_eq {len : Nat} (span : Nat) (inside : i + len ≤ data.size)
    (small : data.size ≤ 0x1000000) :
    repeatedSumWithin data i len span = some (repeatedSum data i len span) := by
  induction len using Nat.strongRecOn generalizing i span with
  | ind len ih =>
    rw [repeatedSumWithin, repeatedSum]
    by_cases empty : len = 0
    · rw [dif_pos empty, dif_pos empty]
    have below : powerBelow len ≤ len := Nat.log2_self_le empty
    have pos := powerBelow_pos len
    rw [dif_neg empty, dif_neg empty]
    dsimp only
    rw [if_neg (by omega)]
    by_cases even : powerBelow len = len
    · rw [if_pos even, if_pos even, sumWithin_eq 0 inside]
      rfl
    · rw [if_neg even, if_neg even, offsetWithin_eq (by omega), offsetWithin_eq (by omega),
        sumWithin_eq 0 (by omega)]
      show (repeatedSumWithin data (i + powerBelow len) (len - powerBelow len) (powerBelow len)).bind _ = _
      rw [ih _ (by omega) _ (by omega)]
      rfl

open private Nat.nextPowerOfTwo.go from Init.Data.Nat.Power2.Basic in
theorem nextPowerOfTwo_lt (pos : 0 < n) : n.nextPowerOfTwo < 2 * n := by
  have reaches (power : Nat) (positive : power > 0) (low : power < 2 * n) :
      Nat.nextPowerOfTwo.go n power positive < 2 * n := by
    fun_induction Nat.nextPowerOfTwo.go n power positive with
    | case1 power positive below ih => exact ih (by omega)
    | case2 power positive reached => exact low
  exact reaches 1 _ (by omega)

theorem checksumWithin_eq (filled : 0 < data.size) (small : data.size ≤ 0x1000000) :
    checksumWithin data = some (checksum data) := by
  have span := nextPowerOfTwo_lt filled
  rw [checksumWithin, offsetWithin_eq (by omega)]
  show (repeatedSumWithin data 0 data.size data.size.nextPowerOfTwo).bind _ = _
  rw [repeatedSumWithin_eq _ (by omega) small]
  rfl

end Image

namespace Header
open Image

/-- The inner result tells whether the image reaches as far as the header. -/
def readWithin (body : ByteArray) (mapping : Mapping) : Option (Option Header) := do
  let offset := mapping.headerStart
  if body.size < offset + size then return none
  let title ← (List.range titleSize).mapM fun i => byteWithin body (offset + i)
  let mapMode ← byteWithin body (offset + mapModeOffset)
  let complement ← wordWithin body (offset + complementOffset)
  let checksum ← wordWithin body (offset + checksumOffset)
  return some {
    mapping
    title := String.ofList (Text.trimEnd (title.map titleChar))
    mapMode
    complement
    checksum }

def locateWithin (body : ByteArray) : Option (Option Header) := do
  let first ← readWithin body .loRom
  match first.filter isComplementary with
  | some header => return some header
  | none =>
    let second ← readWithin body .hiRom
    return second.filter isComplementary

variable {body : ByteArray}

theorem wordWithin_eq {i : Nat} (inside : i + 1 < body.size) : wordWithin body i = some (wordAt body i) := by
  rw [wordWithin, byteWithin_eq (by omega), byteWithin_eq inside]
  rfl

theorem titleWithin_eq {offset : Nat} (inside : offset + titleSize ≤ body.size) :
    ((List.range titleSize).mapM fun i => byteWithin body (offset + i)) =
      some ((List.range titleSize).map fun i => body.get! (offset + i)) := by
  have within : ∀ i ∈ List.range titleSize, byteWithin body (offset + i) = some (body.get! (offset + i)) :=
    fun i member => byteWithin_eq (by have := List.mem_range.mp member; omega)
  generalize List.range titleSize = places at within
  induction places with
  | nil => rfl
  | cons i places ih =>
    obtain ⟨first, rest⟩ := List.forall_mem_cons.mp within
    rw [List.mapM_cons, first, ih rest]
    rfl

theorem readWithin_eq (body : ByteArray) (mapping : Mapping) :
    readWithin body mapping = some (read? body mapping) := by
  unfold readWithin read?
  dsimp only
  by_cases short : body.size < mapping.headerStart + size
  · rw [if_pos short, if_pos short]
    rfl
  · have room : mapping.headerStart + 0x20 ≤ body.size := Nat.le_of_not_lt short
    have title : mapping.headerStart + 21 ≤ body.size := by omega
    have mapMode : mapping.headerStart + 0x15 < body.size := by omega
    have complement : mapping.headerStart + 0x1C + 1 < body.size := by omega
    have checksum : mapping.headerStart + 0x1E + 1 < body.size := by omega
    have readMode := byteWithin_eq mapMode
    have readComplement := wordWithin_eq complement
    have readChecksum := wordWithin_eq checksum
    rw [if_neg short, if_neg short, titleWithin_eq title, mapModeOffset, complementOffset, checksumOffset,
      readMode, readComplement, readChecksum]
    simp [List.map_map, Function.comp_def]

theorem locateWithin_eq (body : ByteArray) : locateWithin body = some (locate? body) := by
  simp only [locateWithin, locate?, readWithin_eq, Option.bind_eq_bind, Option.bind_some, List.findSome?_cons,
    List.findSome?_nil]
  cases (read? body .loRom).filter isComplementary with
  | some header => rfl
  | none => cases (read? body .hiRom).filter isComplementary <;> rfl

end Header

namespace Rom

/-- The guarded form of all that is done with a file before it is taken: its header, or why it has none, and
whether the checksum is right. -/
def acceptWithin (data : ByteArray) : Option (Except RomFault (Header × Bool)) := do
  if leadSize data ≠ 0 ∧ leadSize data ≠ copierSize then return .error (.partialBank data.size)
  let body ← Image.partWithin data (leadSize data) data.size
  if body.size = 0 ∨ body.size > maxBodySize then return .error (.unsupportedSize data.size)
  match ← Header.locateWithin body with
  | none => return .error .noHeader
  | some header =>
    let sum ← Image.checksumWithin body
    return .ok (header, header.checksum == sum)

theorem acceptWithin_eq (data : ByteArray) : acceptWithin data =
    some ((headerOf data).map fun header => (header, header.verifies (body data))) := by
  have cut : Image.partWithin data (leadSize data) data.size = some (body data) :=
    Image.partWithin_eq (Nat.mod_le _ _) (Nat.le_refl _)
  unfold acceptWithin headerOf
  by_cases lead : leadSize data ≠ 0 ∧ leadSize data ≠ copierSize
  · rw [if_pos lead, if_pos lead]
    rfl
  rw [if_neg lead, if_neg lead, cut]
  by_cases sized : (body data).size = 0 ∨ (body data).size > maxBodySize
  · simp only [Option.pure_def, Option.bind_eq_bind, Option.bind_some, if_pos sized]
    rfl
  have filled : 0 < (body data).size := by omega
  have small : (body data).size ≤ 0x1000000 := by
    have most : ¬ (body data).size > 0x1000000 := fun more => sized (Or.inr more)
    omega
  simp only [Option.pure_def, Option.bind_eq_bind, Option.bind_some, if_neg sized, Header.locateWithin_eq]
  cases Header.locate? (body data) with
  | none => rfl
  | some header =>
    simp only [Image.checksumWithin_eq filled small]
    rfl

end Rom

end RomLinker
