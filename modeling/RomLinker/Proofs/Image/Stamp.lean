import RomLinker.Proofs.Image.Mirror
import RomLinker.Proofs.Link.Load

/-!
An image that names its own checksum. The checksum is taken before its field is filled in, and holds afterwards:
the bytes of the field lie in one part of the mirrored image, whatever its length (`wholeSum_window`), and add
up to the same for every sum (`byteSum_complement`). So what is written verifies, and is accepted as a ROM
(`writeChecksum_verifies`).
-/
namespace RomLinker.Image

variable {data body : ByteArray} {i k : Nat} {a b c e a' b' c' e' : UInt8}

theorem size_set! : (data.set! i b).size = data.size := Array.size_setIfInBounds

theorem get!_set! : (data.set! i b).get! k = if k = i ∧ i < data.size then b else data.get! k := by
  show (data.data.setIfInBounds i b)[k]! = if k = i ∧ i < data.data.size then b else data.data[k]!
  rw [getElem!_def, Array.getElem?_setIfInBounds, getElem!_def]
  by_cases same : i = k
  · subst same
    by_cases inside : i < data.data.size
    · rw [if_pos rfl, if_pos inside, if_pos ⟨rfl, inside⟩]
    · rw [if_pos rfl, if_neg inside, if_neg fun both => inside both.2, getElem?_neg data.data i inside]
  · rw [if_neg same, if_neg fun both => same both.1.symm]

@[simp] theorem size_setFour : (setFour data i a b c e).size = data.size := by
  simp only [setFour, size_set!]

theorem get!_setFour_of_outside (outside : k < i ∨ i + 4 ≤ k) :
    (setFour data i a b c e).get! k = data.get! k := by
  unfold setFour
  rw [get!_set!, if_neg (by omega), get!_set!, if_neg (by omega), get!_set!, if_neg (by omega), get!_set!,
    if_neg (by omega)]

theorem get!_setFour (inside : i + 4 ≤ data.size) :
    (setFour data i a b c e).get! i = a ∧ (setFour data i a b c e).get! (i + 1) = b ∧
      (setFour data i a b c e).get! (i + 2) = c ∧ (setFour data i a b c e).get! (i + 3) = e := by
  have bounds : i < data.size ∧ i + 1 < data.size ∧ i + 2 < data.size ∧ i + 3 < data.size := by omega
  simp [setFour, get!_set!, bounds]

theorem toList_set! : (data.set! i b).data.toList = data.data.toList.set i b := Array.toList_setIfInBounds

theorem toList_setFour (inside : i + 4 ≤ data.size) :
    (setFour data i a b c e).data.toList =
      data.data.toList.take i ++ ([a, b, c, e] ++ data.data.toList.drop (i + 4)) := by
  simp only [setFour, toList_set!]
  generalize size : data.data.toList = bytes
  have room : i + 4 ≤ bytes.length := size ▸ inside
  obtain ⟨front, rest, rfl, rfl⟩ : ∃ front rest, bytes = front ++ rest ∧ i = front.length :=
    ⟨bytes.take i, bytes.drop i, (List.take_append_drop i bytes).symm, by rw [List.length_take]; omega⟩
  rw [List.length_append] at room
  obtain ⟨x, y, z, w, behind, rfl⟩ : ∃ x y z w behind, rest = x :: y :: z :: w :: behind := by
    have four : 4 ≤ rest.length := by omega
    match rest, four with
    | x :: y :: z :: w :: behind, _ => exact ⟨x, y, z, w, behind, rfl⟩
  simp [List.set_append_right, List.drop_append]

/-- Bytes of one sum at an aligned place weigh the same: every part of the image is at least as long as they
are, and is aligned with them. -/
theorem wholeSum_window {m : Nat} {old new : List UInt8} (width : old.length = 2 ^ m)
    (width' : new.length = 2 ^ m) (same : byteSum old = byteSum new) {front : List UInt8}
    (aligned : 2 ^ m ∣ front.length) (rest : List UInt8) (span : Nat) :
    wholeSum (front ++ (old ++ rest)) span = wholeSum (front ++ (new ++ rest)) span := by
  -- a first part that lies in front of the bytes is taken off, which leaves fewer in front of them
  induction place : front.length using Nat.strongRecOn generalizing front span with
  | ind n ih =>
    subst place
    have pos : 0 < 2 ^ m := Nat.two_pow_pos m
    have size : (front ++ (old ++ rest)).length = front.length + (2 ^ m + rest.length) := by
      simp only [List.length_append, width]
    have size' : (front ++ (new ++ rest)).length = front.length + (2 ^ m + rest.length) := by
      simp only [List.length_append, width']
    have filled : front ++ (old ++ rest) ≠ [] := List.ne_nil_of_length_pos (by omega)
    have filled' : front ++ (new ++ rest) ≠ [] := List.ne_nil_of_length_pos (by omega)
    rw [wholeSum, wholeSum, dif_neg filled, dif_neg filled', size, size']
    obtain ⟨j, power, below, above, -⟩ :=
      exists_powerBelow (n := front.length + (2 ^ m + rest.length)) (by omega) (Nat.le_of_lt Nat.lt_two_pow_self)
    have long : m < j + 1 := by
      refine (Nat.pow_lt_pow_iff_right Nat.one_lt_two).mp (Nat.lt_of_le_of_lt ?_ above)
      omega
    have fits : 2 ^ m ∣ 2 ^ j := Nat.pow_dvd_pow 2 (Nat.le_of_lt_succ long)
    dsimp only
    rw [power]
    by_cases even : 2 ^ j = front.length + (2 ^ m + rest.length)
    · simp only [if_pos even, byteSum_append, same]
    rw [if_neg even, if_neg even]
    by_cases behind : 2 ^ j ≤ front.length
    · have shorter : (front.drop (2 ^ j)).length = front.length - 2 ^ j := List.length_drop
      have tail := ih (front.drop (2 ^ j)).length (by have := Nat.two_pow_pos j; omega)
        (shorter ▸ Nat.dvd_sub aligned fits) (2 ^ j) rfl
      simp only [List.take_append_of_le_length behind, List.drop_append_of_le_length behind, tail]
    · -- Both ends of the first part are aligned, so that it holds all of the bytes.
      have inside : 2 ^ m ≤ 2 ^ j - front.length :=
        Nat.le_of_dvd (by omega) (Nat.dvd_sub fits aligned)
      have kept : old.take (2 ^ j - front.length) = old ∧ new.take (2 ^ j - front.length) = new :=
        ⟨List.take_of_length_le (by omega), List.take_of_length_le (by omega)⟩
      have none : old.drop (2 ^ j - front.length) = [] ∧ new.drop (2 ^ j - front.length) = [] :=
        ⟨List.drop_eq_nil_of_le (by omega), List.drop_eq_nil_of_le (by omega)⟩
      simp only [List.take_append, List.drop_append, kept, none, width, width', byteSum_append, same]

theorem checksum_congr {other : ByteArray} (size : data.size = other.size)
    (same : ∀ span, wholeSum data.data.toList span = wholeSum other.data.toList span) :
    checksum data = checksum other := by
  obtain ⟨k, power⟩ := Nat.isPowerOfTwo_nextPowerOfTwo data.size
  have fits : data.size ≤ 2 ^ k := power ▸ le_nextPowerOfTwo data.size
  have whole (b : ByteArray) : slice b 0 b.size = b.data.toList := by
    rw [slice, List.drop_zero]
    exact List.take_length
  have words : repeatedSum data 0 data.size (2 ^ k) = repeatedSum other 0 other.size (2 ^ k) := by
    rw [← UInt32.toNat_inj, toNat_repeatedSum (by omega) fits, toNat_repeatedSum (by omega) (size ▸ fits), whole,
      whole, same]
  unfold checksum
  rw [← size] at words ⊢
  rw [power, words]

theorem checksum_setFour (aligned : 4 ∣ i) (inside : i + 4 ≤ data.size)
    (same : byteSum [a, b, c, e] = byteSum [a', b', c', e']) :
    checksum (setFour data i a b c e) = checksum (setFour data i a' b' c' e') := by
  refine checksum_congr (by simp only [size_setFour]) fun span => ?_
  have place : (data.data.toList.take i).length = i := by
    rw [List.length_take]
    exact Nat.min_eq_left (Nat.le_of_add_right_le inside)
  rw [toList_setFour inside, toList_setFour inside]
  exact wholeSum_window (m := 2) rfl rfl same (place.symm ▸ aligned) _ span

theorem toNat_low (w : UInt16) : (low w).toNat = w.toNat % 256 := UInt16.toNat_toUInt8 w

theorem toNat_high (w : UInt16) : (high w).toNat = w.toNat / 256 := by
  have bound : w.toNat < 2 ^ 16 := w.toNat_lt
  rw [high, UInt16.toNat_toUInt8, UInt16.toNat_shiftRight]
  change w.toNat >>> 8 % 256 = _
  rw [Nat.shiftRight_eq_div_pow]
  omega

theorem toNat_word (l h : UInt8) : (l.toUInt16 ||| h.toUInt16 <<< 8).toNat = l.toNat + 0x100 * h.toNat := by
  have shifted : h.toNat <<< 8 = h.toNat * 0x100 := Nat.shiftLeft_eq _ 8
  have bound : h.toNat < 2 ^ 8 := h.toNat_lt
  have small : h.toNat <<< 8 % 2 ^ 16 = h.toNat <<< 8 := Nat.mod_eq_of_lt (by omega)
  rw [UInt16.toNat_or, UInt16.toNat_shiftLeft, UInt8.toNat_toUInt16, UInt8.toNat_toUInt16]
  change l.toNat ||| h.toNat <<< 8 % 2 ^ 16 = _
  rw [small, Nat.or_comm, ← Nat.shiftLeft_add_eq_or_of_lt l.toNat_lt]
  omega

theorem word_low_high (w : UInt16) : (low w).toUInt16 ||| (high w).toUInt16 <<< 8 = w := by
  rw [← UInt16.toNat_inj, toNat_word, toNat_low, toNat_high]
  omega

theorem byteSum_complement (w : UInt16) : byteSum [low (~~~w), high (~~~w), low w, high w] = 0xFF + 0xFF := by
  have bound : w.toNat < 2 ^ 16 := w.toNat_lt
  have other : (~~~w).toNat = 2 ^ 16 - 1 - w.toNat := UInt16.toNat_not w
  simp only [byteSum_cons, byteSum_nil, toNat_low, toNat_high, other]
  omega

/-! ### Writing the checksum -/

theorem setFour_setFour (inside : i + 4 ≤ data.size) :
    setFour (setFour data i a b c e) i a' b' c' e' = setFour data i a' b' c' e' := by
  have place : (data.data.toList.take i).length = i := by
    rw [List.length_take]
    exact Nat.min_eq_left (Nat.le_of_add_right_le inside)
  have room : i + 4 ≤ (setFour data i a b c e).size := size_setFour.symm ▸ inside
  apply ByteArray.ext
  rw [← Array.toList_inj, toList_setFour room, toList_setFour inside, toList_setFour inside, List.take_left' place]
  congr 2
  rw [← List.append_assoc, List.drop_left' (by simp [place])]

/-- The image with a sum and its complement in the header at an offset. -/
def stamp (body : ByteArray) (header : Nat) (sum : UInt16) : ByteArray :=
  setFour body (header + complementOffset) (low (~~~sum)) (high (~~~sum)) (low sum) (high sum)

variable {header : Nat} {sum sum' : UInt16}

@[simp] theorem size_stamp : (stamp body header sum).size = body.size := size_setFour

section Room
variable (room : header + Header.size ≤ body.size)
include room

theorem stamp_stamp : stamp (stamp body header sum) header sum' = stamp body header sum' := setFour_setFour room

/-- Every sum weighs the same in its own field. -/
theorem checksum_stamp (aligned : 4 ∣ header) (sum sum' : UInt16) :
    checksum (stamp body header sum) = checksum (stamp body header sum') := by
  refine checksum_setFour (Nat.dvd_add aligned (by decide)) room ?_
  rw [byteSum_complement, byteSum_complement]

theorem writeChecksum_eq : writeChecksum body header = stamp body header (checksum (stamp body header 0)) := by
  have written : writeChecksum body header = stamp (stamp body header 0) header (checksum (stamp body header 0)) :=
    if_neg (Nat.not_lt.mpr room)
  rw [written, stamp_stamp room]

theorem checksum_writeChecksum (aligned : 4 ∣ header) :
    checksum (writeChecksum body header) = checksum (stamp body header 0) := by
  rw [writeChecksum_eq room, checksum_stamp room aligned _ 0]

end Room

theorem writeChecksum_of_short (short : body.size < header + Header.size) : writeChecksum body header = body :=
  if_pos short

@[simp] theorem size_writeChecksum : (writeChecksum body header).size = body.size := by
  by_cases short : body.size < header + Header.size
  · rw [writeChecksum_of_short short]
  · rw [writeChecksum_eq (Nat.le_of_not_lt short), size_stamp]

theorem get!_writeChecksum (outside : k < header + complementOffset ∨ header + Header.size ≤ k) :
    (writeChecksum body header).get! k = body.get! k := by
  by_cases short : body.size < header + Header.size
  · rw [writeChecksum_of_short short]
  · rw [writeChecksum_eq (Nat.le_of_not_lt short), stamp, get!_setFour_of_outside outside]

theorem writeChecksum_twice : writeChecksum (writeChecksum body header) header = writeChecksum body header := by
  by_cases short : body.size < header + Header.size
  · rw [writeChecksum_of_short short, writeChecksum_of_short short]
  · have room := Nat.le_of_not_lt short
    rw [writeChecksum_eq (size_writeChecksum.symm ▸ room), writeChecksum_eq room, stamp_stamp room,
      stamp_stamp room]

end RomLinker.Image

namespace RomLinker.Header
open Image

variable {body : ByteArray} {mapping : Mapping}

theorem wordAt_stamp {header : Nat} {sum : UInt16} (room : header + size ≤ body.size) :
    wordAt (stamp body header sum) (header + complementOffset) = ~~~sum ∧
      wordAt (stamp body header sum) (header + checksumOffset) = sum := by
  obtain ⟨first, second, third, fourth⟩ := get!_setFour (a := low (~~~sum)) (b := high (~~~sum)) (c := low sum)
    (e := high sum) (show header + complementOffset + 4 ≤ body.size from room)
  have behind : header + checksumOffset = header + complementOffset + 2 := rfl
  constructor
  · rw [wordAt, stamp, first, second, word_low_high]
  · rw [behind, wordAt, stamp, third, fourth, word_low_high]

theorem exists_read? (room : mapping.headerStart + size ≤ body.size) :
    ∃ header, read? body mapping = some header ∧ header.mapping = mapping ∧
      header.complement = wordAt body (mapping.headerStart + complementOffset) ∧
      header.checksum = wordAt body (mapping.headerStart + checksumOffset) := by
  unfold read?
  dsimp only
  rw [if_neg (Nat.not_lt.mpr room)]
  exact ⟨_, rfl, rfl, rfl, rfl⟩

theorem aligned (mapping : Mapping) : 4 ∣ mapping.headerStart := by
  cases mapping <;> decide

/-- The header that names the written checksum verifies the image that it is in. -/
theorem exists_written (room : mapping.headerStart + size ≤ body.size) :
    ∃ header, read? (writeChecksum body mapping.headerStart) mapping = some header ∧ header.mapping = mapping ∧
      header.isComplementary = true ∧ header.verifies (writeChecksum body mapping.headerStart) = true := by
  have room' : mapping.headerStart + size ≤ (writeChecksum body mapping.headerStart).size :=
    size_writeChecksum.symm ▸ room
  obtain ⟨header, read, place, complement, checksum⟩ := exists_read? room'
  have sum := checksum_writeChecksum room (aligned mapping)
  rw [writeChecksum_eq room] at complement checksum
  rw [(wordAt_stamp room).1] at complement
  rw [(wordAt_stamp room).2] at checksum
  refine ⟨header, read, place, ?_, ?_⟩
  · rw [isComplementary, complement, checksum, UInt16.xor_not, UInt16.xor_self]
    rfl
  · rw [verifies, sum, checksum]
    exact beq_self_eq_true _

end RomLinker.Header

namespace RomLinker

namespace Rom
variable {copier image : ByteArray}

/-- As long as an image may be: one bank at least, and no part of a bank. -/
structure Sized (image : ByteArray) : Prop where
  banks : image.size % bankSize = 0
  filled : 0 < image.size
  fits : image.size ≤ maxBodySize

theorem Sized.room (sized : Sized image) : Mapping.loRom.headerStart + Header.size ≤ image.size := by
  have bank : bankSize ≤ image.size := Nat.le_of_dvd sized.filled (Nat.dvd_of_mod_eq_zero sized.banks)
  exact Nat.le_trans (by decide) bank

theorem body_append (banks : image.size % bankSize = 0) (small : copier.size < bankSize) :
    leadSize (copier ++ image) = copier.size ∧ body (copier ++ image) = image := by
  have lead : leadSize (copier ++ image) = copier.size := by
    rw [leadSize, ByteArray.size_append, Nat.add_mod, banks, Nat.add_zero, Nat.mod_mod, Nat.mod_eq_of_lt small]
  refine ⟨lead, ?_⟩
  rw [body, lead]
  exact ByteArray.extract_append_eq_right rfl ByteArray.size_append

theorem headerOf_append {header : Header} (sized : Sized image)
    (lead : copier.size = 0 ∨ copier.size = copierSize) (located : Header.locate? image = some header) :
    body (copier ++ image) = image ∧ headerOf (copier ++ image) = .ok header := by
  have small : copier.size < bankSize := by
    have most : copier.size ≤ copierSize := by
      rcases lead with lead | lead <;> omega
    exact Nat.lt_of_le_of_lt most (by decide)
  obtain ⟨size, body⟩ := body_append sized.banks small
  have filled := sized.filled
  have fits := sized.fits
  refine ⟨body, ?_⟩
  unfold headerOf
  rw [size, body, located, if_neg (by omega), if_neg (by omega)]

end Rom

open Image

/-- With its checksum written into the header of a mapping, an image that reaches that far has a header there
that is consistent and verifies it; no other byte is changed, and a second time changes nothing. A shorter
image stays as it is. Every image of a size that is accepted, with a copier's bytes in front or without, is
then taken for a LoROM image without a warning. -/
theorem writeChecksum_verifies {σ : Type} (body : ByteArray) :
    (∀ mapping : Mapping,
      let written := writeChecksum body mapping.headerStart
      (body.size < mapping.headerStart + Header.size → written = body) ∧
      (mapping.headerStart + Header.size ≤ body.size →
        (∃ header, Header.read? written mapping = some header ∧ header.isComplementary = true ∧
          header.verifies written = true) ∧
        written.size = body.size ∧
        (∀ i, i < mapping.headerStart + 0x1C ∨ mapping.headerStart + 0x20 ≤ i → written.get! i = body.get! i) ∧
        writeChecksum written mapping.headerStart = written)) ∧
    (Rom.Sized body → ∀ (copier : ByteArray) (path : Path) (s : Linker σ),
      copier.size = 0 ∨ copier.size = Rom.copierSize →
      let data := copier ++ writeChecksum body Mapping.loRom.headerStart
      ∃ header, header.mapping = .loRom ∧ LinkM.adopt path data s = .ok () { s with
        log := s.log ++ [⟨.debug, (Rom.mk path data header).describe⟩]
        session := { s.session with rom? := some ⟨path, data, header⟩ } }) := by
  constructor
  · intro mapping written
    refine ⟨writeChecksum_of_short, fun room => ?_⟩
    refine ⟨?_, size_writeChecksum, fun i => get!_writeChecksum, writeChecksum_twice⟩
    obtain ⟨header, read, -, complementary, verifies⟩ := Header.exists_written room
    exact ⟨header, read, complementary, verifies⟩
  · intro sized copier path s lead data
    obtain ⟨header, read, place, complementary, verifies⟩ := Header.exists_written sized.room
    have located : Header.locate? (writeChecksum body Mapping.loRom.headerStart) = some header := by
      rw [Header.locate?, List.findSome?_cons, read, Option.filter_some, if_pos complementary]
    have sized' : Rom.Sized (writeChecksum body Mapping.loRom.headerStart) :=
      ⟨size_writeChecksum.symm ▸ sized.banks, size_writeChecksum.symm ▸ sized.filled,
        size_writeChecksum.symm ▸ sized.fits⟩
    obtain ⟨image, whole⟩ := Rom.headerOf_append sized' lead located
    refine ⟨header, place, ?_⟩
    rw [LinkM.adopt_of_headerOf whole, LinkM.loadLog, image, verifies]
    rfl

/-- An image that ends within a mirrored part: its banks are four, two and one. -/
def unevenImage : ByteArray := ⟨Array.replicate 0x38000 7⟩

theorem writeChecksum_verifies_uneven :
    Mapping.hiRom.headerStart + Header.size ≤ unevenImage.size ∧ Rom.Sized unevenImage ∧
    (∃ header, Header.read? (writeChecksum unevenImage Mapping.hiRom.headerStart) .hiRom = some header ∧
      header.verifies (writeChecksum unevenImage Mapping.hiRom.headerStart) = true) ∧
    ∃ (header : Header) (t : Linker Unit), header.mapping = .loRom ∧
      LinkM.adopt ⟨"r.smc"⟩ (⟨Array.replicate 0x200 0⟩ ++ writeChecksum unevenImage Mapping.loRom.headerStart)
        (Linker.fresh .empty ⟨""⟩ ()) = .ok () t ∧
      t.log.map Notice.level = [.debug] := by
  have size : unevenImage.size = 0x38000 := Array.size_replicate
  have room : Mapping.hiRom.headerStart + Header.size ≤ unevenImage.size := size ▸ by decide
  have sized : Rom.Sized unevenImage := ⟨size ▸ by decide, size ▸ by decide, size ▸ by decide⟩
  obtain ⟨written, adopted⟩ := writeChecksum_verifies (σ := Unit) unevenImage
  obtain ⟨header, read, -, verifies⟩ := ((written .hiRom).2 room).1
  obtain ⟨found, place, accepted⟩ := adopted sized ⟨Array.replicate 0x200 0⟩ ⟨"r.smc"⟩
    (Linker.fresh .empty ⟨""⟩ ()) (Or.inr Array.size_replicate)
  exact ⟨room, sized, ⟨header, read, verifies⟩, found, _, place, accepted, rfl⟩

end RomLinker
