import RomLinker.Proofs.Image.Bounds
import RomLinker.Proofs.Image.Stamp

/-!
What makes a file a ROM (`Rom.IsRom`), and what a session takes from it (`LinkM.adopt_decides`).
-/
namespace RomLinker

namespace Header
open Image

def wordIn (image : ByteArray) (i : Nat) : Nat := (image.get! i).toNat + 0x100 * (image.get! (i + 1)).toNat

/-- An image reaches as far as the header of a mapping, and the checksum there differs from its complement
in every bit. -/
def Consistent (image : ByteArray) (mapping : Mapping) : Prop :=
  mapping.headerStart + 0x20 ≤ image.size ∧
    wordIn image (mapping.headerStart + 0x1E) ^^^ wordIn image (mapping.headerStart + 0x1C) = 0xFFFF

/-- What an image says at the place of a header. The title loses the white space behind it. -/
structure Spells (image : ByteArray) (h : Header) : Prop where
  title : ∃ blanks, h.title.toList ++ List.replicate blanks ' ' =
    (List.range 21).map fun i => titleChar (image.get! (h.mapping.headerStart + i))
  trimmed : h.title.toList.getLast? ≠ some ' '
  mapMode : h.mapMode = image.get! (h.mapping.headerStart + 0x15)
  complement : h.complement.toNat = wordIn image (h.mapping.headerStart + 0x1C)
  checksum : h.checksum.toNat = wordIn image (h.mapping.headerStart + 0x1E)

variable {image : ByteArray} {mapping : Mapping} {h : Header}

theorem toNat_wordAt (image : ByteArray) (i : Nat) : (wordAt image i).toNat = wordIn image i := toNat_word _ _

theorem eq_space_of_isBlank (b : UInt8) (blank : Text.isBlank (titleChar b) = true) : titleChar b = ' ' := by
  have every : ∀ n < 256, Text.isBlank (titleChar (UInt8.ofNat n)) = true →
      titleChar (UInt8.ofNat n) = ' ' := by decide +kernel
  have same : UInt8.ofNat b.toNat = b := UInt8.ofNat_toNat
  rw [← same] at blank ⊢
  exact every _ b.toNat_lt blank

theorem trimEnd_append {cs : List Char} (spaces : ∀ c ∈ cs, Text.isBlank c = true → c = ' ') :
    ∃ blanks, Text.trimEnd cs ++ List.replicate blanks ' ' = cs := by
  refine ⟨(cs.reverse.takeWhile Text.isBlank).length, ?_⟩
  have blank : cs.reverse.takeWhile Text.isBlank =
      List.replicate (cs.reverse.takeWhile Text.isBlank).length ' ' := by
    refine List.eq_replicate_iff.mpr ⟨rfl, fun c member => ?_⟩
    have inside : c ∈ cs := List.mem_reverse.mp ((List.takeWhile_sublist _).mem member)
    exact spaces c inside (List.all_eq_true.mp List.all_takeWhile c member)
  rw [← List.reverse_replicate, ← blank, Text.trimEnd, ← List.reverse_append, List.takeWhile_append_dropWhile,
    List.reverse_reverse]

theorem getLast?_trimEnd (cs : List Char) : (Text.trimEnd cs).getLast? ≠ some ' ' := by
  rw [Text.trimEnd, List.getLast?_reverse]
  intro last
  have kept := List.head?_dropWhile_not Text.isBlank cs.reverse
  rw [last] at kept
  revert kept
  decide

theorem spells_of_read? (read : read? image mapping = some h) :
    mapping.headerStart + size ≤ image.size ∧ h.mapping = mapping ∧ Spells image h := by
  unfold read? at read
  dsimp only at read
  split at read
  · cases read
  rename_i room
  cases read
  refine ⟨Nat.le_of_not_lt room, rfl, ?_, ?_, rfl, toNat_wordAt _ _, toNat_wordAt _ _⟩
  · simp only [String.toList_ofList]
    refine trimEnd_append fun c member blank => ?_
    obtain ⟨i, -, rfl⟩ := List.mem_map.mp member
    exact eq_space_of_isBlank _ blank
  · simp only [String.toList_ofList]
    exact getLast?_trimEnd _

theorem isComplementary_iff {image : ByteArray} {h : Header} (spells : Spells image h) :
    h.isComplementary = true ↔ wordIn image (h.mapping.headerStart + 0x1E) ^^^
      wordIn image (h.mapping.headerStart + 0x1C) = 0xFFFF := by
  rw [← spells.checksum, ← spells.complement, ← UInt16.toNat_xor, isComplementary, beq_iff_eq]
  exact UInt16.toNat_inj.symm

theorem filter_read?_eq_some (found : (read? image mapping).filter isComplementary = some h) :
    Consistent image mapping ∧ h.mapping = mapping ∧ Spells image h := by
  obtain ⟨read, complementary⟩ := Option.filter_eq_some_iff.mp found
  obtain ⟨room, rfl, spells⟩ := spells_of_read? read
  exact ⟨⟨room, (isComplementary_iff spells).mp complementary⟩, rfl, spells⟩

theorem filter_read?_eq_none : (read? image mapping).filter isComplementary = none ↔ ¬ Consistent image mapping := by
  rw [Option.filter_eq_none_iff]
  constructor
  · rintro none ⟨room, differs⟩
    obtain ⟨header, read, -⟩ := exists_read? room
    obtain ⟨-, rfl, spells⟩ := spells_of_read? read
    exact none header read ((isComplementary_iff spells).mpr differs)
  · intro other header read complementary
    obtain ⟨room, rfl, spells⟩ := spells_of_read? read
    exact other ⟨room, (isComplementary_iff spells).mp complementary⟩

structure IsFirst (image : ByteArray) (h : Header) : Prop where
  consistent : Consistent image h.mapping
  first : h.mapping = .hiRom → ¬ Consistent image .loRom
  spells : Spells image h

theorem isFirst_of_locate? (found : locate? image = some h) : IsFirst image h := by
  unfold locate? at found
  rw [List.findSome?_cons, List.findSome?_cons, List.findSome?_nil] at found
  cases low : (read? image .loRom).filter isComplementary with
  | some header =>
    rw [low] at found
    cases found
    obtain ⟨consistent, place, spells⟩ := filter_read?_eq_some low
    refine ⟨place ▸ consistent, fun high => ?_, spells⟩
    cases place.symm.trans high
  | none =>
    rw [low] at found
    cases high : (read? image .hiRom).filter isComplementary with
    | none =>
      rw [high] at found
      cases found
    | some header =>
      rw [high] at found
      cases found
      obtain ⟨consistent, place, spells⟩ := filter_read?_eq_some high
      exact ⟨place ▸ consistent, fun _ => filter_read?_eq_none.mp low, spells⟩

theorem locate?_eq_none : locate? image = none ↔ ∀ mapping, ¬ Consistent image mapping := by
  unfold locate?
  rw [List.findSome?_eq_none_iff]
  constructor
  · intro none mapping
    refine filter_read?_eq_none.mp (none mapping ?_)
    cases mapping <;> decide
  · exact fun none mapping _ => filter_read?_eq_none.mpr (none mapping)

end Header

namespace Rom

/-- Whole banks, a copier's bytes in front of them at most, with a header that is consistent. -/
structure IsRom (data : ByteArray) : Prop where
  lead : data.size % 0x8000 = 0 ∨ data.size % 0x8000 = 0x200
  filled : 0 < (body data).size
  fits : (body data).size ≤ 0x1000000
  header : Header.Consistent (body data) .loRom ∨ Header.Consistent (body data) .hiRom

variable {data : ByteArray} {header : Header}

theorem headerOf_eq_ok : headerOf data = .ok header ↔
    (data.size % 0x8000 = 0 ∨ data.size % 0x8000 = 0x200) ∧ 0 < (body data).size ∧
      (body data).size ≤ 0x1000000 ∧ Header.locate? (body data) = some header := by
  have lead : (leadSize data ≠ 0 ∧ leadSize data ≠ copierSize) ↔
      ¬ (data.size % 0x8000 = 0 ∨ data.size % 0x8000 = 0x200) := not_or.symm
  have size : ((body data).size = 0 ∨ (body data).size > maxBodySize) ↔
      ¬ (0 < (body data).size ∧ (body data).size ≤ 0x1000000) := by
    have most : maxBodySize = 0x1000000 := rfl
    omega
  unfold headerOf
  rw [if_congr lead rfl rfl, if_congr size rfl rfl]
  by_cases whole : data.size % 0x8000 = 0 ∨ data.size % 0x8000 = 0x200
  · by_cases sized : 0 < (body data).size ∧ (body data).size ≤ 0x1000000
    · rw [if_neg (not_not_intro whole), if_neg (not_not_intro sized)]
      cases Header.locate? (body data) <;> simp [whole, sized]
    · rw [if_neg (not_not_intro whole), if_pos sized]
      refine ⟨nofun, fun ⟨_, filled, fits, _⟩ => absurd ⟨filled, fits⟩ sized⟩
  · rw [if_pos whole]
    exact ⟨nofun, fun ⟨lead, _⟩ => absurd lead whole⟩

theorem isRom_iff : IsRom data ↔ ∃ header, headerOf data = .ok header := by
  constructor
  · rintro ⟨lead, filled, fits, header⟩
    cases found : Header.locate? (body data) with
    | none =>
      have missing := Header.locate?_eq_none.mp found
      rcases header with low | high
      · exact absurd low (missing _)
      · exact absurd high (missing _)
    | some header => exact ⟨header, headerOf_eq_ok.mpr ⟨lead, filled, fits, found⟩⟩
  · rintro ⟨header, read⟩
    obtain ⟨lead, filled, fits, found⟩ := headerOf_eq_ok.mp read
    refine ⟨lead, filled, fits, ?_⟩
    have consistent := (Header.isFirst_of_locate? found).consistent
    cases place : header.mapping with
    | loRom => exact Or.inl (place ▸ consistent)
    | hiRom => exact Or.inr (place ▸ consistent)

/-- A copier's bytes make no difference. -/
theorem headerOf_copier {copier image : ByteArray} (size : copier.size = 0x200) (banks : image.size % 0x8000 = 0) :
    headerOf (copier ++ image) = .ok header ↔ headerOf image = .ok header := by
  obtain ⟨lead, cut⟩ := body_append banks (show copier.size < bankSize from size ▸ by decide)
  have lead' : (copier ++ image).size % 0x8000 = 0x200 := lead.trans size
  rw [headerOf_eq_ok, headerOf_eq_ok, cut, body_of_whole banks, lead', banks]
  simp

end Rom

namespace LinkM

variable {σ : Type}

def Adopts (path : Path) (data : ByteArray) (s : Linker σ) (header : Header) : Prop :=
  ∃ t, adopt path data s = .ok () t ∧ t.session.rom? = some ⟨path, data, header⟩

theorem adopts_iff {path : Path} {data : ByteArray} {s : Linker σ} {header : Header} :
    Adopts path data s header ↔ Rom.headerOf data = .ok header := by
  constructor
  · rintro ⟨t, adopted, taken⟩
    cases found : Rom.headerOf data with
    | error fault =>
      unfold adopt at adopted
      rw [found] at adopted
      cases adopted
    | ok other =>
      rw [adopt_of_headerOf found] at adopted
      cases adopted
      cases taken
      rfl
  · exact fun found => ⟨_, adopt_of_headerOf found, rfl⟩

theorem adopt_of_fault {path : Path} {data : ByteArray} {fault : RomFault}
    (found : Rom.headerOf data = .error fault) (s : Linker σ) :
    adopt path data s = .error (.invalidRom path fault) s := by
  unfold adopt
  rw [found]
  rfl

/-- A file is taken if it is a ROM, with the header that stands first in it; only the ROM of the session and
the log change, and the log has a warning if the checksum is wrong. Any other file is refused and changes
nothing. A copier's bytes in front make no difference, and no byte is read where there is none. -/
theorem adopt_decides (path : Path) (data : ByteArray) (s : Linker σ) :
    ((∃ t, adopt path data s = .ok () t) ↔ Rom.IsRom data) ∧
    (Rom.IsRom data → ∃ header, Header.IsFirst (Rom.body data) header ∧
      adopt path data s = .ok () { s with
        log := s.log ++
          (if header.checksum = Image.checksum (Rom.body data) then []
            else [⟨.warn, s!"ROM \"{path.text}\" has a bad checksum"⟩]) ++
          [⟨.debug, (Rom.mk path data header).describe⟩]
        session := { s.session with rom? := some ⟨path, data, header⟩ } }) ∧
    (¬ Rom.IsRom data → ∃ fault, adopt path data s = .error (.invalidRom path fault) s) ∧
    (∀ copier image : ByteArray, copier.size = 0x200 → image.size % 0x8000 = 0 →
      ∀ header, Adopts path (copier ++ image) s header ↔ Adopts path image s header) ∧
    Rom.acceptWithin data =
      some ((Rom.headerOf data).map fun header => (header, header.verifies (Rom.body data))) := by
  have refused (other : ¬ Rom.IsRom data) :
      ∃ fault, adopt path data s = .error (.invalidRom path fault) s := by
    cases found : Rom.headerOf data with
    | error fault => exact ⟨fault, adopt_of_fault found s⟩
    | ok header => exact absurd (Rom.isRom_iff.mpr ⟨header, found⟩) other
  refine ⟨⟨fun ⟨t, adopted⟩ => ?_, fun rom => ?_⟩, fun rom => ?_, refused, ?_, Rom.acceptWithin_eq data⟩
  · refine Classical.byContradiction fun other => ?_
    obtain ⟨fault, stopped⟩ := refused other
    cases adopted.symm.trans stopped
  · obtain ⟨header, found⟩ := Rom.isRom_iff.mp rom
    exact ⟨_, adopt_of_headerOf found⟩
  · obtain ⟨header, found⟩ := Rom.isRom_iff.mp rom
    obtain ⟨-, -, -, located⟩ := Rom.headerOf_eq_ok.mp found
    refine ⟨header, Header.isFirst_of_locate? located, ?_⟩
    rw [adopt_of_headerOf found]
    unfold loadLog Header.verifies
    by_cases right : header.checksum = Image.checksum (Rom.body data)
    · simp [right]
    · simp [right]
  · intro copier image size banks header
    rw [adopts_iff, adopts_iff, Rom.headerOf_copier size banks]

end LinkM

end RomLinker
