import RomLinker.Library
import RomLinker.Proofs.Exports

/-!
What files of the library define for the other sources. The names of one file are distinct if its labels
are (`LibraryFile.nodup_exports`). The stem of a path is no code for it, so that two files may define the
same name, but only two that meet (`LibraryFile.meets_of_shared`).
-/
namespace RomLinker

/-- The label of a library file that other sources see, if it is one. -/
def Label.exported? (l : Label) : Option Label :=
  match l.routine? with
  | some _ => none
  | none => l.inner?

theorem Label.exported?_eq_some {l m : Label} (out : l.exported? = some m) :
    l.name = innerMark ++ m.name := by
  unfold exported? at out
  split at out
  · cases out
  · unfold inner? at out
    split at out
    · cases out
    · obtain ⟨rest, dropped, rfl⟩ := Option.map_eq_some_iff.mp out
      rw [← String.toList_inj, Text.dropHead?_eq_some.mp dropped, String.toList_append,
        String.toList_ofList]

theorem Label.nodup_exported {labels : List Label} (distinct : (labels.map (·.name)).Nodup) :
    ((labels.filterMap exported?).map (·.name)).Nodup :=
  nodup_picked (fun _ _ => exported?_eq_some) distinct

theorem isAlpha_iff {c : Char} : c.isAlpha = true ↔
    (0x41 ≤ c.val ∧ c.val ≤ 0x5A) ∨ (0x61 ≤ c.val ∧ c.val ≤ 0x7A) := by
  have upper : c.isUpper = decide (c.val ≥ 0x41 ∧ c.val ≤ 0x5A) := rfl
  have lower : c.isLower = (decide (c.val ≥ 0x61) && decide (c.val ≤ 0x7A)) := rfl
  rw [show c.isAlpha = (c.isUpper || c.isLower) from rfl, upper, lower]
  simp only [Bool.or_eq_true, Bool.and_eq_true, decide_eq_true_eq, ge_iff_le]

theorem isDigit_iff {c : Char} : c.isDigit = true ↔ 0x30 ≤ c.val ∧ c.val ≤ 0x39 := by
  have digit : c.isDigit = (decide (c.val ≥ 0x30) && decide (c.val ≤ 0x39)) := rfl
  rw [digit]
  simp only [Bool.and_eq_true, decide_eq_true_eq, ge_iff_le]

theorem isBlank_of_word {c : Char} (word : c.isAlpha || c == '_' || c.isDigit) :
    Text.isBlank c = false := by
  have bounds : 0x30 ≤ c.val ∧ c.val < 0x80 := by
    simp only [Bool.or_eq_true, isAlpha_iff, isDigit_iff, beq_iff_eq] at word
    rcases word with ((upper | lower) | rfl) | digit
    · grind
    · grind
    · decide
    · grind
  have space : c ≠ ' ' := by
    rintro rfl
    exact absurd bounds.1 (by decide)
  have above : ¬c.val ≤ 0x0D := by grind
  unfold Text.isBlank
  rw [if_pos bounds.2, beq_eq_false_iff_ne.mpr space, decide_eq_false above, Bool.and_false]
  rfl

theorem isWord_of_identifier {name : String} (identifier : isIdentifier name = true) :
    ∀ c ∈ name.toList, c.isAlpha || c == '_' || c.isDigit := by
  unfold isIdentifier at identifier
  cases letters : name.toList with
  | nil => exact nofun
  | cons first rest =>
    rw [letters] at identifier
    obtain ⟨start, each⟩ := Bool.and_eq_true_iff.mp identifier
    intro c member
    rcases List.mem_cons.mp member with rfl | later
    · exact Bool.or_eq_true_iff.mpr (Or.inl start)
    · exact List.all_eq_true.mp each c later

theorem solid_of_identifier {name : String} (identifier : isIdentifier name = true) :
    Text.Solid name := by
  refine ⟨?_, fun c member => isBlank_of_word (isWord_of_identifier identifier c member)⟩
  rintro rfl
  cases identifier

namespace LibraryFile

variable {f g : LibraryFile} {labels : List Label} {name : String}

/-- A file with the labels of its source that other sources see. -/
def filing (f : LibraryFile) (labels : List Label) : LibraryFile :=
  { f with labels := f.labels ++ labels.filterMap Label.exported? }

theorem filing_nil (f : LibraryFile) : f.filing [] = f := by
  unfold filing
  rw [List.filterMap_nil, List.append_nil]

theorem filing_cons (f : LibraryFile) (l : Label) (labels : List Label) :
    f.filing (l :: labels) = (f.filing [l]).filing labels := by
  unfold filing
  rw [List.append_assoc, ← List.filterMap_append]
  rfl

def bare (f : LibraryFile) : LibraryFile := { f with start? := none, labels := [] }

/-- The stem of an assembly file, with what joins it to the names of its labels, begins the stem of
another file. -/
def Heads (f g : LibraryFile) : Prop :=
  f.isBinary = false ∧ f.stem.toList ++ ['_'] <+: g.stem.toList

/-- Two files whose paths do not tell their names apart. -/
def Meets (f g : LibraryFile) : Prop :=
  (f.stem = g.stem ∧ f.isBinary = g.isBinary) ∨ f.Heads g ∨ g.Heads f

instance (f g : LibraryFile) : Decidable (f.Meets g) :=
  inferInstanceAs (Decidable (_ ∨ (_ ∧ _) ∨ (_ ∧ _)))

theorem name_of_mem_exports {e : Label} (member : e ∈ f.exports) :
    (f.isBinary = true ∧ e.name.toList = f.stem.toList) ∨
      (f.isBinary = false ∧ f.stem.toList ++ ['_'] <+: e.name.toList) := by
  unfold exports at member
  split at member
  · rename_i binary
    obtain ⟨start, -, rfl⟩ := Option.map_eq_some_iff.mp (Option.mem_toList.mp member)
    exact Or.inl ⟨binary, rfl⟩
  · rename_i assembly
    obtain ⟨l, -, rfl⟩ := List.mem_map.mp member
    refine Or.inr ⟨Bool.eq_false_iff.mpr assembly, l.name.toList, ?_⟩
    show f.stem.toList ++ ['_'] ++ l.name.toList = (f.stem ++ "_" ++ l.name).toList
    rw [String.toList_append, String.toList_append]
    rfl

/-- Of two beginnings of one name, each with an underscore behind it, the shorter begins the longer. -/
theorem heads_of_prefixes {a b name : List Char} (left : a ++ ['_'] <+: name)
    (right : b ++ ['_'] <+: name) : a = b ∨ a ++ ['_'] <+: b ∨ b ++ ['_'] <+: a := by
  rcases List.prefix_or_prefix_of_prefix left right with shorter | shorter
  · rcases List.prefix_concat_iff.mp shorter with same | shorter
    · exact Or.inl (List.append_cancel_right same)
    · exact Or.inr (Or.inl shorter)
  · rcases List.prefix_concat_iff.mp shorter with same | shorter
    · exact Or.inl (List.append_cancel_right same).symm
    · exact Or.inr (Or.inr shorter)

theorem meets_of_shared {e e' : Label} (member : e ∈ f.exports) (member' : e' ∈ g.exports)
    (same : e.name = e'.name) : f.Meets g := by
  rcases name_of_mem_exports member with ⟨binary, whole⟩ | ⟨assembly, begins⟩
  · rw [same] at whole
    rcases name_of_mem_exports member' with ⟨binary', whole'⟩ | ⟨assembly', begins'⟩
    · exact Or.inl ⟨String.toList_inj.mp (whole.symm.trans whole'), binary.trans binary'.symm⟩
    · exact Or.inr (Or.inr ⟨assembly', whole ▸ begins'⟩)
  · rw [same] at begins
    rcases name_of_mem_exports member' with ⟨binary', whole'⟩ | ⟨assembly', begins'⟩
    · exact Or.inr (Or.inl ⟨assembly, whole' ▸ begins⟩)
    · rcases heads_of_prefixes begins begins' with equal | shorter | shorter
      · exact Or.inl ⟨String.toList_inj.mp equal, assembly.trans assembly'.symm⟩
      · exact Or.inr (Or.inl ⟨assembly, shorter⟩)
      · exact Or.inr (Or.inr ⟨assembly', shorter⟩)

theorem solid_exports (identifier : isIdentifier f.stem = true)
    (plain : ∀ l ∈ f.labels, ∀ c ∈ l.name.toList, Text.isBlank c = false) :
    ∀ e ∈ f.exports, Text.Solid e.name := by
  have stem := solid_of_identifier identifier
  intro e member
  unfold exports at member
  split at member
  · obtain ⟨start, -, rfl⟩ := Option.map_eq_some_iff.mp (Option.mem_toList.mp member)
    exact stem
  · obtain ⟨l, inside, rfl⟩ := List.mem_map.mp member
    show Text.Solid (f.stem ++ "_" ++ l.name)
    refine ⟨fun none => stem.1 ?_, fun c letter => ?_⟩
    · rw [String.append_eq_empty_iff, String.append_eq_empty_iff] at none
      exact none.1.1
    · rw [String.toList_append, String.toList_append] at letter
      rcases List.mem_append.mp letter with front | name
      · rcases List.mem_append.mp front with front | mark
        · exact stem.2 c front
        · rw [List.mem_singleton.mp mark]
          decide
      · exact plain l inside c name

theorem nodup_exports (distinct : (f.labels.map (·.name)).Nodup) : (f.exports.map (·.name)).Nodup := by
  unfold exports
  split
  · cases f.start? with
    | none => exact List.nodup_nil
    | some start => exact List.nodup_singleton _
  · have names : (f.labels.map fun l => (⟨s!"{f.stem}_{l.name}", l.address⟩ : Label)).map (·.name) =
        (f.labels.map (·.name)).map fun name => f.stem ++ "_" ++ name := by
      rw [List.map_map, List.map_map]
      rfl
    rw [names]
    exact distinct.map fun _ _ same => (String.append_right_inj _).mp same

end LibraryFile

/-- Files of which no two meet define no name twice, if none of them does. -/
theorem Library.nodup_exports {files : List LibraryFile}
    (each : ∀ f ∈ files, (f.exports.map (·.name)).Nodup) (apart : files.Pairwise fun f g => ¬f.Meets g) :
    ((files.flatMap LibraryFile.exports).map (·.name)).Nodup := by
  rw [List.map_flatMap]
  refine List.nodup_flatMap.mpr ⟨each, apart.imp fun {f g} other name left right => other ?_⟩
  obtain ⟨e, member, rfl⟩ := List.mem_map.mp left
  obtain ⟨e', member', same⟩ := List.mem_map.mp right
  exact LibraryFile.meets_of_shared member member' same.symm

end RomLinker
