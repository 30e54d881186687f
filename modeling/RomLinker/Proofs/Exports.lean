import Mathlib.Data.List.Nodup
import RomLinker.Proofs.Definitions
import RomLinker.Proofs.Dispatch.Text
import RomLinker.Resource

/-!
What resources define for the other sources. Each export comes from one inner label of the resource
(`exists_label_of_mem_exports`), and if the labels of every resource have names of their own, so have
the exports of all (`ResourceTable.nodup_exports`).
-/
namespace RomLinker

/-- Inner labels that are picked from distinct ones are distinct by what follows the mark. -/
theorem Label.nodup_picked {pick : Label → Option Label} {labels : List Label}
    (inner : ∀ l m, pick l = some m → l.name = innerMark ++ m.name)
    (distinct : (labels.map (·.name)).Nodup) : ((labels.filterMap pick).map (·.name)).Nodup := by
  induction labels with
  | nil => exact List.nodup_nil
  | cons l labels ih =>
    obtain ⟨fresh, rest⟩ := List.nodup_cons.mp distinct
    cases out : pick l with
    | none =>
      rw [List.filterMap_cons_none out]
      exact ih rest
    | some m =>
      rw [List.filterMap_cons_some out, List.map_cons]
      refine List.nodup_cons.mpr ⟨fun member => fresh ?_, ih rest⟩
      obtain ⟨m', inside, same⟩ := List.mem_map.mp member
      obtain ⟨l', here, out'⟩ := List.mem_filterMap.mp inside
      show l.name ∈ labels.map (·.name)
      rw [inner l m out, ← same, ← inner l' m' out']
      exact List.mem_map.mpr ⟨l', here, rfl⟩

namespace Resource
variable {r r' : Resource} {labels : List Label} {l m e : Label} {name part : String} {a : Address}

/-- The label inside of a resource that a part of it is read from. -/
def innerName (part : String) : String := innerMark ++ if part = "NMI" then "nmi" else part

theorem innerName_table (name : String) :
    innerName ("ExtraBytes_" ++ name) = "Inner_ExtraBytes_" ++ name := by
  have other : "ExtraBytes_" ++ name ≠ "NMI" := by
    intro same
    have first := congrArg (fun s => s.toList.head?) same
    simp at first
  rw [innerName, if_neg other, ← String.toList_inj]
  simp [innerMark]

theorem addressOf?_eq_some (found : addressOf? labels name = some a) :
    ∃ l ∈ labels, l.name = name ∧ l.address = a := by
  obtain ⟨l, first, same⟩ := Option.map_eq_some_iff.mp found
  have named := List.find?_some first
  exact ⟨l, List.mem_of_find?_eq_some first, eq_of_beq named, same⟩

theorem tableLabel?_eq_some : tableLabel? l = some m ↔
    l.name = innerMark ++ m.name ∧ "ExtraBytes".toList <+: m.name.toList ∧ m.address = l.address := by
  unfold tableLabel?
  constructor
  · intro taken
    cases dropped : Text.dropHead? innerMark.toList l.name.toList with
    | none =>
      rw [dropped] at taken
      cases taken
    | some rest =>
      rw [dropped] at taken
      dsimp only at taken
      split at taken
      · rename_i table
        cases taken
        have split := Text.dropHead?_eq_some.mp dropped
        refine ⟨?_, ?_, rfl⟩
        · rw [← String.toList_inj, split, String.toList_append, String.toList_ofList]
        · have same : (String.ofList rest).toList = rest := String.toList_ofList
          rw [same]
          exact List.isPrefixOf_iff_prefix.mp table
      · cases taken
  · rintro ⟨named, table, address⟩
    have dropped : Text.dropHead? innerMark.toList l.name.toList = some m.name.toList := by
      rw [Text.dropHead?_eq_some, named, String.toList_append]
    rw [dropped]
    dsimp only
    rw [if_pos (List.isPrefixOf_iff_prefix.mpr table), String.ofList_toList, ← address]

theorem withLabels?_eq_some (taken : r.withLabels? labels = some r') :
    ∃ entry, addressOf? labels (innerMark ++ "ResourceEntry") = some entry ∧
      r' = { r with
        entryPoint? := some entry
        nmi? := addressOf? labels (innerMark ++ "nmi")
        tables := labels.filterMap tableLabel? } := by
  unfold withLabels? at taken
  split at taken
  · cases taken
  · rename_i entry found
    exact ⟨entry, found, (Option.some.inj taken).symm⟩

def parts (r : Resource) : List String :=
  (r.entryPoint?.map fun _ => "ResourceEntry").toList ++ (r.nmi?.map fun _ => "NMI").toList ++
    r.tables.map (·.name)

theorem map_name_exports (r : Resource) : r.exports.map (·.name) = r.parts.map (symbol r.id) := by
  unfold exports parts
  cases r.entryPoint? <;> cases r.nmi? <;> simp [Function.comp_def]

theorem exists_label_of_mem_exports (taken : r.withLabels? labels = some r') (member : e ∈ r'.exports) :
    ∃ part, ∃ l ∈ labels, e = ⟨symbol r.id part, l.address⟩ ∧ l.name = innerName part := by
  obtain ⟨entry, found, rfl⟩ := withLabels?_eq_some taken
  unfold exports at member
  rcases List.mem_append.mp member with member | table
  rcases List.mem_append.mp member with first | nmi
  · obtain ⟨l, here, named, rfl⟩ := addressOf?_eq_some found
    exact ⟨"ResourceEntry", l, here, List.mem_singleton.mp first, named⟩
  · obtain ⟨address, answers, rfl⟩ := Option.map_eq_some_iff.mp (Option.mem_toList.mp nmi)
    obtain ⟨l, here, named, rfl⟩ := addressOf?_eq_some answers
    exact ⟨"NMI", l, here, rfl, named⟩
  · obtain ⟨m, inside, rfl⟩ := List.mem_map.mp table
    obtain ⟨l, here, out⟩ := List.mem_filterMap.mp inside
    obtain ⟨named, prefixed, address⟩ := tableLabel?_eq_some.mp out
    have other : m.name ≠ "NMI" := by
      intro same
      rw [same] at prefixed
      exact absurd prefixed (by decide)
    refine ⟨m.name, l, here, ?_, ?_⟩
    · rw [address]
    · rw [innerName, if_neg other, named]

theorem mem_exports_entry (taken : r.withLabels? labels = some r') :
    ∃ l ∈ labels, l.name = innerName "ResourceEntry" ∧
      ⟨symbol r.id "ResourceEntry", l.address⟩ ∈ r'.exports := by
  obtain ⟨entry, found, rfl⟩ := withLabels?_eq_some taken
  obtain ⟨l, here, named, rfl⟩ := addressOf?_eq_some found
  exact ⟨l, here, named, List.mem_append_left _ (List.mem_append_left _ List.mem_cons_self)⟩

theorem mem_exports_nmi (taken : r.withLabels? labels = some r') (answers : r'.answersNmi = true) :
    ∃ l ∈ labels, l.name = innerName "NMI" ∧ ⟨symbol r.id "NMI", l.address⟩ ∈ r'.exports := by
  obtain ⟨entry, -, rfl⟩ := withLabels?_eq_some taken
  obtain ⟨address, found⟩ := Option.isSome_iff_exists.mp answers
  obtain ⟨l, here, named, rfl⟩ := addressOf?_eq_some found
  refine ⟨l, here, named, List.mem_append_left _ (List.mem_append_right _ ?_)⟩
  dsimp only at found ⊢
  rw [found]
  exact List.mem_cons_self

theorem mem_exports_table (taken : r.withLabels? labels = some r') (here : l ∈ labels)
    (named : l.name = innerName ("ExtraBytes_" ++ name)) :
    ⟨symbol r.id ("ExtraBytes_" ++ name), l.address⟩ ∈ r'.exports := by
  obtain ⟨entry, -, rfl⟩ := withLabels?_eq_some taken
  have prefixed : "ExtraBytes".toList <+: ("ExtraBytes_" ++ name).toList := by
    rw [String.toList_append]
    exact List.prefix_append_of_prefix (by decide)
  have other : "ExtraBytes_" ++ name ≠ "NMI" := by
    intro same
    rw [same] at prefixed
    exact absurd prefixed (by decide)
  rw [innerName, if_neg other] at named
  have out : tableLabel? l = some ⟨"ExtraBytes_" ++ name, l.address⟩ :=
    tableLabel?_eq_some.mpr ⟨named, prefixed, rfl⟩
  refine List.mem_append_right _ (List.mem_map.mpr ⟨_, List.mem_filterMap.mpr ⟨l, here, out⟩, rfl⟩)

theorem nodup_tables (distinct : (labels.map (·.name)).Nodup) :
    ((labels.filterMap tableLabel?).map (·.name)).Nodup :=
  Label.nodup_picked (fun _ _ out => (tableLabel?_eq_some.mp out).1) distinct

theorem nodup_parts (taken : r.withLabels? labels = some r') (distinct : (labels.map (·.name)).Nodup) :
    r'.parts.Nodup := by
  obtain ⟨entry, -, rfl⟩ := withLabels?_eq_some taken
  have table (m : Label) (member : m ∈ labels.filterMap tableLabel?) :
      m.name ≠ "ResourceEntry" ∧ m.name ≠ "NMI" := by
    obtain ⟨l, -, out⟩ := List.mem_filterMap.mp member
    obtain ⟨-, prefixed, -⟩ := tableLabel?_eq_some.mp out
    refine ⟨?_, ?_⟩
    · intro same
      rw [same] at prefixed
      exact absurd prefixed (by decide)
    · intro same
      rw [same] at prefixed
      exact absurd prefixed (by decide)
  have fresh (name : String) (other : ∀ m ∈ labels.filterMap tableLabel?, m.name ≠ name) :
      name ∉ (labels.filterMap tableLabel?).map (·.name) := by
    intro member
    obtain ⟨m, inside, same⟩ := List.mem_map.mp member
    exact other m inside same
  have entry_fresh := fresh "ResourceEntry" fun m member => (table m member).1
  have nmi_fresh := fresh "NMI" fun m member => (table m member).2
  have tables := nodup_tables distinct
  unfold parts
  cases addressOf? labels (innerMark ++ "nmi") with
  | none => exact List.nodup_cons.mpr ⟨entry_fresh, tables⟩
  | some nmi =>
    refine List.nodup_cons.mpr ⟨?_, List.nodup_cons.mpr ⟨nmi_fresh, tables⟩⟩
    intro member
    rcases List.mem_cons.mp member with same | later
    · exact absurd same (show "ResourceEntry" ≠ "NMI" by decide)
    · exact entry_fresh later

theorem nodup_exports (taken : r.withLabels? labels = some r') (distinct : (labels.map (·.name)).Nodup) :
    (r'.exports.map (·.name)).Nodup := by
  rw [map_name_exports]
  exact (nodup_parts taken distinct).map fun _ _ same => (symbol_inj same).2

end Resource

namespace ResourceTable
open Resource
variable {t : ResourceTable}

theorem nodup_exports (numbered : t.resources.Pairwise fun r q => r.id ≠ q.id)
    (each : ∀ r ∈ t.resources, (r.exports.map (·.name)).Nodup) : (t.exports.map (·.name)).Nodup := by
  have names : t.exports.map (·.name) = t.resources.flatMap fun r => r.exports.map (·.name) :=
    List.map_flatMap
  rw [names]
  refine List.nodup_flatMap.mpr ⟨each, numbered.imp fun other => ?_⟩
  intro name left right
  dsimp only at left right
  rw [map_name_exports] at left right
  obtain ⟨part, -, rfl⟩ := List.mem_map.mp left
  obtain ⟨part', -, same⟩ := List.mem_map.mp right
  exact other (symbol_inj same).1.symm

end ResourceTable
end RomLinker
