import RomLinker.Context.Dispatch
import RomLinker.Proofs.Settings.Exact

/-!
The defines that all sources of a build share. An accepted list gives each of them once.
-/
namespace RomLinker

open Listing

namespace Settings

def globalNames : List String :=
  ["UberMajorVersion", "UberMinorVersion", "UberGlobalFile", "UberStatusbarFile", "UberMacrolibFile",
    "UberFreeram"]

variable {w : Workspace} {d : Disk} {before statements : List Statement} {s : Statement}
  {draft next : Draft}

def Draft.roles (draft : Draft) : List FileRole := draft.files.map (·.1)

theorem Draft.Follows.nodup_apply (follows : draft.Follows w d before) (distinct : draft.roles.Nodup)
    (h : draft.apply w d s = (none, next)) : next.roles.Nodup := by
  cases s with
  | file role path span =>
    simp only [Draft.apply] at h
    split at h
    · cases h
    · rename_i fresh
      cases h
      have free : role ∉ draft.roles := by
        intro taken
        obtain ⟨file, listed, same⟩ := List.mem_map.mp taken
        exact fresh (List.any_eq_true.mpr ⟨file, listed, beq_iff_eq.mpr same⟩)
      have grown : ({ draft with files := draft.files ++ [(role, path)] } : Draft).roles =
          draft.roles ++ [role] := List.map_append
      rw [grown, List.nodup_append]
      refine ⟨distinct, by simp, fun taken listed new last same => ?_⟩
      rw [same, List.mem_singleton.mp last] at listed
      exact free listed
  | slot slot slotSpan items span =>
    simp only [Draft.apply] at h
    split at h
    · cases h
    · obtain ⟨-, contexts, resources, rfl⟩ := follows.holds.assignAll_none h
      exact distinct
  | header kind span =>
    cases h
    exact distinct
  | _ =>
    simp only [Draft.apply] at h
    split at h
    · cases h
    · cases h
      exact distinct

theorem Draft.Follows.nodup_applyAll (follows : draft.Follows w d before)
    (distinct : draft.roles.Nodup) (h : draft.applyAll w d statements = ([], next)) :
    next.roles.Nodup := by
  induction statements generalizing draft before with
  | nil =>
    cases h
    exact distinct
  | cons s rest ih =>
    rw [Draft.applyAll] at h
    rcases step : draft.apply w d s with ⟨fault?, mid⟩
    rw [step] at h
    cases fault? with
    | some fault => cases (Prod.mk.inj h).1
    | none => exact ih (follows.apply_none step) (follows.nodup_apply distinct step) h

/-- The files come in the order of the list, between the versions and the address. -/
theorem perm_globalNames {source : String} {settings : Settings}
    (accepted : parse source w d = .ok settings) :
    (settings.defines.map (·.1)).Perm globalNames := by
  obtain ⟨-, draft, run, complete, rfl⟩ := parse_eq_ok.mp accepted
  have follows := Draft.Follows.applyAll_nil Draft.follows_empty run
  have distinct := Draft.Follows.nodup_applyAll Draft.follows_empty List.nodup_nil run
  obtain ⟨named, -⟩ := follows.missing_eq_nil.mp complete
  have freeram : draft.freeram?.isSome := (follows.given .freeram).mpr (follows.missing_eq_nil.mp complete).2
  have roles : draft.roles.Perm FileRole.all := by
    refine (List.perm_ext_iff_of_nodup distinct (by decide)).mpr fun role => ?_
    have given := (follows.given (.file role)).mpr (named role)
    obtain ⟨file, listed, same⟩ := List.any_eq_true.mp given
    refine iff_of_true (List.mem_map.mpr ⟨file, listed, eq_of_beq same⟩) ?_
    cases role <;> decide
  obtain ⟨address, known⟩ := Option.isSome_iff_exists.mp freeram
  have names : draft.toSettings.defines.map (·.1) =
      ["UberMajorVersion", "UberMinorVersion"] ++ draft.roles.map FileRole.define ++ ["UberFreeram"] := by
    unfold defines Draft.roles
    rw [known, List.map_append, List.map_append, List.map_map, List.map_map]
    rfl
  rw [names]
  exact ((roles.map FileRole.define).append_left _).append_right _

end Settings

def Contexts.interruptNames : List String :=
  ["UberLevelNMIAll", "UberLevelNMINormal", "UberLevelNMI", "UberGamemodeNMIAll", "UberGamemodeNMINormal",
    "UberGamemodeNMI", "UberOverworldNMIAll", "UberOverworldNMINormal", "UberOverworldNMI", "UberUseNMI"]

theorem Contexts.names_interruptDefines (cs : Contexts) :
    cs.interruptDefines.map (·.1) = interruptNames := by
  have names {kind : ContextKind} (c : Context kind) : c.interruptDefines.map (·.1) =
      [s!"Uber{kind.name}NMIAll", s!"Uber{kind.name}NMINormal", s!"Uber{kind.name}NMI"] := rfl
  unfold interruptDefines ContextKind.all
  simp only [List.flatMap_cons, List.flatMap_nil, List.map_append, List.map_cons, List.map_nil, names]
  decide +kernel

end RomLinker
