import RomLinker.Proofs.Defines
import RomLinker.Proofs.Link.Trace

/-!
The stages of a build, each with the source that the assembler is asked for. A record of calls `Follows`
some stages if each call asks for its stage's source, with the defines that the calls before it lead to.
-/
namespace RomLinker

open Workspace

inductive Stage where
  | clean
  | scan
  | library (f : LibraryFile)
  | resource (r : Resource)
  | main

namespace Stage

def source (root : Path) : Stage → Path
  | .clean => (Workspace.mk root []).fixedSource "clean.asm"
  | .scan => (Workspace.mk root []).fixedSource "routine_scan.asm"
  | .library _ => sourceIn root "library.asm"
  | .resource _ => sourceIn root "resource.asm"
  | .main => (Workspace.mk root []).fixedSource "main.asm"

/-- The text of the source, where it is generated for this stage. -/
def wrapper? : Stage → Option String
  | .library f => some f.wrapper
  | .resource r => some r.wrapper
  | .clean | .scan | .main => none

def own : Stage → List (String × String)
  | .resource r => r.processorDefines
  | .clean | .scan | .library _ | .main => []

def registers : Stage → Bool
  | .library _ | .resource _ => true
  | .clean | .scan | .main => false

end Stage

/-- The stages of a build: each file of the library is inserted, and then each resource. -/
def stages (files : List LibraryFile) (resources : List Resource) : List Stage :=
  [.clean, .scan] ++ files.map .library ++ resources.map .resource ++ [.main]

def Call.labels (call : Call) : List Label :=
  match call.answer with
  | .ok assembly => assembly.labels
  | .error _ => []

def Label.registration? (l : Label) : Option (String × Address) := l.routine?.map fun name => (name, l.address)

/-- The routines among the labels of library files and resources, in the order of the calls. -/
def registrations (root : Path) (calls : List Call) : List (String × Address) :=
  (calls.filter fun call => decide (call.request.source = sourceIn root "library.asm" ∨
      call.request.source = sourceIn root "resource.asm")).flatMap fun call =>
    call.labels.filterMap Label.registration?

/-- What the calls make of an image, one after the other. That of the scan gets a copy. -/
def imageAfter (root : Path) (data : ByteArray) (calls : List Call) : ByteArray :=
  calls.foldl (fun image call =>
    if call.request.source = Stage.scan.source root then image
    else match call.answer with
      | .ok assembly => assembly.image
      | .error _ => image) data

variable {root : Path} {settings : Settings} {tied : List Call → ResourceTable → Prop}
  {stage : Stage} {plan done : List Stage} {calls : List Call} {call : Call} {data : ByteArray}

theorem Stage.source_eq_scan : stage.source root = Stage.scan.source root ↔ stage = .scan := by
  have scan : "routine_scan.asm" ∈ fixedNames := by decide
  constructor
  · intro same
    cases stage with
    | scan => rfl
    | clean =>
      have equal := fixedSource_inj (by decide) scan same
      exact absurd equal (by decide)
    | main =>
      have equal := fixedSource_inj (by decide) scan same
      exact absurd equal (by decide)
    | library f => exact absurd same.symm (fixedSource_ne scan (by decide))
    | resource r => exact absurd same.symm (fixedSource_ne scan (by decide))
  · rintro rfl
    rfl

theorem Stage.source_eq_main : stage.source root = Stage.main.source root ↔ stage = .main := by
  have main : "main.asm" ∈ fixedNames := by decide
  constructor
  · intro same
    cases stage with
    | main => rfl
    | clean => exact absurd (fixedSource_inj (by decide) main same) (by decide)
    | scan => exact absurd (fixedSource_inj (by decide) main same) (by decide)
    | library f => exact absurd same.symm (fixedSource_ne main (by decide))
    | resource r => exact absurd same.symm (fixedSource_ne main (by decide))
  · rintro rfl
    rfl

theorem library_ne_resource : sourceIn root "library.asm" ≠ sourceIn root "resource.asm" := by
  intro same
  have equal := generatedSource_inj (w := ⟨root, []⟩) (named_of_generated (by decide))
    (named_of_generated (by decide)) (congrArg Path.components same)
  exact absurd equal (by decide)

theorem Stage.source_eq_library : stage.source root = sourceIn root "library.asm" ↔
    ∃ f, stage = .library f := by
  constructor
  · intro same
    cases stage with
    | library f => exact ⟨f, rfl⟩
    | resource r => exact absurd same.symm library_ne_resource
    | clean => exact absurd same (fixedSource_ne (by decide) (by decide))
    | scan => exact absurd same (fixedSource_ne (by decide) (by decide))
    | main => exact absurd same (fixedSource_ne (by decide) (by decide))
  · rintro ⟨f, rfl⟩
    rfl

theorem Stage.source_eq_resource : stage.source root = sourceIn root "resource.asm" ↔
    ∃ r, stage = .resource r := by
  constructor
  · intro same
    cases stage with
    | resource r => exact ⟨r, rfl⟩
    | library f => exact absurd same library_ne_resource
    | clean => exact absurd same (fixedSource_ne (by decide) (by decide))
    | scan => exact absurd same (fixedSource_ne (by decide) (by decide))
    | main => exact absurd same (fixedSource_ne (by decide) (by decide))
  · rintro ⟨r, rfl⟩
    rfl

theorem Stage.registers_iff : stage.registers = true ↔
    stage.source root = sourceIn root "library.asm" ∨ stage.source root = sourceIn root "resource.asm" := by
  rw [Stage.source_eq_library, Stage.source_eq_resource]
  cases stage <;> simp [Stage.registers]

theorem registrations_concat (source : call.request.source = stage.source root) :
    registrations root (calls ++ [call]) = registrations root calls ++
      if stage.registers then call.labels.filterMap Label.registration? else [] := by
  unfold registrations
  rw [List.filter_append, List.flatMap_append]
  congr 1
  by_cases here : stage.registers = true
  · rw [if_pos here, List.filter_cons_of_pos]
    · exact List.append_nil _
    · rw [source]
      exact decide_eq_true (Stage.registers_iff.mp here)
  · rw [if_neg here, List.filter_cons_of_neg]
    · rfl
    · rw [source, decide_eq_true_iff]
      exact fun there => here (Stage.registers_iff.mpr there)

theorem imageAfter_concat {assembly : Assembly} (source : call.request.source = stage.source root)
    (answer : call.answer = .ok assembly) (other : stage ≠ .scan) :
    imageAfter root data (calls ++ [call]) = assembly.image := by
  have apart : call.request.source ≠ Stage.scan.source root := by
    rw [source]
    exact fun same => other (Stage.source_eq_scan.mp same)
  unfold imageAfter
  rw [List.foldl_append, List.foldl_cons, List.foldl_nil, if_neg apart, answer]

theorem imageAfter_scan (source : call.request.source = Stage.scan.source root) :
    imageAfter root data (calls ++ [call]) = imageAfter root data calls := by
  unfold imageAfter
  rw [List.foldl_append, List.foldl_cons, List.foldl_nil, if_pos source]

/-- What every source finds defined, the main source some more: which contexts are called in the
interrupt, by the resources as they are filed at that time. -/
def Stage.Globals (settings : Settings) (tied : List Call → ResourceTable → Prop) (before : List Call)
    (globals : List (String × String)) : Stage → Prop
  | .main => ∃ table, tied before table ∧
    globals = settings.defines ++ (settings.contexts.resolve table).interruptDefines
  | .clean | .scan | .library _ | .resource _ => globals = settings.defines

structure Asked (root : Path) (settings : Settings) (tied : List Call → ResourceTable → Prop)
    (before : List Call) (stage : Stage) (call : Call) : Prop where
  source : call.request.source = stage.source root
  wrapped : ∀ text ∈ stage.wrapper?, call.disk.readText (stage.source root) = .ok text
  defined : ∃ globals routines, stage.Globals settings tied before globals ∧
    Registers (registrations root before) routines ∧
    call.request.defines.entries = globals ++ routines.map routineDefine ++ stage.own

/-- The calls ask for the sources of the first stages, one after the other. -/
structure Follows (root : Path) (settings : Settings) (tied : List Call → ResourceTable → Prop)
    (plan : List Stage) (calls : List Call) : Prop where
  length_le : calls.length ≤ plan.length
  asked : ∀ k stage call, plan[k]? = some stage → calls[k]? = some call →
    Asked root settings tied (calls.take k) stage call

namespace Follows

theorem nil : Follows root settings tied plan [] := ⟨Nat.zero_le _, nofun⟩

theorem mono (follows : Follows root settings tied done calls)
    (front : done <+: plan) : Follows root settings tied plan calls := by
  obtain ⟨rest, rfl⟩ := front
  have short := follows.length_le
  refine ⟨?_, fun k stage call planned called => ?_⟩
  · rw [List.length_append]
    omega
  · have early : k < calls.length := (List.getElem?_eq_some_iff.mp called).1
    rw [List.getElem?_append_left (by omega)] at planned
    exact follows.asked k stage call planned called

theorem concat (follows : Follows root settings tied done calls) (all : calls.length = done.length)
    (asked : Asked root settings tied calls stage call) :
    Follows root settings tied (done ++ [stage]) (calls ++ [call]) := by
  refine ⟨?_, fun k stage' call' planned called => ?_⟩
  · rw [List.length_append, List.length_append, all]
    exact Nat.le_refl _
  · by_cases early : k < calls.length
    · rw [List.getElem?_append_left (by omega)] at planned called
      rw [List.take_append_of_le_length (Nat.le_of_lt early)]
      exact follows.asked k stage' call' planned called
    · have last : k = calls.length := by
        have bound := (List.getElem?_eq_some_iff.mp called).1
        rw [List.length_append, List.length_singleton] at bound
        omega
      subst last
      rw [List.getElem?_concat_length] at called
      rw [all, List.getElem?_concat_length] at planned
      cases called
      cases planned
      rw [List.take_left]
      exact asked

theorem sources (follows : Follows root settings tied plan calls) :
    calls.map (·.request.source) <+: plan.map (Stage.source root) := by
  have short := follows.length_le
  rw [List.prefix_iff_eq_take, List.length_map, ← List.map_take]
  refine List.ext_getElem? fun k => ?_
  rw [List.getElem?_map, List.getElem?_map]
  by_cases early : k < calls.length
  · have called : calls[k]? = some calls[k] := List.getElem?_eq_getElem early
    have planned : plan[k]? = some plan[k] := List.getElem?_eq_getElem (by omega)
    rw [List.getElem?_take_of_lt early, called, planned]
    exact congrArg some (follows.asked k _ _ planned called).source
  · rw [List.getElem?_eq_none (by omega), List.getElem?_eq_none]
    · rfl
    · rw [List.length_take]
      omega

theorem sources_of_length (follows : Follows root settings tied plan calls)
    (all : calls.length = plan.length) :
    calls.map (·.request.source) = plan.map (Stage.source root) := by
  refine follows.sources.eq_of_length ?_
  rw [List.length_map, List.length_map, all]

end Follows

end RomLinker
