import RomLinker.Proofs.Link.Actions

/-!
The steps of a build up to the save. What every single action keeps, a whole step keeps (`Steady`). A
disk is kept in this way but for generated files, if the assembler leaves it alone.
-/
namespace RomLinker

open Workspace

variable {σ : Type}

namespace Build

def upToSave (asm : Assembler σ) (settings : Settings) (rom : Path) : LinkM σ Unit := do
  loadRom asm settings rom
  let _ ← patchBase asm "clean.asm"
  scan asm
  buildLibrary asm
  buildResources asm settings
  buildMain asm settings

def conclude (rom : Path) : LinkM σ Report := do
  LinkM.save
  let s ← get
  let report : Report := ⟨s.session.ledger, s.resources.size⟩
  noteSizes report.sizes
  LinkM.note .info "All code inserted successfully."
  markRom rom
  return report

theorem run_eq (asm : Assembler σ) (settings : Settings) (override? : Option Path) :
    run asm settings override? = (do
      match romPath (← get).workspace settings override? with
      | .error e => throw e
      | .ok rom =>
        upToSave asm settings rom
        conclude rom) := by
  unfold run
  refine bind_congr fun s => ?_
  cases romPath s.workspace settings override? with
  | error e => rfl
  | ok rom =>
    unfold link upToSave conclude
    simp only [bind_assoc]

end Build

namespace LinkM

variable {asm : Assembler σ} {d : Disk} {root rom : Path} {region : Location → Prop}
  {kept : Linker σ → Prop} {image : ByteArray} {source : Path} {own : Defines}

theorem ensures_conclude {before saved after stopped : Linker σ → Prop}
    (saves : Ensures before save (fun _ => saved) stopped)
    (unread : ∀ s log, saved s → saved { s with log := log })
    (marks : Ensures saved (Build.markRom rom) (fun _ => after) stopped) :
    Ensures before (Build.conclude rom) (fun _ => after) stopped := by
  have noted (level : Level) (text : String) :
      Ensures saved (note level text) (fun _ => saved) stopped :=
    (surely_note unread level text).mono (fun _ _ holds => holds) fun _ stopped => stopped.elim
  have sizes (ledger : Ledger) : Ensures saved (Build.noteSizes ledger) (fun _ => saved) stopped :=
    (surely_noteSizes unread ledger).mono (fun _ _ holds => holds) fun _ stopped => stopped.elim
  unfold Build.conclude
  refine Ensures.bind saves fun _ => Ensures.read fun s holds => ?_
  refine Ensures.pre (Ensures.bind (sizes _) fun _ => ?_) fun t same => same ▸ holds
  exact Ensures.bind (noted _ _) fun _ => Ensures.bind marks fun _ => Ensures.pure fun _ holds => holds

/-- The single actions of a build keep a property. Nothing is said of calls that insert a resource, and
of what is filed away for it. -/
structure Steady (asm : Assembler σ) (root rom : Path) (kept : Linker σ → Prop) : Prop where
  frame : ∀ s t, frame t = frame s → kept s → kept t
  root_eq : ∀ s, kept s → s.workspace.root = root
  load : ∀ s r, r.path = rom → kept s → kept { s with session.rom? := some r }
  library : ∀ s library, kept s → kept { s with library }
  makes : ∀ s t, MakesWay (workDirectory root) s t → kept s → kept t
  generates : ∀ s t name contents, name ∈ generatedNames → Generates root name contents s t →
    kept s → kept t
  breaks : ∀ s t name contents, name ∈ generatedNames → Breaks root name contents s t →
    kept s → kept t
  calls : ∀ s t request answer, request.source ≠ sourceIn root "resource.asm" →
    Calls asm request answer s t → kept s → kept t

structure SteadyThroughout (asm : Assembler σ) (root rom : Path) (kept : Linker σ → Prop) : Prop
    extends Steady asm root rom kept where
  inserts : ∀ s t request answer, Calls asm request answer s t → kept s → kept t
  resources : ∀ s resources, kept s → kept { s with resources }

theorem declare_eq_ok {s t : Session} {names : List String}
    (h : (do return { s with routines := ← s.routines.declare names } : Except LinkError Session) =
      .ok t) : ∃ routines, s.routines.declare names = .ok routines ∧ t = { s with routines } := by
  obtain ⟨routines, declared, same⟩ := Except.bind_eq_ok.mp h
  exact ⟨routines, declared, (Except.ok.inj same).symm⟩

theorem declare_eq_error {s : Session} {names : List String} {e : LinkError}
    (h : (do return { s with routines := ← s.routines.declare names } : Except LinkError Session) =
      .error e) : s.routines.declare names = .error e := by
  rcases Except.bind_eq_error.mp h with failed | ⟨routines, -, made⟩
  · exact failed
  · cases made

theorem sameFrame_declare {s t : Session} {names : List String}
    (h : (do return { s with routines := ← s.routines.declare names } : Except LinkError Session) =
      .ok t) : SameFrame s t := by
  obtain ⟨routines, -, rfl⟩ := declare_eq_ok h
  exact ⟨rfl, rfl⟩

/-- The routines are declared by a generated source, which goes into a copy of the ROM. -/
def declareRoutines (asm : Assembler σ) (rom : Rom) (scan : Path) (names : List String) :
    LinkM σ Nat := do
  let lines := names.map fun name => s!"%UberRoutineDeclare({name})\n"
  let _ ← generate "routines.asm" (String.join lines)
  let _ ← assemble asm rom.data scan .empty
  onSession fun s => do return { s with routines := ← s.routines.declare names }
  return names.length

theorem ensures_scanRoutines {before stopped : Linker σ → Prop} {after : Nat → Linker σ → Prop}
    (halts : ∀ s, before s → stopped s)
    (declares : ∀ s rom names, before s → s.session.rom? = some rom →
      Ensures (· = s) (declareRoutines asm rom (s.workspace.fixedSource "routine_scan.asm") names)
        after stopped) : Ensures before (scanRoutines asm) after stopped := by
  refine Ensures.read fun s holds => ?_
  have halt (t : Linker σ) (same : t = s) : stopped t := same ▸ halts s holds
  dsimp only
  split
  · exact Ensures.throw_bind halt
  · split
    · exact Ensures.throw halt
    · rename_i rom loaded
      split
      · exact Ensures.throw halt
      · exact declares s rom _ holds loaded

namespace Steady

theorem quiet {α : Type} {action : LinkM σ α} (steady : Steady asm root rom kept)
    (quiet : Quiet action) : Keeps kept action := quiet.keeps steady.frame

theorem sequential (steady : Steady asm root rom kept) :
    Sequential fun _ (action : LinkM σ _) => Keeps kept action :=
  Keeps.sequential fun s _ holds => steady.frame s _ rfl holds

theorem generate (steady : Steady asm root rom kept) {name : String} (generated : name ∈ generatedNames)
    (contents : String) : Ensures kept (LinkM.generate name contents)
      (fun path s => path = sourceIn root name ∧ kept s) kept := by
  refine Ensures.mono (ensures_generate (named_of_generated generated) steady.root_eq) ?_ ?_
  · rintro path t ⟨same, s, holds, generates⟩
    exact ⟨same, steady.generates s t name contents generated generates holds⟩
  · rintro t ⟨s, holds, makes | breaks⟩
    · exact steady.makes s t makes holds
    · exact steady.breaks s t name contents generated breaks holds

theorem generate_bind {α : Type} {next : Path → LinkM σ α} (steady : Steady asm root rom kept)
    {name : String} (generated : name ∈ generatedNames) (contents : String)
    (rest : Keeps kept (next (sourceIn root name))) :
    Keeps kept (LinkM.generate name contents >>= next) := by
  refine Ensures.bind (steady.generate generated contents) fun path => ⟨fun s both => ?_⟩
  obtain ⟨rfl, holds⟩ := both
  exact rest.run s holds

theorem keeps_assemble (calls : ∀ s t request answer, request.source = source →
    Calls asm request answer s t → kept s → kept t) : Keeps kept (assemble asm image source own) := by
  refine Ensures.mono ensures_assemble ?_ ?_
  · rintro after t ⟨s, defines, assembly, holds, -, -, called⟩
    exact calls s t _ _ rfl called holds
  · rintro t (holds | ⟨s, defines, fault, holds, -, called⟩)
    · exact holds
    · exact calls s t _ _ rfl called holds

theorem assemble (steady : Steady asm root rom kept) (other : source ≠ sourceIn root "resource.asm") :
    Keeps kept (LinkM.assemble asm image source own) :=
  keeps_assemble fun s t request answer same calls => steady.calls s t request answer (same ▸ other) calls

theorem patch (steady : Steady asm root rom kept)
    (assemble : ∀ image, Keeps kept (LinkM.assemble asm image source own)) :
    Keeps kept (LinkM.patch asm source own) := by
  unfold LinkM.patch
  refine Keeps.bind Keeps.get fun s => ?_
  split
  · exact Keeps.throw _
  · refine Keeps.bind (assemble _) fun image => ?_
    exact steady.quiet (quiet_modifySession fun s => sameFrame_withData s image)

/-- Once a property says where the root is, what is read may be taken as known. -/
theorem keeps_read {α : Type} {f : Linker σ → LinkM σ α} (steady : Steady asm root rom kept)
    (rest : ∀ s, s.workspace.root = root → Keeps kept (f s)) : Keeps kept (MonadState.get >>= f) :=
  Ensures.read fun s holds => (rest s (steady.root_eq s holds)).pre fun _ same => same ▸ holds

theorem patchBase (steady : Steady asm root rom kept) {name : String} (fixed : name ∈ fixedNames) :
    Keeps kept (Build.patchBase asm name) := by
  unfold Build.patchBase
  refine steady.keeps_read fun s rooted => ?_
  have other : s.workspace.fixedSource name ≠ sourceIn root "resource.asm" :=
    fixedSource_ne fixed (by decide)
  refine Keeps.bind (steady.patch fun _ => steady.assemble other) fun _ => ?_
  exact steady.quiet (quiet_takePrints _ _)

theorem generated_ne {name : String} (generated : name ∈ generatedNames)
    (other : name ≠ "resource.asm") : sourceIn root name ≠ sourceIn root "resource.asm" := by
  intro same
  refine other (generatedSource_inj (w := ⟨root, []⟩) (named_of_generated generated)
    (named_of_generated (by decide)) ?_)
  exact congrArg Path.components same

theorem loadRom (steady : Steady asm root rom kept) (settings : Settings) :
    Keeps kept (Build.loadRom asm settings rom) := by
  have loads : Keeps kept (LinkM.load rom : LinkM σ Unit) :=
    steady.sequential.load fun r same => Keeps.modify fun s holds => steady.load s r same holds
  exact steady.sequential.loadRom loads (steady.quiet (quiet_addDefines _))

theorem scanRoutines (steady : Steady asm root rom kept) : Keeps kept (LinkM.scanRoutines asm) := by
  refine ensures_scanRoutines (fun _ holds => holds) fun s rom names holds _ => ?_
  have other : s.workspace.fixedSource "routine_scan.asm" ≠ sourceIn root "resource.asm" :=
    fixedSource_ne (by decide) (by decide)
  have declares : Keeps kept
      (declareRoutines asm rom (s.workspace.fixedSource "routine_scan.asm") names) := by
    unfold declareRoutines
    refine steady.generate_bind (by decide) _ ?_
    refine Keeps.bind (steady.assemble other) fun _ => steady.quiet ?_
    exact Quiet.bind (quiet_onSession fun _ _ => sameFrame_declare) fun _ => Quiet.pure _
  exact declares.pre fun t same => same ▸ holds

theorem scan (steady : Steady asm root rom kept) : Keeps kept (Build.scan asm) :=
  steady.sequential.scan steady.scanRoutines

theorem filing (steady : Steady asm root rom kept) :
    Filing fun _ (action : LinkM σ _) => Keeps kept action where
  toSequential := steady.sequential
  routine _ _ _ _ := steady.quiet (quiet_register _ _ _)
  library _ := Keeps.modify fun s holds => steady.library s _ holds
  generates _ contents generated :=
    (steady.generate generated contents).mono (fun _ _ after => after.2) fun _ holds => holds

theorem inserting (steady : Steady asm root rom kept) :
    Inserting asm fun _ (action : LinkM σ _) => Keeps kept action where
  toFiling := steady.filing
  file contents := by
    have other : sourceIn root "library.asm" ≠ sourceIn root "resource.asm" :=
      generated_ne (by decide) (by decide)
    exact steady.generate_bind (by decide) contents (steady.patch fun _ => steady.assemble other)
  prints _ _ := steady.quiet (quiet_takePrints _ _)
  size _ _ := steady.quiet (quiet_modifySession fun _ => ⟨rfl, rfl⟩)

theorem buildLibrary (steady : Steady asm root rom kept) : Keeps kept (Build.buildLibrary asm) :=
  steady.inserting.buildLibrary

theorem buildMain (steady : Steady asm root rom kept) (settings : Settings) :
    Keeps kept (Build.buildMain asm settings) :=
  steady.filing.buildMain (fun _ => steady.quiet (quiet_addDefines _)) (steady.patchBase (by decide))
    (steady.inserting.size .main)

end Steady

namespace SteadyThroughout

theorem inserting (steady : SteadyThroughout asm root rom kept) :
    InsertingThroughout asm fun _ (action : LinkM σ _) => Keeps kept action where
  toInserting := steady.toSteady.inserting
  resource _ contents := steady.generate_bind (by decide) contents
    (steady.patch fun _ => Steady.keeps_assemble fun s t request answer _ => steady.inserts s t request answer)
  resources _ := Keeps.modify fun s holds => steady.resources s _ holds

theorem buildResources (steady : SteadyThroughout asm root rom kept) (settings : Settings) :
    Keeps kept (Build.buildResources asm settings) :=
  steady.inserting.buildResources settings

theorem upToSave (steady : SteadyThroughout asm root rom kept) (settings : Settings) :
    Keeps kept (Build.upToSave asm settings rom) := by
  unfold Build.upToSave
  refine Keeps.bind (steady.loadRom settings) fun _ => ?_
  refine Keeps.bind (steady.patchBase (by decide)) fun _ => ?_
  refine Keeps.bind steady.scan fun _ => Keeps.bind steady.buildLibrary fun _ => ?_
  exact Keeps.bind (steady.buildResources settings) fun _ => steady.buildMain settings

end SteadyThroughout

end LinkM
end RomLinker
