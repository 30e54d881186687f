import RomLinker.Proofs.Link.InPlace
import RomLinker.Proofs.Link.Shelves
import RomLinker.Proofs.Link.Stages
import RomLinker.Proofs.RelativeNames
import RomLinker.Proofs.Routines

/-!
Which names of relative labels get out of their sources. The library defines none, and in no build is a
routine registered by one or a define of a call named by one. Those of extra bytes are defined for the main
source (`names_absolute`).
-/
namespace RomLinker

open Workspace

/-- The global defines, the routines and the defines of the calls so far have no relative names. -/
structure AbsoluteIn (defines : Defines) (routines : RoutineTable) (calls : List Call) : Prop where
  globals : ∀ name ∈ defines.names, Absolute name
  routines : ∀ name, (routines.get? name).isSome → Absolute name
  calls : ∀ call ∈ calls, ∀ name ∈ call.request.defines.names, Absolute name

namespace AbsoluteIn
variable {defines defines' : Defines} {routines routines' : RoutineTable} {calls : List Call}
  {name value : String} {file : Path} {address : Address}

theorem define (absolute : AbsoluteIn defines routines calls) (new : Absolute name)
    (added : defines.add? name value = some defines') : AbsoluteIn defines' routines calls := by
  refine ⟨fun other member => ?_, absolute.routines, absolute.calls⟩
  rw [Defines.names_of_add? added] at member
  rcases List.mem_append.mp member with old | last
  · exact absolute.globals other old
  · exact List.mem_singleton.mp last ▸ new

theorem register (absolute : AbsoluteIn defines routines calls) (new : Absolute name)
    (added : routines.add file name address = .ok routines') : AbsoluteIn defines routines' calls := by
  refine ⟨absolute.globals, fun other held => ?_, absolute.calls⟩
  rcases RoutineTable.add_cases routines file name address with
    ⟨-, taken⟩ | ⟨routine, -, ⟨-, -, repeated⟩ | ⟨-, refused⟩⟩
  · cases taken.symm.trans added
    rw [RoutineTable.get?_insert] at held
    split at held
    · rename_i same
      exact same ▸ new
    · exact absolute.routines other held
  · cases repeated.symm.trans added
    exact absolute.routines other held
  · cases refused.symm.trans added

theorem routine_defines (absolute : AbsoluteIn defines routines calls) :
    ∀ name ∈ routines.defines.map (·.1), Absolute name := by
  intro name member
  obtain ⟨define, listed, rfl⟩ := List.mem_map.mp member
  obtain ⟨⟨routine, entry⟩, held, rfl⟩ := List.mem_map.mp listed
  have found : routines.get? routine = some entry := RoutineTable.mem_entries.mp held
  have mark : Absolute routineMark := by decide
  exact absolute_append.mpr ⟨mark, absolute.routines routine (by rw [found]; rfl)⟩

theorem call {s : Session} {own : Defines} {request : Request} {disk : Disk}
    {answer : Except AssemblerFault Assembly} (absolute : AbsoluteIn s.defines s.routines calls)
    (mine : ∀ name ∈ own.names, Absolute name) (given : s.definesFor own = .ok request.defines) :
    AbsoluteIn s.defines s.routines (calls ++ [⟨request, disk, answer⟩]) := by
  refine ⟨absolute.globals, absolute.routines, fun call member name named => ?_⟩
  rcases List.mem_append.mp member with earlier | last
  · exact absolute.calls call earlier name named
  · rw [List.mem_singleton.mp last] at named
    unfold Defines.names at named
    rw [Session.definesFor_eq_ok given, List.map_append, List.map_append] at named
    rcases List.mem_append.mp named with before | own'
    rcases List.mem_append.mp before with global | routine
    · exact absolute.globals name global
    · exact absolute.routine_defines name routine
    · exact mine name own'

end AbsoluteIn

/-! ### Steps of a build -/

namespace LinkM

variable {σ : Type} {asm : Assembler σ} {own : Defines} {name : String}

abbrev Tidy (s : Linker (σ × List Call)) : Prop :=
  AbsoluteIn s.session.defines s.session.routines s.assembler.2

theorem tidy_indifferent : Indifferent fun s : Linker (σ × List Call) => Tidy s :=
  ⟨fun _ _ tidy => tidy, fun _ _ tidy => tidy, fun _ _ tidy => tidy⟩

theorem tidy_unwritten : Unwritten fun s : Linker (σ × List Call) => Tidy s :=
  ⟨fun _ _ tidy => tidy, fun _ _ tidy => tidy, fun _ _ tidy => tidy⟩

theorem tidy_addDefines {entries : List (String × String)}
    (absolute : ∀ name ∈ entries.map (·.1), Absolute name) :
    Keeps Tidy (Build.addDefines entries : LinkM (σ × List Call) Unit) := by
  refine Keeps.forM fun entry member => ensures_onSession (fun _ tidy => tidy) fun s session tidy defined => ?_
  obtain ⟨defines, added, rfl⟩ := Session.define_eq_ok defined
  exact tidy.define (absolute _ (List.mem_map.mpr ⟨entry, member, rfl⟩)) added

theorem tidy_register (file : Path) (address : Address) (absolute : Absolute name) :
    Keeps Tidy (register file name address : LinkM (σ × List Call) Unit) := by
  refine tidy_unwritten.sequential.register (ensures_onSession (fun _ tidy => tidy) ?_)
  intro s session tidy registered
  obtain ⟨-, routines, added, rfl⟩ := Session.register_eq_ok registered
  exact tidy.register absolute added

theorem tidy_assemble {image : ByteArray} {source : Path} (mine : ∀ name ∈ own.names, Absolute name) :
    Keeps Tidy (assemble asm.traced image source own) := by
  have called {s t : Linker (σ × List Call)} {defines : Defines} {answer : Except AssemblerFault Assembly}
      (tidy : Tidy s) (given : s.session.definesFor own = .ok defines)
      (calls : Calls asm.traced ⟨image, source, defines⟩ answer s t) : Tidy t := by
    have session : t.session = s.session.answered answer := by rw [calls.rest]
    unfold Tidy
    rw [calls.record, session]
    cases answer with
    | ok assembly => exact tidy.call mine given
    | error fault => exact tidy.call mine given
  refine ensures_assemble.mono ?_ ?_
  · rintro - t ⟨s, defines, assembly, tidy, given, -, calls⟩
    exact called tidy given calls
  · rintro t (tidy | ⟨s, defines, fault, tidy, given, calls⟩)
    · exact tidy
    · exact called tidy given calls

theorem tidy_patch (source : Path) (mine : ∀ name ∈ own.names, Absolute name) :
    Keeps Tidy (patch asm.traced source own) := by
  unfold LinkM.patch
  refine Keeps.bind Keeps.get fun s => ?_
  split
  · exact Keeps.throw _
  · exact Keeps.bind (tidy_assemble mine) fun _ => Keeps.modify fun _ tidy => tidy

theorem tidy_patchBase (name : String) : Keeps Tidy (Build.patchBase asm.traced name) := by
  unfold Build.patchBase
  exact Keeps.bind Keeps.get fun s => Keeps.bind (tidy_patch _ nofun) fun _ => tidy_indifferent.takePrints _ _

theorem tidy_scan : Keeps Tidy (Build.scan asm.traced) := by
  have declares (rom : Rom) (scan : Path) (names : List String) :
      Keeps Tidy (declareRoutines asm.traced rom scan names) := by
    unfold declareRoutines
    refine Keeps.bind (tidy_unwritten.generate _ _) fun _ => Keeps.bind (tidy_assemble nofun) fun _ => ?_
    refine Keeps.bind (ensures_onSession (fun _ tidy => tidy) ?_) fun _ => Keeps.pure _
    intro s session tidy declared
    obtain ⟨routines, marked, rfl⟩ := declare_eq_ok declared
    obtain ⟨-, rfl⟩ := RoutineTable.declare_eq_ok marked
    exact ⟨tidy.globals, tidy.routines, tidy.calls⟩
  have scans : Keeps Tidy (scanRoutines asm.traced) :=
    ensures_scanRoutines (fun _ tidy => tidy) fun s rom names tidy _ =>
      (declares _ _ _).pre fun t same => same ▸ tidy
  exact tidy_unwritten.sequential.scan scans

theorem tidy_filing : Filing fun _ (action : LinkM (σ × List Call) _) => Keeps Tidy action where
  toSequential := tidy_unwritten.sequential
  routine _ _ _ named := tidy_register _ _ (Label.absolute_of_routine named)
  library _ := Keeps.modify fun _ tidy => tidy
  generates name contents _ := tidy_unwritten.generate name contents

theorem tidy_patchGenerated (name contents : String) (mine : ∀ name ∈ own.names, Absolute name) :
    Keeps Tidy (patchGenerated asm.traced name contents own) :=
  Keeps.bind (tidy_unwritten.generate name contents) fun source => tidy_patch source mine

theorem tidy_inserting :
    InsertingThroughout asm.traced fun _ (action : LinkM (σ × List Call) _) => Keeps Tidy action where
  toFiling := tidy_filing
  file contents := tidy_patchGenerated _ contents nofun
  prints := tidy_indifferent.takePrints
  size := tidy_indifferent.addSize
  resource r contents := by
    refine tidy_patchGenerated _ contents ?_
    rw [r.names_defines]
    decide +kernel
  resources _ := Keeps.modify fun _ tidy => tidy

theorem tidy_buildMain (settings : Settings) : Keeps Tidy (Build.buildMain asm.traced settings) := by
  refine tidy_filing.buildMain (fun cs => tidy_addDefines ?_) (tidy_patchBase _) (tidy_indifferent.addSize .main)
  rw [cs.names_interruptDefines]
  decide

theorem tidy_loadRom {settings : Settings} (rom : Path)
    (absolute : ∀ name ∈ settings.defines.map (·.1), Absolute name) :
    Keeps Tidy (Build.loadRom asm.traced settings rom) := by
  have loads : Keeps Tidy (load rom : LinkM (σ × List Call) Unit) :=
    tidy_unwritten.sequential.load fun _ _ => Keeps.modify fun _ tidy => tidy
  exact tidy_unwritten.sequential.loadRom loads (tidy_addDefines absolute)

theorem tidy_run {settings : Settings} {override? : Option Path}
    (absolute : ∀ name ∈ settings.defines.map (·.1), Absolute name) :
    Keeps Tidy (Build.run asm.traced settings override?) := by
  rw [Build.run_eq]
  refine Keeps.bind Keeps.get fun s => ?_
  split
  · exact Keeps.throw _
  · unfold Build.upToSave
    refine Keeps.bind ?_ fun _ => tidy_unwritten.conclude _
    refine Keeps.bind (tidy_loadRom _ absolute) fun _ => Keeps.bind (tidy_patchBase _) fun _ => ?_
    refine Keeps.bind tidy_scan fun _ => Keeps.bind tidy_inserting.buildLibrary fun _ => ?_
    exact Keeps.bind (tidy_inserting.buildResources settings) fun _ => tidy_buildMain settings

theorem tidy_fresh (d : Disk) (root : Path) (state : σ) : Tidy (Linker.fresh d root (state, [])) := by
  refine ⟨nofun, fun name held => ?_, nofun⟩
  change (RoutineTable.empty.get? name).isSome at held
  rw [RoutineTable.get?_empty] at held
  cases held

theorem tidy_build {settings : Settings} {override? : Option Path} {s : Linker (σ × List Call)}
    (absolute : ∀ name ∈ settings.defines.map (·.1), Absolute name) (tidy : Tidy s) :
    Tidy ((build asm.traced settings override?).finish s) := by
  have runs : Keeps Tidy (Build.run asm.traced settings override?) := tidy_run absolute
  have cleans : Keeps Tidy (cleanup : LinkM (σ × List Call) Unit) := tidy_unwritten.cleanup
  unfold build
  rw [finish_andAlways]
  exact cleans.finish (runs.finish tidy)

end LinkM

/-! ### What is written down -/

theorem Call.labels_eq {call : Call} {assembly : Assembly} (answer : call.answer = .ok assembly) :
    call.labels = assembly.labels := by
  unfold labels
  rw [answer]

theorem Call.Gave.call_labels {root : Path} {labels : List Label} {tables : String} {call : Call}
    (gave : call.Gave root labels tables) : call.labels = labels := by
  have same := gave.1
  unfold Call.labels
  cases answer : call.answer with
  | ok assembly =>
    rw [answer] at same
    exact Option.some.inj same
  | error fault =>
    rw [answer] at same
    cases same

namespace Linkage
variable {root : Path} {cs : Contexts} {old t : ResourceTable} {calls : List Call}
  (linkage : Linkage root cs old calls t) (all : calls.length = old.size)
  (numbered : ∀ k r, old.get? k = some r → r.id = k)
include linkage all numbered

/-- Each resource has one call, and what it exports of relative names is what that call has reported. -/
theorem leaks_iff (e : Label) : e ∈ t.exports ∧ ¬Absolute e.name ↔
    ∃ id call, calls[id]? = some call ∧ Resource.Leaks id call.labels e := by
  constructor
  · rintro ⟨member, relative⟩
    obtain ⟨r', here, exported⟩ := List.mem_flatMap.mp member
    obtain ⟨id, found⟩ := List.mem_iff_getElem?.mp here
    obtain ⟨r, call, there, called, ⟨assembly, answer, taken⟩, -, -⟩ := linkage.exists_linked all found
    refine ⟨id, call, called, ?_⟩
    rw [Call.labels_eq answer, ← numbered id r there]
    exact (Resource.leaks_iff taken).mp ⟨exported, relative⟩
  · rintro ⟨id, call, called, leaks⟩
    have bound : id < old.size := all ▸ (List.getElem?_eq_some_iff.mp called).1
    have there : old.get? id = some old.resources[id] := List.getElem?_eq_getElem bound
    obtain ⟨r', found, ⟨assembly, answer, taken⟩, -, -⟩ := linkage.linked id call called _ there
    rw [Call.labels_eq answer, ← numbered id _ there] at leaks
    obtain ⟨exported, relative⟩ := (Resource.leaks_iff taken).mpr leaks
    exact ⟨List.mem_flatMap.mpr ⟨r', List.mem_of_getElem? found, exported⟩, relative⟩

theorem absolute_exports : (∀ e ∈ t.exports, Absolute e.name) ↔ ∀ call ∈ calls, ∀ l ∈ call.labels,
    (innerMark ++ "ExtraBytes").toList <+: l.name.toList → Absolute l.name := by
  have leaks := linkage.leaks_iff all numbered
  constructor
  · intro exports call member l listed extra
    by_contra relative
    obtain ⟨id, called⟩ := List.mem_iff_getElem?.mp member
    obtain ⟨e, leak⟩ := Resource.exists_leaks.mpr ⟨l, listed, extra, relative⟩
    obtain ⟨exported, named⟩ := (leaks e).mpr ⟨id, call, called, leak⟩
    exact named (exports e exported)
  · intro labels e exported
    by_contra named
    obtain ⟨id, call, called, leak⟩ := (leaks e).mp ⟨exported, named⟩
    obtain ⟨l, listed, extra, relative⟩ := Resource.exists_leaks.mp ⟨e, leak⟩
    exact relative (labels call (List.mem_of_getElem? called) l listed extra)

end Linkage

theorem absolute_library {σ : Type} {asm : Assembler σ} {s t : Linker (σ × List Call)}
    (built : Build.buildLibrary asm.traced s = .ok () t) : ∃ text,
      t.disk.readText (sourceIn s.workspace.root "library_labels.asm") = .ok text ∧ Absolute text := by
  have leads : LinkM.Leads (· = s) (Build.buildLibrary asm.traced) _ := LinkM.leads_buildLibrary
  have reached := leads.run s rfl
  rw [built] at reached
  obtain ⟨found, more, discovered, -, each, read⟩ := reached
  refine ⟨_, Disk.readText_of_read read, Label.absolute_definitions.mpr fun e member => ?_⟩
  obtain ⟨g, inside, exported⟩ := List.mem_flatMap.mp member
  obtain ⟨f, here, filled⟩ := LinkM.Filled.exists_of_mem each g inside
  obtain ⟨bare, identifier⟩ := Library.bare_of_discover discovered f here
  obtain ⟨-, -, assembly, -, labels⟩ := filled.labels_eq bare
  have stem : g.bare.stem = f.bare.stem := congrArg LibraryFile.stem filled.bare_eq
  have named : isIdentifier g.bare.stem = true := stem ▸ identifier
  refine LibraryFile.absolute_exports (f := g) named (fun m filed => ?_) e exported
  rw [labels] at filed
  obtain ⟨l, -, out⟩ := List.mem_filterMap.mp filed
  exact Label.absolute_of_exported out

open LinkM in
/-- Whatever labels the assembler reports, the library defines no name of a relative label, and however a
build ends, no routine was registered by one and no define of a call was named by one. The main source
of a build that succeeds finds such names defined only for resources, namely for all labels of
extra bytes that have one. -/
theorem names_absolute {σ : Type} (asm : Assembler σ) (source : String) (w : Workspace) (read : Disk)
    (settings : Settings) (override? : Option Path) (root : Path) (d : Disk) (state : σ)
    (accepted : Settings.parse source w read = .ok settings) :
    let start : Linker (σ × List Call) := Linker.fresh d root (state, [])
    let ended := (build asm.traced settings override?).finish start
    (∀ s t, Build.buildLibrary asm.traced s = .ok () t → ∃ text,
      t.disk.readText (sourceIn s.workspace.root "library_labels.asm") = .ok text ∧ Absolute text) ∧
    (∀ name routine, ended.session.routines.get? name = some routine → Absolute name) ∧
    (∀ name ∈ ended.session.routines.defines.map (·.1), Absolute name) ∧
    (∀ call ∈ ended.assembler.2, ∀ name ∈ call.request.defines.names, Absolute name) ∧
    ∀ report t, build asm.traced settings override? start = .ok report t →
      ∃ (main : Call) (exports : List Label), t.assembler.2.getLast? = some main ∧
        main.request.source = (Workspace.mk root []).fixedSource "main.asm" ∧
        main.disk.readText (sourceIn root "resource_labels.asm") = .ok (Label.definitions exports) ∧
        (∀ e, e ∈ exports ∧ ¬Absolute e.name ↔ ∃ id call,
          (insertions root t.assembler.2)[id]? = some call ∧ Resource.Leaks id call.labels e) ∧
        (Absolute (Label.definitions exports) ↔ ∀ call ∈ insertions root t.assembler.2, ∀ l ∈ call.labels,
          (innerMark ++ "ExtraBytes").toList <+: l.name.toList → Absolute l.name) := by
  intro start ended
  have globals : ∀ name ∈ settings.defines.map (·.1), Absolute name := by
    intro name member
    have known : ∀ name ∈ Settings.globalNames, Absolute name := by decide +kernel
    exact known name ((Settings.perm_globalNames accepted).mem_iff.mp member)
  have tidy : Tidy ended := tidy_build globals (tidy_fresh d root state)
  refine ⟨fun s t => absolute_library, fun name routine held => tidy.routines name (by rw [held]; rfl),
    tidy.routine_defines, tidy.calls, fun report t built => ?_⟩
  have numbered : ∀ k r, settings.resources.get? k = some r → r.id = k :=
    (Settings.holds_of_parse accepted).mentions.ids
  obtain ⟨table, before, main, calls, last, all, linkage, labels, -⟩ := closed_of_build numbered built
  refine ⟨main, table.exports, by simp [calls], last, Disk.readText_of_read labels,
    linkage.leaks_iff all numbered, ?_⟩
  exact Label.absolute_definitions.trans (linkage.absolute_exports all numbered)

open SmallBuild in
theorem names_absolute_small : ∃ report t main text,
    Settings.parse source ⟨root, []⟩ disk = .ok settings ∧
    build asm.traced settings (some ⟨"r.sfc"⟩) (Linker.fresh disk root ((), [])) = .ok report t ∧
    t.assembler.2.getLast? = some main ∧
    main.disk.readText (sourceIn root "resource_labels.asm") = .ok text ∧ Absolute text ∧
    ∀ call ∈ t.assembler.2, ∀ name ∈ call.request.defines.names, Absolute name := by
  obtain ⟨report, t, ends, gave⟩ := exists_rest
  have built : build asm.traced settings (some ⟨"r.sfc"⟩) (Linker.fresh disk root ((), [])) =
    .ok report t := build_eq.trans ends
  obtain ⟨-, -, -, calls, successes⟩ :=
    names_absolute asm source ⟨root, []⟩ disk settings (some ⟨"r.sfc"⟩) root disk () accepted
  obtain ⟨main, exports, last, -, read, -, text⟩ := successes report t built
  have plain : ∀ l ∈ labels, Absolute l.name := by decide
  refine ⟨report, t, main, _, accepted, built, last, read, text.mpr fun call member l listed _ => ?_,
    fun call member => calls call ?_⟩
  · rw [(gave call member).call_labels] at listed
    exact plain l listed
  · rw [LinkM.finish_of_ok built]
    exact member

namespace SmallBuild

/-- Every source has one more label, a relative one behind that of a table of extra bytes. -/
def straying : Assembler Unit := ⟨"straying", fun _ disk inner =>
  (.ok ⟨.empty, labels ++ [⟨"Inner_ExtraBytes:neg_1_0", 0x108020⟩], []⟩, disk, inner)⟩

/-- What the main source reads of the labels of resources. -/
def labelsText? (t : Linker (Unit × List Call)) : Option String :=
  t.assembler.2.getLast?.bind fun main => (main.disk.readText (sourceIn root "resource_labels.asm")).toOption

def strayText : String :=
  "UberResource0_ResourceEntry = $108000\nUberResource0_ExtraBytes_Level5 = $108010\n" ++
    "UberResource0_ExtraBytes:neg_1_0 = $108020\n"

end SmallBuild

open SmallBuild in
/-- A relative label of extra bytes is defined for the main source. -/
theorem relative_name_defined : ∃ report t,
    build straying.traced settings (some ⟨"r.sfc"⟩) (Linker.fresh disk root ((), [])) = .ok report t ∧
    labelsText? t = some strayText ∧ ¬Absolute strayText := by
  have ends : LinkM.succeeds (restOf straying.traced ((), [])) (fun t => labelsText? t = some strayText) =
    true := by decide +kernel
  obtain ⟨report, t, ended, text⟩ := LinkM.exists_of_succeeds ends
  exact ⟨report, t, (build_eq_restOf _ _).trans ended, text, by decide +kernel⟩

end RomLinker
