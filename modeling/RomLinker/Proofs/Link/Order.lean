import RomLinker.Proofs.Link.Closure
import RomLinker.Proofs.Link.Passage
import RomLinker.Proofs.Settings.Globals

/-!
The order of a build (`build_in_order`): a build comes through its stages one after the other, and all of
its disks list the same library.
-/
namespace RomLinker

open Workspace

/-- The calls keep to the stages of a build, with the library files that the disks list. These are those
of the first disk, unless the tool directory had to be made. -/
structure Ordered (root : Path) (settings : Settings) (tied : List Call → ResourceTable → Prop) (d : Disk)
    (files : List LibraryFile) (calls : List Call) : Prop where
  first : ToolDirectory d root → Library.listed root d = files
  listed : ∀ call ∈ calls.drop 1, Library.listed root call.disk = files
  follows : Follows root settings tied (stages files settings.resources.resources) calls

def Orderly (root : Path) (settings : Settings) (tied : List Call → ResourceTable → Prop) (d : Disk)
    (calls : List Call) : Prop :=
  ∃ files, Ordered root settings tied d files calls

def Finished (root : Path) (settings : Settings) (tied : List Call → ResourceTable → Prop) (d : Disk)
    (calls : List Call) : Prop :=
  ∃ files, Ordered root settings tied d files calls ∧
    calls.length = (stages files settings.resources.resources).length

theorem Finished.orderly {root : Path} {settings : Settings} {tied : List Call → ResourceTable → Prop}
    {d : Disk} {calls : List Call} (finished : Finished root settings tied d calls) :
    Orderly root settings tied d calls := by
  obtain ⟨files, ordered, -⟩ := finished
  exact ⟨files, ordered⟩

/-- The resources that are filed have the labels that the calls so far gave them. -/
def Filed (root : Path) (settings : Settings) (before : List Call) (table : ResourceTable) : Prop :=
  (insertions root before).length = settings.resources.size ∧
    Linkage root settings.contexts settings.resources (insertions root before) table

namespace LinkM

variable {σ : Type} {asm : Assembler σ} {b : Basis} {root rom : Path} {settings : Settings}
  {tied : List Call → ResourceTable → Prop} {d : Disk} {files : List LibraryFile} {calls : List Call}

theorem orderly_of_clean (follows : Follows root settings tied [.clean] calls) :
    Orderly root settings tied d calls := by
  have short : calls.length ≤ 1 := follows.length_le
  refine ⟨Library.listed root d, fun _ => rfl, fun call member => ?_, follows.mono ?_⟩
  · rw [List.drop_of_length_le short] at member
    cases member
  · exact ⟨_, rfl⟩

theorem orderly_of_lists {s : Linker (σ × List Call)} {plan : List Stage}
    (first : ToolDirectory d b.root → Library.listed b.root d = files) (lists : Lists b.root files 1 s)
    (held : Held b plan s) (front : plan <+: stages files b.settings.resources.resources) :
    Orderly b.root b.settings b.tied d s.assembler.2 :=
  ⟨files, first, lists.calls, held.mono front⟩

structure Opening (d : Disk) (root : Path) (s : Linker (σ × List Call)) : Prop where
  root_eq : s.workspace.root = root
  record : s.assembler.2 = []
  disk : s.disk = d
  session : s.session = {}

theorem Opening.note (level : Level) (text : String) :
    Ensures (Opening d root) (note level text : LinkM (σ × List Call) Unit) (fun _ => Opening d root)
      fun s => s.assembler.2 = [] :=
  Ensures.modify fun _ opening => ⟨opening.root_eq, opening.record, opening.disk, opening.session⟩

theorem ensures_adopt (b : Basis) :
    Ensures (Opening d b.root) (adopt b.rom b.data : LinkM (σ × List Call) Unit)
      (fun _ => Standing b [] [] []) fun s => s.assembler.2 = [] := by
  unfold adopt
  cases Rom.headerOf b.data with
  | error fault => exact Ensures.throw fun s opening => opening.record
  | ok header =>
    have taken : Ensures (Opening d b.root)
        (do
          LinkM.note .debug (Rom.mk b.rom b.data header).describe
          modifySession fun s => { s with rom? := some ⟨b.rom, b.data, header⟩ } :
            LinkM (σ × List Call) Unit)
        (fun _ => Standing b [] [] []) fun s => s.assembler.2 = [] := by
      refine Ensures.bind (Opening.note _ _) fun _ => Ensures.modify fun s opening => ?_
      refine ⟨opening.root_eq, opening.record, ⟨header, rfl⟩, ?_, ?_⟩
      · show s.session.defines.entries = []
        rw [opening.session]
        rfl
      · show s.session.routines.Holds []
        rw [opening.session]
        exact RoutineTable.holds_empty
    dsimp only
    split
    · exact Ensures.bind (Opening.note _ _) fun _ => taken
    · exact taken

theorem ensures_loadRom (d : Disk) (root : Path) (settings : Settings)
    (tied : List Call → ResourceTable → Prop) :
    Ensures (Opening d root) (Build.loadRom asm.traced settings rom)
      (fun _ s => ∃ data, d.read rom = .ok data ∧
        At ⟨root, rom, data, settings, tied⟩ [] settings.defines s)
      fun s => s.assembler.2 = [] := by
  unfold Build.loadRom
  refine Ensures.bind (Opening.note _ _) fun _ => ?_
  refine Ensures.through (fun _ s => ∃ data, d.read rom = .ok data ∧
    Standing ⟨root, rom, data, settings, tied⟩ [] [] [] s) ?_ fun _ => ?_
  · refine Ensures.read fun s opening => ?_
    rw [opening.disk]
    cases found : d.read rom with
    | error fault => exact Ensures.throw fun t same => same ▸ opening.record
    | ok data =>
      have adopts := ensures_adopt (σ := σ) (d := d) ⟨root, rom, data, settings, tied⟩
      have start : ∀ t, t = s → Opening d root t := fun t same => same ▸ opening
      exact (adopts.pre start).mono (fun _ t standing => ⟨data, rfl, standing⟩) fun _ holds => holds
  · refine Ensures.exists_pre fun data => Ensures.given fun found => ?_
    have halts (globals : List (String × String)) (s : Linker (σ × List Call))
        (standing : Standing ⟨root, rom, data, settings, tied⟩ [] globals [] s) : s.assembler.2 = [] :=
      standing.record
    refine Ensures.bind ((Standing.indifferent.note _ _).halting (halts _)) fun _ => ?_
    refine (ensures_addDefines settings.defines halts).mono (fun _ s standing => ?_) fun _ holds => holds
    exact ⟨data, found, [], Course.nil, standing⟩

/-- The routines are declared. From then on there is a tool directory, with some library files in it. -/
def Scanned (b : Basis) (d : Disk) (s : Linker (σ × List Call)) : Prop :=
  ∃ files, (ToolDirectory d b.root → Library.listed b.root d = files) ∧
    Lists b.root files 1 s ∧ At b [.clean, .scan] b.settings.defines s

theorem Answers.declared {t v : Linker (σ × List Call)} {done : List Stage} {call : Call} {assembly : Assembly}
    {globals : List (String × String)} {names : List String} {table : RoutineTable}
    (answers : Answers b done calls .scan call assembly t v)
    (standing : Standing b calls globals (registrations b.root calls) t)
    (added : v.session.routines.declare names = .ok table) :
    At b (done ++ [.scan]) globals { v with session := { v.session with routines := table } } := by
  rw [answers.session] at added ⊢
  refine Standing.at_concat answers.course answers.source ⟨?_, answers.record, ?_, ?_, ?_⟩
  · exact (congrArg Workspace.root answers.workspace).trans standing.root_eq
  · rw [imageAfter_scan answers.source]
    exact standing.rom
  · exact standing.globals
  · rw [if_neg (show ¬Stage.scan.registers = true from nofun), List.append_nil]
    exact standing.routines.declare added

theorem ensures_declareRoutines {s : Linker (σ × List Call)} {r : Rom} {names : List String}
    (keeps : asm.KeepsLibrary b.root) (course : Course b [.clean] calls)
    (standing : Standing b calls b.settings.defines (registrations b.root calls) s)
    (loaded : s.session.rom? = some r)
    (known : ToolDirectory d b.root → Lists b.root (Library.listed b.root d) 0 s) :
    Ensures (· = s) (declareRoutines asm.traced r (Stage.scan.source b.root) names)
      (fun _ => Scanned b d) fun t => Orderly b.root b.settings b.tied d t.assembler.2 := by
  have routines : "routines.asm" ∈ generatedNames := by decide
  unfold declareRoutines
  refine Ensures.bind (Ensures.mono (ensures_generate (named_of_generated routines)
    fun t same => same ▸ standing.root_eq) (fun _ _ after => after) ?_) fun _ => Ensures.each fun t reached => ?_
  · rintro t ⟨u, rfl, halts⟩
    have same : t.assembler = u.assembler := by rw [halts.rest]
    rw [same, standing.record]
    exact orderly_of_clean course.follows
  obtain ⟨-, u, rfl, generates⟩ := reached
  have lists : Lists b.root (Library.listed b.root t.disk) 1 t :=
    generates.lists (named_of_generated routines) standing.root_eq
      (standing.record ▸ Nat.le_of_eq course.all)
  have first (tool : ToolDirectory d b.root) : Library.listed b.root d = Library.listed b.root t.disk :=
    ((known tool).generates routines generates).here.symm
  have standing' : Standing b calls b.settings.defines (registrations b.root calls) t := by
    refine standing.congr generates.root_eq ?_ ?_
    · rw [generates.rest]
    · rw [generates.rest]
  have front : [Stage.clean, .scan] <+: stages (Library.listed b.root t.disk) b.settings.resources.resources :=
    ⟨_, rfl⟩
  have steady : SteadyThroughout asm.traced b.root b.rom
      (Lists b.root (Library.listed b.root t.disk) 1) := lists_steady keeps
  have other : Stage.scan.source b.root ≠ sourceIn b.root "resource.asm" :=
    fixedSource_ne (by decide) (by decide)
  have asks := (ensures_ask .scan .empty course rfl rfl List.prefix_rfl standing' nofun
    (standing.data_eq loaded)).and
    (steady.assemble other)
  -- a scan that fails is the last call, and one that is refused before is none
  refine Ensures.bind (Ensures.mono (asks.pre fun v same => ⟨same, same ▸ lists⟩)
    (fun _ _ after => after) fun v stopped => ?_) fun _ => ?_
  · exact orderly_of_lists first stopped.2 stopped.1 front
  refine Ensures.bind (?_ : Ensures _ _ (fun _ => Scanned b d) _) fun _ => Ensures.pure fun _ reached => reached
  refine ensures_onSession (fun v reached => ?_) fun v session reached declared => ?_
  · obtain ⟨⟨call, assembly, -, answers⟩, lists⟩ := reached
    exact orderly_of_lists first lists (answers.held List.prefix_rfl) front
  · obtain ⟨⟨call, assembly, -, answers⟩, lists⟩ := reached
    obtain ⟨table, added, rfl⟩ := declare_eq_ok declared
    refine ⟨_, first, ⟨lists.root_eq, lists.tool, lists.here, lists.calls⟩, ?_⟩
    exact answers.declared standing' added

theorem ensures_scan {early : Linker (σ × List Call) → Prop} (keeps : asm.KeepsLibrary b.root)
    (known : ToolDirectory d b.root → ∀ s, early s → Lists b.root (Library.listed b.root d) 0 s) :
    Ensures (fun s => At b [.clean] b.settings.defines s ∧ early s) (Build.scan asm.traced)
      (fun _ => Scanned b d) fun s => Orderly b.root b.settings b.tied d s.assembler.2 := by
  have halts (s : Linker (σ × List Call))
      (both : At b [.clean] b.settings.defines s ∧ early s) :
      Orderly b.root b.settings b.tied d s.assembler.2 :=
    orderly_of_clean (both.1.held List.prefix_rfl)
  unfold Build.scan
  refine Ensures.through (fun _ => Scanned b d)
    (ensures_scanRoutines halts fun s r names both loaded => ?_) fun count => ?_
  · obtain ⟨⟨calls, course, standing⟩, before⟩ := both
    have place : s.workspace.fixedSource "routine_scan.asm" = Stage.scan.source b.root :=
      fixedSource_congr standing.root_eq _
    rw [place]
    exact ensures_declareRoutines keeps course standing loaded fun tool => known tool s before
  · refine Ensures.modify fun s reached => ?_
    obtain ⟨files, first, lists, through⟩ := reached
    refine ⟨files, first, ?_, At.indifferent.log s _ through⟩
    exact ⟨lists.root_eq, lists.tool, lists.here, lists.calls⟩

/-! ### All stages -/

def Complete (b : Basis) (d : Disk) (s : Linker (σ × List Call)) : Prop :=
  ∃ files globals, (ToolDirectory d b.root → Library.listed b.root d = files) ∧
    Lists b.root files 1 s ∧ At b (stages files b.settings.resources.resources) globals s

theorem ensures_insertions (keeps : asm.KeepsLibrary b.root)
    (filed : Leads (Untouched b.root) (Build.buildResources asm.traced b.settings)
      fun _ s => b.tied s.assembler.2 s.resources) :
    Ensures (fun s => Scanned b d s ∧ Untouched b.root s)
      (do
        Build.buildLibrary asm.traced
        Build.buildResources asm.traced b.settings
        Build.buildMain asm.traced b.settings)
      (fun _ => Complete b d) fun s => Orderly b.root b.settings b.tied d s.assembler.2 := by
  have split (s : Linker (σ × List Call)) (both : Scanned b d s ∧ Untouched b.root s) :
      ∃ files, (ToolDirectory d b.root → Library.listed b.root d = files) ∧
        (At b [.clean, .scan] b.settings.defines s ∧ Lists b.root files 1 s) ∧ Untouched b.root s := by
    obtain ⟨⟨files, first, lists, through⟩, untouched⟩ := both
    exact ⟨files, first, ⟨through, lists⟩, untouched⟩
  refine Ensures.pre (Ensures.exists_pre fun files => Ensures.given fun first => ?_) split
  have steady : SteadyThroughout asm.traced b.root b.rom (Lists b.root files 1) := lists_steady keeps
  have untouched : Steady asm.traced b.root b.rom
      fun s : Linker (σ × List Call) => Untouched b.root s := untouched_steady
  have halts (s : Linker (σ × List Call))
      (held : Held b (stages files b.settings.resources.resources) s) (lists : Lists b.root files 1 s) :
      Orderly b.root b.settings b.tied d s.assembler.2 :=
    orderly_of_lists first lists held List.prefix_rfl
  have last : [.clean, .scan] ++ files.map .library ++ b.settings.resources.resources.map .resource ++
      [.main] <+: stages files b.settings.resources.resources := List.prefix_rfl
  have before := (List.prefix_append _ _).trans last
  -- each step is taken with what it keeps besides, which the next one starts from
  have inserted := (ensures_buildLibrary (b := b) ((List.prefix_append _ _).trans before)).and
    steady.buildLibrary |>.and untouched.buildLibrary
  have linked := (ensures_buildResources (b := b) before).and
    (steady.buildResources b.settings) |>.and filed
  have closed := (ensures_buildMain (b := b) last).and (steady.buildMain b.settings)
  refine Ensures.through (fun _ s => (At b ([.clean, .scan] ++ files.map .library) b.settings.defines s ∧
    Lists b.root files 1 s) ∧ Untouched b.root s) ?_ fun _ => ?_
  · refine (inserted.pre fun s both => ?_).mono (fun _ _ after => after) fun s stopped => ?_
    · exact ⟨⟨⟨both.1.1, both.1.2.here⟩, both.1.2⟩, both.2⟩
    · exact halts s stopped.1.1 stopped.1.2
  refine Ensures.bind (linked.mono (fun _ _ after => after) fun s stopped => ?_) fun _ => ?_
  · exact halts s stopped.1.1 stopped.1.2
  · refine (closed.pre fun s both => ?_).mono (fun _ s both => ?_) fun s stopped => ?_
    · exact ⟨⟨both.1.1, both.2⟩, both.1.2⟩
    · obtain ⟨⟨globals, through⟩, lists⟩ := both
      exact ⟨files, globals, first, lists, through⟩
    · exact halts s stopped.1 stopped.2

/-- Once the ROM is loaded, a build comes through all stages, or has kept to their order. -/
theorem ensures_stages {early : Linker (σ × List Call) → Prop} (keeps : asm.KeepsLibrary b.root)
    (filed : Leads (Untouched b.root) (Build.buildResources asm.traced b.settings)
      fun _ s => b.tied s.assembler.2 s.resources)
    (steady : Steady asm.traced b.root b.rom early)
    (known : ToolDirectory d b.root → ∀ s, early s → Lists b.root (Library.listed b.root d) 0 s) :
    Ensures (fun s => (At b [] b.settings.defines s ∧ early s) ∧ Untouched b.root s)
      (do
        let _ ← Build.patchBase asm.traced "clean.asm"
        Build.scan asm.traced
        Build.buildLibrary asm.traced
        Build.buildResources asm.traced b.settings
        Build.buildMain asm.traced b.settings)
      (fun _ => Complete b d) fun s => Orderly b.root b.settings b.tied d s.assembler.2 := by
  have untouched : Steady asm.traced b.root b.rom
      fun s : Linker (σ × List Call) => Untouched b.root s := untouched_steady
  have fixed : "clean.asm" ∈ fixedNames := by decide
  have cleaned := (ensures_clean (b := b) List.prefix_rfl).and (steady.patchBase fixed)
    |>.and (untouched.patchBase fixed)
  have scanned := (ensures_scan keeps known).and untouched.scan
  refine Ensures.bind (cleaned.mono (fun _ _ after => after) fun s stopped => ?_) fun _ => ?_
  · exact orderly_of_clean stopped.1.1
  · refine Ensures.bind (scanned.mono (fun _ _ after => after) fun s stopped => stopped.1) fun _ => ?_
    exact ensures_insertions keeps filed

theorem upToSave_of_early {early : Linker (σ × List Call) → Prop} (keeps : asm.KeepsLibrary root)
    (filed : Leads (Untouched root) (Build.buildResources asm.traced settings)
      fun _ s => tied s.assembler.2 s.resources)
    (steady : Steady asm.traced root rom early)
    (known : ToolDirectory d root → ∀ s, early s → Lists root (Library.listed root d) 0 s) :
    Ensures (fun s => Opening d root s ∧ early s) (Build.upToSave asm.traced settings rom)
      (fun _ s => ∃ data, d.read rom = .ok data ∧ Complete ⟨root, rom, data, settings, tied⟩ d s)
      fun s => Orderly root settings tied d s.assembler.2 := by
  have untouched : Steady asm.traced root rom
      fun s : Linker (σ × List Call) => Untouched root s := untouched_steady
  have loaded := (ensures_loadRom d root settings tied).and (steady.loadRom settings)
    |>.and (untouched.loadRom settings)
  unfold Build.upToSave
  refine Ensures.through (fun _ s => ∃ data, d.read rom = .ok data ∧
      (At ⟨root, rom, data, settings, tied⟩ [] settings.defines s ∧ early s) ∧ Untouched root s) ?_
    fun _ => Ensures.exists_pre fun data => Ensures.given fun found => ?_
  · refine (loaded.pre fun s both => ?_).mono (fun _ s after => ?_) fun s stopped => ?_
    · refine ⟨both, both.1.root_eq, ?_⟩
      rw [both.1.record]
      rfl
    · obtain ⟨⟨⟨data, found, start⟩, before⟩, none⟩ := after
      exact ⟨data, found, ⟨start, before⟩, none⟩
    · rw [stopped.1.1]
      exact orderly_of_clean Follows.nil
  · have comes := ensures_stages (b := ⟨root, rom, data, settings, tied⟩) keeps filed steady known
    exact comes.mono (fun _ s complete => ⟨data, found, complete⟩) fun _ stopped => stopped

theorem Complete.ordered {s : Linker (σ × List Call)} (complete : Complete b d s) :
    ∃ files, Ordered b.root b.settings b.tied d files s.assembler.2 ∧
      Course b (stages files b.settings.resources.resources) s.assembler.2 ∧
      ∃ header, s.session.rom? = some ⟨b.rom, imageAfter b.root b.data s.assembler.2, header⟩ := by
  obtain ⟨files, globals, first, lists, calls, course, standing⟩ := complete
  refine ⟨files, ⟨first, lists.calls, standing.held course List.prefix_rfl⟩, ?_⟩
  rw [standing.record]
  exact ⟨course, standing.rom⟩

theorem Complete.finished {s : Linker (σ × List Call)} (complete : Complete b d s) :
    Finished b.root b.settings b.tied d s.assembler.2 := by
  obtain ⟨files, ordered, course, -⟩ := complete.ordered
  exact ⟨files, ordered, course.all⟩

theorem ensures_upToSave (d : Disk) (rom : Path) (state : σ) (keeps : asm.KeepsLibrary root)
    (filed : Leads (Untouched root) (Build.buildResources asm.traced settings)
      fun _ s => tied s.assembler.2 s.resources) :
    Ensures (· = Linker.fresh d root (state, [])) (Build.upToSave asm.traced settings rom)
      (fun _ s => ∃ data, d.read rom = .ok data ∧ Complete ⟨root, rom, data, settings, tied⟩ d s)
      fun s => Orderly root settings tied d s.assembler.2 := by
  have opening : Opening d root (Linker.fresh d root (state, [])) := ⟨rfl, rfl, rfl, rfl⟩
  by_cases tool : ToolDirectory d root
  · have steady : SteadyThroughout asm.traced root rom (Lists root (Library.listed root d) 0) :=
      lists_steady keeps
    have start : ∀ s, s = Linker.fresh d root (state, []) →
        Opening d root s ∧ Lists root (Library.listed root d) 0 s :=
      fun s same => same ▸ ⟨opening, rfl, tool, rfl, nofun⟩
    exact (upToSave_of_early keeps filed steady.toSteady fun _ _ lists => lists).pre start
  · have untouched : Steady asm.traced root rom
        fun s : Linker (σ × List Call) => Untouched root s := untouched_steady
    have start : ∀ s, s = Linker.fresh d root (state, []) → Opening d root s ∧ Untouched root s :=
      fun s same => same ▸ ⟨opening, rfl, rfl⟩
    exact (upToSave_of_early keeps filed untouched fun there => absurd there tool).pre start

theorem Labelled.filed {t : ResourceTable} {s : Linker (σ × List Call)}
    (labelled : Labelled root settings.contexts settings.resources t s) :
    Filed root settings s.assembler.2 s.resources :=
  ⟨labelled.inserted.count, labelled.inserted.linkage⟩

theorem ensures_sequence (d : Disk) (state : σ) (override? : Option Path) (keeps : asm.KeepsLibrary root)
    (numbered : ∀ k r, settings.resources.get? k = some r → r.id = k) :
    Ensures (· = Linker.fresh d root (state, [])) (Build.run asm.traced settings override?)
      (fun _ s => Finished root settings (Filed root settings) d s.assembler.2)
      fun s => Orderly root settings (Filed root settings) d s.assembler.2 := by
  have filed : Leads (Untouched root) (Build.buildResources asm.traced settings)
      fun _ s => Filed root settings s.assembler.2 s.resources :=
    (leads_buildResources numbered).mono (fun _ s ⟨t, labelled⟩ => labelled.filed) fun _ _ => trivial
  rw [Build.run_eq]
  refine Ensures.read fun s same => ?_
  subst same
  cases Build.romPath (Linker.fresh d root (state, [])).workspace settings override? with
  | error e =>
    refine Ensures.throw fun t same => ?_
    rw [same]
    exact orderly_of_clean Follows.nil
  | ok rom =>
    refine Ensures.through
      (fun _ s => Finished root settings (Filed root settings) d s.assembler.2) ?_ fun _ => ?_
    · have comes := ensures_upToSave d rom state keeps filed
      exact comes.mono (fun _ s ⟨_, _, complete⟩ => complete.finished) fun _ stopped => stopped
    · have kept := keeps_conclude
        (fun inner : σ × List Call => Finished root settings (Filed root settings) d inner.2) rom
      exact kept.halting fun _ finished => finished.orderly

end LinkM

open LinkM

def Build.record {σ : Type} (asm : Assembler σ) (settings : Settings) (override? : Option Path)
    (root : Path) (d : Disk) (state : σ) : List Call :=
  ((build asm.traced settings override?).finish (Linker.fresh d root (state, []))).assembler.2

/-- In every build of an accepted list, the assembler is asked for the sources of the stages, one after the
other: for all of them if the build succeeds, and else for some of the first. Each source finds the
global defines, then the routines that the sources in front of it have registered, and then its own. -/
theorem build_in_order {σ : Type} (asm : Assembler σ) (source : String) (w : Workspace) (read : Disk)
    (settings : Settings) (override? : Option Path) (root : Path) (d : Disk) (state : σ)
    (accepted : Settings.parse source w read = .ok settings) (keeps : asm.KeepsLibrary root) :
    (settings.defines.map (·.1)).Perm Settings.globalNames ∧
    (∀ cs : Contexts, cs.interruptDefines.map (·.1) = Contexts.interruptNames) ∧
    (∀ k r, settings.resources.get? k = some r → r.id = k) ∧
    ∃ files, (ToolDirectory d root → Library.listed root d = files) ∧
      (∀ call ∈ (Build.record asm settings override? root d state).drop 1,
        Library.listed root call.disk = files) ∧
      (Build.record asm settings override? root d state).map (·.request.source) <+:
        (stages files settings.resources.resources).map (Stage.source root) ∧
      ((∃ report t, build asm.traced settings override? (Linker.fresh d root (state, [])) =
          .ok report t) →
        (Build.record asm settings override? root d state).map (·.request.source) =
          (stages files settings.resources.resources).map (Stage.source root)) ∧
      ∀ k stage call, (stages files settings.resources.resources)[k]? = some stage →
        (Build.record asm settings override? root d state)[k]? = some call →
        Asked root settings (Filed root settings)
          ((Build.record asm settings override? root d state).take k) stage call ∧
        call.request.defines.names.Nodup := by
  have numbered : ∀ k r, settings.resources.get? k = some r → r.id = k :=
    (Settings.holds_of_parse accepted).mentions.ids
  refine ⟨Settings.perm_globalNames accepted, Contexts.names_interruptDefines, numbered, ?_⟩
  have runs := ensures_sequence d state override? keeps numbered
  generalize recorded : Build.record asm settings override? root d state = calls
  suffices comes : ∃ files, Ordered root settings (Filed root settings) d files calls ∧
      ((∃ report t, build asm.traced settings override? (Linker.fresh d root (state, [])) =
          .ok report t) → calls.length = (stages files settings.resources.resources).length) by
    obtain ⟨files, ordered, all⟩ := comes
    refine ⟨files, ordered.first, ordered.listed, ordered.follows.sources,
      fun built => ordered.follows.sources_of_length (all built), fun k stage call planned called => ?_⟩
    exact ⟨ordered.follows.asked k stage call planned called, call.request.defines.distinct⟩
  have kept {fact : List Call → Prop} := keeps_cleanup fun inner : σ × List Call => fact inner.2
  by_cases built : ∃ report t,
      build asm.traced settings override? (Linker.fresh d root (state, [])) = .ok report t
  · have finishes : Leads (· = Linker.fresh d root (state, [])) (build asm.traced settings override?)
        fun _ s => Finished root settings (Filed root settings) d s.assembler.2 :=
      Ensures.andAlways (runs.mono (fun _ _ finished => finished) fun _ _ => trivial) kept
    obtain ⟨report, t, ended⟩ := built
    have reached := finishes.run _ rfl
    rw [ended] at reached
    obtain ⟨files, ordered, all⟩ := reached
    rw [Build.record, finish_of_ok ended] at recorded
    rw [recorded] at ordered all
    exact ⟨files, ordered, fun _ => all⟩
  · have stops := Ensures.mono runs (fun _ _ finished => finished.orderly) fun _ orderly => orderly
    rw [Build.record, build, finish_andAlways] at recorded
    obtain ⟨files, ordered⟩ := recorded ▸ kept.finish (stops.finish rfl)
    exact ⟨files, ordered, fun ended => absurd ended built⟩

open SmallBuild in
theorem build_in_order_small : Settings.parse SmallBuild.source ⟨root, []⟩ disk = .ok settings ∧
    asm.KeepsLibrary root ∧
    (Build.record asm settings (some ⟨"r.sfc"⟩) root disk ()).map (·.request.source) =
      [⟨"./asm/base/clean.asm"⟩, ⟨"./asm/base/routine_scan.asm"⟩, ⟨"./asm/work/resource.asm"⟩,
        ⟨"./asm/base/main.asm"⟩] := by
  have keeps : asm.KeepsLibrary root := ⟨fun _ _ _ tool => tool, fun _ _ _ => rfl⟩
  obtain ⟨report, t, ends, -⟩ := exists_rest
  have built : build asm.traced settings (some ⟨"r.sfc"⟩) start = .ok report t := build_eq.trans ends
  obtain ⟨-, -, -, files, first, -, -, all, -⟩ := build_in_order asm SmallBuild.source ⟨root, []⟩ disk
    settings (some ⟨"r.sfc"⟩) root disk () accepted keeps
  have tool : ToolDirectory disk root := ⟨.root, by decide +kernel⟩
  have none : Library.listed root disk = [] := by decide +kernel
  refine ⟨accepted, keeps, (all ⟨report, t, built⟩).trans ?_⟩
  rw [← first tool, none]
  decide +kernel

end RomLinker
