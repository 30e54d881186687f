import RomLinker.Proofs.Defines
import RomLinker.Proofs.Dispatch.Interrupt
import RomLinker.Proofs.Link.Causes
import RomLinker.Proofs.Link.Closure
import RomLinker.Proofs.Link.NoTrace

/-!
No build stops for a step at the wrong place. The defines of a build have names of their own, whatever
the assembler calls its routines (`Session.Ready.exists_definesFor`); the ROM is loaded before anything
asks for it, and the routines are scanned once and before the first of them is registered.
-/
namespace RomLinker

open Workspace

def Unmarked (name : String) : Prop := ¬routineMark.toList <+: name.toList

instance : DecidablePred Unmarked := fun _ => inferInstanceAs (Decidable (¬_))

namespace RoutineTable

theorem marked_of_mem_defines (t : RoutineTable) {name : String} (member : name ∈ t.defines.map (·.1)) :
    ¬Unmarked name := by
  obtain ⟨define, listed, rfl⟩ := List.mem_map.mp member
  obtain ⟨routine, -, rfl⟩ := List.mem_map.mp listed
  rw [Unmarked, not_not, String.toList_append]
  exact List.prefix_append _ _

end RoutineTable

def Resource.processorNames : List String := CallSite.all.map fun site => "InvokeSA1" ++ site.name

theorem Resource.names_defines (r : Resource) : r.defines.names = processorNames := by
  unfold Defines.names
  rw [r.entries_defines]
  unfold processorDefines
  rw [List.map_map]
  rfl

namespace Session
variable {names : List String} {scanned : Bool} {s t : Session} {own : Defines}

/-- A ROM is loaded, and these are the names of what is defined for all sources. -/
structure Ready (names : List String) (scanned : Bool) (s : Session) : Prop where
  loaded : s.rom?.isSome
  names : s.defines.names.Perm names
  scanned : s.routines.wasScanned = scanned

/-- The names of the routines lie apart from all others. -/
theorem Ready.exists_definesFor (ready : s.Ready names scanned) (distinct : (names ++ own.names).Nodup)
    (unmarked : ∀ name ∈ names ++ own.names, Unmarked name) :
    ∃ defines, s.definesFor own = .ok defines := by
  have apart (name : String) (common : name ∈ s.defines.names ∨ name ∈ own.names) :
      name ∉ s.routines.defines.map (·.1) := by
    intro routine
    refine RoutineTable.marked_of_mem_defines _ routine (unmarked name (List.mem_append.mpr ?_))
    exact common.imp_left ready.names.mem_iff.mp
  have together : (s.defines.names ++ own.names).Nodup :=
    (ready.names.append_right _).nodup_iff.mpr distinct
  obtain ⟨global, local', disjoint⟩ := List.nodup_append.mp together
  have all : (s.defines.names ++ (s.routines.defines ++ own.entries).map (·.1)).Nodup := by
    rw [List.map_append, List.nodup_append, List.nodup_append]
    refine ⟨global, ⟨s.routines.nodup_names_defines, local', ?_⟩, ?_⟩
    · rintro name routine other here rfl
      exact apart name (Or.inr here) routine
    · rintro name here other there rfl
      rcases List.mem_append.mp there with routine | mine
      · exact apart name (Or.inl here) routine
      · exact disjoint name here name mine rfl
  obtain ⟨defines, extended⟩ := Defines.exists_extend all
  refine ⟨defines, ?_⟩
  unfold definesFor
  rw [extended]

end Session

namespace LinkM

open Session Settings Contexts

variable {σ : Type} {asm : Assembler σ} {names : List String} {scanned : Bool} {own : Defines}

/-- The cause lies with the user or the environment. -/
abbrev InPlace (e : LinkError) : Prop := e.isMisplaced = false

theorem upheld_ready : Upheld (Ready names scanned) InPlace where
  answer s answer ready := by
    cases answer with
    | ok assembly => exact ⟨ready.loaded, ready.names, ready.scanned⟩
    | error fault => exact ready
  image s data ready := by
    refine ⟨?_, ready.names, ready.scanned⟩
    unfold withData
    rw [Option.isSome_map]
    exact ready.loaded
  clean _ _ _ ready := ⟨ready.loaded, ready.names, ready.scanned⟩
  size _ _ _ ready := ⟨ready.loaded, ready.names, ready.scanned⟩
  unloaded s ready none := by
    have loaded := ready.loaded
    rw [none] at loaded
    cases loaded
  other _ inPlace := inPlace

theorem defined_ready (distinct : (names ++ own.names).Nodup)
    (unmarked : ∀ name ∈ names ++ own.names, Unmarked name) :
    Defined (Ready names scanned) InPlace own := by
  intro s e ready failed
  obtain ⟨defines, defined⟩ := ready.exists_definesFor distinct unmarked
  cases defined.symm.trans failed

theorem plain_ready : Defined (Ready globalNames scanned) InPlace .empty :=
  defined_ready (by decide) (by decide +kernel)

theorem upheldThroughout_ready : UpheldThroughout (Ready globalNames true) InPlace where
  toUpheld := upheld_ready
  registered s t file name address ready registered := by
    obtain ⟨-, routines, added, rfl⟩ := register_eq_ok registered
    exact ⟨ready.loaded, ready.names, (RoutineTable.wasScanned_add added).trans ready.scanned⟩
  unregistered s e file name address ready failed := by
    obtain ⟨holder, rfl⟩ := register_eq_error ready.scanned failed
    rfl
  plain := plain_ready
  told r := by
    have known : (globalNames ++ Resource.processorNames).Nodup ∧
        ∀ name ∈ globalNames ++ Resource.processorNames, Unmarked name := by decide +kernel
    rw [← r.names_defines] at known
    exact defined_ready known.1 known.2

theorem yields_addDefines {entries : List (String × String)} {stopped : LinkError → Session → Prop}
    (distinct : (names ++ entries.map (·.1)).Nodup) :
    Yields (Ready names scanned) (Build.addDefines entries : LinkM σ Unit)
      (Ready (names ++ entries.map (·.1)) scanned) stopped := by
  induction entries generalizing names with
  | nil => exact Yields.pure _ fun s ready => by rwa [List.map_nil, List.append_nil]
  | cons entry rest ih =>
    obtain ⟨name, value⟩ := entry
    have split : names ++ ((name, value) :: rest).map (·.1) = (names ++ [name]) ++ rest.map (·.1) := by
      rw [List.append_assoc]
      rfl
    have fresh (s : Session) (ready : s.Ready names scanned) : name ∉ s.defines.names := fun taken =>
      (List.nodup_append.mp distinct).2.2 name (ready.names.mem_iff.mp taken) name List.mem_cons_self rfl
    rw [split] at distinct ⊢
    refine Yields.bind (Yields.onSession ?_ ?_) fun _ => ih distinct
    · intro s t ready defined
      obtain ⟨defines, added, rfl⟩ := define_eq_ok defined
      refine ⟨ready.loaded, ?_, ready.scanned⟩
      rw [Defines.names_of_add? added]
      exact ready.names.append_right _
    · intro s e ready failed
      obtain ⟨defines, added⟩ := Defines.exists_add? (fresh s ready) value
      unfold Session.define at failed
      rw [added] at failed
      cases failed

variable {settings : Settings} {rom : Path}

theorem yields_loadRom (global : (settings.defines.map (·.1)).Perm globalNames) :
    Yields (· = {}) (Build.loadRom asm settings rom : LinkM σ Unit) (Ready globalNames false)
      fun e _ => InPlace e := by
  have distinct : (([] : List String) ++ settings.defines.map (·.1)).Nodup :=
    global.nodup_iff.mpr (by decide)
  have loads : Yields (· = {}) (load rom : LinkM σ Unit) (Ready [] false)
      fun e s => s = {} ∧ InPlace e := by
    refine yields_load (fun _ inPlace => inPlace) (fun s rom empty found => ?_) rom
    subst empty
    exact ⟨rfl, .refl _, rfl⟩
  unfold Build.loadRom
  refine Yields.bind (Yields.modify fun s empty => empty) fun _ => Yields.bind loads.blames fun _ => ?_
  refine Yields.bind (Yields.modify fun s ready => ready) fun _ => ?_
  refine (yields_addDefines distinct).mono (fun _ holds => holds) (fun s ready => ?_) fun _ _ stopped => stopped
  exact ⟨ready.loaded, ready.names.trans global, ready.scanned⟩

theorem yields_scan : Yields (Ready globalNames false) (Build.scan asm : LinkM σ Unit)
    (Ready globalNames true) fun e _ => InPlace e := by
  have scans : Yields (Ready globalNames false) (scanRoutines asm) (Ready globalNames true)
      fun e s => Ready globalNames false s ∧ InPlace e := by
    refine upheld_ready.scanRoutines plain_ready (fun s ready scanned => ?_) ?_
    · cases ready.scanned.symm.trans scanned
    · exact fun s names ready loaded unscanned => ⟨loaded, ready.names, rfl⟩
  unfold Build.scan
  exact Yields.bind scans.blames fun _ => Yields.modify fun s ready => ready

theorem yields_buildMain : Yields (Ready globalNames true) (Build.buildMain asm settings : LinkM σ Unit)
    (Ready (globalNames ++ interruptNames) true) fun e _ => InPlace e := by
  have plain : Defined (Ready (globalNames ++ interruptNames) true) InPlace .empty :=
    defined_ready (by decide) (by decide +kernel)
  have upheld : Upheld (Ready (globalNames ++ interruptNames) true) InPlace := upheld_ready
  have defines (cs : Contexts) : Yields (Ready globalNames true)
      (Build.addDefines cs.interruptDefines : LinkM σ Unit) (Ready (globalNames ++ interruptNames) true)
      fun e _ => InPlace e := by
    rw [← cs.names_interruptDefines]
    refine yields_addDefines ?_
    rw [cs.names_interruptDefines]
    decide
  unfold Build.buildMain
  refine Yields.bind (Yields.modify fun s ready => ready) fun _ => Yields.bind Stays.get.blames fun s => ?_
  refine Yields.bind (defines _) fun _ => Stays.blames ?_
  refine Stays.bind (stays_generate upheld.other _ _) fun _ => Stays.bind Stays.get fun s => ?_
  refine Stays.bind (stays_generate upheld.other _ _) fun _ => ?_
  refine Stays.bind (upheld.patchBase plain _) fun inserted => ?_
  exact Stays.modifySession fun s ready => upheld.size s .main inserted.size ready

theorem yields_link : Yields (Ready globalNames false) (Build.link asm settings rom : LinkM σ Report)
    (Ready (globalNames ++ interruptNames) true) fun e _ => InPlace e := by
  have scanned : UpheldThroughout (Ready globalNames true) InPlace := upheldThroughout_ready
  have upheld : Upheld (Ready (globalNames ++ interruptNames) true) InPlace := upheld_ready
  unfold Build.link
  refine Yields.bind (upheld_ready.patchBase plain_ready _).blames fun _ => ?_
  refine Yields.bind yields_scan fun _ => Yields.bind scanned.inserting.buildLibrary.blames fun _ => ?_
  refine Yields.bind (scanned.inserting.buildResources settings).blames fun _ => ?_
  refine Yields.bind yields_buildMain fun _ => Stays.blames ?_
  refine Stays.bind upheld.save fun _ => Stays.bind Stays.get fun s => ?_
  refine Stays.bind (stays_noteSizes _) fun _ => Stays.bind (stays_note _ _) fun _ => ?_
  exact Stays.bind (stays_markRom upheld.other _) fun _ => Stays.pure _

theorem yields_run {override? : Option Path} (global : (settings.defines.map (·.1)).Perm globalNames) :
    Yields (· = {}) (Build.run asm settings override? : LinkM σ Report)
      (Ready (globalNames ++ interruptNames) true) fun e _ => InPlace e := by
  unfold Build.run
  refine Yields.read fun s empty => ?_
  split
  · rename_i e failed
    refine Yields.throw fun _ _ => ?_
    unfold Build.romPath at failed
    split at failed
    · cases failed
      rfl
    · cases failed
  · rw [empty]
    exact Yields.bind (yields_loadRom global) fun _ => yields_link

end LinkM

/-- Whatever the list, the disk and the assembler are like, no build stops because a define is already
made, the routines are not scanned or scanned twice, or no ROM is loaded. -/
theorem build_inPlace {σ : Type} (asm : Assembler σ) (source : String) (w : Workspace) (read : Disk)
    (settings : Settings) (override? : Option Path) (root : Path) (d : Disk) (state : σ) (e : LinkError)
    (t : Linker σ) (accepted : Settings.parse source w read = .ok settings)
    (stopped : build asm settings override? (Linker.fresh d root state) = .error e t) :
    (∀ name, e ≠ .duplicateDefine name) ∧ (∀ fault, e ≠ .outOfOrder fault) ∧ e ≠ .noRom := by
  have sure (s : Linker σ) : ∃ t, (LinkM.cleanup : LinkM σ Unit) s = .ok () t :=
    (LinkM.cleanup_run s).imp fun _ both => both.1
  obtain ⟨u, failed, -⟩ := LinkM.andAlways_eq_error sure stopped
  have yields : LinkM.Yields (· = {}) (Build.run asm settings override?)
      (Session.Ready (Settings.globalNames ++ Contexts.interruptNames) true) fun e _ => LinkM.InPlace e :=
    LinkM.yields_run (Settings.perm_globalNames accepted)
  have cause := yields.run (Linker.fresh d root state) rfl
  rw [failed] at cause
  refine ⟨fun name same => ?_, fun fault same => ?_, fun same => ?_⟩
  · rw [same] at cause
    cases cause
  · rw [same] at cause
    cases cause
  · rw [same] at cause
    cases cause

open SmallBuild in
theorem build_inPlace_refused : ∃ e t, Settings.parse source ⟨root, []⟩ disk = .ok settings ∧
    build refusing settings (some ⟨"r.sfc"⟩) (Linker.fresh disk root ()) = .error e t ∧
    (∀ name, e ≠ .duplicateDefine name) ∧ (∀ fault, e ≠ .outOfOrder fault) ∧ e ≠ .noRom := by
  obtain ⟨t, refused⟩ := exists_refused
  exact ⟨_, t, accepted, refused, build_inPlace refusing source ⟨root, []⟩ disk settings (some ⟨"r.sfc"⟩)
    root disk () _ t accepted refused⟩

end RomLinker
