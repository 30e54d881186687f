import RomLinker.Proofs.Extmod
import RomLinker.Proofs.Link.Closure
import RomLinker.Proofs.Link.Kept

/-!
A failed build leaves no trace (`build_leaves_no_trace`). Up to the save only generated files are
written, the save writes the ROM or nothing, and no step behind it can fail; in the end every generated
file on record is removed. What the system can keep back of that is said by `generated_after_build`, and
what a build leaves then by `build_leaves_traces`.
-/
namespace RomLinker

open Workspace

namespace LinkM

variable {σ α β : Type} {asm : Assembler σ} {settings : Settings} {override? : Option Path}
  {d e : Disk} {root rom p : Path} {l : Location}

abbrev Beside (d : Disk) (root : Path) (l : Location) : Prop := l.Inside (workPlace d root)

abbrev Everywhere (_ : Location) : Prop := True

theorem place_target {s : Linker σ} {region : Location → Prop}
    (kept : KeptBy d root rom region s) (proper : d.workingDirectory.Proper) :
    s.disk.place ((s.disk.canonical? rom).getD rom) = d.place rom := by
  have here : s.disk.place rom = d.place rom := Disk.place_congr kept.cwd rom
  cases found : s.disk.canonical? rom with
  | none => exact here
  | some c =>
    rw [Option.getD_some, Disk.canonical?_eq_some found, here]
    exact Disk.place_canonical (Disk.proper_place proper rom)

theorem KeptBy.mono {s : Linker σ} {region region' : Location → Prop}
    (kept : KeptBy d root rom region s) (smaller : ∀ l, region' l → region l) :
    KeptBy d root rom region' s :=
  ⟨kept.root_eq, kept.rom_eq, kept.cwd, kept.obstacles, kept.directories, kept.written,
    fun l here => kept.rest l (smaller l here), kept.made⟩

theorem ensures_save (proper : d.workingDirectory.Proper) (outside : ¬Beside d root (d.place rom)) :
    Ensures (KeptBy d root rom Everywhere) (save : LinkM σ Unit)
      (fun _ => KeptBy d root rom (Beside d root)) (KeptBy d root rom Everywhere) := by
  refine ensures_saves.mono ?_ fun _ kept => kept
  rintro - t ⟨s, holds, ⟨r, l, loaded, written⟩, rest⟩
  have path : r.path = rom := holds.rom_eq r.path (by simp [core, Session.romPath?, loaded])
  have away : ¬Beside d root l := by
    rw [written.place, path, place_target holds proper]
    exact outside
  rw [KeptBy, rest]
  refine holds.saves written away fun m inside => ⟨trivial, ?_⟩
  rintro rfl
  exact away inside

theorem surely_markRom (outside : ¬Beside d root (d.place rom)) :
    Surely (KeptBy d root rom (Beside d root)) (Build.markRom rom : LinkM σ Unit) := by
  have marks (s : Linker σ) (e : Disk) (holds : KeptBy d root rom (Beside d root) s)
      (changes : e = s.disk ∨ ∃ l content, Disk.Writes (rom.withExtension "extmod") l content s.disk e) :
      KeptBy d root rom (Beside d root) { s with disk := e } := by
    obtain rfl | ⟨l, content, written⟩ := changes
    · exact holds
    · have away : ¬Beside d root l := by
        have place : s.disk.place rom = d.place rom := Disk.place_congr holds.cwd rom
        rw [written.place]
        intro inside
        refine outside (place ▸ ?_)
        have plain : '/' ∉ "extmod".toList := by decide
        exact Disk.inside_of_withExtension plain (by decide) inside
      refine holds.saves written away fun m inside => ⟨inside, ?_⟩
      rintro rfl
      exact away inside
  refine Ensures.read fun s holds => ?_
  have changes := Extmod.mark_changes s.disk rom
  generalize Extmod.mark s.disk rom = marking at changes ⊢
  refine Ensures.through (fun _ => KeptBy d root rom (Beside d root)) ?_ fun _ => ?_
  · refine Ensures.modify fun t same => ?_
    subst same
    exact marks t marking.2 holds changes
  · split
    · exact Ensures.pure fun t kept => kept
    · exact surely_note (fun _ _ kept => kept) _ _

theorem ensures_run (reads : asm.ReadsOnly) (proper : d.workingDirectory.Proper)
    (outside : ¬Beside d root (d.place rom))
    (path : Build.romPath ⟨root, []⟩ settings override? = .ok rom) :
    Ensures (fun s => s.workspace = ⟨root, []⟩ ∧ KeptBy d root rom Everywhere s)
      (Build.run asm settings override?)
      (fun _ => KeptBy d root rom (Beside d root)) (KeptBy d root rom Everywhere) := by
  rw [Build.run_eq]
  refine Ensures.read fun s start => ?_
  obtain ⟨fresh, holds⟩ := start
  rw [fresh, path]
  have steady : SteadyThroughout asm root rom (KeptBy d root rom Everywhere) := keptBy_steady reads
  refine Ensures.pre (Ensures.bind (steady.upToSave settings) fun _ => ?_) fun t same => same ▸ holds
  refine ensures_conclude (ensures_save proper outside) (fun _ _ kept => kept) ?_
  exact (surely_markRom outside).mono (fun _ _ kept => kept) fun _ stopped => stopped.elim

theorem ensures_run_of_error {error : LinkError}
    (path : Build.romPath ⟨root, []⟩ settings override? = .error error) :
    Ensures (fun s => s.workspace = ⟨root, []⟩ ∧ KeptBy d root rom Everywhere s)
      (Build.run asm settings override?)
      (fun _ => KeptBy d root rom (Beside d root)) (KeptBy d root rom Everywhere) := by
  refine Ensures.read fun s start => ?_
  obtain ⟨fresh, holds⟩ := start
  rw [fresh, path]
  exact Ensures.throw fun t same => same ▸ holds

/-! ### Clearing up -/

/-- Files are removed one by one. One that cannot be removed does not stop the others. -/
theorem surely_discard {done : List Path} :
    Ensures (fun s : Linker σ => Disk.Cleared done d s.disk) (discard p)
      (fun _ s => Disk.Cleared (done ++ [p]) d s.disk) fun _ => False := by
  refine Ensures.read fun s cleared => ?_
  cases removed : s.disk.remove p with
  | ok disk =>
    refine Ensures.modify fun t same => ?_
    exact cleared.trans (.of_removed removed)
  | error fault =>
    refine Ensures.modify fun t same => ?_
    rw [same]
    exact cleared.trans (.of_not_removed removed)

theorem surely_discardAll {done written : List Path} :
    Ensures (fun s : Linker σ => Disk.Cleared done d s.disk) (written.forM discard)
      (fun _ s => Disk.Cleared (done ++ written) d s.disk) fun _ => False := by
  induction written generalizing done with
  | nil => exact Ensures.pure fun s cleared => (List.append_nil done).symm ▸ cleared
  | cons p written ih =>
    have split : done ++ p :: written = (done ++ [p]) ++ written := List.append_cons done p written
    rw [split]
    exact Ensures.bind surely_discard fun _ => ih

theorem cleanup_run (s : Linker σ) :
    ∃ t, (cleanup : LinkM σ Unit) s = .ok () t ∧ Disk.Cleared s.workspace.written s.disk t.disk := by
  have cleared : Ensures (· = s) (cleanup : LinkM σ Unit)
      (fun _ t => Disk.Cleared s.workspace.written s.disk t.disk) fun _ => False := by
    refine Ensures.read fun t same => ?_
    subst same
    refine Ensures.through (fun _ u => Disk.Cleared [] t.disk u.disk) ?_ fun _ => ?_
    · refine Ensures.modify fun u same => ?_
      rw [same]
      exact Disk.Cleared.refl _
    · exact surely_discardAll
  have reached := cleared.run s rfl
  cases result : (cleanup : LinkM σ Unit) s with
  | ok _ t =>
    rw [result] at reached
    exact ⟨t, rfl, reached⟩
  | error e t =>
    rw [result] at reached
    exact reached.elim

theorem run_kept (reads : asm.ReadsOnly) (proper : d.workingDirectory.Proper)
    (outside : ∀ rom, Build.romPath ⟨root, []⟩ settings override? = .ok rom →
      ¬Beside d root (d.place rom)) (state : σ) :
    ∃ rom, Ensures (· = Linker.fresh d root state) (Build.run asm settings override?)
      (fun _ => KeptBy d root rom (Beside d root)) (KeptBy d root rom Everywhere) := by
  have start (rom : Path) (s : Linker σ) (same : s = Linker.fresh d root state) :
      s.workspace = ⟨root, []⟩ ∧ KeptBy d root rom Everywhere s := by
    subst same
    exact ⟨rfl, Kept.start d root rom Everywhere⟩
  cases path : Build.romPath ⟨root, []⟩ settings override? with
  | error error => exact ⟨root, (ensures_run_of_error path).pre (start root)⟩
  | ok rom => exact ⟨rom, (ensures_run reads proper (outside rom path) path).pre (start rom)⟩

/-- Of the generated files on record those are left that the system does not let go, and nothing else is
touched. -/
theorem lookup_cleared {s : Linker σ} {region : Location → Prop}
    (kept : KeptBy d root rom region s) (cleared : Disk.Cleared s.workspace.written s.disk e) :
    (∀ name ∈ generatedNames, sourceIn root name ∈ s.workspace.written →
      let l := (workPlace d root).child name
      e.lookup l = none ∨
        d.obstacles.refused .removeFile l ≠ none ∧ ∃ content, e.lookup l = some (.file content)) ∧
    ∀ l, (∀ name ∈ generatedNames, sourceIn root name ∈ s.workspace.written →
      l ≠ (workPlace d root).child name) → e.lookup l = s.disk.lookup l := by
  refine ⟨fun name generated member => ?_, fun l other => ?_⟩
  · obtain ⟨name', generated', same, file⟩ := kept.written _ member
    have equal : name = name' := by
      refine generatedSource_inj (named_of_generated generated) (named_of_generated generated')
        (w := ⟨root, []⟩) ?_
      rw [show (Workspace.mk root []).generatedSource name = sourceIn root name from rfl, same]
      rfl
    subst equal
    rcases cleared.entry ((workPlace d root).child name) with ⟨free, -⟩ | ⟨same, others⟩
    · exact Or.inl free
    · refine Or.inr ⟨fun granted => others _ member ⟨file, ?_⟩, ?_⟩
      · change (core s).disk.obstacles.refused _ _ = none
        rw [kept.obstacles]
        exact granted
      · obtain ⟨-, content, entry⟩ := file
        exact ⟨content, same.trans (Disk.entryAt_eq_ok.mp entry).2⟩
  · rcases cleared.entry l with ⟨-, p, member, removable⟩ | ⟨same, -⟩
    · obtain ⟨name, generated, rfl, file⟩ := kept.written p member
      exact absurd (removable.1.unique file) (other name generated member)
    · exact same

theorem exists_kept (reads : asm.ReadsOnly) (proper : d.workingDirectory.Proper)
    (outside : ∀ rom, Build.romPath ⟨root, []⟩ settings override? = .ok rom →
      ¬Beside d root (d.place rom)) (state : σ) :
    let ran := (Build.run asm settings override?).finish (Linker.fresh d root state)
    ∃ rom, KeptBy d root rom (Beside d root) ran ∧ Disk.Cleared ran.workspace.written ran.disk
      ((build asm settings override?).finish (Linker.fresh d root state)).disk := by
  intro ran
  obtain ⟨rom, ensures⟩ := run_kept reads proper outside state
  have kept : KeptBy d root rom (Beside d root) ran :=
    Ensures.finish (ensures.mono (fun _ _ kept => kept) fun _ kept => kept.mono fun _ _ => trivial) rfl
  obtain ⟨u, cleaned, cleared⟩ := cleanup_run ran
  rw [build, finish_andAlways, finish_of_ok cleaned]
  exact ⟨rom, kept, cleared⟩

theorem lookup_outside (reads : asm.ReadsOnly) (proper : d.workingDirectory.Proper)
    (outside : ∀ rom, Build.romPath ⟨root, []⟩ settings override? = .ok rom →
      ¬Beside d root (d.place rom)) {state : σ} {error : LinkError} {t : Linker σ}
    (failed : build asm settings override? (Linker.fresh d root state) = .error error t)
    (away : ¬Beside d root l) :
    t.disk.lookup l = d.lookup l ∨ (d.lookup l = none ∧ t.disk.lookup l = some .directory) := by
  obtain ⟨rom, ensures⟩ := run_kept reads proper outside state
  have sure (s : Linker σ) : ∃ t, (cleanup : LinkM σ Unit) s = .ok () t :=
    (cleanup_run s).imp fun _ both => both.1
  obtain ⟨v, stopped, cleaned⟩ := andAlways_eq_error sure failed
  have kept := ensures.run _ rfl
  rw [stopped] at kept
  obtain ⟨t', same, cleared⟩ := cleanup_run v
  cases cleaned.symm.trans same
  have beside (name : String) : Beside d root ((workPlace d root).child name) :=
    Location.inside_child.mpr (Or.inl rfl)
  have apart : ∀ name ∈ generatedNames, sourceIn root name ∈ v.workspace.written →
      l ≠ (workPlace d root).child name := by
    rintro name - - rfl
    exact away (beside name)
  rw [(lookup_cleared kept cleared).2 l apart]
  rcases kept.rest l trivial apart with same | ⟨free, made, -⟩ | ⟨name, -, rfl, -⟩
  · exact Or.inl same
  · exact Or.inr ⟨free, made⟩
  · exact absurd (beside name) away

end LinkM

open LinkM

/-- What becomes of the generated files in a build, however it ends. Those on record are gone, but for the
ones that the system does not let go; the others are as they were, but for the ones whose writing it broke
off. -/
theorem generated_after_build {σ : Type} (asm : Assembler σ) (settings : Settings)
    (override? : Option Path) (root : Path) (d : Disk) (state : σ) (reads : asm.ReadsOnly)
    (proper : d.workingDirectory.Proper) (grounded : Grounded d root)
    (outside : ∀ rom, Build.romPath ⟨root, []⟩ settings override? = .ok rom →
      ¬(d.place rom).Inside (workPlace d root)) :
    let start := Linker.fresh d root state
    let written := ((Build.run asm settings override?).finish start).workspace.written
    let after := ((build asm settings override?).finish start).disk
    ∀ name ∈ generatedNames,
      let l := (workPlace d root).child name
      (sourceIn root name ∈ written ∧ (after.lookup l = none ∨
        d.obstacles.refused .removeFile l ≠ none ∧ ∃ content, after.lookup l = some (.file content))) ∨
      (sourceIn root name ∉ written ∧ (after.lookup l = d.lookup l ∨ CutShort d l (after.lookup l))) := by
  intro start written after name generated l
  obtain ⟨rom, kept, cleared⟩ := exists_kept reads proper outside state
  obtain ⟨recorded, others⟩ := lookup_cleared kept cleared
  have beside : Beside d root l := Location.inside_child.mpr (Or.inl rfl)
  by_cases member : sourceIn root name ∈ written
  · exact Or.inl ⟨member, recorded name generated member⟩
  · have apart : ∀ other ∈ generatedNames, sourceIn root other ∈ written →
        l ≠ (workPlace d root).child other := by
      intro other generated' member' same
      obtain ⟨-, rfl⟩ := Location.child_inj same
      exact member member'
    refine Or.inr ⟨member, ?_⟩
    rw [others l apart]
    rcases kept.rest l beside apart with same | ⟨-, -, away⟩ | ⟨-, -, -, short⟩
    · exact Or.inl same
    · exact absurd beside (away grounded)
    · exact Or.inr short

/-- The system lets a file at a place be written to its end, once it is open, and be removed. -/
structure Disk.Obliges (d : Disk) (l : Location) : Prop where
  whole : ∀ entries content, d.obstacles.brokenOff entries l content = none
  removed : d.obstacles.refused .removeFile l = none

namespace SmallBuild

/-- Every source has the same labels, a shared routine among them, and resources are refused. -/
def refusing : Assembler Unit := ⟨"refusing", fun request disk inner =>
  if request.source = sourceIn root "resource.asm" then (.error (.failed ["no room"]), disk, inner)
  else (.ok ⟨.empty, ⟨"UberRoutine_f", 0x108020⟩ :: labels, []⟩, disk, inner)⟩

theorem readsOnly_refusing : refusing.ReadsOnly := by
  intro request disk inner
  unfold refusing
  dsimp only
  split <;> rfl

theorem outside_disk : ¬(disk.place ⟨"./r.sfc"⟩).Inside (workPlace disk root) :=
  Location.not_inside_of_le (by decide +kernel)

theorem exists_refused : ∃ t, build refusing settings (some ⟨"r.sfc"⟩) (Linker.fresh disk root ()) =
    .error (.toolchain (sourceIn root "resource.asm") (.diagnostics ["no room"])) t := by
  have ends : LinkM.outcome (restOf refusing ()) =
      .error (.toolchain (sourceIn root "resource.asm") (.diagnostics ["no room"])) := by decide +kernel
  rw [build_eq_restOf]
  exact LinkM.exists_of_outcome_error ends

theorem written_refused : sourceIn root "resource.asm" ∈
    ((Build.run refusing settings (some ⟨"r.sfc"⟩)).finish (Linker.fresh disk root ())).workspace.written := by
  have path : Build.romPath ⟨root, []⟩ settings (some ⟨"r.sfc"⟩) = .ok ⟨"./r.sfc"⟩ := by decide +kernel
  have ends : LinkM.stops ((Build.addDefines settings.defines >>= fun _ =>
      Build.link refusing settings ⟨"./r.sfc"⟩)
      (LinkM.loaded refusing ⟨⟨"./r.sfc"⟩, Rom.bank, Rom.bankHeader⟩ (Linker.fresh disk root ())))
      (fun t => sourceIn root "resource.asm" ∈ t.workspace.written) = true := by decide +kernel
  obtain ⟨e, t, stopped, written⟩ := LinkM.exists_of_stops ends
  have run : Build.run refusing settings (some ⟨"r.sfc"⟩) (Linker.fresh disk root ()) = .error e t :=
    (LinkM.run_of_read path found Rom.isBank_bank.headerOf_eq).trans stopped
  rw [LinkM.finish_of_error run]
  exact written

/-- A tool directory whose path leads through a directory that is not there, among the generated sources. -/
def detour : Path := ⟨"asm/work/x/../../.."⟩

def bare : Settings :=
  (Settings.parse "global: g\nstatusbar: s\nmacrolib: m\nfreeram: $7F0000\n" ⟨detour, []⟩ disk).toOption.getD {}

def workOf (name : String) : Location := ((Location.root.child "asm").child "work").child name

/-- The medium takes five bytes of one generated source, and does not let another one go. -/
def full : Disk :=
  { disk with obstacles := {
      refused := fun access l =>
        match access with
        | .removeFile => if l = workOf "routines.asm" then some .notFound else none
        | _ => none
      brokenOff := fun _ l _ => if l = workOf "resource_calls.asm" then some (5, .notFound) else none } }

theorem build_full : build asm bare (some ⟨"/r.sfc"⟩) (Linker.fresh full detour ()) =
    LinkM.behindBank asm bare ⟨"/r.sfc"⟩ (Linker.fresh full detour ()) := by
  have path : Build.romPath ⟨detour, []⟩ bare (some ⟨"/r.sfc"⟩) = .ok ⟨"/r.sfc"⟩ := by decide +kernel
  exact LinkM.build_of_bank path (read_bank (fun l => Disk.lookup_obstructed disk _ l) (by decide +kernel))

theorem outside_full : ¬(full.place ⟨"/r.sfc"⟩).Inside (workPlace full detour) :=
  Location.not_inside_of_le (by decide +kernel)

end SmallBuild

end RomLinker
