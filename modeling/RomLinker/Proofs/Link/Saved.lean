import RomLinker.Proofs.Link.NoTrace
import RomLinker.Proofs.Link.Order
import RomLinker.Proofs.Marker

/-!
What a build that succeeds leaves on the disk (`build_saves`): in the file of the ROM what the calls of the
assembler have made of it, and beside it the marker.
-/
namespace RomLinker

open Workspace

namespace LinkM

variable {σ : Type} {asm : Assembler σ} {d e : Disk} {root rom p : Path} {data image content : ByteArray}
  {settings : Settings} {s : Linker σ}

/-- The file of the ROM holds an image, and the rest of the disk is kept. -/
structure Stored (d : Disk) (root rom : Path) (image : ByteArray) (s : Linker σ) : Prop where
  kept : KeptBy d root rom (· ≠ d.place rom) s
  read : s.disk.read rom = .ok image

theorem ensures_store (image : ByteArray) (proper : d.workingDirectory.Proper)
    (outside : ¬Beside d root (d.place rom)) (loaded : d.read rom = .ok data) :
    Ensures (fun s => KeptBy d root rom Everywhere s ∧
        ∃ header, s.session.rom? = some ⟨rom, image, header⟩)
      (save : LinkM σ Unit) (fun _ => Stored d root rom image) fun _ => True := by
  refine ensures_saves.mono (fun _ t => ?_) fun _ _ => trivial
  rintro ⟨s, ⟨kept, header, known⟩, ⟨r, l, loaded', written⟩, rest⟩
  cases known.symm.trans loaded'
  have place : l = d.place rom := written.place.trans (place_target kept proper)
  have kept' : KeptBy d root rom (· ≠ d.place rom) t := by
    rw [KeptBy, rest]
    exact kept.saves written (place ▸ outside) fun m other => ⟨trivial, place ▸ other⟩
  refine ⟨kept', kept'.directories.read_of_lookup kept'.cwd loaded ?_⟩
  exact (written.lookup).trans (if_pos place.symm)

/-- What is logged if the marker could not be left. -/
def warningOf (fault : DiskFault) : Notice :=
  ⟨.warn, s!"could not update contents of extmod file: {fault.message}"⟩

/-- The file of the marker can be opened before the build, or there is none in a tool directory that is there;
and the system lets the marker be written. -/
structure Welcomes (d : Disk) (root rom : Path) : Prop where
  opens : (∃ content, d.read (rom.withExtension "extmod") = .ok content) ∨
    d.read (rom.withExtension "extmod") = .error .notFound ∧ ToolDirectory d root
  granted : d.obstacles.refused .writeFile (d.place (rom.withExtension "extmod")) = none
  whole : ∀ entries, d.obstacles.brokenOff entries (d.place (rom.withExtension "extmod"))
    Extmod.marker.toUTF8 = none

section Stored
variable (stored : Stored d root rom image s) (nested : d.Nested) (outside : ¬Beside d root (d.place rom))
  (loaded : d.read rom = .ok data) (other : rom.extension? ≠ some "extmod")
include outside

theorem not_beside_marker : ¬Beside d root (d.place (rom.withExtension "extmod")) := by
  have plain : '/' ∉ "extmod".toList := by decide
  exact fun inside => outside (Disk.inside_of_withExtension plain (by decide) inside)

include stored

theorem Stored.lookup {front : List String} {name last : String} (step : Disk.MarkerStep rom front name last) :
    let l := d.place (rom.withExtension "extmod")
    s.disk.lookup l = d.lookup l ∨ (d.lookup l = none ∧ s.disk.lookup l = some .directory) := by
  intro l
  have beside : ¬Beside d root l := not_beside_marker outside
  have child (name : String) : Beside d root ((workPlace d root).child name) :=
    Location.inside_child.mpr (Or.inl rfl)
  have kept := stored.kept.rest l step.place_ne.symm fun name _ _ same => beside (same ▸ child name)
  rcases kept with same | ⟨free, made, -⟩ | ⟨name, -, same, -⟩
  · exact Or.inl same
  · exact Or.inr ⟨free, made⟩
  · exact absurd (same ▸ child name) beside

include nested loaded other

/-- The marker is put behind what was in its file before the build. -/
theorem Stored.before_eq : Extmod.before s.disk rom = Extmod.before d rom := by
  obtain ⟨front, name, last, step⟩ := Disk.exists_markerStep nested loaded other
  unfold Extmod.before
  cases fine : Disk.textFault? (rom.withExtension "extmod") with
  | some fault =>
    have stops (e : Disk) : e.read (rom.withExtension "extmod") = .error fault := by
      unfold Disk.read Disk.locate Disk.follow
      rw [fine]
      rfl
    rw [stops, stops]
  | none =>
    obtain ⟨top, -, located⟩ := step.locate loaded fine
    have located' : s.disk.locate (rom.withExtension "extmod") = .ok (top.move last) :=
      stored.kept.directories.follow stored.kept.cwd located
    have there : _ ∨ _ := stored.lookup outside step
    rw [← Disk.locate_eq_place located] at there
    rw [Disk.toOption_read located, Disk.toOption_read located']
    rcases there with same | ⟨free, made⟩
    · have entry : s.disk.entryAt (top.move last) = d.entryAt (top.move last) := by
        unfold Disk.entryAt
        rw [same]
      rw [entry]
    · -- neither a free place nor a directory holds anything
      unfold Disk.entryAt
      rw [free, made]
      by_cases long : (top.move last).names.head?.any (Disk.nameLimit < ·.utf8ByteSize) = true
      · rw [if_pos long, if_pos long]
      · rw [if_neg long, if_neg long]

/-- Where nothing is in its way the marker can be left. -/
theorem Stored.goes (welcomes : Welcomes d root rom) : (Extmod.mark s.disk rom).1 = .ok () := by
  have opens : ∀ fault, d.read (rom.withExtension "extmod") = .error fault → fault = .notFound := by
    intro fault wrong
    obtain ⟨content, read⟩ | ⟨missing, -⟩ := welcomes.opens
    · cases read.symm.trans wrong
    · cases missing.symm.trans wrong
      rfl
  obtain ⟨front, name, last, step⟩ := Disk.exists_markerStep nested loaded other
  obtain ⟨top, located, long⟩ := step.named_of_open nested loaded opens
  obtain ⟨found, entry, file, isFile, -⟩ := Disk.entry_of_open located opens
  obtain ⟨short, here⟩ := Disk.entryAt_eq_ok.mp entry
  have place : top.child last = d.place (rom.withExtension "extmod") := Disk.locate_eq_place located
  have same : s.disk.lookup (top.child last) = found := by
    have there : _ ∨ _ := stored.lookup outside step
    rw [← place, here] at there
    rcases there with same | ⟨free, made⟩
    · exact same
    · -- what is made in a tool directory has a name too short for that of the marker
      obtain ⟨content, read⟩ | ⟨-, tool⟩ := welcomes.opens
      · cases free.symm.trans (isFile content read)
      · have names : last = "asm" ∨ last = "work" := by
          rcases stored.kept.made tool _ (here.trans free) made with base | work
          · exact Or.inl (Location.child_inj base).2
          · rw [workPlace_eq] at work
            exact Or.inr (Location.child_inj work).2
        rcases names with rfl | rfl
        · simp at long
        · simp at long
  have located' : s.disk.locate (rom.withExtension "extmod") = .ok (top.child last) :=
    stored.kept.directories.follow stored.kept.cwd located
  have obstacles : s.disk.obstacles = d.obstacles := stored.kept.obstacles
  have opened := Disk.openPlace_of_locate located' (Disk.entryAt_eq_ok.mpr ⟨short, same⟩) file
    (by rw [obstacles, place]; exact welcomes.granted)
  refine Extmod.mark_goes opened ?_
  rw [obstacles, place]
  exact welcomes.whole _

end Stored

/-- The marker is behind what was in its file before the build, or it is logged that it is not; and it is
there if nothing was in its way. -/
structure Marked (d : Disk) (root rom : Path) (log : Log) (e : Disk) : Prop where
  noted : e.read (rom.withExtension "extmod") = .ok (Extmod.marked (Extmod.before d rom)) ∨
    ∃ fault, warningOf fault ∈ log
  goes : Welcomes d root rom →
    e.read (rom.withExtension "extmod") = .ok (Extmod.marked (Extmod.before d rom))

theorem ensures_markRom : Ensures (· = s) (Build.markRom rom : LinkM σ Unit)
    (fun _ t => t.disk = (Extmod.mark s.disk rom).2 ∧
      ∀ fault, (Extmod.mark s.disk rom).1 = .error fault → warningOf fault ∈ t.log) fun _ => False := by
  refine Ensures.read fun t same => ?_
  subst same
  generalize Extmod.mark t.disk rom = marking
  refine Ensures.through (fun _ u => u.disk = marking.2) (Ensures.modify fun u same => rfl) fun _ => ?_
  obtain ⟨fault | ⟨⟩, disk⟩ := marking
  · refine Ensures.modify fun u same => ⟨same, fun other wrong => ?_⟩
    cases wrong
    exact List.mem_append_right _ (List.mem_singleton_self _)
  · exact Ensures.pure fun u same => ⟨same, nofun⟩

/-- The ROM is stored, the marker is left, and the rest of the disk is kept. -/
structure Ended (d : Disk) (root rom : Path) (image : ByteArray) (s : Linker σ) : Prop where
  kept : KeptBy d root rom (Beside d root) s
  read : s.disk.read rom = .ok image
  marked : Marked d root rom s.log s.disk

theorem ensures_mark (image : ByteArray) (nested : d.Nested) (outside : ¬Beside d root (d.place rom))
    (loaded : d.read rom = .ok data) (other : rom.extension? ≠ some "extmod") :
    Ensures (Stored d root rom image) (Build.markRom rom : LinkM σ Unit)
      (fun _ => Ended d root rom image) fun _ => False := by
  refine Ensures.each fun s stored => ?_
  have start : ∀ t, t = s → KeptBy d root rom (Beside d root) t ∧ t = s := by
    rintro t rfl
    refine ⟨stored.kept.mono fun l inside => ?_, rfl⟩
    rintro rfl
    exact outside inside
  obtain ⟨front, name, last, step⟩ := Disk.exists_markerStep nested loaded other
  refine (((surely_markRom outside).and ensures_markRom).pre start).mono (fun _ t both => ?_)
    fun _ stopped => stopped.1
  obtain ⟨kept, disk, noted⟩ := both
  have before := stored.before_eq nested outside loaded other
  have goes := stored.goes nested outside loaded other
  have left {e : Disk} (marked : Extmod.mark s.disk rom = (.ok (), e)) :
      e.read (rom.withExtension "extmod") = .ok (Extmod.marked (Extmod.before d rom)) :=
    before ▸ Extmod.read_of_mark marked
  have same := Extmod.read_elsewhere step.place_ne stored.read
  generalize Extmod.mark s.disk rom = marking at disk noted goes left same
  refine ⟨kept, disk ▸ same, ?_, fun welcomes => ?_⟩
  · obtain ⟨fault | ⟨⟩, e⟩ := marking
    · exact Or.inr ⟨fault, noted fault rfl⟩
    · rw [disk]
      exact Or.inl (left rfl)
  · rw [disk]
    exact left (Prod.ext (goes welcomes) rfl)

theorem ensures_ending {t : Linker (σ × List Call)} (proper : d.workingDirectory.Proper) (nested : d.Nested)
    (outside : ¬Beside d root (d.place rom)) (loaded : d.read rom = .ok data)
    (other : rom.extension? ≠ some "extmod") (kept : KeptBy d root rom Everywhere t)
    (known : ∃ header, t.session.rom? = some ⟨rom, image, header⟩) :
    Ensures (· = t) (Build.conclude rom)
      (fun _ u => Ended d root rom image u ∧ u.assembler.2 = t.assembler.2) fun _ => True := by
  have stores := (ensures_store image proper outside loaded).and
    (keeps_save fun inner : σ × List Call => inner.2 = t.assembler.2)
  have marks := (ensures_mark image nested outside loaded other).and
    (keeps_markRom (fun inner : σ × List Call => inner.2 = t.assembler.2) rom)
  have start (u : Linker (σ × List Call)) (same : u = t) : (KeptBy d root rom Everywhere u ∧
      ∃ header, u.session.rom? = some ⟨rom, image, header⟩) ∧ u.assembler.2 = t.assembler.2 := by
    rw [same]
    exact ⟨⟨kept, known⟩, rfl⟩
  refine ensures_conclude ((stores.pre start).mono (fun _ _ after => after) fun _ _ => trivial) ?_
    (marks.mono (fun _ _ after => after) fun _ _ => trivial)
  exact fun u log both => ⟨⟨both.1.kept, both.1.read⟩, both.2⟩

/-! ### A whole run -/

theorem read_cleared (kept : KeptBy d root rom (Beside d root) s)
    (cleared : Disk.Cleared s.workspace.written s.disk e) (away : ¬Beside d root (d.place p))
    (h : s.disk.read p = .ok content) : e.read p = .ok content := by
  have place : s.disk.place p = d.place p := Disk.place_congr kept.cwd p
  refine cleared.keeps.read cleared.cwd ?_ h
  rw [place]
  exact (lookup_cleared kept cleared).2 _ fun name _ _ same =>
    away (same ▸ Location.inside_child.mpr (Or.inl rfl))

theorem keeps_notice (notice : Notice) : Keeps (fun s : Linker σ => notice ∈ s.log) (cleanup : LinkM σ Unit) := by
  refine Keeps.bind Keeps.get fun s => Keeps.bind (Keeps.modify fun t member => member) fun _ => ?_
  refine Keeps.forM fun p _ => ?_
  unfold discard
  refine Keeps.bind Keeps.get fun t => ?_
  split
  · exact Keeps.modify fun u member => member
  · exact Keeps.modify fun u member => List.mem_append_left _ member

theorem Ended.cleared {t : Linker σ} (ended : Ended d root rom image s)
    (outside : ¬Beside d root (d.place rom)) (cleaned : (cleanup : LinkM σ Unit) s = .ok () t)
    (cleared : Disk.Cleared s.workspace.written s.disk t.disk) :
    t.disk.read rom = .ok image ∧ Marked d root rom t.log t.disk := by
  have beside := not_beside_marker outside
  refine ⟨read_cleared ended.kept cleared outside ended.read, ?_, fun welcomes => ?_⟩
  · rcases ended.marked.noted with marked | ⟨fault, logged⟩
    · exact Or.inl (read_cleared ended.kept cleared beside marked)
    · have stays := (keeps_notice (warningOf fault)).run s logged
      rw [cleaned] at stays
      exact Or.inr ⟨fault, stays⟩
  · exact read_cleared ended.kept cleared beside (ended.marked.goes welcomes)

abbrev untied (_ : List Call) (_ : ResourceTable) : Prop := True

theorem leads_run_saved {override? : Option Path} (state : σ) (reads : asm.ReadsOnly)
    (proper : d.workingDirectory.Proper) (nested : d.Nested)
    (path : Build.romPath ⟨root, []⟩ settings override? = .ok rom)
    (outside : ¬Beside d root (d.place rom)) (other : rom.extension? ≠ some "extmod") :
    Leads (· = Linker.fresh d root (state, [])) (Build.run asm.traced settings override?)
      fun _ s => ∃ data files, d.read rom = .ok data ∧
        Ordered root settings untied d files s.assembler.2 ∧
        Course ⟨root, rom, data, settings, untied⟩ (stages files settings.resources.resources)
          s.assembler.2 ∧
        Ended d root rom (imageAfter root data s.assembler.2) s := by
  have filed : Leads (Untouched root) (Build.buildResources asm.traced settings)
      fun _ s => untied s.assembler.2 s.resources := Leads.anywhere
  have steady : SteadyThroughout asm.traced root rom (KeptBy d root rom Everywhere) :=
    keptBy_steady reads.traced
  have start : ∀ s : Linker (σ × List Call), s = Linker.fresh d root (state, []) →
      s = Linker.fresh d root (state, []) ∧ KeptBy d root rom Everywhere s := by
    rintro s rfl
    exact ⟨rfl, Kept.start d root rom Everywhere⟩
  have whole := ((ensures_upToSave d rom state (reads.keepsLibrary root) filed).and
    (steady.upToSave settings)).pre start
  rw [Build.run_eq]
  refine Ensures.read fun s same => ?_
  have here : Build.romPath s.workspace settings override? = .ok rom := same ▸ path
  rw [here, same]
  refine Ensures.bind (whole.mono (fun _ _ after => after) fun _ _ => trivial) fun _ =>
    Ensures.each fun t reached => ?_
  obtain ⟨⟨data, loaded, complete⟩, kept⟩ := reached
  obtain ⟨files, ordered, course, known⟩ := complete.ordered
  have ends := ensures_ending proper nested outside loaded other kept known
  refine Ensures.mono ends (fun _ u after => ?_) fun _ _ => trivial
  obtain ⟨ended, record⟩ := after
  refine ⟨data, files, loaded, ?_⟩
  rw [record]
  exact ⟨ordered, course, ended⟩

end LinkM

open LinkM

/-- After every build that succeeds, the file of the ROM holds what the calls of the assembler have made of
its bytes. Each call gets what those in front of it have made of them, but for the scan of the routines,
whose image goes nowhere. In the file beside the ROM the marker is at the end of what was there before, or the
log warns that it is not; it is there if the file could be opened or was missing, in a tool directory that was
there, and the system lets the marker be written. -/
theorem build_saves {σ : Type} (asm : Assembler σ) (settings : Settings) (override? : Option Path)
    (root rom : Path) (d : Disk) (state : σ) (report : Report) (t : Linker (σ × List Call))
    (reads : asm.ReadsOnly) (proper : d.workingDirectory.Proper) (nested : d.Nested)
    (path : Build.romPath ⟨root, []⟩ settings override? = .ok rom)
    (outside : ¬(d.place rom).Inside (workPlace d root)) (other : rom.extension? ≠ some "extmod")
    (built : build asm.traced settings override? (Linker.fresh d root (state, [])) = .ok report t) :
    ∃ data files, d.read rom = .ok data ∧
      (ToolDirectory d root → Library.listed root d = files) ∧
      (∀ call ∈ t.assembler.2.drop 1, Library.listed root call.disk = files) ∧
      t.assembler.2.length = (stages files settings.resources.resources).length ∧
      (∀ k stage call, (stages files settings.resources.resources)[k]? = some stage →
        t.assembler.2[k]? = some call →
        call.request.source = stage.source root ∧
        (∀ text ∈ stage.wrapper?, call.disk.readText (stage.source root) = .ok text) ∧
        call.request.image = imageAfter root data (t.assembler.2.take k) ∧
        ∃ assembly, call.answer = .ok assembly) ∧
      t.disk.read rom = .ok (imageAfter root data t.assembler.2) ∧
      (t.disk.read (rom.withExtension "extmod") = .ok (Extmod.marked (Extmod.before d rom)) ∨
        ∃ fault, warningOf fault ∈ t.log) ∧
      (Welcomes d root rom →
        t.disk.read (rom.withExtension "extmod") = .ok (Extmod.marked (Extmod.before d rom))) := by
  obtain ⟨u, ran, cleaned⟩ := andAlways_eq_ok built
  have reached := (leads_run_saved state reads proper nested path outside other).run _ rfl
  rw [ran] at reached
  obtain ⟨data, files, loaded, ordered, course, ended⟩ := reached
  obtain ⟨v, same, cleared⟩ := cleanup_run u
  cases cleaned.symm.trans same
  have record : t.assembler.2 = u.assembler.2 := by
    have kept := (keeps_cleanup fun inner : σ × List Call => inner.2 = u.assembler.2).run u rfl
    rw [cleaned] at kept
    exact kept
  obtain ⟨read, marked⟩ := ended.cleared outside cleaned cleared
  rw [record]
  refine ⟨data, files, loaded, ordered.first, ordered.listed, course.all,
    fun k stage call planned called => ?_, read, marked.noted, marked.goes⟩
  have asked := course.follows.asked k stage call planned called
  exact ⟨asked.source, asked.wrapped, course.images k call called,
    course.answers call (List.mem_of_getElem? called)⟩

namespace SmallBuild

/-- The system takes no name as long as that of the file beside the ROM. -/
def sealed : Disk :=
  { disk with obstacles.refused := fun access l =>
      match access with
      | .writeFile => if l = Location.root.child "r.extmod" then some .nameTooLong else none
      | _ => none }

theorem build_sealed : build asm.traced settings (some ⟨"r.sfc"⟩) (Linker.fresh sealed root ((), [])) =
    behindBank asm.traced settings ⟨"./r.sfc"⟩ (Linker.fresh sealed root ((), [])) := by
  have path : Build.romPath ⟨root, []⟩ settings (some ⟨"r.sfc"⟩) = .ok ⟨"./r.sfc"⟩ := by decide +kernel
  exact build_of_bank path (read_bank (fun l => Disk.lookup_obstructed disk _ l) (by decide +kernel))

end SmallBuild

open SmallBuild in
/-- Where no file can be written beside the ROM a build goes through without a marker. -/
theorem build_saves_sealed : ∃ report t,
    build asm.traced settings (some ⟨"r.sfc"⟩) (Linker.fresh sealed root ((), [])) = .ok report t ∧
    sealed.find? ⟨"./r.extmod"⟩ = none ∧ t.disk.find? ⟨"./r.extmod"⟩ = none := by
  have ends : succeeds (behindBank asm.traced settings ⟨"./r.sfc"⟩ (Linker.fresh sealed root ((), [])))
      (fun t => t.disk.find? ⟨"./r.extmod"⟩ = none) = true := by decide +kernel
  obtain ⟨report, t, built, free⟩ := exists_of_succeeds ends
  exact ⟨report, t, build_sealed.trans built, by decide +kernel, free⟩

open SmallBuild in
theorem build_saves_small : ∃ report t,
    build asm.traced settings (some ⟨"r.sfc"⟩) start = .ok report t ∧
    t.disk.read ⟨"./r.sfc"⟩ = .ok (imageAfter root Rom.bank t.assembler.2) ∧
    t.disk.read ⟨"./r.extmod"⟩ = .ok Extmod.marker.toUTF8 := by
  obtain ⟨report, t, ends, -⟩ := exists_rest
  have built : build asm.traced settings (some ⟨"r.sfc"⟩) start = .ok report t := build_eq.trans ends
  have nested : disk.Nested := by
    have empty : Disk.empty.Nested := Disk.nested_empty
    refine ((empty.insert Location.child_ne_root ?_ ?_).insert Location.child_ne_root ?_ ?_).insert
      Location.child_ne_root ?_ ?_
    all_goals decide +kernel
  have outside : ¬(disk.place ⟨"./r.sfc"⟩).Inside (workPlace disk root) :=
    Location.not_inside_of_le (by decide +kernel)
  have marker : (Path.mk "./r.sfc").withExtension "extmod" = ⟨"./r.extmod"⟩ := by decide +kernel
  have free : disk.read ⟨"./r.extmod"⟩ = .error .notFound := by
    have located : disk.locate ⟨"./r.extmod"⟩ = .ok (Location.root.child "r.extmod") := by decide +kernel
    have entry : disk.entryAt (Location.root.child "r.extmod") = .ok none :=
      Disk.entryAt_eq_ok.mpr ⟨by decide, by decide +kernel⟩
    unfold Disk.read
    simp only [located, entry, bind, Except.bind]
  have tool : ToolDirectory disk root := ⟨.root, by decide +kernel⟩
  obtain ⟨data, files, loaded, -, -, -, -, saved, -, fresh⟩ := build_saves asm settings (some ⟨"r.sfc"⟩)
    root ⟨"./r.sfc"⟩ disk () report t (fun _ _ _ => rfl) nofun nested (by decide +kernel) outside
    (by decide +kernel) built
  have bank : data = Rom.bank := Except.ok.inj (loaded.symm.trans found)
  have none : Extmod.before disk ⟨"./r.sfc"⟩ = .empty := by
    rw [Extmod.before, marker, free]
    rfl
  rw [marker, none, Extmod.marked_empty] at fresh
  refine ⟨report, t, built, bank ▸ saved, fresh ⟨Or.inr ⟨?_, tool⟩, rfl, fun _ => rfl⟩⟩
  rw [marker]
  exact free

end RomLinker
