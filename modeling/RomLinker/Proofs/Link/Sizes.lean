import Mathlib.Data.List.Forall2
import RomLinker.Proofs.Link.Pointers

/-!
The report of a build (`report_accounts`). Its sizes are those that the calls have printed, each source's
main part by what it is inserted for, and its number of resources is that of the paths in the list.
-/
namespace RomLinker

open Workspace

/-- A call asks for the source of a stage, with the text of this stage where it is generated. -/
structure Call.Of (root : Path) (call : Call) (stage : Stage) : Prop where
  source : call.request.source = stage.source root
  wrapped : ∀ text ∈ stage.wrapper?, call.disk.readText (stage.source root) = .ok text

structure Staged (root : Path) (files : List LibraryFile) (resources : List Resource) (clean scan : Call)
    (libraries inserted : List Call) (main : Call) : Prop where
  clean : clean.Of root .clean
  scan : scan.Of root .scan
  libraries : List.Forall₂ (fun call f => call.Of root (.library f)) libraries files
  inserted : List.Forall₂ (fun call r => call.Of root (.resource r)) inserted resources
  main : main.Of root .main

namespace Ledger

variable {β : Type} {root : Path} {calls : List Call} {xs : List β} {stage : β → Stage} {p : Purpose}

theorem foldl_enter (l : Ledger) (of : List.Forall₂ (fun call x => call.Of root (stage x)) calls xs)
    (counted : ∀ x, (stage x).purpose? = some p) :
    calls.foldl (enter root) l = (l.add (calls.map fun call => PrintMarker.sideSize call.prints).sum .other).add
      (calls.map fun call => PrintMarker.mainSize call.prints).sum p := by
  induction of generalizing l with
  | nil => simp only [List.foldl_nil, List.map_nil, List.sum_nil, add_zero]
  | @cons call x calls xs asked _ ih =>
    have other : stage x ≠ .scan := fun same => by simpa [same, Stage.purpose?] using counted x
    have entered : l.enter root call = (l.add (PrintMarker.sideSize call.prints) .other).add
        (PrintMarker.mainSize call.prints) p := by
      rw [enter_of_source asked.source other, counted x]
      rfl
    rw [List.foldl_cons, ih, entered, add_comm (l.add _ _), add_add, add_add]
    simp only [List.map_cons, List.sum_cons]

end Ledger

namespace Staged

variable {root : Path} {files : List LibraryFile} {resources : List Resource} {clean scan main : Call}
  {libraries inserted : List Call}

theorem ofCalls_eq (staged : Staged root files resources clean scan libraries inserted main) :
    Ledger.ofCalls root (clean :: scan :: (libraries ++ inserted ++ [main])) =
      { main := PrintMarker.mainSize main.prints
        library := (libraries.map fun call => PrintMarker.mainSize call.prints).sum
        resources := (inserted.map fun call => PrintMarker.mainSize call.prints).sum
        other := ((clean :: (libraries ++ inserted ++ [main])).map
          fun call => PrintMarker.sideSize call.prints).sum } := by
  have scanned (l : Ledger) : l.enter root scan = l := if_pos staged.scan.source
  rw [Ledger.ofCalls, List.foldl_cons, List.foldl_cons, scanned, List.foldl_append, List.foldl_append,
    Ledger.foldl_enter _ staged.libraries fun _ => rfl, Ledger.foldl_enter _ staged.inserted fun _ => rfl,
    List.foldl_cons, List.foldl_nil, Ledger.enter_of_source staged.clean.source nofun,
    Ledger.enter_of_source staged.main.source nofun]
  simp [Ledger.add, Ledger.addFor, Stage.purpose?, Nat.add_assoc]

end Staged

namespace LinkM

variable {σ : Type} {asm : Assembler σ} {b : Basis} {done : List Stage} {calls : List Call} {root : Path}
  {settings : Settings} {d : Disk}

theorem Course.forall₂ (course : Course b done calls) : List.Forall₂ (Call.Of b.root) calls done := by
  rw [List.forall₂_iff_get]
  refine ⟨course.all, fun k early planned => ?_⟩
  have asked := course.follows.asked k _ _ (List.getElem?_eq_getElem planned) (List.getElem?_eq_getElem early)
  exact ⟨asked.source, asked.wrapped⟩

theorem EndsInMain.exists_staged (ends : EndsInMain b calls) :
    ∃ files clean scan libraries inserted main,
      calls = clean :: scan :: (libraries ++ inserted ++ [main]) ∧
      Staged b.root files b.settings.resources.resources clean scan libraries inserted main := by
  obtain ⟨reached, before, main, rfl, source⟩ := ends
  obtain ⟨-, -, files, course⟩ := reached before main [] rfl source
  have asked := course.forall₂
  rw [earlier, List.append_assoc, List.cons_append, List.cons_append, List.nil_append] at asked
  obtain ⟨clean, later, first, behind, rfl⟩ := List.forall₂_cons_right_iff.mp asked
  obtain ⟨scan, rest, second, others, rfl⟩ := List.forall₂_cons_right_iff.mp behind
  have libraries := List.forall₂_map_right_iff.mp (List.forall₂_take_append _ _ _ others)
  have inserted := List.forall₂_map_right_iff.mp (List.forall₂_drop_append _ _ _ others)
  refine ⟨files, clean, scan, _, _, main, ?_, first, second, libraries, inserted, source, ?_⟩
  · rw [List.take_append_drop]
    rfl
  · exact fun text given => absurd given (Option.not_mem_none text)

def Sized (root : Path) (n : Nat) (s : Linker σ) : Prop := s.workspace.root = root ∧ s.resources.size = n

theorem sized_steady {rom : Path} {n : Nat} : Steady asm root rom fun s : Linker σ => Sized root n s where
  frame s t same holds := by
    have place : t.workspace = s.workspace := congrArg Frame.workspace same
    have table : t.resources = s.resources := congrArg Frame.resources same
    exact ⟨place ▸ holds.1, table ▸ holds.2⟩
  root_eq s holds := holds.1
  load s r same holds := ⟨holds.1, holds.2⟩
  library s library holds := ⟨holds.1, holds.2⟩
  makes s t makes holds := by
    rw [makes.rest]
    exact ⟨holds.1, holds.2⟩
  generates s t name contents generated generates holds := by
    refine ⟨generates.root_eq.trans holds.1, ?_⟩
    rw [generates.rest]
    exact holds.2
  breaks s t name contents generated breaks holds := by
    rw [breaks.rest]
    exact ⟨holds.1, holds.2⟩
  calls s t request answer other calls holds := by
    rw [calls.rest]
    exact ⟨holds.1, holds.2⟩

/-- Every resource of the settings stays filed up to the save. -/
theorem leads_upToSave_sized {rom : Path}
    (numbered : ∀ k r, settings.resources.get? k = some r → r.id = k) :
    Leads (Untouched root) (Build.upToSave asm.traced settings rom)
      fun _ => Sized root settings.resources.size := by
  have steady : Steady asm.traced root rom fun s : Linker (σ × List Call) => Untouched root s :=
    untouched_steady
  have sized : Steady asm.traced root rom
      fun s : Linker (σ × List Call) => Sized root settings.resources.size s := sized_steady
  unfold Build.upToSave
  refine Ensures.bind (steady.loadRom settings).leads fun _ => ?_
  refine Ensures.bind (steady.patchBase (by decide)).leads fun _ => ?_
  refine Ensures.bind steady.scan.leads fun _ => Ensures.bind steady.buildLibrary.leads fun _ => ?_
  refine Ensures.through (fun _ => Sized root settings.resources.size) ?_
    fun _ => (sized.buildMain settings).leads
  refine (leads_buildResources numbered).mono (fun _ s labelled => ?_) fun _ _ => trivial
  obtain ⟨t, labelled⟩ := labelled
  exact ⟨labelled.inserted.root_eq, labelled.inserted.linkage.size⟩

theorem Unwritten.leads_conclude {kept : Linker σ → Prop} (unwritten : Unwritten kept) (rom : Path) :
    Leads kept (Build.conclude rom) fun report s =>
      kept s ∧ report = ⟨s.session.ledger, s.resources.size⟩ := by
  unfold Build.conclude
  refine Ensures.bind unwritten.save.leads fun _ => Ensures.read fun s holds => ?_
  have still : Unwritten fun t => kept t ∧ t.session.ledger = s.session.ledger ∧ t.resources = s.resources :=
    unwritten.and ⟨fun _ _ same => same, fun _ _ same => same, fun _ _ same => same⟩
  refine Ensures.pre (Ensures.bind (surely_noteSizes still.log _).keeps.leads fun _ => ?_) ?_
  · refine Ensures.bind (surely_note still.log _ _).keeps.leads fun _ => ?_
    refine Ensures.bind (still.markRom rom).leads fun _ => Ensures.pure fun t both => ⟨both.1, ?_⟩
    rw [both.2.1, both.2.2]
  · rintro t rfl
    exact ⟨holds, rfl, rfl⟩

theorem leads_run_reported (asm : Assembler σ) (override? : Option Path) (root : Path) (d : Disk) (state : σ)
    (numbered : ∀ k r, settings.resources.get? k = some r → r.id = k) :
    Leads (· = Linker.fresh d root (state, [])) (Build.run asm.traced settings override?)
      fun report s => Counted root settings s ∧
        report = ⟨Ledger.ofCalls root s.assembler.2, settings.resources.size⟩ := by
  have unwritten : Unwritten fun s : Linker (σ × List Call) =>
      Counted root settings s ∧ Sized root settings.resources.size s :=
    Counted.unwritten.and ⟨fun _ _ sized => sized, fun _ _ sized => sized, fun _ _ sized => sized⟩
  have start (s : Linker (σ × List Call)) (same : s = Linker.fresh d root (state, [])) :
      s = Linker.fresh d root (state, []) ∧ Untouched root s := by
    subst same
    exact ⟨rfl, rfl, rfl⟩
  rw [Build.run_eq]
  refine Ensures.read fun s same => ?_
  subst same
  cases Build.romPath (Linker.fresh d root (state, [])).workspace settings override? with
  | error e => exact Ensures.throw fun _ _ => trivial
  | ok rom =>
    have counted : Leads (· = Linker.fresh d root (state, [])) (Build.upToSave asm.traced settings rom)
        fun _ => Counted root settings :=
      (ensures_upToSave_counted rom settings state).mono (fun _ _ counted => counted) fun _ _ => trivial
    have sized : Leads (Untouched root) (Build.upToSave asm.traced settings rom)
        fun _ => Sized root settings.resources.size := leads_upToSave_sized numbered
    have whole := (counted.and sized).pre start
    refine Ensures.bind (whole.mono (fun _ _ both => both) fun _ _ => trivial) fun _ => ?_
    refine (unwritten.leads_conclude rom).mono (fun report t after => ?_) fun _ _ => trivial
    obtain ⟨⟨counted, sized⟩, reported⟩ := after
    refine ⟨counted, ?_⟩
    rw [reported, counted.1.ledger, sized.2]

end LinkM

open LinkM PrintMarker

/-- After every build of an accepted list, the report says what the sources have printed: the length of the
main part of the main source, of all library files and of all resources, and that of all parts on the side.
What else is printed is reported nowhere: the main part of the source that cleans, and all that the scan of
the routines prints. The resources are as many as there are paths in the list. -/
theorem report_accounts {σ : Type} (asm : Assembler σ) (source : String) (w : Workspace) (read : Disk)
    (settings : Settings) (override? : Option Path) (root : Path) (d : Disk) (state : σ) (report : Report)
    (t : Linker (σ × List Call)) (accepted : Settings.parse source w read = .ok settings)
    (built : build asm.traced settings override? (Linker.fresh d root (state, [])) = .ok report t) :
    ∃ files clean scan libraries inserted main,
      t.assembler.2 = clean :: scan :: (libraries ++ inserted ++ [main]) ∧
      Staged root files settings.resources.resources clean scan libraries inserted main ∧
      (∀ call ∈ t.assembler.2, call.Heard root) ∧
      report.sizes.main = mainSize main.prints ∧
      report.sizes.library = (libraries.map fun call => mainSize call.prints).sum ∧
      report.sizes.resources = (inserted.map fun call => mainSize call.prints).sum ∧
      report.sizes.other =
        ((clean :: (libraries ++ inserted ++ [main])).map fun call => sideSize call.prints).sum ∧
      report.resourceCount = (Settings.names (Listing.placed (Listing.parse source).statements)).length := by
  have mentions := (Settings.holds_of_parse accepted).mentions
  obtain ⟨u, ran, cleaned⟩ := andAlways_eq_ok built
  have reached := (leads_run_reported asm override? root d state mentions.ids).run _ rfl
  rw [ran] at reached
  obtain ⟨⟨exported, rom, data, ends⟩, rfl⟩ := reached
  have record : t.assembler.2 = u.assembler.2 := by
    have kept := (keeps_cleanup fun inner : σ × List Call => inner.2 = u.assembler.2).run u rfl
    rw [cleaned] at kept
    exact kept
  obtain ⟨files, clean, scan, libraries, inserted, main, calls, staged⟩ := ends.exists_staged
  rw [record]
  refine ⟨files, clean, scan, libraries, inserted, main, calls, staged, exported.heard, ?_⟩
  rw [calls, staged.ofCalls_eq]
  exact ⟨rfl, rfl, rfl, rfl, mentions.size⟩

open SmallBuild in
theorem report_accounts_two : ∃ report t clean scan libraries inserted main,
    Settings.parse SmallBuild.source ⟨root, []⟩ disk = .ok settings ∧
    build printing.traced settings (some ⟨"r.sfc"⟩) start = .ok report t ∧
    t.assembler.2 = clean :: scan :: (libraries ++ inserted ++ [main]) ∧
    (inserted.map fun call => mainSize call.prints).sum = 16 ∧
    ((clean :: (libraries ++ inserted ++ [main])).map fun call => sideSize call.prints).sum = 24 ∧
    report.resourceCount = 1 := by
  obtain ⟨report, t, _, _, built, prints⟩ := exists_prints
  obtain ⟨files, clean, scan, libraries, inserted, main, record, -, -, -, -, resources, other, -⟩ :=
    report_accounts printing SmallBuild.source ⟨root, []⟩ disk settings (some ⟨"r.sfc"⟩) root disk () report t
      accepted built
  rw [prints.report] at resources other
  refine ⟨report, t, clean, scan, libraries, inserted, main, accepted, built, record, resources.symm,
    other.symm, ?_⟩
  rw [prints.report]

end RomLinker
