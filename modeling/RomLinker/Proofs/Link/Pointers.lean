import RomLinker.Proofs.Link.Cleans
import RomLinker.Proofs.Link.Saved

/-!
The list of pointers that the main source finds. It gives, in the order of the calls, what the sources in
front of the main source have printed of addresses to clean (`pointer_list_exact`). What the main source
itself prints comes too late for it (`cleans_of_build`).
-/
namespace RomLinker

open Workspace

namespace Build

def pointer? (line : String) : Option Address :=
  (Text.dropHead? "dl ".toList line.toList).bind fun rest => Address.parse? (String.ofList rest)

theorem pointer?_line {a : Address} (bus : a.toNat < Address.limit) :
    pointer? ("dl " ++ a.render) = some a := by
  have split : Text.dropHead? "dl ".toList ("dl " ++ a.render).toList = some a.render.toList := by
    rw [Text.dropHead?_eq_some, String.toList_append]
  rw [pointer?, split, Option.bind_some, String.ofList_toList, Address.parse?_render,
    Nat.mod_eq_of_lt bus, UInt32.ofNat_toNat]

/-- The list reads back as the addresses that were written, if the bus has room for them. -/
theorem linesOf_cleanList {cleans : List Address} (bus : ∀ a ∈ cleans, a.toNat < Address.limit) :
    (Text.linesOf (cleanList cleans)).map pointer? = cleans.map some := by
  have text : cleanList cleans = String.join ((cleans.map fun a => "dl " ++ a.render).map (· ++ "\n")) := by
    rw [List.map_map]
    rfl
  have plain : ∀ s ∈ cleans.map fun a => "dl " ++ a.render, Text.OneLine s.toList := by
    intro s member
    obtain ⟨a, -, rfl⟩ := List.mem_map.mp member
    have head : Text.OneLine "dl ".toList := by decide
    rw [String.toList_append]
    exact head.append a.solid_render.oneLine
  rw [text, Text.linesOf_join plain, List.map_map]
  refine List.map_congr_left fun a listed => ?_
  rw [Function.comp_apply, pointer?_line (bus a listed)]

end Build

def earlier (files : List LibraryFile) (resources : List Resource) : List Stage :=
  [.clean, .scan] ++ files.map .library ++ resources.map .resource

/-- The main source finds what the calls in front of it have given. -/
def Pointed (root : Path) (before : List Call) (main : Call) : Prop :=
  ∃ text, main.disk.readText (sourceIn root "pointer_list.asm") = .ok text ∧
    (Text.linesOf text).map Build.pointer? = (before.flatMap (Call.exported root)).map some

/-- If the main source was asked for, this came last, and behind all other stages. -/
def Reached (b : Basis) (calls : List Call) : Prop :=
  ∀ before main after, calls = before ++ main :: after →
    main.request.source = Stage.main.source b.root →
    after = [] ∧ Pointed b.root before main ∧
      ∃ files, LinkM.Course b (earlier files b.settings.resources.resources) before

theorem main_notMem_earlier {files : List LibraryFile} {resources : List Resource} :
    Stage.main ∉ earlier files resources := by
  simp [earlier]

theorem Follows.source_ne_main {root : Path} {settings : Settings} {tied : List Call → ResourceTable → Prop}
    {plan : List Stage} {calls : List Call} (follows : Follows root settings tied plan calls)
    (none : Stage.main ∉ plan) {call : Call} (member : call ∈ calls) :
    call.request.source ≠ Stage.main.source root := by
  intro same
  have listed := follows.sources.subset (List.mem_map_of_mem member)
  obtain ⟨stage, planned, source⟩ := List.mem_map.mp listed
  rw [Stage.source_eq_main.mp (source.trans same)] at planned
  exact none planned

namespace LinkM

variable {σ : Type} {asm : Assembler σ} {b : Basis} {plan : List Stage} {calls : List Call} {call : Call}
  {files : List LibraryFile} {root : Path} {settings : Settings} {d : Disk}

theorem reached_of_follows (follows : Follows b.root b.settings b.tied plan calls)
    (none : Stage.main ∉ plan) : Reached b calls := by
  intro before main after split source
  have member : main ∈ calls := by simp [split]
  exact absurd source (follows.source_ne_main none member)

theorem Course.reached (course : Course b (earlier files b.settings.resources.resources) calls)
    (pointed : Pointed b.root calls call) : Reached b (calls ++ [call]) := by
  intro before main after split source
  -- the main source is the call that has come last; among those in front of it there is none
  rcases List.eq_nil_or_concat after with rfl | ⟨rest, last, rfl⟩
  · obtain ⟨rfl, same⟩ := List.append_inj' split rfl
    cases same
    exact ⟨rfl, pointed, files, course⟩
  · have front : calls = before ++ main :: rest := by
      rw [List.concat_eq_append, ← List.cons_append, ← List.append_assoc] at split
      exact (List.append_inj' split rfl).1
    have member : main ∈ calls := by simp [front]
    exact absurd source (course.follows.source_ne_main main_notMem_earlier member)

/-! ### The last steps -/

def EndsInMain (b : Basis) (calls : List Call) : Prop :=
  Reached b calls ∧ ∃ before main, calls = before ++ [main] ∧
    main.request.source = Stage.main.source b.root

theorem indifferent_assembler {σ : Type} (kept : σ → Prop) :
    Indifferent (fun s : Linker σ => kept s.assembler) :=
  ⟨fun _ _ holds => holds, fun _ _ holds => holds, fun _ _ holds => holds⟩

/-- The main source is the last one that is asked for. It finds the list that was written in front of it. -/
theorem ensures_patchMain (course : Course b (earlier files b.settings.resources.resources) calls) :
    Ensures (fun s => (Exported b.root s ∧ s.assembler.2 = calls) ∧
        s.disk.readText (sourceIn b.root "pointer_list.asm") =
          .ok (Build.cleanList (calls.flatMap (Call.exported b.root))))
      (Build.patchBase asm.traced "main.asm")
      (fun inserted s => Owing b.root .main inserted.size s ∧ EndsInMain b s.assembler.2)
      fun s => Reached b s.assembler.2 := by
  have early : Reached b calls := reached_of_follows course.follows main_notMem_earlier
  have bus : ∀ a ∈ calls.flatMap (Call.exported b.root), a.toNat < Address.limit := by
    intro a member
    obtain ⟨call, -, given⟩ := List.mem_flatMap.mp member
    exact Call.lt_of_exported given
  unfold Build.patchBase
  refine Ensures.read fun s after => ?_
  obtain ⟨⟨exported, record⟩, read⟩ := after
  have place : s.workspace.fixedSource "main.asm" = Stage.main.source b.root :=
    fixedSource_congr exported.root_eq _
  have asked (call : Call) (t : Linker (σ × List Call)) (adds : Adds (Stage.main.source b.root) call s t) :
      EndsInMain b t.assembler.2 := by
    rw [adds.record, record]
    refine ⟨course.reached ⟨_, ?_, Build.linesOf_cleanList bus⟩, calls, call, rfl, adds.source⟩
    rw [adds.disk]
    exact read
  dsimp only
  rw [place]
  refine Ensures.through (fun _ t => Printed b.root .main t ∧ EndsInMain b t.assembler.2) ?_ fun _ => ?_
  · refine ensures_patch_adds.mono ?_ ?_
    · rintro - t ⟨u, call, rfl, adds, answered⟩
      exact ⟨⟨u, call, exported, adds, answered⟩, asked call t adds⟩
    · rintro t (rfl | ⟨u, call, rfl, adds⟩)
      · rw [record]
        exact early
      · exact (asked call t adds).1
  -- what the main source prints is added to the addresses, but its call has been recorded before
  · have taken : Leads (Printed b.root .main) (takePrints (Stage.main.source b.root) false :
        LinkM (σ × List Call) Insertion) fun inserted => Owing b.root .main inserted.size :=
      Printed.takePrints nofun rfl
    have ends := indifferent_assembler fun inner : σ × List Call => EndsInMain b inner.2
    exact (taken.and (ends.takePrints _ _)).mono (fun _ _ both => both) fun _ stopped => stopped.2.1

theorem ensures_buildMain_reached
    (course : Course b (earlier files b.settings.resources.resources) calls) (settings : Settings) :
    Ensures (fun s => Exported b.root s ∧ s.assembler.2 = calls) (Build.buildMain asm.traced settings)
      (fun _ s => Exported b.root s ∧ EndsInMain b s.assembler.2) fun s => Reached b s.assembler.2 := by
  have tallied : Tallied b.root
      fun s : Linker (σ × List Call) => Exported b.root s ∧ s.assembler.2 = calls := by
    refine ⟨fun s both => both.1.root_eq, fun s t rooted tally inner both => ?_⟩
    exact ⟨(Exported.tallied σ b.root).depends s t rooted tally inner both.1, inner ▸ both.2⟩
  have halts (s : Linker (σ × List Call)) (both : Exported b.root s ∧ s.assembler.2 = calls) :
      Reached b s.assembler.2 := by
    rw [both.2]
    exact reached_of_follows course.follows main_notMem_earlier
  unfold Build.buildMain
  refine Ensures.bind ((tallied.note _ _).halting halts) fun _ => Ensures.bind
    (Keeps.get.halting halts) fun s => ?_
  refine Ensures.bind ((tallied.addDefines _).halting halts) fun _ => ?_
  refine tallied.generate_bind (by decide) _ halts ?_
  -- the list is rendered here, from what the session has up to now
  refine Ensures.read fun t after => ?_
  have given : t.session.cleans = calls.flatMap (Call.exported b.root) := by
    rw [after.1.1.cleans, after.1.2]
  rw [given]
  refine Ensures.pre (tallied.generate_bind (by decide) _ halts ?_)
    fun u same => same ▸ after.1
  refine Ensures.bind (ensures_patchMain course) fun inserted => ?_
  have ends := indifferent_assembler fun inner : σ × List Call => EndsInMain b inner.2
  exact ((Owing.addSize rfl).and (ends.addSize _ _)).mono (fun _ _ both => both)
    fun _ stopped => stopped.2.1

theorem ensures_scanned (front : [.clean, .scan] <+: plan) :
    Ensures (At b [.clean] b.settings.defines) (Build.scan asm.traced)
      (fun _ => At b [.clean, .scan] b.settings.defines) (Held b plan) := by
  have routines : "routines.asm" ∈ generatedNames := by decide
  have start (s : Linker (σ × List Call)) (reached : At b [.clean] b.settings.defines s) : Held b plan s :=
    reached.held (List.IsPrefix.trans ⟨[.scan], rfl⟩ front)
  unfold Build.scan
  refine Ensures.through (fun _ => At b [.clean, .scan] b.settings.defines)
    (ensures_scanRoutines start fun s rom names reached loaded => ?_) fun count =>
      (At.indifferent.note _ _).halting fun s reached => reached.held front
  obtain ⟨calls, course, standing⟩ := reached
  have place : s.workspace.fixedSource "routine_scan.asm" = Stage.scan.source b.root :=
    fixedSource_congr standing.root_eq _
  have image := standing.data_eq loaded
  have held (t : Linker (σ × List Call)) (standing : Standing b calls b.settings.defines
      (registrations b.root calls) t) : Held b plan t := start t ⟨calls, course, standing⟩
  rw [place]
  unfold declareRoutines
  refine Ensures.pre (Ensures.bind ((Standing.generate routines _).halting held) fun _ => ?_)
    fun t same => same ▸ standing
  refine Ensures.each fun t standing => ?_
  refine Ensures.bind
    (ensures_ask .scan .empty course rfl rfl front standing nofun image) fun _ => ?_
  refine Ensures.bind (?_ : Ensures _ _ (fun _ => At b [.clean, .scan] b.settings.defines) _) fun _ =>
    Ensures.pure fun _ reached => reached
  refine ensures_onSession (fun u reached => ?_) fun u session reached declared => ?_
  · obtain ⟨call, assembly, -, answers⟩ := reached
    exact answers.held front
  · obtain ⟨call, assembly, -, answers⟩ := reached
    obtain ⟨table, added, rfl⟩ := declare_eq_ok declared
    exact answers.declared standing added

theorem ensures_insertions_reached :
    Ensures (fun s => At b [.clean, .scan] b.settings.defines s ∧ Exported b.root s)
      (do
        Build.buildLibrary asm.traced
        Build.buildResources asm.traced b.settings
        Build.buildMain asm.traced b.settings)
      (fun _ s => Exported b.root s ∧ EndsInMain b s.assembler.2) fun s => Reached b s.assembler.2 := by
  have split (s : Linker (σ × List Call))
      (both : At b [.clean, .scan] b.settings.defines s ∧ Exported b.root s) :
      ∃ files, (At b [.clean, .scan] b.settings.defines s ∧ Library.listed b.root s.disk = files) ∧
        Exported b.root s := ⟨_, ⟨both.1, rfl⟩, both.2⟩
  refine Ensures.pre (Ensures.exists_pre fun files => ?_) split
  have last : [.clean, .scan] ++ files.map .library ++ b.settings.resources.resources.map .resource <+:
      earlier files b.settings.resources.resources := List.prefix_rfl
  have halts (s : Linker (σ × List Call))
      (held : Held b (earlier files b.settings.resources.resources) s) : Reached b s.assembler.2 :=
    reached_of_follows held main_notMem_earlier
  have library : Leads (Exported b.root) (Build.buildLibrary asm.traced) fun _ => Exported b.root :=
    Exported.buildLibrary
  have resources : Leads (Exported b.root) (Build.buildResources asm.traced b.settings)
    fun _ => Exported b.root := Exported.buildResources b.settings
  have inserted := (ensures_buildLibrary (b := b) ((List.prefix_append _ _).trans last)).and library
  have linked := (ensures_buildResources (b := b) last).and resources
  refine Ensures.bind (inserted.mono (fun _ _ both => both) fun s stopped => halts s stopped.1) fun _ => ?_
  refine Ensures.bind (linked.mono (fun _ _ both => both) fun s stopped => halts s stopped.1) fun _ => ?_
  refine Ensures.each fun s both => ?_
  obtain ⟨⟨calls, course, standing⟩, exported⟩ := both
  exact (ensures_buildMain_reached course b.settings).pre fun t same =>
    same ▸ ⟨exported, standing.record⟩

theorem ensures_stages_reached (asm : Assembler σ) (b : Basis) :
    Ensures (fun s => At b [] b.settings.defines s ∧ Exported b.root s)
      (do
        let _ ← Build.patchBase asm.traced "clean.asm"
        Build.scan asm.traced
        Build.buildLibrary asm.traced
        Build.buildResources asm.traced b.settings
        Build.buildMain asm.traced b.settings)
      (fun _ s => Exported b.root s ∧ EndsInMain b s.assembler.2) fun s => Reached b s.assembler.2 := by
  have clean : Leads (Exported b.root) (Build.patchBase asm.traced "clean.asm") fun _ => Exported b.root :=
    Exported.patchBase .clean rfl nofun rfl
  have scan : Leads (Exported b.root) (Build.scan asm.traced) fun _ => Exported b.root := Exported.scan
  have cleaned := (ensures_clean (b := b) List.prefix_rfl).and clean
  have scanned := (ensures_scanned (b := b) List.prefix_rfl).and scan
  refine Ensures.bind (cleaned.mono (fun _ _ both => both) fun s stopped => ?_) fun _ => ?_
  · exact reached_of_follows stopped.1 (by simp)
  refine Ensures.bind (scanned.mono (fun _ _ both => both) fun s stopped => ?_) fun _ => ?_
  · exact reached_of_follows stopped.1 (by simp)
  · exact ensures_insertions_reached

/-- The calls have given all addresses to clean and all sizes, and the main source was assembled last. -/
def Counted (root : Path) (settings : Settings) (s : Linker (σ × List Call)) : Prop :=
  Exported root s ∧ ∃ rom data, EndsInMain ⟨root, rom, data, settings, untied⟩ s.assembler.2

/-- A build may have stopped anywhere. -/
def Followed (root : Path) (settings : Settings) (calls : List Call) : Prop :=
  ∃ rom data, Reached ⟨root, rom, data, settings, untied⟩ calls

theorem Followed.nil : Followed root settings [] :=
  ⟨root, .empty, reached_of_follows Follows.nil List.not_mem_nil⟩

theorem ensures_upToSave_counted (rom : Path) (settings : Settings) (state : σ) :
    Ensures (· = Linker.fresh d root (state, [])) (Build.upToSave asm.traced settings rom)
      (fun _ => Counted root settings) fun s => Followed root settings s.assembler.2 := by
  have start (s : Linker (σ × List Call)) (same : s = Linker.fresh d root (state, [])) :
      Opening d root s ∧ Exported root s := by
    subst same
    exact ⟨⟨rfl, rfl, rfl, rfl⟩, rfl, rfl, rfl, nofun⟩
  have load : Leads (Exported root) (Build.loadRom asm.traced settings rom) fun _ => Exported root :=
    ((Exported.tallied σ root).loadRom settings rom).leads
  have loaded := (ensures_loadRom d root settings untied).and load
  unfold Build.upToSave
  refine Ensures.through (fun _ s => ∃ data, At ⟨root, rom, data, settings, untied⟩ [] settings.defines s ∧
    Exported root s) ((loaded.pre start).mono ?_ ?_) fun _ => Ensures.exists_pre fun data => ?_
  · rintro - s ⟨⟨data, -, reached⟩, exported⟩
    exact ⟨data, reached, exported⟩
  · rintro s ⟨none, -⟩
    rw [none]
    exact Followed.nil
  · refine (ensures_stages_reached asm ⟨root, rom, data, settings, untied⟩).mono ?_ ?_
    · exact fun _ s after => ⟨after.1, rom, data, after.2⟩
    · exact fun s stopped => ⟨rom, data, stopped⟩

theorem Counted.followed {s : Linker (σ × List Call)} (counted : Counted root settings s) :
    Followed root settings s.assembler.2 := by
  obtain ⟨-, rom, data, ends⟩ := counted
  exact ⟨rom, data, ends.1⟩

theorem Counted.unwritten : Unwritten (Counted root settings : Linker (σ × List Call) → Prop) :=
  (Exported.tallied σ root).unwritten.and (unwritten_assembler fun inner : σ × List Call =>
    ∃ rom data, EndsInMain ⟨root, rom, data, settings, untied⟩ inner.2)

theorem ensures_run_counted (asm : Assembler σ) (settings : Settings) (override? : Option Path)
    (root : Path) (d : Disk) (state : σ) :
    Ensures (· = Linker.fresh d root (state, [])) (Build.run asm.traced settings override?)
      (fun _ => Counted root settings) fun s => Followed root settings s.assembler.2 := by
  rw [Build.run_eq]
  refine Ensures.read fun s same => ?_
  subst same
  cases Build.romPath (Linker.fresh d root (state, [])).workspace settings override? with
  | error e =>
    refine Ensures.throw fun t same => ?_
    rw [same]
    exact Followed.nil
  | ok rom =>
    refine Ensures.bind (ensures_upToSave_counted rom settings state) fun _ => ?_
    exact (Counted.unwritten.conclude rom).halting fun _ counted => counted.followed

end LinkM

/-! ### A build that prints -/

namespace SmallBuild

/-- The resource has a main part with a part on its side, and the main source has one on its side. -/
def markers (source : Path) : List String :=
  if source = sourceIn root "resource.asm" then
    ["_startl $118000", "_extral $128000 $128008", "_endl $118010"]
  else if source = Stage.main.source root then ["_extral $108000 $108010"]
  else []

def printing : Assembler Unit :=
  ⟨"printing", fun request disk inner => (.ok ⟨.empty, labels, markers request.source⟩, disk, inner)⟩

/-- The main source came last, and found two addresses. A third one was printed by itself. -/
structure Prints (report : Report) (t : Linker (Unit × List Call)) (before : List Call) (main : Call) :
    Prop where
  record : t.assembler.2 = before ++ [main]
  source : main.request.source = Stage.main.source root
  given : before.flatMap (Call.exported root) = [0x118000, 0x128000]
  read : main.disk.readText (sourceIn root "pointer_list.asm") = .ok "dl $118000\ndl $128000\n"
  cleans : t.session.cleans = [0x118000, 0x128000, 0x108000]
  report : report = ⟨⟨0, 0, 16, 24⟩, 1⟩

theorem exists_prints : ∃ report t before main,
    build printing.traced settings (some ⟨"r.sfc"⟩) start = .ok report t ∧ Prints report t before main := by
  have same : build printing.traced settings (some ⟨"r.sfc"⟩) start = restOf printing.traced ((), []) :=
    build_eq_restOf printing.traced ((), [])
  have ends : (match restOf printing.traced ((), []) with
      | .ok report t => match t.assembler.2.getLast? with
        | some main => decide (main.request.source = Stage.main.source root ∧
            t.assembler.2.dropLast.flatMap (Call.exported root) = [0x118000, 0x128000] ∧
            (main.disk.readText (sourceIn root "pointer_list.asm")).toOption =
              some "dl $118000\ndl $128000\n" ∧
            t.session.cleans = [0x118000, 0x128000, 0x108000] ∧ report = ⟨⟨0, 0, 16, 24⟩, 1⟩)
        | none => false
      | .error _ _ => false) = true := by decide +kernel
  rw [← same] at ends
  split at ends
  · rename_i report t built
    split at ends
    · rename_i main last
      obtain ⟨source, given, read, cleans, sizes⟩ := of_decide_eq_true ends
      refine ⟨report, t, t.assembler.2.dropLast, main, built, ?_, source, given, ?_, cleans, sizes⟩
      · exact (List.dropLast_append_getLast? main last).symm
      · cases result : main.disk.readText (sourceIn root "pointer_list.asm") with
        | error fault =>
          rw [result] at read
          cases read
        | ok text =>
          rw [result] at read
          exact congrArg Except.ok (Option.some.inj read)
    · cases ends
  · cases ends

end SmallBuild

open LinkM

/-- In every build that comes to the main source, the list that this source finds reads back, line by line,
as the addresses that the sources in front of it have printed: those of the stages, in their order. -/
theorem pointer_list_exact {σ : Type} (asm : Assembler σ) (settings : Settings) (override? : Option Path)
    (root : Path) (d : Disk) (state : σ) (before after : List Call) (main : Call)
    (record : Build.record asm settings override? root d state = before ++ main :: after)
    (source : main.request.source = Stage.main.source root) :
    after = [] ∧
    (∃ files : List LibraryFile,
      before.length = (earlier files settings.resources.resources).length ∧
      ∀ (k : Nat) (stage : Stage) (call : Call),
        (earlier files settings.resources.resources)[k]? = some stage → before[k]? = some call →
        call.request.source = stage.source root ∧
        (∀ text ∈ stage.wrapper?, call.disk.readText (stage.source root) = .ok text) ∧
        ∃ assembly, call.answer = .ok assembly) ∧
    ∃ text, main.disk.readText (sourceIn root "pointer_list.asm") = .ok text ∧
      (Text.linesOf text).map Build.pointer? = (before.flatMap (Call.exported root)).map some := by
  have runs := Ensures.mono (ensures_run_counted asm settings override? root d state)
    (fun _ s counted => counted.followed) fun _ followed => followed
  have kept := keeps_cleanup fun inner : σ × List Call => Followed root settings inner.2
  rw [Build.record, build, finish_andAlways] at record
  obtain ⟨rom, data, reached⟩ := kept.finish (runs.finish rfl)
  obtain ⟨last, pointed, files, course⟩ := reached before main after record source
  refine ⟨last, ⟨files, course.all, fun k stage call planned called => ?_⟩, pointed⟩
  have asked := course.follows.asked k stage call planned called
  exact ⟨asked.source, asked.wrapped, course.answers call (List.mem_of_getElem? called)⟩

open SmallBuild in
theorem pointer_list_exact_two : ∃ before main text,
    Build.record printing settings (some ⟨"r.sfc"⟩) root disk () = before ++ [main] ∧
    main.request.source = Stage.main.source root ∧
    main.disk.readText (sourceIn root "pointer_list.asm") = .ok text ∧
    (Text.linesOf text).map Build.pointer? = [some 0x118000, some 0x128000] := by
  obtain ⟨report, t, before, main, built, prints⟩ := exists_prints
  have record : Build.record printing settings (some ⟨"r.sfc"⟩) root disk () = before ++ [main] := by
    have fresh : build printing.traced settings (some ⟨"r.sfc"⟩) (Linker.fresh disk root ((), [])) =
        .ok report t := built
    rw [Build.record, finish_of_ok fresh, prints.record]
  obtain ⟨-, -, text, read, lines⟩ := pointer_list_exact printing settings (some ⟨"r.sfc"⟩) root disk ()
    before [] main record prints.source
  rw [prints.given] at lines
  exact ⟨before, main, text, record, prints.source, read, lines⟩

/-- After a build that succeeds, the addresses to clean are those that the main source has found, and those
of the parts on the side that the main source itself has printed. -/
theorem cleans_of_build {σ : Type} (asm : Assembler σ) (settings : Settings) (override? : Option Path)
    (root : Path) (d : Disk) (state : σ) (report : Report) (t : Linker (σ × List Call))
    (built : build asm.traced settings override? (Linker.fresh d root (state, [])) = .ok report t) :
    ∃ before main text listed, t.assembler.2 = before ++ [main] ∧
      main.request.source = Stage.main.source root ∧
      main.disk.readText (sourceIn root "pointer_list.asm") = .ok text ∧
      (Text.linesOf text).map Build.pointer? = listed.map some ∧
      t.session.cleans = listed ++ PrintMarker.captured false main.prints ∧
      ((∀ a ∈ t.session.cleans, a ∈ listed) ↔
        ∀ a ∈ PrintMarker.captured false main.prints, a ∈ listed) := by
  obtain ⟨u, ran, cleaned⟩ := andAlways_eq_ok built
  have counted := (ensures_run_counted asm settings override? root d state).run _ rfl
  rw [ran] at counted
  have kept := (Counted.unwritten (σ := σ)).cleanup.run u counted
  rw [cleaned] at kept
  obtain ⟨exported, rom, data, reached, before, main, record, source⟩ := kept
  obtain ⟨-, ⟨text, read, lines⟩, -⟩ := reached before main [] record source
  have given : main.exported root = PrintMarker.captured false main.prints :=
    Call.exported_of_source source nofun
  have cleans : t.session.cleans =
      before.flatMap (Call.exported root) ++ PrintMarker.captured false main.prints := by
    rw [exported.cleans, record, List.flatMap_append, List.flatMap_singleton, given]
  refine ⟨before, main, text, _, record, source, read, lines, cleans, ?_⟩
  rw [cleans]
  simp only [List.mem_append, or_imp, forall_and]
  exact ⟨fun both => both.2, fun main => ⟨fun _ listed => listed, main⟩⟩

open SmallBuild in
theorem cleans_of_build_three : ∃ report t before main listed,
    build printing.traced settings (some ⟨"r.sfc"⟩) start = .ok report t ∧
    t.assembler.2 = before ++ [main] ∧
    t.session.cleans = listed ++ PrintMarker.captured false main.prints ∧
    t.session.cleans = [0x118000, 0x128000, 0x108000] := by
  obtain ⟨report, t, _, _, built, prints⟩ := exists_prints
  obtain ⟨before, main, text, listed, record, -, -, -, cleans, -⟩ :=
    cleans_of_build printing settings (some ⟨"r.sfc"⟩) root disk () report t built
  exact ⟨report, t, before, main, listed, built, record, cleans, prints.cleans⟩

open SmallBuild in
/-- An address that the main source prints is to be cleaned, and stands in no list. -/
theorem clean_address_unlisted : ∃ report t before main text,
    build printing.traced settings (some ⟨"r.sfc"⟩) start = .ok report t ∧
    t.assembler.2 = before ++ [main] ∧ main.request.source = Stage.main.source root ∧
    main.disk.readText (sourceIn root "pointer_list.asm") = .ok text ∧
    0x108000 ∈ t.session.cleans ∧ some 0x108000 ∉ (Text.linesOf text).map Build.pointer? := by
  obtain ⟨report, t, before, main, built, prints⟩ := exists_prints
  refine ⟨report, t, before, main, _, built, prints.record, prints.source, prints.read, ?_, ?_⟩
  · rw [prints.cleans]
    decide
  · decide +kernel

end RomLinker
