import RomLinker.Proofs.Link.Listed
import RomLinker.Proofs.Link.Standing

/-!
The steps of a build, each of which brings it through its stages (`At`). Where a step stops, the calls have
kept to the plan.
-/
namespace RomLinker.LinkM

open Workspace

variable {σ β : Type} {asm : Assembler σ} {b : Basis} {done plan : List Stage} {calls : List Call}
  {call : Call} {stage : Stage} {globals : List (String × String)}
  {registered : List (String × Address)} {d : Disk} {files : List LibraryFile} {name : String}

theorem Standing.congr {s t : Linker (σ × List Call)} (standing : Standing b calls globals registered s)
    (root : t.workspace.root = s.workspace.root) (session : t.session = s.session)
    (inner : t.assembler = s.assembler) : Standing b calls globals registered t := by
  refine ⟨root.trans standing.root_eq, inner ▸ standing.record, ?_, ?_, ?_⟩
  · rw [session]
    exact standing.rom
  · rw [session]
    exact standing.globals
  · rw [session]
    exact standing.routines

theorem Standing.generate (generated : name ∈ generatedNames) (contents : String) :
    Keeps (Standing b calls globals registered) (generate name contents : LinkM (σ × List Call) Path) :=
  keeps_generate (named_of_generated generated) (fun _ standing => standing.root_eq)
    fun _ _ root session _ inner standing => standing.congr root session inner

theorem Standing.provide (stage : Stage) {contents : String} {last : β → Linker (σ × List Call) → Prop}
    {stopped : Linker (σ × List Call) → Prop} {next : Path → LinkM (σ × List Call) β}
    (generated : name ∈ generatedNames) (wrapper : stage.wrapper? = some contents)
    (source : stage.source b.root = sourceIn b.root name)
    (halts : ∀ s, Standing b calls globals registered s → stopped s)
    (rest : Ensures (fun s => Standing b calls globals registered s ∧ Provided b.root stage s.disk)
      (next (stage.source b.root)) last stopped) :
    Ensures (Standing b calls globals registered) (LinkM.generate name contents >>= next) last stopped := by
  have named := named_of_generated generated
  refine Ensures.through (fun path t => path = stage.source b.root ∧
    Standing b calls globals registered t ∧ Provided b.root stage t.disk) ?_ fun path => ?_
  · refine (ensures_generate named fun _ standing => standing.root_eq).mono ?_ ?_
    · rintro path t ⟨rfl, s, standing, generates⟩
      refine ⟨source.symm, standing.congr generates.root_eq ?_ ?_, fun text given => ?_⟩
      · rw [generates.rest]
      · rw [generates.rest]
      · rw [wrapper] at given
        cases given
        rw [source]
        exact Disk.readText_of_read generates.read
    · rintro t ⟨s, standing, stopped⟩
      refine halts t (standing.congr ?_ ?_ ?_)
      · rw [stopped.rest]
      · rw [stopped.rest]
      · rw [stopped.rest]
  · refine ⟨fun t both => ?_⟩
    obtain ⟨rfl, ready⟩ := both
    exact rest.run t ready

def Patched (b : Basis) (calls : List Call) (call : Call) (globals : List (String × String))
    (s : Linker (σ × List Call)) : Prop :=
  Standing b (calls ++ [call]) globals (registrations b.root calls) s ∧ s.session.labels = call.labels

theorem Patched.indifferent :
    Indifferent (Patched b calls call globals : Linker (σ × List Call) → Prop) :=
  ⟨fun s log holds => ⟨Standing.indifferent.log s log holds.1, holds.2⟩,
    fun s cleans holds => ⟨Standing.indifferent.cleans s cleans holds.1, holds.2⟩,
    fun s ledger holds => ⟨Standing.indifferent.ledger s ledger holds.1, holds.2⟩⟩

theorem Standing.at_concat {s : Linker (σ × List Call)}
    (course : Course b (done ++ [stage]) (calls ++ [call]))
    (source : call.request.source = stage.source b.root)
    (standing : Standing b (calls ++ [call]) globals (registrations b.root calls ++
      if stage.registers then call.labels.filterMap Label.registration? else []) s) :
    At b (done ++ [stage]) globals s := by
  refine ⟨calls ++ [call], course, ?_⟩
  rw [registrations_concat source]
  exact standing

/-- A stage patches its source and takes in what that prints. It is done once the labels are taken that it
registers. -/
theorem ensures_patchThen {file : Path} {capture : Bool} {own : Defines}
    {next : Insertion → LinkM (σ × List Call) β} (stage : Stage) (course : Course b done calls)
    (known : stage.Globals b.settings b.tied calls globals) (own_eq : own.entries = stage.own)
    (front : done ++ [stage] <+: plan) (other : stage ≠ .scan)
    (takes : ∀ call inserted,
      (∀ registered (s : Linker (σ × List Call)), Standing b (calls ++ [call]) globals registered s →
        Held b plan s) →
      Ensures (Patched b calls call globals) (next inserted)
        (fun _ => Standing b (calls ++ [call]) globals (registrations b.root calls ++
          if stage.registers then call.labels.filterMap Label.registration? else [])) (Held b plan)) :
    Ensures (fun s => Standing b calls globals (registrations b.root calls) s ∧ Provided b.root stage s.disk)
      (patch asm.traced (stage.source b.root) own >>= fun _ => takePrints file capture >>= next)
      (fun _ => At b (done ++ [stage]) globals) (Held b plan) := by
  refine Ensures.bind (ensures_patch stage course known own_eq front other) fun _ => ?_
  refine Ensures.exists_pre fun call => Ensures.given fun ⟨further, asked⟩ => ?_
  have held (registered : List (String × Address)) (s : Linker (σ × List Call))
      (standing : Standing b (calls ++ [call]) globals registered s) : Held b plan s :=
    standing.held further front
  refine Ensures.bind ((Patched.indifferent.takePrints _ _).halting fun s patched => held _ s patched.1)
    fun inserted => ?_
  exact (takes call inserted held).mono (fun _ s standing => Standing.at_concat further asked standing)
    fun _ stopped => stopped

theorem ensures_patchBase (stage : Stage) (course : Course b done calls) (front : done ++ [stage] <+: plan)
    (source : stage.source b.root = (Workspace.mk b.root []).fixedSource name)
    (known : stage.Globals b.settings b.tied calls globals) (plain : stage.wrapper? = none)
    (none : stage.own = []) (still : stage.registers = false) (other : stage ≠ .scan) :
    Ensures (Standing b calls globals (registrations b.root calls))
      (Build.patchBase asm.traced name) (fun _ => At b (done ++ [stage]) globals) (Held b plan) := by
  unfold Build.patchBase
  refine Ensures.read fun s standing => ?_
  have place : s.workspace.fixedSource name = stage.source b.root :=
    (fixedSource_congr standing.root_eq name).trans source.symm
  have provided : Provided b.root stage s.disk := by
    intro text given
    rw [plain] at given
    cases given
  dsimp only
  rw [place]
  rw [← bind_pure (takePrints (stage.source b.root) false)]
  refine Ensures.pre (ensures_patchThen stage course known none.symm front other fun call inserted held => ?_)
    fun t same => same ▸ ⟨standing, provided⟩
  rw [still, if_neg Bool.false_ne_true, List.append_nil]
  exact Ensures.pure fun t patched => patched.1

theorem ensures_clean (front : [.clean] <+: plan) :
    Ensures (At b [] b.settings.defines) (Build.patchBase asm.traced "clean.asm")
      (fun _ => At b [.clean] b.settings.defines) (Held b plan) :=
  Ensures.exists_pre fun _ => Ensures.given fun course =>
    ensures_patchBase .clean course front rfl rfl rfl rfl rfl nofun

theorem ensures_insertFile {f : LibraryFile} (front : done ++ [.library f] <+: plan) (i : Nat) :
    Ensures (At b done b.settings.defines) (Library.insertFile asm.traced i f)
      (fun _ => At b (done ++ [.library f]) b.settings.defines) (Held b plan) := by
  refine Ensures.exists_pre fun calls => Ensures.given fun course => ?_
  have start (s : Linker (σ × List Call)) (standing : Standing b calls b.settings.defines
      (registrations b.root calls) s) : Held b plan s :=
    standing.held course ((List.prefix_append _ _).trans front)
  unfold Library.insertFile
  refine Ensures.bind ((Standing.indifferent.note _ _).halting start) fun _ => ?_
  refine Standing.provide (.library f) (by decide) rfl rfl start ?_
  refine ensures_patchThen (.library f) course rfl rfl front nofun fun call inserted held => ?_
  refine Ensures.through (fun _ => Patched b calls call b.settings.defines)
    (Ensures.modify fun s patched => ⟨patched.1.congr rfl rfl rfl, patched.2⟩) fun _ => ?_
  refine Ensures.bind ((Patched.indifferent.addSize _ _).halting fun t patched => held _ t patched.1) fun _ => ?_
  refine Ensures.read fun s patched => ?_
  rw [patched.2]
  have taken := ensures_takeAll (ensures_takeLabel held i f.file) (registrations b.root calls) call.labels
  exact taken.pre fun t same => same ▸ patched.1

theorem ensures_each {xs : List β} {f : β → LinkM (σ × List Call) Unit} {stage : β → Stage}
    (each : ∀ x ∈ xs, ∀ done, done ++ [stage x] <+: plan →
      Ensures (At b done globals) (f x) (fun _ => At b (done ++ [stage x]) globals) (Held b plan))
    (front : done ++ xs.map stage <+: plan) :
    Ensures (At b done globals) (xs.forM f) (fun _ => At b (done ++ xs.map stage) globals)
      (Held b plan) := by
  induction xs generalizing done with
  | nil =>
    rw [List.map_nil, List.append_nil]
    exact Ensures.pure fun _ holds => holds
  | cons x xs ih =>
    obtain ⟨head, tail⟩ := List.forall_mem_cons.mp each
    rw [List.map_cons, List.append_cons] at front ⊢
    exact Ensures.bind (head done ((List.prefix_append _ _).trans front)) fun _ => ih tail front

theorem At.generate (generated : name ∈ generatedNames) (contents : String) :
    Keeps (At b done globals) (LinkM.generate name contents : LinkM (σ × List Call) Path) := by
  have rooted (s : Linker (σ × List Call)) (reached : At b done globals s) :
      s.workspace.root = b.root := by
    obtain ⟨calls, -, standing⟩ := reached
    exact standing.root_eq
  refine keeps_generate (named_of_generated generated) rooted ?_
  rintro s t root session - inner ⟨calls, course, standing⟩
  exact ⟨calls, course, standing.congr root session inner⟩

theorem At.held {s : Linker (σ × List Call)} (front : done <+: plan) (reached : At b done globals s) :
    Held b plan s := by
  obtain ⟨calls, course, standing⟩ := reached
  exact standing.held course front

theorem At.indifferent : Indifferent (At b done globals : Linker (σ × List Call) → Prop) :=
  ⟨fun s log ⟨calls, course, standing⟩ => ⟨calls, course, Standing.indifferent.log s log standing⟩,
    fun s cleans ⟨calls, course, standing⟩ =>
      ⟨calls, course, Standing.indifferent.cleans s cleans standing⟩,
    fun s ledger ⟨calls, course, standing⟩ =>
      ⟨calls, course, Standing.indifferent.ledger s ledger standing⟩⟩

theorem ensures_buildLibrary (front : done ++ files.map .library <+: plan) :
    Ensures (fun s => At b done b.settings.defines s ∧ Library.listed b.root s.disk = files)
      (Build.buildLibrary asm.traced)
      (fun _ => At b (done ++ files.map .library) b.settings.defines) (Held b plan) := by
  have start (s : Linker (σ × List Call)) (reached : At b done b.settings.defines s) : Held b plan s :=
    reached.held ((List.prefix_append _ _).trans front)
  unfold Build.buildLibrary
  refine Ensures.through
    (fun _ s => At b done b.settings.defines s ∧ Library.listed b.root s.disk = files)
    (Ensures.modify fun s both => ?_) fun _ => ?_
  · exact ⟨At.indifferent.log s _ both.1, both.2⟩
  refine Ensures.read fun s both => ?_
  obtain ⟨reached, here⟩ := both
  have root : s.workspace.root = b.root := by
    obtain ⟨calls, course, standing⟩ := reached
    exact standing.root_eq
  have same : Library.discover s.workspace s.disk = Library.discover ⟨b.root, []⟩ s.disk := by
    rw [← root]
    rfl
  rw [same]
  unfold Library.listed at here
  cases found : Library.discover ⟨b.root, []⟩ s.disk with
  | error e => exact Ensures.throw_bind fun t same => same ▸ start s reached
  | ok listed =>
    rw [found] at here
    have equal : listed = files := here
    subst equal
    refine Ensures.through (fun _ t => At b done b.settings.defines t ∧ t.library = listed)
      (Ensures.modify fun t same => ?_) fun _ => ?_
    · subst same
      obtain ⟨calls, course, standing⟩ := reached
      exact ⟨⟨calls, course, standing.congr rfl rfl rfl⟩, rfl⟩
    unfold Library.insertAll
    refine Ensures.read fun t both => ?_
    rw [both.2]
    refine Ensures.through (fun _ => At b (done ++ listed.map .library) b.settings.defines) ?_ fun _ => ?_
    · have names : listed.map Stage.library = listed.zipIdx.map fun x => Stage.library x.1 := by
        have firsts := congrArg (List.map Stage.library) (List.zipIdx_map_fst 0 listed)
        rw [List.map_map] at firsts
        exact firsts.symm
      rw [names] at front ⊢
      refine (ensures_each (fun x _ done front => ?_) front).pre fun u same => same ▸ both.1
      exact ensures_insertFile front x.2
    · refine Ensures.read fun t reached => ?_
      refine Ensures.pre (Ensures.bind ((At.generate (by decide) _).halting
        fun u reached => reached.held front) fun _ => ?_) fun u same => same ▸ reached
      exact Ensures.pure fun _ holds => holds

theorem ensures_takeLabels {r : Resource} {stopped : Linker (σ × List Call) → Prop}
    (halts : ∀ registered s, Standing b (calls ++ [call]) globals registered s → stopped s) :
    Ensures (Patched b calls call globals) (r.takeLabels : LinkM (σ × List Call) Unit)
      (fun _ => Standing b (calls ++ [call]) globals
        (registrations b.root calls ++ call.labels.filterMap Label.registration?)) stopped := by
  unfold Resource.takeLabels
  refine Ensures.read fun s patched => ?_
  dsimp only
  rw [patched.2]
  split
  · exact Ensures.throw_bind fun t same => same ▸ halts _ s patched.1
  · refine Ensures.through (fun _ => Standing b (calls ++ [call]) globals (registrations b.root calls))
      (Ensures.modify fun t same => ?_) fun _ => ?_
    · subst same
      exact patched.1.congr rfl rfl rfl
    · exact ensures_takeAll (ensures_takeRoutine halts r.file) _ call.labels

theorem ensures_insert {r : Resource} (front : done ++ [.resource r] <+: plan) (extraBytes : String) :
    Ensures (At b done b.settings.defines) (r.insert asm.traced extraBytes)
      (fun _ => At b (done ++ [.resource r]) b.settings.defines) (Held b plan) := by
  refine Ensures.exists_pre fun calls => Ensures.given fun course => ?_
  have start (s : Linker (σ × List Call)) (standing : Standing b calls b.settings.defines
      (registrations b.root calls) s) : Held b plan s :=
    standing.held course ((List.prefix_append _ _).trans front)
  unfold Resource.insert
  refine Ensures.bind ((Standing.indifferent.note _ _).halting start) fun _ => ?_
  refine Ensures.bind ((Standing.generate (by decide) _).halting start) fun _ => ?_
  refine Standing.provide (.resource r) (by decide) rfl rfl start ?_
  refine ensures_patchThen (.resource r) course rfl r.entries_defines front nofun fun call inserted held => ?_
  have halts (t : Linker (σ × List Call)) (patched : Patched b calls call b.settings.defines t) :
      Held b plan t := held _ t patched.1
  refine Ensures.bind ((Patched.indifferent.addSize _ _).halting halts) fun _ => ?_
  refine Ensures.bind ((Patched.indifferent.note _ _).halting halts) fun _ => ?_
  refine Ensures.bind ((Patched.indifferent.note _ _).halting halts) fun _ => ?_
  exact ensures_takeLabels held

theorem ensures_buildResources (front : done ++ b.settings.resources.resources.map .resource <+: plan) :
    Ensures (At b done b.settings.defines) (Build.buildResources asm.traced b.settings)
      (fun _ => At b (done ++ b.settings.resources.resources.map .resource) b.settings.defines)
      (Held b plan) := by
  have start (s : Linker (σ × List Call)) (reached : At b done b.settings.defines s) : Held b plan s :=
    reached.held ((List.prefix_append _ _).trans front)
  unfold Build.buildResources Build.insertResources
  refine Ensures.bind ((At.indifferent.note _ _).halting start) fun _ => ?_
  refine Ensures.through
    (fun _ s => At b done b.settings.defines s ∧ s.resources = b.settings.resources)
    (Ensures.modify fun s reached => ?_) fun _ => ?_
  · obtain ⟨calls, course, standing⟩ := reached
    exact ⟨⟨calls, course, standing.congr rfl rfl rfl⟩, rfl⟩
  refine Ensures.through
    (fun _ => At b (done ++ b.settings.resources.resources.map .resource) b.settings.defines)
    (Ensures.read fun s both => ?_) fun _ => ?_
  · rw [both.2]
    refine (ensures_each (fun r _ done front => ?_) front).pre fun u same => same ▸ both.1
    exact ensures_insert front _
  · refine Ensures.read fun t reached => ?_
    refine Ensures.pre (Ensures.bind ((At.generate (by decide) _).halting
      fun u reached => reached.held front) fun _ => ?_) fun u same => same ▸ reached
    exact Ensures.pure fun _ holds => holds

theorem ensures_buildMain (front : done ++ [.main] <+: plan) :
    Ensures (fun s => At b done b.settings.defines s ∧ b.tied s.assembler.2 s.resources)
      (Build.buildMain asm.traced b.settings)
      (fun _ s => ∃ globals, At b (done ++ [.main]) globals s) (Held b plan) := by
  unfold Build.buildMain
  refine Ensures.through
    (fun _ s => At b done b.settings.defines s ∧ b.tied s.assembler.2 s.resources)
    (Ensures.modify fun s both => ⟨At.indifferent.log s _ both.1, both.2⟩) fun _ => ?_
  refine Ensures.read fun s both => ?_
  obtain ⟨⟨calls, course, standing⟩, tied⟩ := both
  dsimp only
  rw [standing.record] at tied
  have known : Stage.Globals b.settings b.tied calls
      (b.settings.defines ++ (b.settings.contexts.resolve s.resources).interruptDefines) .main :=
    ⟨s.resources, tied, rfl⟩
  have held (globals : List (String × String)) (t : Linker (σ × List Call))
      (standing : Standing b calls globals (registrations b.root calls) t) : Held b plan t :=
    standing.held course ((List.prefix_append _ _).trans front)
  refine Ensures.pre (Ensures.bind (ensures_addDefines _ held) fun _ => ?_) fun t same => same ▸ standing
  refine Ensures.bind ((Standing.generate (by decide) _).halting (held _)) fun _ => ?_
  refine Ensures.read fun t standing => ?_
  refine Ensures.pre (Ensures.bind
    ((Standing.generate (by decide) _).halting (held _)) fun _ => ?_)
    fun u same => same ▸ standing
  refine Ensures.bind (ensures_patchBase .main course front rfl known rfl rfl rfl nofun)
    fun inserted => ?_
  refine ((At.indifferent.addSize _ _).halting fun u reached => reached.held front).mono ?_
    fun _ stopped => stopped
  exact fun _ u reached => ⟨_, reached⟩

end RomLinker.LinkM
