import RomLinker.Proofs.Link.Stages

/-!
Where a build stands between two calls of the assembler (`Standing`), and what a call leads to
(`ensures_patch`): the session's image is always what the calls so far have made of the ROM, and its
routines are those that they have registered.
-/
namespace RomLinker

open Workspace

/-- What a build goes by: where the tool is, the ROM with its bytes, the settings, and how the resources
that are filed go together with the calls. -/
structure Basis where
  root : Path
  rom : Path
  data : ByteArray
  settings : Settings
  tied : List Call → ResourceTable → Prop

namespace LinkM

variable {σ : Type} {asm : Assembler σ} {b : Basis} {done plan : List Stage} {calls : List Call}
  {call : Call} {stage : Stage} {globals : List (String × String)}
  {registered : List (String × Address)} {own : Defines} {s t : Linker (σ × List Call)}

/-- The sources of some stages were asked for, and all of them assembled, each into the image that the
calls before it led to. -/
structure Course (b : Basis) (done : List Stage) (calls : List Call) : Prop where
  follows : Follows b.root b.settings b.tied done calls
  all : calls.length = done.length
  images : ∀ k call, calls[k]? = some call →
    call.request.image = imageAfter b.root b.data (calls.take k)
  answers : ∀ call ∈ calls, ∃ assembly, call.answer = .ok assembly

theorem Course.nil : Course b [] [] := ⟨Follows.nil, rfl, nofun, nofun⟩

theorem Course.concat {assembly : Assembly} (course : Course b done calls)
    (asked : Asked b.root b.settings b.tied calls stage call)
    (image : call.request.image = imageAfter b.root b.data calls)
    (answer : call.answer = .ok assembly) : Course b (done ++ [stage]) (calls ++ [call]) := by
  refine ⟨course.follows.concat course.all asked, ?_, fun k call' called => ?_, fun call' member => ?_⟩
  · rw [List.length_append, List.length_append, course.all]
    rfl
  · by_cases early : k < calls.length
    · rw [List.getElem?_append_left early] at called
      rw [List.take_append_of_le_length (Nat.le_of_lt early)]
      exact course.images k call' called
    · have last : k = calls.length := by
        have bound := (List.getElem?_eq_some_iff.mp called).1
        rw [List.length_append, List.length_singleton] at bound
        omega
      subst last
      rw [List.getElem?_concat_length] at called
      cases called
      rw [List.take_left]
      exact image
  · rcases List.mem_append.mp member with old | new
    · exact course.answers call' old
    · rw [List.mem_singleton.mp new]
      exact ⟨assembly, answer⟩

/-- What the session and the record are after some calls. -/
structure Standing (b : Basis) (calls : List Call) (globals : List (String × String))
    (registered : List (String × Address)) (s : Linker (σ × List Call)) : Prop where
  root_eq : s.workspace.root = b.root
  record : s.assembler.2 = calls
  rom : ∃ header, s.session.rom? = some ⟨b.rom, imageAfter b.root b.data calls, header⟩
  globals : s.session.defines.entries = globals
  routines : s.session.routines.Holds registered

/-- A build is through with some stages. -/
def At (b : Basis) (done : List Stage) (globals : List (String × String))
    (s : Linker (σ × List Call)) : Prop :=
  ∃ calls, Course b done calls ∧ Standing b calls globals (registrations b.root calls) s

/-- A build has kept to a plan so far. -/
abbrev Held (b : Basis) (plan : List Stage) (s : Linker (σ × List Call)) : Prop :=
  Follows b.root b.settings b.tied plan s.assembler.2

theorem Standing.held (standing : Standing b calls globals registered s) (course : Course b done calls)
    (front : done <+: plan) : Held b plan s := by
  unfold Held
  rw [standing.record]
  exact course.follows.mono front

theorem Standing.data_eq {rom : Rom} (standing : Standing b calls globals registered s)
    (loaded : s.session.rom? = some rom) : rom.data = imageAfter b.root b.data calls := by
  obtain ⟨header, same⟩ := standing.rom
  rw [same] at loaded
  cases loaded
  rfl

theorem Standing.indifferent :
    Indifferent (Standing b calls globals registered : Linker (σ × List Call) → Prop) :=
  ⟨fun _ _ holds => ⟨holds.root_eq, holds.record, holds.rom, holds.globals, holds.routines⟩,
    fun _ _ holds => ⟨holds.root_eq, holds.record, holds.rom, holds.globals, holds.routines⟩,
    fun _ _ holds => ⟨holds.root_eq, holds.record, holds.rom, holds.globals, holds.routines⟩⟩

theorem ensures_addDefines {stopped : Linker (σ × List Call) → Prop} (defines : List (String × String))
    (halts : ∀ globals s, Standing b calls globals registered s → stopped s) :
    Ensures (Standing b calls globals registered) (Build.addDefines defines)
      (fun _ => Standing b calls (globals ++ defines) registered) stopped := by
  unfold Build.addDefines
  induction defines generalizing globals with
  | nil =>
    rw [List.append_nil]
    exact Ensures.pure fun _ holds => holds
  | cons define rest ih =>
    obtain ⟨name, value⟩ := define
    rw [List.append_cons]
    refine Ensures.bind (?_ : Ensures _ _ (fun _ => Standing b calls (globals ++ [(name, value)]) registered) _)
      fun _ => ih
    refine ensures_onSession (halts globals) fun s session holds result => ?_
    unfold Session.define at result
    split at result
    · rename_i more added
      cases result
      refine ⟨holds.root_eq, holds.record, holds.rom, ?_, holds.routines⟩
      rw [← holds.globals]
      exact Defines.add?_eq_some added
    · cases result

theorem ensures_takeAll {stopped : Linker (σ × List Call) → Prop}
    {take : Label → LinkM (σ × List Call) Unit}
    (each : ∀ registered l, Ensures (Standing b calls globals registered) (take l)
      (fun _ => Standing b calls globals (registered ++ l.registration?.toList)) stopped)
    (registered : List (String × Address)) (labels : List Label) :
    Ensures (Standing b calls globals registered) (labels.forM take)
      (fun _ => Standing b calls globals (registered ++ labels.filterMap Label.registration?)) stopped := by
  induction labels generalizing registered with
  | nil =>
    rw [List.filterMap_nil, List.append_nil]
    exact Ensures.pure fun _ holds => holds
  | cons l labels ih =>
    have split : registered ++ (l :: labels).filterMap Label.registration? =
        (registered ++ l.registration?.toList) ++ labels.filterMap Label.registration? := by
      rw [List.append_assoc, List.filterMap_cons]
      cases l.registration? <;> rfl
    rw [split]
    exact Ensures.bind (each registered l) fun _ => ih _

section Labels
variable {stopped : Linker (σ × List Call) → Prop}
  (halts : ∀ registered s, Standing b calls globals registered s → stopped s)
include halts

theorem ensures_register (file : Path) (name : String) (address : Address) :
    Ensures (Standing b calls globals registered) (register file name address)
      (fun _ => Standing b calls globals (registered ++ [(name, address)])) stopped := by
  refine Ensures.read fun s holds => ?_
  refine Ensures.through (fun _ => Standing b calls globals (registered ++ [(name, address)])) ?_ fun _ => ?_
  · refine ensures_onSession (fun t same => same ▸ halts registered s holds) fun t session same result => ?_
    subst same
    unfold Session.register at result
    split at result
    · cases result
    · split at result
      · rename_i routines added
        cases result
        exact ⟨holds.root_eq, holds.record, holds.rom, holds.globals, holds.routines.add added⟩
      · cases result
  · split
    · exact (Standing.indifferent.note _ _).halting (halts _)
    · exact Ensures.pure fun _ holds => holds

theorem ensures_takeRoutine (file : Path) (registered : List (String × Address)) (l : Label) :
    Ensures (Standing b calls globals registered) (Resource.takeRoutine file l)
      (fun _ => Standing b calls globals (registered ++ l.registration?.toList)) stopped := by
  unfold Resource.takeRoutine Label.registration?
  cases l.routine? with
  | some name => exact ensures_register halts file name l.address
  | none =>
    rw [Option.map_none, Option.toList_none, List.append_nil]
    exact Ensures.pure fun _ holds => holds

theorem ensures_takeLabel (i : Nat) (file : Path) (registered : List (String × Address)) (l : Label) :
    Ensures (Standing b calls globals registered) (Library.takeLabel i file l)
      (fun _ => Standing b calls globals (registered ++ l.registration?.toList)) stopped := by
  unfold Library.takeLabel Label.registration?
  cases l.routine? with
  | some name => exact ensures_register halts file name l.address
  | none =>
    rw [Option.map_none, Option.toList_none, List.append_nil]
    dsimp only
    split
    · refine Ensures.modify fun s holds => ?_
      exact ⟨holds.root_eq, holds.record, holds.rom, holds.globals, holds.routines⟩
    · exact Ensures.pure fun _ holds => holds

end Labels

def Provided (root : Path) (stage : Stage) (d : Disk) : Prop :=
  ∀ text ∈ stage.wrapper?, d.readText (stage.source root) = .ok text

theorem Standing.asked {defines : Defines}
    (standing : Standing b calls globals (registrations b.root calls) s) (image : ByteArray)
    (answer : Except AssemblerFault Assembly)
    (known : stage.Globals b.settings b.tied calls globals) (provided : Provided b.root stage s.disk)
    (own_eq : own.entries = stage.own) (defined : s.session.definesFor own = .ok defines) :
    Asked b.root b.settings b.tied calls stage ⟨⟨image, stage.source b.root, defines⟩, s.disk, answer⟩ := by
  obtain ⟨routines, registers, same⟩ := standing.routines.registers
  refine ⟨rfl, provided, globals, routines, known, registers, ?_⟩
  rw [Session.definesFor_eq_ok defined, standing.globals, same, own_eq]

/-- What a source of a stage leaves behind, once the assembler has answered. -/
structure Answers (b : Basis) (done : List Stage) (calls : List Call) (stage : Stage) (call : Call)
    (assembly : Assembly) (s t : Linker (σ × List Call)) : Prop where
  course : Course b (done ++ [stage]) (calls ++ [call])
  source : call.request.source = stage.source b.root
  answer : call.answer = .ok assembly
  record : t.assembler.2 = calls ++ [call]
  workspace : t.workspace = s.workspace
  session : t.session = s.session.answered (.ok assembly)

theorem Answers.held {t : Linker (σ × List Call)} {assembly : Assembly}
    (answers : Answers b done calls stage call assembly s t) (front : done ++ [stage] <+: plan) :
    Held b plan t := by
  unfold Held
  rw [answers.record]
  exact answers.course.follows.mono front

theorem ensures_ask (stage : Stage) (own : Defines) {image : ByteArray} (course : Course b done calls)
    (known : stage.Globals b.settings b.tied calls globals) (own_eq : own.entries = stage.own)
    (front : done ++ [stage] <+: plan)
    (standing : Standing b calls globals (registrations b.root calls) s)
    (provided : Provided b.root stage s.disk) (same : image = imageAfter b.root b.data calls) :
    Ensures (· = s) (assemble asm.traced image (stage.source b.root) own)
      (fun after t => ∃ call assembly, after = assembly.image ∧
        Answers b done calls stage call assembly s t) (Held b plan) := by
  refine Ensures.mono ensures_assemble ?_ ?_
  · rintro after t ⟨u, defines, assembly, rfl, defined, rfl, called⟩
    refine ⟨⟨⟨image, stage.source b.root, defines⟩, u.disk, .ok assembly⟩, assembly, rfl, ?_⟩
    have asked := standing.asked image (.ok assembly) known provided own_eq defined
    refine ⟨course.concat asked same rfl, rfl, rfl, ?_, ?_, ?_⟩
    · rw [called.record, standing.record]
    · rw [called.rest]
    · rw [called.rest]
  · rintro t (rfl | ⟨u, defines, fault, rfl, defined, called⟩)
    · exact standing.held course ((List.prefix_append _ _).trans front)
    · have asked := standing.asked image (.error fault) known provided own_eq defined
      unfold Held
      rw [called.record, standing.record]
      exact (course.follows.concat course.all asked).mono front

/-- Once a source is patched, the image is its image, and its labels are at hand. -/
theorem ensures_patch (stage : Stage) (course : Course b done calls)
    (known : stage.Globals b.settings b.tied calls globals) (own_eq : own.entries = stage.own)
    (front : done ++ [stage] <+: plan) (other : stage ≠ .scan) :
    Ensures (fun s => Standing b calls globals (registrations b.root calls) s ∧
        Provided b.root stage s.disk)
      (patch asm.traced (stage.source b.root) own)
      (fun _ t => ∃ call, (Course b (done ++ [stage]) (calls ++ [call]) ∧
          call.request.source = stage.source b.root) ∧
        Standing b (calls ++ [call]) globals (registrations b.root calls) t ∧
        t.session.labels = call.labels) (Held b plan) := by
  refine Ensures.read fun s holds => ?_
  obtain ⟨standing, provided⟩ := holds
  obtain ⟨header, loaded⟩ := standing.rom
  rw [loaded]
  refine Ensures.bind (ensures_ask stage own course known own_eq front standing provided rfl) fun image => ?_
  refine Ensures.modify fun t answered => ?_
  obtain ⟨call, assembly, rfl, answers⟩ := answered
  -- of the session only the answer and the image are new
  refine ⟨call, ⟨answers.course, answers.source⟩, ⟨?_, answers.record, ⟨header, ?_⟩, ?_, ?_⟩, ?_⟩
  · rw [← standing.root_eq]
    exact congrArg Workspace.root answers.workspace
  · rw [imageAfter_concat answers.source answers.answer other]
    show (t.session.withData assembly.image).rom? = _
    rw [answers.session]
    show (s.session.rom?.map fun rom => { rom with data := assembly.image }) = _
    rw [loaded]
    rfl
  · show (t.session.withData assembly.image).defines.entries = globals
    rw [answers.session]
    exact standing.globals
  · show (t.session.withData assembly.image).routines.Holds _
    rw [answers.session]
    exact standing.routines
  · show (t.session.withData assembly.image).labels = call.labels
    unfold Call.labels
    rw [answers.session, answers.answer]
    rfl

end LinkM
end RomLinker
