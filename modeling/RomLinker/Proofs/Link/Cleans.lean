import RomLinker.Proofs.Link.Order
import RomLinker.Proofs.Link.Prints

/-!
The addresses to clean and the sizes in the course of a build: what the calls so far have printed of them,
in the order of the calls (`Exported`). Every step of a build leads from such a state to another one.
-/
namespace RomLinker

open Workspace

def Call.prints (call : Call) : List String :=
  match call.answer with
  | .ok assembly => assembly.prints
  | .error _ => []

/-- The addresses to clean that a call gives. The main part counts for library files and resources only,
and nothing does for the scan of the routines. -/
def Call.exported (root : Path) (call : Call) : List Address :=
  if call.request.source = Stage.scan.source root then []
  else PrintMarker.captured (decide (call.request.source = sourceIn root "library.asm" ∨
    call.request.source = sourceIn root "resource.asm")) call.prints

theorem Stage.source_ne_scan {path root : Path} {stage : Stage} (source : path = stage.source root)
    (other : stage ≠ .scan) : path ≠ Stage.scan.source root := by
  rw [source]
  exact fun same => other (Stage.source_eq_scan.mp same)

theorem Call.exported_of_source {call : Call} {stage : Stage} {root : Path}
    (source : call.request.source = stage.source root) (other : stage ≠ .scan) :
    call.exported root = PrintMarker.captured stage.registers call.prints := by
  have captures : decide (call.request.source = sourceIn root "library.asm" ∨
      call.request.source = sourceIn root "resource.asm") = stage.registers := by
    rw [source, Bool.eq_iff_iff, decide_eq_true_iff, Stage.registers_iff]
  rw [exported, if_neg (Stage.source_ne_scan source other), captures]

theorem Call.lt_of_exported {call : Call} {root : Path} {a : Address} (member : a ∈ call.exported root) :
    a.toNat < Address.limit := by
  unfold exported at member
  split at member
  · cases member
  · exact PrintMarker.lt_of_captured member

/-- What the main part of a stage's source is counted for. -/
def Stage.purpose? : Stage → Option Purpose
  | .main => some .main
  | .library _ => some .library
  | .resource _ => some .resources
  | .clean | .scan => none

def Call.purpose? (root : Path) (call : Call) : Option Purpose :=
  if call.request.source = Stage.main.source root then some .main
  else if call.request.source = sourceIn root "library.asm" then some .library
  else if call.request.source = sourceIn root "resource.asm" then some .resources
  else none

theorem Call.purpose?_of_source {call : Call} {stage : Stage} {root : Path}
    (source : call.request.source = stage.source root) : call.purpose? root = stage.purpose? := by
  unfold purpose?
  rw [source]
  cases stage <;>
    simp [Stage.purpose?, Stage.source_eq_main, Stage.source_eq_library, Stage.source_eq_resource]

namespace Ledger

def addFor (l : Ledger) (purpose? : Option Purpose) (n : Nat) : Ledger := purpose?.elim l (l.add n)

/-- What a call has printed is counted. Nothing is for the scan of the routines. -/
def enter (root : Path) (l : Ledger) (call : Call) : Ledger :=
  if call.request.source = Stage.scan.source root then l
  else (l.add (PrintMarker.sideSize call.prints) .other).addFor (call.purpose? root)
    (PrintMarker.mainSize call.prints)

def ofCalls (root : Path) (calls : List Call) : Ledger := calls.foldl (enter root) {}

theorem ofCalls_concat (root : Path) (calls : List Call) (call : Call) :
    ofCalls root (calls ++ [call]) = enter root (ofCalls root calls) call := List.foldl_concat ..

theorem enter_of_source {l : Ledger} {call : Call} {stage : Stage} {root : Path}
    (source : call.request.source = stage.source root) (other : stage ≠ .scan) :
    l.enter root call = (l.add (PrintMarker.sideSize call.prints) .other).addFor stage.purpose?
      (PrintMarker.mainSize call.prints) := by
  rw [enter, if_neg (Stage.source_ne_scan source other), Call.purpose?_of_source source]

end Ledger

/-- The source of a call was assembled, and all lines that it printed could be read. Those of the scan are
not looked at. -/
structure Call.Heard (root : Path) (call : Call) : Prop where
  answered : ∃ assembly, call.answer = .ok assembly
  sound : call.request.source ≠ Stage.scan.source root → EachAfter PrintMarker.Sound call.prints

namespace LinkM

variable {σ α β : Type} {asm : Assembler σ} {root : Path} {name : String} {own : Defines}

def SameTally (s t : Session) : Prop := t.cleans = s.cleans ∧ t.ledger = s.ledger

/-- A property that goes by the addresses to clean, the sizes and the assembler. -/
structure Tallied (root : Path) (kept : Linker σ → Prop) : Prop where
  root_eq : ∀ s, kept s → s.workspace.root = root
  depends : ∀ s t, t.workspace.root = s.workspace.root → SameTally s.session t.session →
    t.assembler = s.assembler → kept s → kept t

namespace Tallied
variable {kept : Linker σ → Prop} (tallied : Tallied root kept)
include tallied

theorem unwritten : Unwritten kept :=
  ⟨fun s _ holds => tallied.depends s _ rfl ⟨rfl, rfl⟩ rfl holds,
    fun s _ holds => tallied.depends s _ rfl ⟨rfl, rfl⟩ rfl holds,
    fun s _ holds => tallied.depends s _ rfl ⟨rfl, rfl⟩ rfl holds⟩

theorem note (level : Level) (text : String) : Keeps kept (note level text : LinkM σ Unit) :=
  tallied.unwritten.sequential.note level text

theorem modifySession {change : Session → Session} (same : ∀ s, SameTally s (change s)) :
    Keeps kept (modifySession change : LinkM σ Unit) :=
  Keeps.modify fun s holds => tallied.depends s _ rfl (same s.session) rfl holds

theorem onSession {operation : Session → Except LinkError Session}
    (same : ∀ s t, operation s = .ok t → SameTally s t) :
    Keeps kept (onSession operation : LinkM σ Unit) :=
  ensures_onSession (fun _ holds => holds) fun s _ holds result =>
    tallied.depends s _ rfl (same _ _ result) rfl holds

theorem addDefines (defines : List (String × String)) :
    Keeps kept (Build.addDefines defines : LinkM σ Unit) := by
  refine Keeps.forM fun define _ => tallied.onSession fun s t result => ?_
  unfold Session.define at result
  split at result
  · cases result
    exact ⟨rfl, rfl⟩
  · cases result

theorem register (file : Path) (name : String) (address : Address) :
    Keeps kept (register file name address : LinkM σ Unit) := by
  refine tallied.unwritten.sequential.register (tallied.onSession fun s t result => ?_)
  unfold Session.register at result
  split at result
  · cases result
  · split at result
    · cases result
      exact ⟨rfl, rfl⟩
    · cases result

theorem filing : Filing fun _ (action : LinkM σ _) => Keeps kept action where
  toSequential := tallied.unwritten.sequential
  routine file l name _ := tallied.register file name l.address
  library _ := Keeps.modify fun s holds => tallied.depends s _ rfl ⟨rfl, rfl⟩ rfl holds
  generates name contents _ := tallied.unwritten.generate name contents

theorem resources (table : Linker σ → ResourceTable) :
    Keeps kept (modify fun s => { s with resources := table s } : LinkM σ Unit) :=
  Keeps.modify fun s holds => tallied.depends s _ rfl ⟨rfl, rfl⟩ rfl holds

theorem loadRom (settings : Settings) (rom : Path) : Keeps kept (Build.loadRom asm settings rom) := by
  have loads : Keeps kept (load rom : LinkM σ Unit) :=
    tallied.unwritten.sequential.load fun _ _ => tallied.modifySession fun _ => ⟨rfl, rfl⟩
  exact tallied.unwritten.sequential.loadRom loads (tallied.addDefines _)

theorem generate (generated : name ∈ generatedNames) (contents : String) :
    Ensures kept (generate name contents : LinkM σ Path)
      (fun path s => path = sourceIn root name ∧ kept s ∧ s.disk.readText path = .ok contents) kept := by
  refine (ensures_generate (named_of_generated generated) tallied.root_eq).mono ?_ ?_
  · rintro path t ⟨same, s, holds, generates⟩
    refine ⟨same, tallied.depends s t generates.root_eq ?_ ?_ holds, ?_⟩
    · rw [generates.rest]
      exact ⟨rfl, rfl⟩
    · rw [generates.rest]
    · rw [same]
      exact Disk.readText_of_read generates.read
  · rintro t ⟨s, holds, halts⟩
    refine tallied.depends s t ?_ ?_ ?_ holds
    · rw [halts.rest]
    · rw [halts.rest]
      exact ⟨rfl, rfl⟩
    · rw [halts.rest]

theorem generate_bind {next : Path → LinkM σ β} {last : β → Linker σ → Prop}
    {stopped : Linker σ → Prop} (generated : name ∈ generatedNames) (contents : String)
    (halts : ∀ s, kept s → stopped s)
    (rest : Ensures (fun s => kept s ∧ s.disk.readText (sourceIn root name) = .ok contents)
      (next (sourceIn root name)) last stopped) :
    Ensures kept (LinkM.generate name contents >>= next) last stopped := by
  have written := (tallied.generate generated contents).mono (fun _ _ after => after) halts
  refine Ensures.bind written fun path => ⟨fun s after => ?_⟩
  obtain ⟨rfl, holds, read⟩ := after
  exact rest.run s ⟨holds, read⟩

theorem leads_generate_bind {next : Path → LinkM σ β} {last : β → Linker σ → Prop}
    (generated : name ∈ generatedNames) (contents : String)
    (rest : Leads kept (next (sourceIn root name)) last) :
    Leads kept (LinkM.generate name contents >>= next) last :=
  tallied.generate_bind generated contents (fun _ _ => trivial) (rest.pre fun _ both => both.1)

end Tallied

/-! ### Calls -/

/-- A source was asked for, and the session has what the assembler has printed. -/
structure Adds (source : Path) (call : Call) (s t : Linker (σ × List Call)) : Prop where
  source : call.request.source = source
  disk : call.disk = s.disk
  record : t.assembler.2 = s.assembler.2 ++ [call]
  workspace : t.workspace = s.workspace
  tally : SameTally s.session t.session
  prints : (∃ assembly, call.answer = .ok assembly) → t.session.prints = call.prints

theorem Calls.adds {request : Request} {answer : Except AssemblerFault Assembly}
    {s t : Linker (σ × List Call)} (calls : Calls asm.traced request answer s t) :
    Adds request.source ⟨request, s.disk, answer⟩ s t := by
  refine ⟨rfl, rfl, calls.record, ?_, ?_, ?_⟩
  · rw [calls.rest]
  · rw [calls.rest]
    cases answer <;> exact ⟨rfl, rfl⟩
  · rintro ⟨assembly, answered⟩
    have known : answer = .ok assembly := answered
    subst known
    rw [calls.rest]
    rfl

theorem ensures_assemble_adds {kept : Linker (σ × List Call) → Prop} {image : ByteArray} {source : Path} :
    Ensures kept (assemble asm.traced image source own)
      (fun _ t => ∃ s call, kept s ∧ Adds source call s t ∧ ∃ assembly, call.answer = .ok assembly)
      fun t => kept t ∨ ∃ s call, kept s ∧ Adds source call s t := by
  refine ensures_assemble.mono ?_ ?_
  · rintro - t ⟨s, defines, assembly, holds, -, -, calls⟩
    exact ⟨s, _, holds, calls.adds, assembly, rfl⟩
  · rintro t (holds | ⟨s, defines, fault, holds, -, calls⟩)
    · exact Or.inl holds
    · exact Or.inr ⟨s, _, holds, calls.adds⟩

theorem ensures_patch_adds {kept : Linker (σ × List Call) → Prop} {source : Path} :
    Ensures kept (patch asm.traced source own)
      (fun _ t => ∃ s call, kept s ∧ Adds source call s t ∧ ∃ assembly, call.answer = .ok assembly)
      fun t => kept t ∨ ∃ s call, kept s ∧ Adds source call s t := by
  refine Ensures.read fun s holds => ?_
  cases s.session.rom? with
  | none => exact Ensures.throw fun t same => Or.inl (same ▸ holds)
  | some rom =>
    have start (t : Linker (σ × List Call)) (same : t = s) : kept t := same ▸ holds
    refine Ensures.pre (Ensures.bind ensures_assemble_adds fun image => ?_) start
    refine Ensures.modify fun t reached => ?_
    obtain ⟨u, call, holds, adds, answered⟩ := reached
    refine ⟨u, call, holds, ?_, answered⟩
    exact ⟨adds.source, adds.disk, adds.record, adds.workspace, adds.tally, adds.prints⟩

/-- The addresses to clean are those that the calls so far have given, and so are the sizes. -/
structure Exported (root : Path) (s : Linker (σ × List Call)) : Prop where
  root_eq : s.workspace.root = root
  cleans : s.session.cleans = s.assembler.2.flatMap (Call.exported root)
  ledger : s.session.ledger = Ledger.ofCalls root s.assembler.2
  heard : ∀ call ∈ s.assembler.2, call.Heard root

theorem Exported.tallied (σ : Type) (root : Path) :
    Tallied root (Exported root : Linker (σ × List Call) → Prop) := by
  refine ⟨fun s exported => exported.root_eq, fun s t rooted tally inner exported => ?_⟩
  refine ⟨rooted.trans exported.root_eq, ?_, ?_, inner ▸ exported.heard⟩
  · rw [tally.1, inner]
    exact exported.cleans
  · rw [tally.2, inner]
    exact exported.ledger

def Printed (root : Path) (stage : Stage) (s : Linker (σ × List Call)) : Prop :=
  ∃ u call, Exported root u ∧ Adds (stage.source root) call u s ∧
    ∃ assembly, call.answer = .ok assembly

/-- The prints of a source were taken in, and the size of its main part is still to be counted. -/
def Owing (root : Path) (stage : Stage) (n : Nat) (s : Linker (σ × List Call)) : Prop :=
  Exported root { s with session.ledger := s.session.ledger.addFor stage.purpose? n }

theorem Exported.patch (stage : Stage) {source : Path} (same : source = stage.source root) :
    Leads (Exported root) (patch asm.traced source own) fun _ => Printed root stage := by
  subst same
  refine ensures_patch_adds.mono (fun _ t reached => ?_) fun _ _ => trivial
  exact reached

theorem Printed.takePrints {stage : Stage} {file : Path} {capture : Bool} (other : stage ≠ .scan)
    (captures : stage.registers = capture) :
    Leads (Printed root stage) (takePrints file capture : LinkM (σ × List Call) Insertion)
      fun inserted => Owing root stage inserted.size := by
  refine Ensures.each fun s printed => ?_
  obtain ⟨u, call, exported, adds, answered⟩ := printed
  refine leads_takePrints.mono (fun inserted t after => ?_) fun _ _ => trivial
  rw [adds.prints answered] at after
  obtain ⟨⟨sound, size⟩, tallies⟩ := after
  have record : t.assembler.2 = u.assembler.2 ++ [call] := by rw [tallies.assembler, adds.record]
  refine ⟨?_, ?_, ?_, ?_⟩
  · show t.workspace.root = root
    rw [tallies.workspace, adds.workspace]
    exact exported.root_eq
  · show t.session.cleans = t.assembler.2.flatMap (Call.exported root)
    rw [record, tallies.cleans, adds.tally.1, exported.cleans, List.flatMap_append,
      List.flatMap_singleton, Call.exported_of_source adds.source other, captures]
  · show t.session.ledger.addFor stage.purpose? inserted.size = Ledger.ofCalls root t.assembler.2
    rw [record, tallies.ledger, adds.tally.2, exported.ledger, size, Ledger.ofCalls_concat,
      Ledger.enter_of_source adds.source other]
  · show ∀ call ∈ t.assembler.2, call.Heard root
    rw [record, List.forall_mem_append, List.forall_mem_singleton]
    exact ⟨exported.heard, answered, fun _ => sound⟩

theorem Owing.tallied (σ : Type) (root : Path) (stage : Stage) (n : Nat) :
    Tallied root (Owing root stage n : Linker (σ × List Call) → Prop) := by
  have exported := Exported.tallied σ root
  refine ⟨fun s owing => ?_, fun s t rooted tally inner owing => ?_⟩
  · unfold Owing at owing
    exact owing.root_eq
  · have ledger : t.session.ledger.addFor stage.purpose? n = s.session.ledger.addFor stage.purpose? n := by
      rw [tally.2]
    exact exported.depends { s with session.ledger := s.session.ledger.addFor stage.purpose? n } _ rooted
      ⟨tally.1, ledger⟩ inner owing

theorem Owing.addSize {stage : Stage} {purpose : Purpose} {n : Nat}
    (counted : stage.purpose? = some purpose) :
    Leads (Owing root stage n) (modifySession (·.addSize purpose n) : LinkM (σ × List Call) Unit)
      fun _ => Exported root := by
  refine Ensures.modify fun s owing => ?_
  unfold Owing at owing
  rw [counted] at owing
  exact owing

theorem Exported.patchBase (stage : Stage)
    (source : stage.source root = (Workspace.mk root []).fixedSource name) (other : stage ≠ .scan)
    (still : stage.registers = false) :
    Leads (Exported root) (Build.patchBase asm.traced name)
      fun inserted => Owing root stage inserted.size := by
  unfold Build.patchBase
  refine Ensures.read fun s exported => ?_
  have place : s.workspace.fixedSource name = stage.source root :=
    (fixedSource_congr exported.root_eq name).trans source.symm
  refine Ensures.pre ?_ fun t same => same ▸ exported
  exact Ensures.bind (Exported.patch stage place) fun _ => Printed.takePrints other still

theorem Exported.scan : Leads (Exported root) (Build.scan asm.traced) fun _ => Exported root := by
  have tallied := Exported.tallied σ root
  have routines : "routines.asm" ∈ generatedNames := by decide
  unfold Build.scan
  refine Ensures.through (fun _ => Exported root) ?_ fun count => (tallied.note _ _).leads
  refine ensures_scanRoutines (fun _ _ => trivial) fun s rom names exported _ => ?_
  have place : s.workspace.fixedSource "routine_scan.asm" = Stage.scan.source root :=
    fixedSource_congr exported.root_eq _
  rw [place]
  refine Ensures.pre (tallied.leads_generate_bind routines _ ?_) fun t same => same ▸ exported
  refine Ensures.through (fun _ => Exported root) ?_ fun image => ?_
  · refine ensures_assemble_adds.mono (fun _ t reached => ?_) fun _ _ => trivial
    obtain ⟨u, call, exported, adds, answered⟩ := reached
    -- the prints of the scan are not taken in: it goes into a copy of the image
    refine ⟨?_, ?_, ?_, ?_⟩
    · rw [adds.workspace]
      exact exported.root_eq
    · have nothing : call.exported root = [] := if_pos adds.source
      rw [adds.record, List.flatMap_append, List.flatMap_singleton, nothing, List.append_nil, adds.tally.1]
      exact exported.cleans
    · have nothing (l : Ledger) : l.enter root call = l := if_pos adds.source
      rw [adds.record, Ledger.ofCalls_concat, nothing, adds.tally.2]
      exact exported.ledger
    · rw [adds.record, List.forall_mem_append, List.forall_mem_singleton]
      exact ⟨exported.heard, answered, fun other => absurd adds.source other⟩
  · refine Ensures.bind (tallied.onSession fun s t declared => ?_).leads fun _ =>
      Ensures.pure fun _ exported => exported
    obtain ⟨routines, -, rfl⟩ := declare_eq_ok declared
    exact ⟨rfl, rfl⟩

theorem Exported.insertFile (i : Nat) (f : LibraryFile) :
    Leads (Exported root) (Library.insertFile asm.traced i f) fun _ => Exported root := by
  have tallied := Exported.tallied σ root
  unfold Library.insertFile
  refine Ensures.bind (tallied.note _ _).leads fun _ => ?_
  refine tallied.leads_generate_bind (by decide) _ ?_
  refine Ensures.bind (Exported.patch (.library f) rfl) fun _ => ?_
  refine Ensures.bind (Printed.takePrints nofun rfl) fun inserted => ?_
  refine Ensures.bind ((Owing.tallied σ root (.library f) inserted.size).filing.library _).leads fun _ => ?_
  refine Ensures.bind (Owing.addSize rfl) fun _ => ?_
  exact (Keeps.bind Keeps.get fun s => Keeps.forM fun l _ => tallied.filing.takeLabel i f.file l).leads

theorem Exported.insert (r : Resource) (extraBytes : String) :
    Leads (Exported root) (r.insert asm.traced extraBytes) fun _ => Exported root := by
  have tallied := Exported.tallied σ root
  unfold Resource.insert
  refine Ensures.bind (tallied.note _ _).leads fun _ => ?_
  refine tallied.leads_generate_bind (by decide) _ ?_
  refine tallied.leads_generate_bind (by decide) _ ?_
  refine Ensures.bind (Exported.patch (.resource r) rfl) fun _ => ?_
  refine Ensures.bind (Printed.takePrints nofun rfl) fun inserted => ?_
  refine Ensures.bind (Owing.addSize rfl) fun _ => ?_
  refine Ensures.bind (tallied.note _ _).leads fun _ => ?_
  exact Ensures.bind (tallied.note _ _).leads fun _ => (tallied.filing.takeLabels tallied.resources r).leads

/-- Where nothing is said of an action that stops, the same may be filed away. -/
theorem Filing.leads {kept : Linker σ → Prop} (filing : Filing fun _ (action : LinkM σ _) => Keeps kept action) :
    Filing fun _ (action : LinkM σ _) => Leads kept action fun _ => kept where
  pure _ := Ensures.pure fun _ holds => holds
  bind := Ensures.bind
  get := Keeps.get.leads
  note level text := (filing.note level text).leads
  throw _ _ := Ensures.throw fun _ _ => trivial
  routine file l name named := (filing.routine file l name named).leads
  library library := (filing.library library).leads
  generates name contents generated := (filing.generates name contents generated).leads

theorem Exported.buildLibrary :
    Leads (Exported root) (Build.buildLibrary asm.traced) fun _ => Exported root :=
  (Exported.tallied σ root).filing.leads.buildLibrary Exported.insertFile

theorem Exported.buildResources (settings : Settings) :
    Leads (Exported root) (Build.buildResources asm.traced settings) fun _ => Exported root := by
  have tallied := Exported.tallied σ root
  exact tallied.filing.leads.buildResources (fun table => (tallied.resources table).leads) Exported.insert settings

end LinkM
end RomLinker
