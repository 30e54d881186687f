import RomLinker.Proofs.Link.Quiet
import RomLinker.Proofs.Workspace

/-!
What the other actions do: operations on the session and the disk, generated sources (`Generates`), and calls of the
assembler (`Calls`). Of an action that goes through it is said when it does, and what it leaves
(`generate_eq_ok`, `assemble_eq_ok`).
-/
namespace RomLinker

open Workspace

/-- The labels and printed lines of an answer take the place of those before, if it has any. -/
def Session.answered (s : Session) : Except AssemblerFault Assembly → Session
  | .ok assembly => { s with labels := assembly.labels, prints := assembly.prints }
  | .error _ => s

/-- A text can be written to a file in a directory, which is made if need be. -/
def Disk.Takes (d : Disk) (dir file : Path) (contents : String) (e : Disk) : Prop :=
  ∃ made, d.makeDirectories dir = (.ok (), made) ∧ made.store file contents.toUTF8 = (.ok (), e)

namespace LinkM

variable {σ : Type} {asm : Assembler σ} {kept : Linker σ → Prop} {root p : Path} {name : String}

theorem ensures_onSession {operation : Session → Except LinkError Session}
    {after : Unit → Linker σ → Prop} {stopped : Linker σ → Prop} (halts : ∀ s, kept s → stopped s)
    (step : ∀ s session, kept s → operation s.session = .ok session → after () { s with session }) :
    Ensures kept (onSession operation) after stopped := by
  refine Ensures.read fun s holds => ?_
  cases result : operation s.session with
  | error e => exact Ensures.throw fun t same => same ▸ halts s holds
  | ok session => exact Ensures.modify fun t same => same ▸ step s session holds result

theorem ensures_onDisk {operation : Disk → Except DiskFault Disk} :
    Ensures kept (onDisk p operation)
      (fun _ t => ∃ s, kept s ∧ operation s.disk = .ok t.disk ∧ t = { s with disk := t.disk }) kept := by
  refine Ensures.read fun s holds => ?_
  cases result : operation s.disk with
  | error fault => exact Ensures.throw fun t same => same ▸ holds
  | ok disk =>
    refine Ensures.modify fun t same => ?_
    subst same
    exact ⟨t, holds, result, rfl⟩

/-- An operation that stops halfway leaves what it did by then. -/
theorem ensures_attempt {operation : Disk → Except DiskFault Unit × Disk} :
    Ensures kept (attempt p operation)
      (fun _ t => ∃ s, kept s ∧ operation s.disk = (.ok (), t.disk) ∧ t = { s with disk := t.disk })
      fun t => ∃ s fault, kept s ∧ operation s.disk = (.error fault, t.disk) ∧
        t = { s with disk := t.disk } := by
  refine Ensures.read fun s holds => ?_
  dsimp only
  refine Ensures.through (fun _ t => t = { s with disk := (operation s.disk).2 })
    (Ensures.modify fun t same => by rw [same]) fun _ => ?_
  split
  · rename_i done
    refine Ensures.pure fun t same => ?_
    subst same
    exact ⟨s, holds, Prod.ext done rfl, rfl⟩
  · rename_i fault failed
    refine Ensures.throw fun t same => ?_
    subst same
    exact ⟨s, fault, holds, Prod.ext failed rfl, rfl⟩

/-- Directories on the way to a path are made, and nothing else changes. -/
structure MakesWay (p : Path) (s t : Linker σ) : Prop where
  makes : Disk.Makes (Disk.OnWay (s.disk.origin p) p.named) s.disk t.disk
  rest : t = { s with disk := t.disk }

theorem ensures_makeDirectories :
    Ensures kept (attempt p (·.makeDirectories p) : LinkM σ Unit)
      (fun _ t => ∃ s, kept s ∧ MakesWay p s t) fun t => ∃ s, kept s ∧ MakesWay p s t := by
  refine ensures_attempt.mono ?_ ?_
  · rintro _ t ⟨s, holds, made, rest⟩
    have makes := Disk.makeDirectories_makes s.disk p
    rw [made] at makes
    exact ⟨s, holds, makes, rest⟩
  · rintro t ⟨s, fault, holds, made, rest⟩
    have makes := Disk.makeDirectories_makes s.disk p
    rw [made] at makes
    exact ⟨s, holds, makes, rest⟩

/-- A generated source is written, its directory made if need be, and the file put on record. -/
structure Generates (root : Path) (name contents : String) (s t : Linker σ) : Prop where
  writes : ∃ e l, Disk.Makes (Disk.OnWay (s.disk.origin (workDirectory root)) (workDirectory root).named)
    s.disk e ∧ Disk.Writes (sourceIn root name) l contents.toUTF8 e t.disk
  rest : t = { s with disk := t.disk, workspace := s.workspace.remember (sourceIn root name) }

/-- The write of a generated source is broken off. What is in the file by then stays, off the record. -/
structure Breaks (root : Path) (name contents : String) (s t : Linker σ) : Prop where
  breaks : ∃ e l count fault,
    Disk.Makes (Disk.OnWay (s.disk.origin (workDirectory root)) (workDirectory root).named) s.disk e ∧
    Disk.BreaksOff (sourceIn root name) l contents.toUTF8 count fault e t.disk
  rest : t = { s with disk := t.disk }

/-- A generated source is not written, or not to its end. -/
def Halts (root : Path) (name contents : String) (s t : Linker σ) : Prop :=
  MakesWay (workDirectory root) s t ∨ Breaks root name contents s t

theorem Halts.rest {contents : String} {s t : Linker σ} (halts : Halts root name contents s t) :
    t = { s with disk := t.disk } := by
  obtain makes | breaks := halts
  · exact makes.rest
  · exact breaks.rest

theorem ensures_generate {contents : String} (named : Path.Named name)
    (rooted : ∀ s, kept s → s.workspace.root = root) :
    Ensures kept (generate name contents : LinkM σ Path)
      (fun path t => path = sourceIn root name ∧ ∃ s, kept s ∧ Generates root name contents s t)
      fun t => ∃ s, kept s ∧ Halts root name contents s t := by
  refine Ensures.read fun s holds => ?_
  have path : s.workspace.generatedSource name = sourceIn root name := by
    rw [← rooted s holds]
    rfl
  have parent : (sourceIn root name).parent? = some (workDirectory root) :=
    parent?_generatedSource named
  dsimp only
  rw [path, parent]
  have start : ∀ t, t = s → kept t := fun t same => same ▸ holds
  refine Ensures.pre (Ensures.bind (ensures_makeDirectories.mono (fun _ _ made => made) ?_) fun _ => ?_) start
  · exact fun t ⟨s, holds, makes⟩ => ⟨s, holds, Or.inl makes⟩
  refine Ensures.bind (ensures_attempt.mono (fun _ _ written => written) ?_) fun _ => ?_
  · rintro t ⟨made, fault, ⟨s, holds, makes, rest⟩, failed, same⟩
    have whole : t = { s with disk := t.disk } := by rw [same, rest]
    obtain unchanged | ⟨l, count, breaks⟩ := Disk.store_eq_error failed
    · exact ⟨s, holds, Or.inl ⟨unchanged ▸ makes, whole⟩⟩
    · exact ⟨s, holds, Or.inr ⟨⟨made.disk, l, count, fault, makes, breaks⟩, whole⟩⟩
  refine Ensures.through (fun _ t => ∃ s, kept s ∧ Generates root name contents s t) (Ensures.modify ?_)
    fun _ => Ensures.pure fun _ generated => ⟨rfl, generated⟩
  rintro t ⟨made, ⟨s, holds, makes, rest⟩, result, same⟩
  obtain ⟨l, writes⟩ := Disk.store_eq_ok result
  refine ⟨s, holds, ⟨made.disk, l, makes, writes⟩, ?_⟩
  rw [same, rest]

theorem leads_generate {contents : String} (named : Path.Named name)
    (rooted : ∀ s, kept s → s.workspace.root = root) :
    Leads kept (generate name contents : LinkM σ Path) fun path t =>
      path = sourceIn root name ∧ ∃ s, kept s ∧ Generates root name contents s t :=
  (ensures_generate named rooted).mono (fun _ _ after => after) fun _ _ => trivial

namespace Generates
variable {contents : String} {s t : Linker σ}

theorem read (generates : Generates root name contents s t) :
    t.disk.read (sourceIn root name) = .ok contents.toUTF8 := by
  obtain ⟨e, l, -, writes⟩ := generates.writes
  exact writes.read

theorem read_other {other : String} {content : ByteArray} (generates : Generates root name contents s t)
    (named : Path.Named name) (named' : Path.Named other) (apart : other ≠ name)
    (h : s.disk.read (sourceIn root other) = .ok content) :
    t.disk.read (sourceIn root other) = .ok content := by
  obtain ⟨e, l, makes, writes⟩ := generates.writes
  have there : e.read (sourceIn root other) = .ok content := by
    refine makes.keeps.read makes.cwd ?_ h
    rcases makes.entry (s.disk.place (sourceIn root other)) with same | ⟨-, free, -⟩
    · exact same
    · obtain ⟨m, located, entry⟩ := Disk.read_eq_ok.mp h
      rw [Disk.locate_eq_place located] at entry
      cases free.symm.trans (Disk.entryAt_eq_ok.mp entry).2
  refine writes.keeps.read writes.cwd ?_ there
  rw [writes.lookup, if_neg]
  rw [writes.place, place_sourceIn named, place_sourceIn named']
  exact fun same => apart (Location.child_inj same).2

theorem root_eq (generates : Generates root name contents s t) : t.workspace.root = s.workspace.root := by
  rw [generates.rest]
  change (s.workspace.remember _).root = _
  unfold Workspace.remember
  split <;> rfl

end Generates

theorem keeps_generate {contents : String} (named : Path.Named name)
    (rooted : ∀ s, kept s → s.workspace.root = root)
    (depends : ∀ s t, t.workspace.root = s.workspace.root → t.session = s.session →
      t.resources = s.resources → t.assembler = s.assembler → kept s → kept t) :
    Keeps kept (generate name contents : LinkM σ Path) := by
  refine (ensures_generate named rooted).mono ?_ ?_
  · rintro path t ⟨-, s, holds, generates⟩
    refine depends s t generates.root_eq ?_ ?_ ?_ holds
    · rw [generates.rest]
    · rw [generates.rest]
    · rw [generates.rest]
  · rintro t ⟨s, holds, halts⟩
    refine depends s t ?_ ?_ ?_ ?_ holds
    · rw [halts.rest]
    · rw [halts.rest]
    · rw [halts.rest]
    · rw [halts.rest]

structure Saves (s t : Linker σ) : Prop where
  writes : ∃ rom l, s.session.rom? = some rom ∧
    Disk.Writes ((s.disk.canonical? rom.path).getD rom.path) l rom.data s.disk t.disk
  rest : t = { s with disk := t.disk }

theorem ensures_saves : Ensures kept (save : LinkM σ Unit) (fun _ t => ∃ s, kept s ∧ Saves s t) kept := by
  refine Ensures.read fun s holds => ?_
  have start (t : Linker σ) (same : t = s) : kept t := same ▸ holds
  cases loaded : s.session.rom? with
  | none => exact Ensures.throw start
  | some rom =>
    dsimp only
    split
    · exact Ensures.throw start
    split
    · exact Ensures.throw start
    · refine Ensures.mono ensures_onDisk ?_ start
      rintro - t ⟨s, rfl, replaced, rest⟩
      obtain ⟨l, writes⟩ := Disk.replace_eq_ok replaced
      exact ⟨s, holds, ⟨rom, l, loaded, writes⟩, rest⟩

structure Calls (asm : Assembler σ) (request : Request) (answer : Except AssemblerFault Assembly)
    (s t : Linker σ) : Prop where
  run : asm.assemble request s.disk s.assembler = (answer, t.disk, t.assembler)
  rest : t = { s with
    disk := t.disk, assembler := t.assembler, session := s.session.answered answer }

theorem ensures_assemble {image : ByteArray} {source : Path} {own : Defines} :
    Ensures kept (assemble asm image source own)
      (fun after t => ∃ s defines assembly, kept s ∧ s.session.definesFor own = .ok defines ∧
        after = assembly.image ∧ Calls asm ⟨image, source, defines⟩ (.ok assembly) s t)
      fun t => kept t ∨ ∃ s defines fault, kept s ∧ s.session.definesFor own = .ok defines ∧
        Calls asm ⟨image, source, defines⟩ (.error fault) s t := by
  refine Ensures.read fun s holds => ?_
  cases defined : s.session.definesFor own with
  | error e => exact Ensures.throw fun t same => Or.inl (same ▸ holds)
  | ok defines =>
    dsimp only
    refine Ensures.through (fun _ t => t = { s with
      disk := (asm.assemble ⟨image, source, defines⟩ s.disk s.assembler).2.1
      assembler := (asm.assemble ⟨image, source, defines⟩ s.disk s.assembler).2.2 }) ?_ fun _ => ?_
    · exact Ensures.modify fun t same => by rw [same]
    · split
      · rename_i fault failed
        refine Ensures.throw fun t same => Or.inr ⟨s, defines, fault, holds, defined, ?_⟩
        subst same
        exact ⟨Prod.ext failed rfl, rfl⟩
      · rename_i assembly answered
        refine Ensures.through (fun _ t => Calls asm ⟨image, source, defines⟩ (.ok assembly) s t) ?_
          fun _ => Ensures.pure fun t calls => ⟨s, defines, assembly, holds, defined, rfl, calls⟩
        refine Ensures.modify fun t same => ?_
        subst same
        exact ⟨Prod.ext answered rfl, rfl⟩

section Through
variable {s t : Linker σ}

theorem attempt_eq_ok {operation : Disk → Except DiskFault Unit × Disk} :
    attempt p operation s = .ok () t ↔
      ∃ disk, operation s.disk = (.ok (), disk) ∧ t = { s with disk } := by
  unfold attempt
  rw [get_bind]
  rcases operation s.disk with ⟨e | ⟨⟩, disk⟩
  · show EStateM.Result.error _ { s with disk } = .ok () t ↔ _
    simp
  · show EStateM.Result.ok () { s with disk } = .ok () t ↔ _
    simp [eq_comm]

theorem onSession_of_ok {operation : Session → Except LinkError Session} {session : Session}
    (changed : operation s.session = .ok session) :
    (onSession operation : LinkM σ Unit) s = .ok () { s with session } := by
  unfold onSession
  rw [get_bind, changed]
  rfl

theorem onSession_of_error {operation : Session → Except LinkError Session} {e : LinkError}
    (refused : operation s.session = .error e) : (onSession operation : LinkM σ Unit) s = .error e s := by
  unfold onSession
  rw [get_bind, refused]
  rfl

theorem onSession_eq_ok {operation : Session → Except LinkError Session}
    (h : (onSession operation : LinkM σ Unit) s = .ok () t) :
    ∃ session, operation s.session = .ok session ∧ t = { s with session } := by
  unfold onSession at h
  rw [get_bind] at h
  cases result : operation s.session with
  | ok session =>
    rw [result] at h
    cases h
    exact ⟨session, rfl, rfl⟩
  | error e =>
    rw [result] at h
    cases h

theorem generate_eq_ok {contents : String} {path : Path} (named : Path.Named name) :
    generate name contents s = .ok path t ↔ path = s.workspace.generatedSource name ∧
      ∃ held, s.disk.Takes (workDirectory s.workspace.root) (s.workspace.generatedSource name) contents held ∧
        t = { s with disk := held, workspace := s.workspace.remember (s.workspace.generatedSource name) } := by
  have parent : (s.workspace.generatedSource name).parent? = some (workDirectory s.workspace.root) :=
    parent?_generatedSource named
  unfold generate
  rw [get_bind]
  dsimp only
  rw [parent]
  dsimp only
  rw [bind_eq_ok]
  constructor
  · rintro ⟨_, u, made, h⟩
    obtain ⟨disk, makes, rfl⟩ := attempt_eq_ok.mp made
    obtain ⟨_, v, wrote, h⟩ := bind_eq_ok.mp h
    obtain ⟨held, writes, rfl⟩ := attempt_eq_ok.mp wrote
    cases h
    exact ⟨rfl, held, ⟨disk, makes, writes⟩, rfl⟩
  · rintro ⟨rfl, held, ⟨made, makes, writes⟩, rfl⟩
    refine ⟨(), _, attempt_eq_ok.mpr ⟨made, makes, rfl⟩, ?_⟩
    exact bind_of_ok (attempt_eq_ok.mpr ⟨held, writes, rfl⟩)

theorem assemble_eq_ok {image after : ByteArray} {source : Path} {own : Defines} :
    assemble asm image source own s = .ok after t ↔ ∃ defines assembly,
      s.session.definesFor own = .ok defines ∧ after = assembly.image ∧
        Calls asm ⟨image, source, defines⟩ (.ok assembly) s t := by
  constructor
  · intro h
    have assembles : Ensures (· = s) (assemble asm image source own) _ _ := ensures_assemble
    have reached := assembles.run s rfl
    rw [h] at reached
    obtain ⟨_, defines, assembly, rfl, defined, same, calls⟩ := reached
    exact ⟨defines, assembly, defined, same, calls⟩
  · rintro ⟨defines, assembly, defined, rfl, run, rest⟩
    unfold assemble
    rw [get_bind, defined, rest]
    simp only [run]
    rfl

end Through

end LinkM
end RomLinker
