import RomLinker.Proofs.Link.Steps

/-!
What a build keeps of the disk that it found (`Kept`): every generated file that was written as a whole
is on record, and apart from those, from directories that were missing and from generated files that the
system broke off in nothing has changed in some region of the disk.
-/
namespace RomLinker

open Workspace

variable {σ α β : Type} {d e : Disk} {root rom p : Path} {region : Location → Prop} {l : Location}
  {name : String}

def Assembler.ReadsOnly (asm : Assembler σ) : Prop :=
  ∀ request disk inner, (asm.assemble request disk inner).2.1 = disk

namespace LinkM

/-- The part of a state that says what is on the disk, and what is to be written and removed there. -/
structure Core where
  disk : Disk
  workspace : Workspace
  romPath? : Option Path

def core (s : Linker σ) : Core := ⟨s.disk, s.workspace, s.session.romPath?⟩

def CutShort (d : Disk) (l : Location) (found : Option Entry) : Prop :=
  ∃ entries content count fault, d.obstacles.brokenOff entries l content = some (count, fault) ∧
    found = some (.file (content.extract 0 count))

/-- A build that started on the disk `d` keeps the entries of a region, but for the generated files on
its record, for missing directories, and for generated files that the system broke off in. -/
structure Kept (d : Disk) (root rom : Path) (region : Location → Prop) (c : Core) : Prop where
  root_eq : c.workspace.root = root
  rom_eq : ∀ p, c.romPath? = some p → p = rom
  cwd : c.disk.workingDirectory = d.workingDirectory
  obstacles : c.disk.obstacles = d.obstacles
  directories : d.KeepsDirectories c.disk
  written : ∀ p ∈ c.workspace.written, ∃ name ∈ generatedNames, p = sourceIn root name ∧
    c.disk.FileAt p ((workPlace d root).child name)
  rest : ∀ l, region l →
    (∀ name ∈ generatedNames, sourceIn root name ∈ c.workspace.written →
      l ≠ (workPlace d root).child name) →
    c.disk.lookup l = d.lookup l ∨
    (d.lookup l = none ∧ c.disk.lookup l = some .directory ∧
      (Grounded d root → ¬l.Inside (workPlace d root))) ∨
    ∃ name ∈ generatedNames, l = (workPlace d root).child name ∧ CutShort d l (c.disk.lookup l)
  made : ToolDirectory d root → ∀ l, d.lookup l = none → c.disk.lookup l = some .directory →
    l = (toolPlace d root).child "asm" ∨ l = workPlace d root

namespace Kept
variable {c : Core}

theorem start (d : Disk) (root rom : Path) (region : Location → Prop) :
    Kept d root rom region ⟨d, ⟨root, []⟩, none⟩ where
  root_eq := rfl
  rom_eq := nofun
  cwd := rfl
  obstacles := rfl
  directories _ directory := directory
  written := nofun
  rest _ _ _ := Or.inl rfl
  made _ l free there := by cases free.symm.trans there

theorem makes (kept : Kept d root rom region c)
    (made : Disk.Makes (Disk.OnWay (c.disk.origin (workDirectory root)) (workDirectory root).named)
      c.disk e) : Kept d root rom region { c with disk := e } where
  root_eq := kept.root_eq
  rom_eq := kept.rom_eq
  cwd := made.cwd.trans kept.cwd
  obstacles := made.obstacles.trans kept.obstacles
  directories l directory := made.keeps l (kept.directories l directory)
  written p member := by
    obtain ⟨name, generated, same, file⟩ := kept.written p member
    refine ⟨name, generated, same, file.persists made.keeps made.cwd ?_⟩
    rcases made.entry ((workPlace d root).child name) with same | ⟨-, free, -⟩
    · exact same
    · obtain ⟨-, content, entry⟩ := file
      cases free.symm.trans (Disk.entryAt_eq_ok.mp entry).2
  rest l here other := by
    change e.lookup l = _ ∨ (_ ∧ e.lookup l = _ ∧ _) ∨ ∃ name ∈ generatedNames, _ ∧ CutShort d l (e.lookup l)
    rcases made.entry l with same | ⟨onWay, free, now⟩
    · rw [same]
      exact kept.rest l here other
    · -- a free place is neither a directory that was made nor a file that was cut short
      rcases kept.rest l here other with old | ⟨-, there, -⟩ | ⟨name, -, -, _, _, _, _, -, file⟩
      · refine Or.inr (Or.inl ⟨old.symm.trans free, now, fun grounded => ?_⟩)
        have outside := (grounded.keeps kept.directories kept.cwd).not_inside onWay free
        rw [workPlace, Disk.place_congr kept.cwd] at outside
        exact outside
      · cases free.symm.trans there
      · cases free.symm.trans file
  made tool l free there := by
    rcases made.entry l with same | ⟨onWay, free', -⟩
    · exact kept.made tool l free (same.symm.trans there)
    · have ends := (tool.keeps kept.directories kept.cwd).made onWay free'
      rw [toolPlace_congr kept.cwd, workPlace, Disk.place_congr kept.cwd] at ends
      exact ends

theorem written_remember (kept : Kept d root rom region c) (generated : name ∈ generatedNames) :
    p ∈ (c.workspace.remember (sourceIn root name)).written ↔
      p ∈ c.workspace.written ∨ p = sourceIn root name := by
  unfold Workspace.remember
  split
  · rename_i known
    obtain ⟨q, member, same⟩ := List.any_eq_true.mp known
    obtain ⟨other, generated', rfl, -⟩ := kept.written q member
    have route : (sourceIn root other).SameRoute (sourceIn root name) := of_decide_eq_true same
    have equal : other = name :=
      generatedSource_inj (named_of_generated generated') (named_of_generated generated) route
    subst equal
    refine ⟨Or.inl, fun h => ?_⟩
    rcases h with old | rfl
    · exact old
    · exact member
  · simp only [List.mem_append, List.mem_singleton]

theorem place_of_writes {content : ByteArray} (kept : Kept d root rom region c) (generated : name ∈ generatedNames)
    (written : Disk.Writes (sourceIn root name) l content c.disk e) : l = (workPlace d root).child name := by
  rw [written.place, place_sourceIn (named_of_generated generated), workPlace, Disk.place_congr kept.cwd]
  rfl

theorem fileAt_writes {content : ByteArray} (kept : Kept d root rom region c) (generated : name ∈ generatedNames)
    (written : Disk.Writes (sourceIn root name) l content c.disk e) (member : p ∈ c.workspace.written) :
    ∃ name ∈ generatedNames, p = sourceIn root name ∧ e.FileAt p ((workPlace d root).child name) := by
  have place := kept.place_of_writes generated written
  obtain ⟨name', generated', path, file⟩ := kept.written p member
  refine ⟨name', generated', path, ?_⟩
  by_cases again : name' = name
  · subst again
    rw [path]
    exact place ▸ written.fileAt
  · refine file.persists written.keeps written.cwd ?_
    have apart : (workPlace d root).child name' ≠ l := by
      rw [place]
      exact fun h => again (Location.child_inj h).2
    rw [written.lookup, if_neg apart]

theorem rest_writes {content : ByteArray} (kept : Kept d root rom region c)
    (written : Disk.Writes p l content c.disk e) {m : Location} (apart : m ≠ l) (here : region m)
    (other : ∀ name ∈ generatedNames, sourceIn root name ∈ c.workspace.written →
      m ≠ (workPlace d root).child name) :
    e.lookup m = d.lookup m ∨
    (d.lookup m = none ∧ e.lookup m = some .directory ∧ (Grounded d root → ¬m.Inside (workPlace d root))) ∨
    ∃ name ∈ generatedNames, m = (workPlace d root).child name ∧ CutShort d m (e.lookup m) := by
  have same : e.lookup m = c.disk.lookup m := by rw [written.lookup, if_neg apart]
  rw [same]
  exact kept.rest m here other

theorem writes {content : ByteArray} (kept : Kept d root rom region c)
    (generated : name ∈ generatedNames)
    (written : Disk.Writes (sourceIn root name) l content c.disk e) :
    Kept d root rom region
      { c with disk := e, workspace := c.workspace.remember (sourceIn root name) } where
  root_eq := by
    change (c.workspace.remember _).root = root
    rw [← kept.root_eq]
    unfold Workspace.remember
    split <;> rfl
  rom_eq := kept.rom_eq
  cwd := written.cwd.trans kept.cwd
  obstacles := written.obstacles.trans kept.obstacles
  directories m directory := written.keeps m (kept.directories m directory)
  written p member := by
    obtain old | rfl := (kept.written_remember generated).mp member
    · exact kept.fileAt_writes generated written old
    · exact ⟨name, generated, rfl, kept.place_of_writes generated written ▸ written.fileAt⟩
  rest m here other := by
    have apart : m ≠ l := by
      rw [kept.place_of_writes generated written]
      exact other name generated ((kept.written_remember generated).mpr (Or.inr rfl))
    refine kept.rest_writes written apart here fun name' generated' member => ?_
    exact other name' generated' ((kept.written_remember generated).mpr (Or.inl member))
  made tool m free there := kept.made tool m free (written.directory there)

/-- A write of a generated source that is broken off leaves the file cut short, if it is not on record
from before. -/
theorem breaks {content : ByteArray} {count : Nat} {fault : DiskFault} (kept : Kept d root rom region c)
    (generated : name ∈ generatedNames)
    (broken : Disk.BreaksOff (sourceIn root name) l content count fault c.disk e) :
    Kept d root rom region { c with disk := e } where
  root_eq := kept.root_eq
  rom_eq := kept.rom_eq
  cwd := broken.writes.cwd.trans kept.cwd
  obstacles := broken.writes.obstacles.trans kept.obstacles
  directories m directory := broken.writes.keeps m (kept.directories m directory)
  written p member := kept.fileAt_writes generated broken.writes member
  rest m here other := by
    by_cases apart : m = l
    · refine Or.inr (Or.inr ⟨name, generated, ?_, c.disk.entries, content, count, fault, ?_, ?_⟩)
      · rw [apart, kept.place_of_writes generated broken.writes]
      · rw [apart, ← kept.obstacles]
        exact broken.broken
      · change e.lookup m = _
        rw [broken.writes.lookup, if_pos apart]
    · exact kept.rest_writes broken.writes apart here other
  made tool m free there := kept.made tool m free (broken.writes.directory there)

theorem saves {content : ByteArray} {region' : Location → Prop} (kept : Kept d root rom region c)
    (written : Disk.Writes p l content c.disk e) (outside : ¬l.Inside (workPlace d root))
    (smaller : ∀ m, region' m → region m ∧ m ≠ l) :
    Kept d root rom region' { c with disk := e } where
  root_eq := kept.root_eq
  rom_eq := kept.rom_eq
  cwd := written.cwd.trans kept.cwd
  obstacles := written.obstacles.trans kept.obstacles
  directories m directory := written.keeps m (kept.directories m directory)
  written q member := by
    obtain ⟨name, generated, same, file⟩ := kept.written q member
    refine ⟨name, generated, same, file.persists written.keeps written.cwd ?_⟩
    have apart : (workPlace d root).child name ≠ l := by
      rintro rfl
      exact outside (Location.inside_child.mpr (Or.inl rfl))
    rw [written.lookup, if_neg apart]
  rest m here other := by
    obtain ⟨there, apart⟩ := smaller m here
    exact kept.rest_writes written apart there other
  made tool m free there := kept.made tool m free (written.directory there)

end Kept

variable {asm : Assembler σ}

abbrev KeptBy (d : Disk) (root rom : Path) (region : Location → Prop) (s : Linker σ) : Prop :=
  Kept d root rom region (core s)

theorem keptBy_steady (reads : asm.ReadsOnly) :
    SteadyThroughout asm root rom (KeptBy d root rom region) := by
  have called {s t : Linker σ} {request : Request} {answer : Except AssemblerFault Assembly}
      (calls : Calls asm request answer s t) (kept : KeptBy d root rom region s) :
      KeptBy d root rom region t := by
    have same : t.disk = s.disk := by
      rw [← reads request s.disk s.assembler, calls.run]
    rw [KeptBy, calls.rest, same]
    cases answer <;> exact kept
  refine ⟨⟨fun s t same kept => ?_, fun s kept => kept.root_eq, fun s r same kept => ?_,
    fun s library kept => kept, fun s t ⟨makes, rest⟩ kept => ?_,
    fun s t name contents generated ⟨⟨e, l, makes, writes⟩, rest⟩ kept => ?_,
    fun s t name contents generated ⟨⟨e, l, count, fault, makes, broken⟩, rest⟩ kept => ?_,
    fun s t request answer _ calls kept => called calls kept⟩,
    fun s t request answer calls kept => called calls kept, fun s resources kept => kept⟩
  · have inside := congrArg (fun c => Core.mk c.disk c.workspace c.romPath?) same
    rw [KeptBy, show core t = core s from inside]
    exact kept
  · refine ⟨kept.root_eq, fun p loaded => ?_, kept.cwd, kept.obstacles, kept.directories, kept.written,
      kept.rest, kept.made⟩
    cases loaded
    exact same
  · rw [KeptBy, rest]
    exact kept.makes makes
  · rw [KeptBy, rest]
    exact (kept.makes makes).writes generated writes
  · rw [KeptBy, rest]
    exact (kept.makes makes).breaks generated broken

end LinkM
end RomLinker
