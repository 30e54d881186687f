import RomLinker.Proofs.Disk.Trees
import RomLinker.Proofs.Link.Kept
import RomLinker.Proofs.Link.Trace

/-!
The library as a build finds it. What the linker writes below the tool directory is not below the
library, so that all disks of a build list the same library files (`Lists`).
-/
namespace RomLinker

open Workspace

variable {σ : Type} {d e : Disk} {root rom : Path} {name : String} {l : Location}
  {files : List LibraryFile} {n : Nat}

/-- The assembler leaves the tool directory where it is, and changes nothing that is listed of the
library. -/
structure Assembler.KeepsLibrary (asm : Assembler σ) (root : Path) : Prop where
  tool : ∀ request d inner, ToolDirectory d root →
    ToolDirectory (asm.assemble request d inner).2.1 root
  files : ∀ request d inner,
    (Workspace.mk root []).filesUnder (asm.assemble request d inner).2.1 ⟨"library"⟩ true =
      (Workspace.mk root []).filesUnder d ⟨"library"⟩ true

theorem Assembler.ReadsOnly.keepsLibrary {asm : Assembler σ} (reads : asm.ReadsOnly) (root : Path) :
    asm.KeepsLibrary root := by
  refine ⟨fun request d inner tool => ?_, fun request d inner => ?_⟩
  · rw [reads]
    exact tool
  · rw [reads]

theorem Assembler.ReadsOnly.traced {asm : Assembler σ} (reads : asm.ReadsOnly) : asm.traced.ReadsOnly :=
  fun request d inner => reads request d inner.1

namespace Library

theorem listed_congr (same : (Workspace.mk root []).filesUnder e ⟨"library"⟩ true =
    (Workspace.mk root []).filesUnder d ⟨"library"⟩ true) : listed root e = listed root d := by
  unfold listed discover
  rw [same]

/-- What changes in another entry of the tool directory does not show in the library. -/
theorem listed_of_beside (tool : ToolDirectory d root) (keeps : d.KeepsDirectories e)
    (cwd : e.workingDirectory = d.workingDirectory) (obstacles : e.obstacles = d.obstacles)
    (same : ∀ m, ¬m.Within ((toolPlace d root).child "asm") → e.lookup m = d.lookup m) :
    listed root e = listed root d := by
  have named : Path.Named "library" := ⟨by decide, by decide⟩
  apply listed_congr
  apply filesUnder_congr (w := ⟨root, []⟩) tool (tool.keeps keeps cwd) cwd obstacles named
  intro m within
  exact same m fun beside => absurd (within.unique beside) (by decide)

theorem listed_makes (tool : ToolDirectory d root)
    (made : Disk.Makes (Disk.OnWay (d.origin (workDirectory root)) (workDirectory root).named) d e) :
    listed root e = listed root d := by
  refine listed_of_beside tool made.keeps made.cwd made.obstacles fun m away => ?_
  rcases made.entry m with same | ⟨onWay, free, -⟩
  · exact same
  · rcases tool.made onWay free with rfl | rfl
    · exact absurd Location.within_self away
    · rw [workPlace_eq] at away
      exact absurd Location.within_self.child away

theorem listed_writes {content : ByteArray} (tool : ToolDirectory d root)
    (generated : name ∈ generatedNames) (written : Disk.Writes (sourceIn root name) l content d e) :
    listed root e = listed root d := by
  refine listed_of_beside tool written.keeps written.cwd written.obstacles fun m away => ?_
  have apart : m ≠ l := by
    rintro rfl
    rw [written.place, place_sourceIn (named_of_generated generated), workPlace_eq] at away
    exact away Location.within_self.child.child
  rw [written.lookup, if_neg apart]

end Library

namespace LinkM

variable {asm : Assembler σ}

/-- The disk lists some files of the library, and so did the disks of all calls but the first few. -/
structure Lists (root : Path) (files : List LibraryFile) (n : Nat) (s : Linker (σ × List Call)) :
    Prop where
  root_eq : s.workspace.root = root
  tool : ToolDirectory s.disk root
  here : Library.listed root s.disk = files
  calls : ∀ call ∈ s.assembler.2.drop n, Library.listed root call.disk = files

theorem Lists.makes {s t : Linker (σ × List Call)} (lists : Lists root files n s)
    (makes : MakesWay (workDirectory root) s t) : Lists root files n t := by
  rw [makes.rest]
  refine ⟨lists.root_eq, lists.tool.keeps makes.makes.keeps makes.makes.cwd, ?_, lists.calls⟩
  exact (Library.listed_makes lists.tool makes.makes).trans lists.here

theorem Lists.written {s : Linker (σ × List Call)} {f : Disk} {content : ByteArray}
    (lists : Lists root files n s) (generated : name ∈ generatedNames)
    (makes : Disk.Makes (Disk.OnWay (s.disk.origin (workDirectory root)) (workDirectory root).named) s.disk e)
    (writes : Disk.Writes (sourceIn root name) l content e f) :
    ToolDirectory f root ∧ Library.listed root f = files := by
  have tool : ToolDirectory e root := lists.tool.keeps makes.keeps makes.cwd
  refine ⟨tool.keeps writes.keeps writes.cwd, ?_⟩
  rw [Library.listed_writes tool generated writes, Library.listed_makes lists.tool makes]
  exact lists.here

theorem Lists.generates {s t : Linker (σ × List Call)} {contents : String}
    (lists : Lists root files n s) (generated : name ∈ generatedNames)
    (generates : Generates root name contents s t) : Lists root files n t := by
  obtain ⟨e, l, makes, writes⟩ := generates.writes
  obtain ⟨tool, here⟩ := lists.written generated makes writes
  refine ⟨generates.root_eq.trans lists.root_eq, tool, here, ?_⟩
  rw [generates.rest]
  exact lists.calls

theorem Lists.breaks {s t : Linker (σ × List Call)} {contents : String}
    (lists : Lists root files n s) (generated : name ∈ generatedNames)
    (breaks : Breaks root name contents s t) : Lists root files n t := by
  obtain ⟨e, l, count, fault, makes, broken⟩ := breaks.breaks
  obtain ⟨tool, here⟩ := lists.written generated makes broken.writes
  rw [breaks.rest]
  exact ⟨lists.root_eq, tool, here, lists.calls⟩

theorem Lists.called {s t : Linker (σ × List Call)} {request : Request}
    {answer : Except AssemblerFault Assembly} (lists : Lists root files n s)
    (keeps : asm.KeepsLibrary root) (calls : Calls asm.traced request answer s t) :
    Lists root files n t := by
  have disk : t.disk = (asm.assemble request s.disk s.assembler.1).2.1 :=
    (congrArg (fun result => result.2.1) calls.run).symm
  refine ⟨?_, ?_, ?_, ?_⟩
  · rw [calls.rest]
    exact lists.root_eq
  · rw [disk]
    exact keeps.tool _ _ _ lists.tool
  · rw [disk, Library.listed_congr (keeps.files _ _ _)]
    exact lists.here
  · rw [calls.record, List.drop_append]
    intro call member
    rcases List.mem_append.mp member with old | new
    · exact lists.calls call old
    · rw [List.mem_singleton.mp (List.mem_of_mem_drop new)]
      exact lists.here

theorem lists_steady (keeps : asm.KeepsLibrary root) :
    SteadyThroughout asm.traced root rom (Lists root files n) := by
  refine ⟨⟨fun s t same lists => ?_, fun s lists => lists.root_eq, fun s r same lists => ?_,
    fun s library lists => ?_, fun s t makes lists => lists.makes makes,
    fun s t name contents generated generates lists => lists.generates generated generates,
    fun s t name contents generated breaks lists => lists.breaks generated breaks,
    fun s t request answer _ calls lists => lists.called keeps calls⟩,
    fun s t request answer calls lists => lists.called keeps calls, fun s resources lists => ?_⟩
  · have disk : t.disk = s.disk := congrArg Frame.disk same
    have place : t.workspace = s.workspace := congrArg Frame.workspace same
    have inner : t.assembler = s.assembler := congrArg Frame.assembler same
    exact ⟨place ▸ lists.root_eq, disk ▸ lists.tool, disk ▸ lists.here, inner ▸ lists.calls⟩
  · exact ⟨lists.root_eq, lists.tool, lists.here, lists.calls⟩
  · exact ⟨lists.root_eq, lists.tool, lists.here, lists.calls⟩
  · exact ⟨lists.root_eq, lists.tool, lists.here, lists.calls⟩

theorem Generates.toolDirectory {contents : String} {s t : Linker σ} (named : Path.Named name)
    (generates : Generates root name contents s t) : ToolDirectory t.disk root := by
  obtain ⟨l, located, -⟩ := Disk.read_eq_ok.mp generates.read
  exact toolDirectory_of_locate named located

/-- Whatever was listed before, the disk then has a tool directory with a library of its own. -/
theorem Generates.lists {contents : String} {s t : Linker (σ × List Call)} (named : Path.Named name)
    (generates : Generates root name contents s t) (rooted : s.workspace.root = root)
    (early : s.assembler.2.length ≤ n) : Lists root (Library.listed root t.disk) n t := by
  refine ⟨generates.root_eq.trans rooted, generates.toolDirectory named, rfl, fun call member => ?_⟩
  have same : t.assembler = s.assembler := by rw [generates.rest]
  rw [same, List.drop_of_length_le early] at member
  cases member

end LinkM
end RomLinker
