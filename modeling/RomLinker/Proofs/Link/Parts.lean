import RomLinker.Build
import RomLinker.Proofs.Numeral
import RomLinker.Proofs.Outcome
import RomLinker.Proofs.Workspace

/-!
The steps of a build by their parts. A property of actions that a sequence has if each of its parts has it
(`Sequential`) holds of a whole step once it holds of the single changes that the step makes: of what becomes
of labels (`Filing`), of the insertion of library files (`Inserting`), of all insertions
(`InsertingThroughout`). What is kept on the way and what a step may stop for are such properties.
-/
namespace RomLinker

open Workspace

/-- The causes that lie in the order of the steps, and not with the user or the environment. -/
def LinkError.isMisplaced : LinkError → Bool
  | .duplicateDefine _ | .outOfOrder _ | .noRom => true
  | _ => false

section Directory
variable {w : Workspace} {d : Disk} {dir : Path} {deep : Bool} {e : LinkError}

theorem isMisplaced_unlistable {start : Path} {l : Location} {ways : List Way}
    (failed : unlistable? d start l ways = some e) : e.isMisplaced = false := by
  unfold unlistable? at failed
  obtain ⟨way, -, named⟩ := List.exists_of_findSome?_eq_some failed
  obtain ⟨fault, -, rfl⟩ := Option.map_eq_some_iff.mp named
  rfl

theorem isMisplaced_filesUnder (failed : w.filesUnder d dir deep = .error e) : e.isMisplaced = false := by
  unfold Workspace.filesUnder at failed
  dsimp only at failed
  cases opened : d.directory (w.root.join dir) with
  | error fault =>
    rw [opened] at failed
    cases failed
  | ok l =>
    rw [opened] at failed
    dsimp only at failed
    split at failed
    · rename_i e' unlistable
      cases failed
      exact isMisplaced_unlistable unlistable
    · cases failed

theorem isMisplaced_declared
    (failed : w.filesUnder d dir deep >>= LinkM.declaredRoutines = .error e) :
    e.isMisplaced = false := by
  rcases Except.bind_eq_error.mp failed with unlisted | ⟨files, -, undeclared⟩
  · exact isMisplaced_filesUnder unlisted
  · obtain ⟨file, -, refused⟩ := Except.mapM_eq_error (Except.map_eq_error.mp undeclared)
    unfold LinkM.declaredRoutine at refused
    split at refused
    · cases refused
    · dsimp only at refused
      split at refused
      · cases refused
      · cases refused
        rfl

theorem isMisplaced_discover (failed : Library.discover w d = .error e) : e.isMisplaced = false := by
  unfold Library.discover at failed
  rcases Except.bind_eq_error.mp failed with unlisted | ⟨files, -, unnamed⟩
  · exact isMisplaced_filesUnder unlisted
  · obtain ⟨file, -, refused⟩ := Except.mapM_eq_error unnamed
    unfold LibraryFile.ofPath at refused
    dsimp only at refused
    split at refused
    · cases refused
    · cases refused
      rfl

end Directory

namespace PrintMarker
variable {line : String} {start stop : Address}

theorem lt_of_word {words : List String} {i : Nat} (found : words[i]?.bind Address.parse? = some start) :
    start.toNat < Address.limit := by
  obtain ⟨word, -, read⟩ := Option.bind_eq_some_iff.mp found
  exact Address.parse?_lt read

theorem lt_of_start (read : Line.ofText line = .start (some start)) : start.toNat < Address.limit := by
  unfold Line.ofText at read
  simp only at read
  split at read
  · exact lt_of_word (Line.start.inj read)
  · cases read
  · cases read
  · cases read

theorem lt_of_extra (read : Line.ofText line = .extra (some start) (some stop)) :
    start.toNat < Address.limit := by
  unfold Line.ofText at read
  simp only at read
  split at read
  · cases read
  · cases read
  · exact lt_of_word (Line.extra.inj read).1
  · cases read

end PrintMarker

namespace LinkM

variable {σ α β : Type} {asm : Assembler σ} {holds : ∀ ⦃α : Type⦄, LinkM σ α → Prop}

/-- A property that actions have one behind the other if each of them has it. An action may note something,
and stop for anything but a misplaced step. -/
structure Sequential (holds : ∀ ⦃α : Type⦄, LinkM σ α → Prop) : Prop where
  pure : ∀ {α : Type} (a : α), holds (Pure.pure a : LinkM σ α)
  bind : ∀ {α β : Type} {action : LinkM σ α} {next : α → LinkM σ β}, holds action →
    (∀ a, holds (next a)) → holds (action >>= next)
  get : holds (MonadState.get : LinkM σ (Linker σ))
  note : ∀ level text, holds (note level text : LinkM σ Unit)
  throw : ∀ {α : Type} (e : LinkError), e.isMisplaced = false → holds (MonadExcept.throw e : LinkM σ α)

namespace Sequential
variable (sequential : Sequential holds)
include sequential

theorem forM {xs : List β} {f : β → LinkM σ Unit} (each : ∀ x, holds (f x)) : holds (xs.forM f) := by
  induction xs with
  | nil => exact sequential.pure ()
  | cons x xs ih => exact sequential.bind (each x) fun _ => ih

theorem foldlM {xs : List β} {f : α → β → LinkM σ α} (each : ∀ a x, holds (f a x)) (a : α) :
    holds (xs.foldlM f a) := by
  induction xs generalizing a with
  | nil => exact sequential.pure a
  | cons x xs ih => exact sequential.bind (each a x) fun b => ih b

section Disk
variable (disk : ∀ d : Linker σ → Disk, holds (modify fun s => { s with disk := d s }))
include disk

theorem onDisk (p : Path) (operation : Disk → Except DiskFault Disk) :
    holds (onDisk p operation : LinkM σ Unit) := by
  unfold LinkM.onDisk
  refine sequential.bind sequential.get fun s => ?_
  split
  · exact disk _
  · exact sequential.throw _ rfl

theorem attempt (p : Path) (operation : Disk → Except DiskFault Unit × Disk) :
    holds (attempt p operation : LinkM σ Unit) := by
  unfold LinkM.attempt
  refine sequential.bind sequential.get fun s => sequential.bind (disk _) fun _ => ?_
  split
  · exact sequential.pure _
  · exact sequential.throw _ rfl

theorem generate (remember : ∀ p, holds (modify fun s => { s with workspace := s.workspace.remember p }))
    (name contents : String) : holds (generate name contents : LinkM σ Path) := by
  have written (p : Path) : holds
      (do
        LinkM.attempt p (·.store p contents.toUTF8)
        modify fun s => { s with workspace := s.workspace.remember p }
        return p : LinkM σ Path) := by
    refine sequential.bind (sequential.attempt disk _ _) fun _ => ?_
    exact sequential.bind (remember p) fun _ => sequential.pure _
  unfold LinkM.generate
  refine sequential.bind sequential.get fun s => ?_
  dsimp only
  split
  · exact sequential.bind (sequential.attempt disk _ _) fun _ => written _
  · exact written _

theorem markRom (rom : Path) : holds (Build.markRom rom : LinkM σ Unit) := by
  unfold Build.markRom
  refine sequential.bind sequential.get fun s => ?_
  dsimp only
  refine sequential.bind (disk _) fun _ => ?_
  split
  · exact sequential.pure _
  · exact sequential.note _ _

end Disk

theorem load {path : Path} (adopts : ∀ rom : Rom, rom.path = path →
    holds (modifySession fun s => { s with rom? := some rom } : LinkM σ Unit)) :
    holds (load path : LinkM σ Unit) := by
  unfold LinkM.load adopt
  refine sequential.bind sequential.get fun s => ?_
  split
  · exact sequential.throw _ rfl
  · rename_i data _
    split
    · exact sequential.throw _ rfl
    · rename_i header _
      have described : holds (do
          LinkM.note .debug (Rom.mk path data header).describe
          modifySession fun s => { s with rom? := some ⟨path, data, header⟩ } : LinkM σ Unit) :=
        sequential.bind (sequential.note _ _) fun _ => adopts _ rfl
      dsimp only
      split
      · exact sequential.bind (sequential.note _ _) fun _ => described
      · exact described

theorem loadRom {settings : Settings} {rom : Path} (loads : holds (LinkM.load rom : LinkM σ Unit))
    (defines : holds (Build.addDefines settings.defines : LinkM σ Unit)) :
    holds (Build.loadRom asm settings rom) := by
  unfold Build.loadRom
  refine sequential.bind (sequential.note _ _) fun _ => sequential.bind loads fun _ => ?_
  exact sequential.bind (sequential.note _ _) fun _ => defines

theorem takeLine (clean : ∀ address : Address, address.toNat < Address.limit →
      holds (modifySession (·.addClean address) : LinkM σ Unit))
    (extra : ∀ (address : Address) n, address.toNat < Address.limit →
      holds (modifySession fun s => (s.addClean address).addSize .other n : LinkM σ Unit))
    (file : Path) (capture : Bool) (p : PrintMarker.Progress) (line : String) :
    holds (PrintMarker.takeLine file capture p line : LinkM σ PrintMarker.Progress) := by
  have distance (start stop : Address) :
      holds (PrintMarker.distance file line start stop : LinkM σ Nat) := by
    unfold PrintMarker.distance
    split
    · exact sequential.throw _ rfl
    · exact sequential.pure _
  unfold PrintMarker.takeLine
  split
  · exact sequential.throw _ rfl
  · exact sequential.throw _ rfl
  · exact sequential.throw _ rfl
  · exact sequential.throw _ rfl
  · rename_i start read
    split
    · exact sequential.bind (clean _ (PrintMarker.lt_of_start read)) fun _ => sequential.pure _
    · exact sequential.bind (sequential.pure _) fun _ => sequential.pure _
  · split
    · exact sequential.throw _ rfl
    · exact sequential.bind (distance _ _) fun _ => sequential.pure _
  · rename_i start stop read
    refine sequential.bind (distance _ _) fun size => ?_
    exact sequential.bind (extra _ size (PrintMarker.lt_of_extra read)) fun _ => sequential.pure _
  · exact sequential.bind (sequential.note _ _) fun _ => sequential.pure _

theorem takePrints (clean : ∀ address : Address, address.toNat < Address.limit →
      holds (modifySession (·.addClean address) : LinkM σ Unit))
    (extra : ∀ (address : Address) n, address.toNat < Address.limit →
      holds (modifySession fun s => (s.addClean address).addSize .other n : LinkM σ Unit))
    (file : Path) (capture : Bool) : holds (takePrints file capture : LinkM σ Insertion) := by
  unfold LinkM.takePrints
  refine sequential.bind sequential.get fun s => ?_
  exact sequential.bind (sequential.foldlM (sequential.takeLine clean extra file capture) _) fun _ =>
    sequential.pure _

theorem register {file : Path} {name : String} {address : Address}
    (registers : holds (onSession (·.register file name address) : LinkM σ Unit)) :
    holds (register file name address : LinkM σ Unit) := by
  unfold LinkM.register
  refine sequential.bind sequential.get fun s => sequential.bind registers fun _ => ?_
  split
  · exact sequential.note _ _
  · exact sequential.pure _

theorem scan (scans : holds (scanRoutines asm)) : holds (Build.scan asm) := by
  unfold Build.scan
  exact sequential.bind scans fun _ => sequential.note _ _

end Sequential

/-- Such a property of all that becomes of labels: routines are registered, labels are filed with the library,
and sources are generated that others read them from. -/
structure Filing (holds : ∀ ⦃α : Type⦄, LinkM σ α → Prop) : Prop extends Sequential holds where
  routine : ∀ (file : Path) (l : Label) name, l.routine? = some name →
    holds (register file name l.address : LinkM σ Unit)
  library : ∀ library : Linker σ → List LibraryFile, holds (modify fun s => { s with library := library s })
  generates : ∀ name contents, name ∈ generatedNames → holds (generate name contents : LinkM σ Path)

namespace Filing
variable (filing : Filing holds)
include filing

theorem takeLabel (i : Nat) (file : Path) (l : Label) :
    holds (Library.takeLabel i file l : LinkM σ Unit) := by
  unfold Library.takeLabel
  split
  · exact filing.routine file l _ ‹_›
  · split
    · exact filing.library _
    · exact filing.pure _

theorem insertAll (each : ∀ i f, holds (Library.insertFile asm i f)) : holds (Library.insertAll asm) := by
  unfold Library.insertAll
  refine filing.bind filing.get fun s => filing.bind (filing.forM fun x => each x.2 x.1) fun _ => ?_
  refine filing.bind filing.get fun s => ?_
  exact filing.bind (filing.generates _ _ (by decide)) fun _ => filing.pure _

theorem buildLibrary (each : ∀ i f, holds (Library.insertFile asm i f)) :
    holds (Build.buildLibrary asm) := by
  unfold Build.buildLibrary
  refine filing.bind (filing.note _ _) fun _ => filing.bind filing.get fun s => ?_
  dsimp only
  split
  · exact filing.bind (filing.throw _ (isMisplaced_discover ‹_›)) fun _ => filing.insertAll each
  · exact filing.bind (filing.library _) fun _ => filing.insertAll each

theorem buildMain {settings : Settings}
    (defines : ∀ cs : Contexts, holds (Build.addDefines cs.interruptDefines : LinkM σ Unit))
    (patches : holds (Build.patchBase asm "main.asm"))
    (size : ∀ n, holds (modifySession (·.addSize .main n) : LinkM σ Unit)) :
    holds (Build.buildMain asm settings) := by
  unfold Build.buildMain
  refine filing.bind (filing.note _ _) fun _ => filing.bind filing.get fun s => ?_
  refine filing.bind (defines _) fun _ => filing.bind (filing.generates _ _ (by decide)) fun _ => ?_
  refine filing.bind filing.get fun s => filing.bind (filing.generates _ _ (by decide)) fun _ => ?_
  exact filing.bind patches fun inserted => size _

section Resources
variable (resources : ∀ table : Linker σ → ResourceTable,
  holds (modify fun s => { s with resources := table s }))
include resources

theorem takeLabels (r : Resource) : holds (r.takeLabels : LinkM σ Unit) := by
  have taken (labels : List Label) (file : Path) :
      holds (labels.forM (Resource.takeRoutine file) : LinkM σ Unit) := by
    refine filing.forM fun l => ?_
    unfold Resource.takeRoutine
    split
    · exact filing.routine file l _ ‹_›
    · exact filing.pure _
  unfold Resource.takeLabels
  refine filing.bind filing.get fun s => ?_
  dsimp only
  split
  · exact filing.bind (filing.throw _ rfl) fun _ => taken _ _
  · exact filing.bind (resources _) fun _ => taken _ _

theorem buildResources (each : ∀ (r : Resource) extraBytes, holds (r.insert asm extraBytes))
    (settings : Settings) : holds (Build.buildResources asm settings) := by
  unfold Build.buildResources Build.insertResources
  refine filing.bind (filing.note _ _) fun _ => filing.bind (resources _) fun _ => ?_
  refine filing.bind (filing.bind filing.get fun s => filing.forM fun r => each r _) fun _ => ?_
  refine filing.bind filing.get fun s => ?_
  exact filing.bind (filing.generates _ _ (by decide)) fun _ => filing.pure _

end Resources

end Filing

def patchGenerated (asm : Assembler σ) (name contents : String) (own : Defines) : LinkM σ Unit := do
  let source ← generate name contents
  patch asm source own

/-- Such a property of the insertion of a library file as well. -/
structure Inserting (asm : Assembler σ) (holds : ∀ ⦃α : Type⦄, LinkM σ α → Prop) : Prop
    extends Filing holds where
  file : ∀ contents, holds (patchGenerated asm "library.asm" contents .empty)
  prints : ∀ file capture, holds (takePrints file capture : LinkM σ Insertion)
  size : ∀ purpose n, holds (modifySession (·.addSize purpose n) : LinkM σ Unit)

/-- Such a property of all insertions. -/
structure InsertingThroughout (asm : Assembler σ) (holds : ∀ ⦃α : Type⦄, LinkM σ α → Prop) : Prop
    extends Inserting asm holds where
  resource : ∀ (r : Resource) contents, holds (patchGenerated asm "resource.asm" contents r.defines)
  resources : ∀ table : Linker σ → ResourceTable, holds (modify fun s => { s with resources := table s })

theorem generate_patch_bind {name contents : String} {own : Defines} {next : LinkM σ α} :
    (do
      let source ← generate name contents
      patch asm source own
      next) = patchGenerated asm name contents own >>= fun _ => next :=
  (bind_assoc ..).symm

namespace Inserting
variable (inserting : Inserting asm holds)
include inserting

theorem insertFile (i : Nat) (f : LibraryFile) : holds (Library.insertFile asm i f) := by
  unfold Library.insertFile
  rw [generate_patch_bind]
  refine inserting.bind (inserting.note _ _) fun _ => inserting.bind (inserting.file _) fun _ => ?_
  refine inserting.bind (inserting.prints _ _) fun inserted => ?_
  refine inserting.bind (inserting.library _) fun _ => inserting.bind (inserting.size _ _) fun _ => ?_
  exact inserting.bind inserting.get fun s => inserting.forM fun l => inserting.takeLabel i f.file l

theorem insertAll : holds (Library.insertAll asm) := inserting.toFiling.insertAll inserting.insertFile

theorem buildLibrary : holds (Build.buildLibrary asm) := inserting.toFiling.buildLibrary inserting.insertFile

end Inserting

namespace InsertingThroughout
variable (inserting : InsertingThroughout asm holds)
include inserting

theorem insert (r : Resource) (extraBytes : String) : holds (r.insert asm extraBytes) := by
  unfold Resource.insert
  rw [generate_patch_bind]
  refine inserting.bind (inserting.note _ _) fun _ => ?_
  refine inserting.bind (inserting.generates _ _ (by decide)) fun _ => ?_
  refine inserting.bind (inserting.resource r _) fun _ => ?_
  refine inserting.bind (inserting.prints _ _) fun inserted => ?_
  refine inserting.bind (inserting.size _ _) fun _ => inserting.bind (inserting.note _ _) fun _ => ?_
  exact inserting.bind (inserting.note _ _) fun _ => inserting.takeLabels inserting.resources r

theorem buildResources (settings : Settings) : holds (Build.buildResources asm settings) :=
  inserting.toFiling.buildResources inserting.resources inserting.insert settings

end InsertingThroughout

end LinkM
end RomLinker
