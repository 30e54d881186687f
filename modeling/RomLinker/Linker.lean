import RomLinker.Log
import RomLinker.Resource
import RomLinker.Session

/-!
The linker at work. Its state holds the disk, the session and all that is linked so far; its steps
are actions that may stop with a build error. What an action did before it stopped stays done, so
that each step says for itself what a failure leaves behind.
-/
namespace RomLinker

structure LibraryFile where
  file : Path
  /-- What its labels are called by outside, and the file itself if it is no assembly. -/
  stem : String
  isBinary : Bool
  start? : Option Address := none
  labels : List Label := []

structure Linker (σ : Type) where
  disk : Disk
  log : Log := []
  workspace : Workspace
  session : Session := {}
  resources : ResourceTable := .empty
  library : List LibraryFile := []
  assembler : σ

abbrev LinkM (σ : Type) := EStateM LinkError (Linker σ)

namespace LinkM

variable {σ : Type}

def note (level : Level) (text : String) : LinkM σ Unit :=
  modify fun s => { s with log := s.log ++ [⟨level, text⟩] }

def onDisk (p : Path) (operation : Disk → Except DiskFault Disk) : LinkM σ Unit := do
  match operation (← get).disk with
  | .ok disk => modify fun s => { s with disk }
  | .error e => throw (.disk p e)

/-- The same for an operation that may stop halfway. What it did by then stays. -/
def attempt (p : Path) (operation : Disk → Except DiskFault Unit × Disk) : LinkM σ Unit := do
  let (result, disk) := operation (← get).disk
  modify fun s => { s with disk }
  match result with
  | .ok () => pure ()
  | .error e => throw (.disk p e)

def onSession (operation : Session → Except LinkError Session) : LinkM σ Unit := do
  match operation (← get).session with
  | .ok session => modify fun s => { s with session }
  | .error e => throw e

def modifySession (change : Session → Session) : LinkM σ Unit :=
  modify fun s => { s with session := change s.session }

/-- Writes a generated source, makes its directory if need be, and remembers the file once it is
whole. -/
def generate (name contents : String) : LinkM σ Path := do
  let path := (← get).workspace.generatedSource name
  match path.parent? with
  | some dir => attempt dir (·.makeDirectories dir)
  | none => pure ()
  attempt path (·.store path contents.toUTF8)
  modify fun s => { s with workspace := s.workspace.remember path }
  return path

/-- Removes a file. One that cannot be removed is only noted. -/
def discard (path : Path) : LinkM σ Unit := do
  match (← get).disk.remove path with
  | .ok disk => modify fun s => { s with disk }
  | .error e => note .debug s!"could not remove {path.text}: {e.message}"

def cleanup : LinkM σ Unit := do
  let written := (← get).workspace.written
  modify fun s => { s with workspace := { s.workspace with written := [] } }
  written.forM discard

/-- An action, with another one after it whether it stopped or not. -/
def andAlways {α : Type} (action : LinkM σ α) (after : LinkM σ Unit) : LinkM σ α := fun s =>
  match action s with
  | .ok a s =>
    match after s with
    | .ok _ s => .ok a s
    | .error e s => .error e s
  | .error e s =>
    match after s with
    | .ok _ s | .error _ s => .error e s

/-- Takes a ROM from memory, to be saved under a path. -/
def adopt (path : Path) (data : ByteArray) : LinkM σ Unit := do
  match Rom.headerOf data with
  | .error fault => throw (.invalidRom path fault)
  | .ok header =>
    let rom : Rom := { path, data, header }
    if !header.verifies (Rom.body data) then note .warn s!"ROM \"{path.text}\" has a bad checksum"
    note .debug rom.describe
    modifySession fun s => { s with rom? := some rom }

def load (path : Path) : LinkM σ Unit := do
  match (← get).disk.read path with
  | .error e => throw (.disk path e)
  | .ok data => adopt path data

/-- The directory that a file is in, by its name alone. -/
def directoryOf (p : Path) : Path :=
  match p.parent? with
  | some dir => if dir.text == "" then ⟨"."⟩ else dir
  | none => ⟨"."⟩

/-- Writes the ROM over its file, first beside it and then in its place, so that a failure leaves
the file whole. -/
def save : LinkM σ Unit := do
  let s ← get
  match s.session.rom? with
  | none => throw .noRom
  | some rom =>
    let target := (s.disk.canonical? rom.path).getD rom.path
    let dir := directoryOf target
    match s.disk.temporaryPlace dir with
    | .error e => throw (.disk dir e)
    | .ok l =>
      match s.disk.obstacles.brokenOff s.disk.entries l rom.data with
      | some (_, e) => throw (.disk (s.disk.temporaryPath dir) e)
      | none => onDisk target (·.replace target rom.data)

/-- Has a source assembled into an image. The session keeps the labels and the printed lines, and
the result is the new image. -/
def assemble (asm : Assembler σ) (image : ByteArray) (source : Path) (own : Defines) :
    LinkM σ ByteArray := do
  let s ← get
  match s.session.definesFor own with
  | .error e => throw e
  | .ok defines =>
    let (result, disk, assembler) := asm.assemble { image, source, defines } s.disk s.assembler
    modify fun s => { s with disk, assembler }
    match result with
    | .error e => throw (.ofAssembler source e)
    | .ok assembly =>
      modifySession fun s => { s with labels := assembly.labels, prints := assembly.prints }
      return assembly.image

def patch (asm : Assembler σ) (source : Path) (own : Defines) : LinkM σ Unit := do
  match (← get).session.rom? with
  | none => throw .noRom
  | some rom =>
    let image ← assemble asm rom.data source own
    modifySession (·.withData image)

/-- The routine that a file in the directory of routines declares, if it is one of assembly. -/
def declaredRoutine (file : Path) : Except LinkError (Option String) :=
  if file.extension? ≠ some "asm" then .ok none
  else
    let name := file.stem?.getD ""
    if isIdentifier name then .ok (some name) else .error (.authoring file .routineFileName)

def declaredRoutines (files : List Path) : Except LinkError (List String) :=
  List.reduceOption <$> files.mapM declaredRoutine

/-- Declares the shared routines, once and before they are used: one line for each of their files.
The source that takes the declarations goes into a copy of the ROM, which is then dropped. -/
def scanRoutines (asm : Assembler σ) : LinkM σ Nat := do
  let s ← get
  if s.session.routines.wasScanned then throw (.outOfOrder .alreadyScanned)
  match s.session.rom? with
  | none => throw .noRom
  | some rom =>
    match s.workspace.filesUnder s.disk ⟨"routines"⟩ false >>= declaredRoutines with
    | .error e => throw e
    | .ok names =>
      let lines := names.map fun name => s!"%UberRoutineDeclare({name})\n"
      let _ ← generate "routines.asm" (String.join lines)
      let _ ← assemble asm rom.data (s.workspace.fixedSource "routine_scan.asm") .empty
      onSession fun s => do return { s with routines := ← s.routines.declare names }
      return names.length

def register (file : Path) (name : String) (address : Address) : LinkM σ Unit := do
  let routines := (← get).session.routines
  onSession (·.register file name address)
  if (routines.get? name).isNone && routines.isUnexpected name then
    note .debug s!"routine \"{name}\" from \"{file.text}\" is not in the routines folder"

end LinkM

end RomLinker
