import RomLinker.Context.ExtraBytes
import RomLinker.Library
import RomLinker.Resource.Insertion
import RomLinker.Settings

/-!
A build from the list file to the saved ROM: clean, scan, library, resources, main source, save. The
ROM file is written once, at the end; the generated files are removed however the build ends.
-/
namespace RomLinker

namespace Extmod

/-- What this tool leaves in the file beside a ROM. -/
def marker : String := s!"UberASM Tool v{Version.text} "

def endsWith (content tail : ByteArray) : Bool :=
  tail.size ≤ content.size && content.extract (content.size - tail.size) content.size == tail

/-- Adds the marker to the file of a ROM, unless the file ends with it. -/
def mark (d : Disk) (rom : Path) : Except DiskFault Unit × Disk :=
  let path := rom.withExtension "extmod"
  match d.read path with
  | .ok content =>
    if endsWith content marker.toUTF8 then (.ok (), d) else d.append path marker.toUTF8
  | .error .notFound => d.append path marker.toUTF8
  | .error e => (.error e, d)

end Extmod

structure Report where
  sizes : Ledger
  resourceCount : Nat
deriving DecidableEq, Repr

namespace Build

variable {σ : Type}

def cleanList (cleans : List Address) : String :=
  String.join (cleans.map fun address => s!"dl {address.render}\n")

def loadSettings (w : Workspace) (d : Disk) (list : Path) : Except LinkError Settings :=
  let path := w.path list
  match d.readText path with
  | .error e => .error (.disk path e)
  | .ok source =>
    match Settings.parse source w d with
    | .error faults => .error (.listRejected path faults.length)
    | .ok settings => .ok settings

def addDefines (defines : List (String × String)) : LinkM σ Unit :=
  defines.forM fun (name, value) => LinkM.onSession (·.define name value)

def insertResources (asm : Assembler σ) (contexts : Contexts) : LinkM σ Unit := do
  (← get).resources.resources.forM fun r =>
    Resource.insert asm r (ExtraBytes.fragment contexts r.id r.directives.extraBytes)

def noteSizes (sizes : Ledger) : LinkM σ Unit := do
  LinkM.note .debug s!"  Main patch insert size: {Text.decimal sizes.main} bytes."
  LinkM.note .debug s!"  Library insert size: {Text.decimal sizes.library} bytes."
  LinkM.note .debug s!"  Resource insert size: {Text.decimal sizes.resources} bytes."
  LinkM.note .debug s!"  Other (routines and prots) insert size: {Text.decimal sizes.other} bytes."
  LinkM.note .info s!"  Total insert size: {Text.decimal sizes.total} bytes."

/-- Leaves this tool's name beside the ROM. The ROM is saved by then, so that a failure is only
noted. -/
def markRom (rom : Path) : LinkM σ Unit := do
  let (result, disk) := Extmod.mark (← get).disk rom
  modify fun s => { s with disk }
  match result with
  | .ok () => pure ()
  | .error e => LinkM.note .warn s!"could not update contents of extmod file: {e.message}"

/-- The ROM that is built: the one of the command line, or else the one of the list. -/
def romPath (w : Workspace) (settings : Settings) (override? : Option Path) :
    Except LinkError Path :=
  match override?.or settings.romFile? with
  | none => .error .noRomFile
  | some rom => .ok (w.path rom)

def loadRom (asm : Assembler σ) (settings : Settings) (rom : Path) : LinkM σ Unit := do
  LinkM.note .info s!"Loading ROM \"{rom.text}\"..."
  LinkM.load rom
  LinkM.note .debug s!"using assembler \"{asm.name}\""
  addDefines settings.defines

def patchBase (asm : Assembler σ) (name : String) : LinkM σ Insertion := do
  let source := (← get).workspace.fixedSource name
  LinkM.patch asm source .empty
  LinkM.takePrints source false

def scan (asm : Assembler σ) : LinkM σ Unit := do
  let count ← LinkM.scanRoutines asm
  LinkM.note .debug s!"{Text.decimal count} shared routine(s) declared"

def buildLibrary (asm : Assembler σ) : LinkM σ Unit := do
  LinkM.note .info "Building library..."
  let s ← get
  match Library.discover s.workspace s.disk with
  | .error e => throw e
  | .ok files => modify fun s => { s with library := files }
  Library.insertAll asm

def buildResources (asm : Assembler σ) (settings : Settings) : LinkM σ Unit := do
  LinkM.note .info "Building resources..."
  modify fun s => { s with resources := settings.resources }
  insertResources asm settings.contexts
  let _ ← LinkM.generate "resource_labels.asm" (← get).resources.definitions

def buildMain (asm : Assembler σ) (settings : Settings) : LinkM σ Unit := do
  LinkM.note .info "Building main patch..."
  let resources := (← get).resources
  let contexts := settings.contexts.resolve resources
  addDefines contexts.interruptDefines
  let _ ← LinkM.generate "resource_calls.asm" (Dispatch.render (contexts.dispatch resources))
  let _ ← LinkM.generate "pointer_list.asm" (cleanList (← get).session.cleans)
  let inserted ← patchBase asm "main.asm"
  LinkM.modifySession (·.addSize .main inserted.size)

/-- The steps of a build whose ROM is loaded. -/
def link (asm : Assembler σ) (settings : Settings) (rom : Path) : LinkM σ Report := do
  let _ ← patchBase asm "clean.asm"
  scan asm
  buildLibrary asm
  buildResources asm settings
  buildMain asm settings
  LinkM.save
  let s ← get
  let report : Report := ⟨s.session.ledger, s.resources.size⟩
  noteSizes report.sizes
  LinkM.note .info "All code inserted successfully."
  markRom rom
  return report

def run (asm : Assembler σ) (settings : Settings) (override? : Option Path) :
    LinkM σ Report := do
  match romPath (← get).workspace settings override? with
  | .error e => throw e
  | .ok rom =>
    loadRom asm settings rom
    link asm settings rom

end Build

def build {σ : Type} (asm : Assembler σ) (settings : Settings) (override? : Option Path) :
    LinkM σ Report :=
  (Build.run asm settings override?).andAlways LinkM.cleanup

end RomLinker
