import RomLinker.Assembler
import RomLinker.Directives

/-!
Why a build stops. Every cause is a constructor and `LinkError.message` words it; mistakes in files
that the user wrote are told apart from those of the environment (`isUserMistake`).
-/
namespace RomLinker

inductive AuthoringFault where
  | directive (fault : Directives.Fault)
  | noEntryLabel
  | libraryFileName
  | routineFileName
deriving DecidableEq, Repr

def AuthoringFault.message : AuthoringFault → String
  | .directive fault => fault.message
  | .noEntryLabel => "ResourceEntry label not found"
  | .libraryFileName => "library file paths may only contain letters, digits and underscores"
  | .routineFileName => "routine file names may only contain letters, digits and underscores"

/-- What went wrong while a source was assembled: the assembler's own words, or a print line that
makes no sense. -/
inductive ToolchainFault where
  | diagnostics (lines : List String)
  | malformedMarker (line : String)
  | unmatchedEnd (line : String)
  | endsBeforeStart (line : String)
deriving DecidableEq, Repr

def ToolchainFault.message : ToolchainFault → String
  | .diagnostics lines => "\n".intercalate lines
  | .malformedMarker line => s!"malformed print marker \"{line}\""
  | .unmatchedEnd line => s!"\"{line}\" without a matching _startl"
  | .endsBeforeStart line => s!"print marker \"{line}\" ends before it starts"

inductive RomFault where
  | partialBank (size : Nat)
  | unsupportedSize (size : Nat)
  | noHeader
deriving DecidableEq, Repr

def RomFault.message : RomFault → String
  | .partialBank size => s!"size 0x{Text.hex size} is not a whole number of 32 KiB banks"
  | .unsupportedSize size => s!"size 0x{Text.hex size} is outside the supported range"
  | .noHeader => "no valid internal header found"

inductive OrderFault where
  | alreadyScanned
  | notScanned
deriving DecidableEq, Repr

def OrderFault.message : OrderFault → String
  | .alreadyScanned => "shared routines were already scanned"
  | .notScanned => "shared routines must be scanned before resources are built"

inductive LinkError where
  | listRejected (list : Path) (count : Nat)
  | authoring (file : Path) (fault : AuthoringFault)
  | routineCollision (name : String) (first second : Path)
  | duplicateDefine (name : String)
  | toolchain (source : Path) (fault : ToolchainFault)
  | assemblerUnavailable (reason : String)
  | invalidRom (rom : Path) (fault : RomFault)
  | noRom
  | noRomFile
  | outOfOrder (fault : OrderFault)
  | disk (path : Path) (fault : DiskFault)
  | walk (directory : Path) (fault : DiskFault)
deriving DecidableEq, Repr

namespace LinkError

/-- What a walk through a tree says of the directory that it could not open. -/
def walkReport (directory : Path) (fault : DiskFault) : String :=
  s!"IO error for operation on {directory.text}: {fault.message}"

def message : LinkError → String
  | .listRejected list count => s!"{Text.decimal count} error(s) found in list file \"{list.text}\""
  | .authoring file fault => s!"error in \"{file.text}\": {fault.message}"
  | .routineCollision name first second =>
    s!"shared routine \"{name}\" is defined by both \"{first.text}\" and \"{second.text}\""
  | .duplicateDefine name => s!"define \"{name}\" is already set"
  | .toolchain source fault => s!"error patching \"{source.text}\":\n{fault.message}"
  | .assemblerUnavailable reason => s!"could not run assembler: {reason}"
  | .invalidRom rom fault => s!"invalid ROM \"{rom.text}\": {fault.message}"
  | .noRom => "no ROM loaded"
  | .noRomFile => "no ROM file specified in list file or on command line"
  | .outOfOrder fault => fault.message
  | .disk path fault => s!"could not access \"{path.text}\": {fault.message}"
  | .walk directory fault =>
    s!"could not access \"{directory.text}\": {walkReport directory fault}"

/-- The reports behind an error, the nearest first and the system's own last. -/
def causes : LinkError → List String
  | .disk _ fault => [fault.message]
  | .walk directory fault => [walkReport directory fault, fault.message]
  | _ => []

def isUserMistake : LinkError → Bool
  | .listRejected .. | .authoring .. | .routineCollision .. => true
  | _ => false

def ofAssembler (source : Path) : AssemblerFault → LinkError
  | .unavailable reason => .assemblerUnavailable reason
  | .failed lines => .toolchain source (.diagnostics lines)

end LinkError

end RomLinker
