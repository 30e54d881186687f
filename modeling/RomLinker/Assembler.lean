import RomLinker.Address
import RomLinker.Defines
import RomLinker.Disk

/-!
The assembler, as the linker sees it: it is asked to assemble a source file into an image, and
answers with the new image, the labels and the lines it printed, or with a fault and nothing else.
It may read and change the disk, and keep a state of its own between requests.
-/
namespace RomLinker

structure Label where
  name : String
  address : Address
deriving DecidableEq, Repr

def Label.definition (l : Label) : String := l.name ++ " = " ++ l.address.render ++ "\n"

def Label.definitions (labels : List Label) : String :=
  String.join (labels.map Label.definition)

/-- Names of one relative label are separated from those around it by a colon. -/
def Label.isRelative (l : Label) : Bool := l.name.toList.contains ':'

structure Request where
  image : ByteArray
  source : Path
  defines : Defines

structure Assembly where
  image : ByteArray
  labels : List Label
  prints : List String

inductive AssemblerFault where
  | unavailable (reason : String)
  | failed (diagnostics : List String)
deriving DecidableEq, Repr

def AssemblerFault.message : AssemblerFault → String
  | .unavailable reason => reason
  | .failed diagnostics => "\n".intercalate diagnostics

structure Assembler (σ : Type) where
  name : String
  assemble : Request → Disk → σ → Except AssemblerFault Assembly × Disk × σ

/-- One request, applied to the assembly of the last one. A fault leaves that as it was. -/
def Assembler.patch {σ : Type} (asm : Assembler σ) (source : Path) (defines : Defines)
    (last : Assembly) (disk : Disk) (state : σ) :
    Except AssemblerFault Unit × Assembly × Disk × σ :=
  match asm.assemble ⟨last.image, source, defines⟩ disk state with
  | (.ok assembly, disk, state) => (.ok (), assembly, disk, state)
  | (.error e, disk, state) => (.error e, last, disk, state)

end RomLinker
