import RomLinker.Image.Header
import RomLinker.Routine

/-!
The session of one build: the ROM that is being patched, the defines and routines that the next
source will see, the addresses to be cleaned by the next build, the sizes to report, and what the
assembler last answered.
-/
namespace RomLinker

/-- What inserted bytes are for. `other` is what a source inserts on the side. -/
inductive Purpose where
  | main
  | library
  | resources
  | other
deriving DecidableEq, Repr

structure Ledger where
  main : Nat := 0
  library : Nat := 0
  resources : Nat := 0
  other : Nat := 0
deriving DecidableEq, Repr

namespace Ledger

def add (l : Ledger) (n : Nat) : Purpose → Ledger
  | .main => { l with main := l.main + n }
  | .library => { l with library := l.library + n }
  | .resources => { l with resources := l.resources + n }
  | .other => { l with other := l.other + n }

def total (l : Ledger) : Nat := l.main + l.library + l.resources + l.other

end Ledger

/-- A ROM file in memory, with all its bytes and the header found in them. -/
structure Rom where
  path : Path
  data : ByteArray
  header : Header

namespace Rom

def bankSize : Nat := 0x8000

/-- Some files carry this many bytes of a copier in front of the image. -/
def copierSize : Nat := 0x200

def maxBodySize : Nat := 0x1000000

def leadSize (data : ByteArray) : Nat := data.size % bankSize

def body (data : ByteArray) : ByteArray := data.extract (leadSize data) data.size

def headerOf (data : ByteArray) : Except RomFault Header :=
  if leadSize data ≠ 0 ∧ leadSize data ≠ copierSize then .error (.partialBank data.size)
  else if (body data).size = 0 ∨ (body data).size > maxBodySize then
    .error (.unsupportedSize data.size)
  else match Header.locate? (body data) with
    | none => .error .noHeader
    | some header => .ok header

def describe (r : Rom) : String :=
  s!"ROM \"{r.path.text}\": {Text.decimal (r.data.size / 1024)} KiB, {r.header.mapping.name}" ++
    (if r.header.hasSa1 then " (SA-1)" else "") ++ s!", title \"{r.header.title}\""

end Rom

structure Session where
  rom? : Option Rom := none
  defines : Defines := .empty
  routines : RoutineTable := .empty
  /-- Addresses to export to the pointer table, in the order of insertion. -/
  cleans : List Address := []
  ledger : Ledger := {}
  labels : List Label := []
  prints : List String := []

namespace Session

def data (s : Session) : ByteArray := s.rom?.elim .empty (·.data)

def withData (s : Session) (data : ByteArray) : Session :=
  { s with rom? := s.rom?.map fun rom => { rom with data } }

def define (s : Session) (name value : String) : Except LinkError Session :=
  match s.defines.add? name value with
  | some defines => .ok { s with defines }
  | none => .error (.duplicateDefine name)

/-- The defines of one source: those that all see, the routines, and its own. No name may come
twice. -/
def definesFor (s : Session) (own : Defines) : Except LinkError Defines :=
  match s.defines.extend (s.routines.defines ++ own.entries) with
  | .ok defines => .ok defines
  | .error name => .error (.duplicateDefine name)

def register (s : Session) (file : Path) (name : String) (address : Address) :
    Except LinkError Session :=
  if !s.routines.wasScanned then .error (.outOfOrder .notScanned)
  else match s.routines.add file name address with
    | .ok routines => .ok { s with routines }
    | .error e => .error e

def addSize (s : Session) (purpose : Purpose) (n : Nat) : Session :=
  { s with ledger := s.ledger.add n purpose }

def addClean (s : Session) (address : Address) : Session :=
  { s with cleans := s.cleans ++ [address] }

end Session

end RomLinker
