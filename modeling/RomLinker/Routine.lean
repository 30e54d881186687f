import RomLinker.Error
import Std.Data.ExtTreeMap

/-!
Shared routines. The first file that inserts a routine owns its name; every later source calls it
through a define with its address. A table is scanned once for the names that are expected.
-/
namespace RomLinker

def routineMark : String := "UberRoutine_"

/-- Letters, digits and underscores, not a digit first. -/
def isIdentifier (name : String) : Bool :=
  let isWordStart := fun c : Char => c.isAlpha || c == '_'
  match name.toList with
  | [] => false
  | c :: cs => isWordStart c && cs.all fun c => isWordStart c || c.isDigit

/-- The name of the routine that a label belongs to. Relative labels belong to none. -/
def Label.routine? (l : Label) : Option String :=
  if l.isRelative then none
  else (Text.dropHead? routineMark.toList l.name.toList).map String.ofList

structure Routine where
  file : Path
  address : Address
deriving DecidableEq, Repr

structure RoutineTable where
  /-- The names that the scan found, once there was one. -/
  declared? : Option (List String)
  entries : Std.ExtTreeMap String Routine

namespace RoutineTable

def empty : RoutineTable := ⟨none, ∅⟩

def wasScanned (t : RoutineTable) : Bool := t.declared?.isSome

def expects (t : RoutineTable) (name : String) : Bool := (t.declared?.getD []).contains name

/-- Whether a scan that found some names did not find this one. -/
def isUnexpected (t : RoutineTable) (name : String) : Bool :=
  !(t.declared?.getD []).isEmpty && !t.expects name

def declare (t : RoutineTable) (names : List String) : Except LinkError RoutineTable :=
  if t.wasScanned then .error (.outOfOrder .alreadyScanned)
  else .ok { t with declared? := some names }

def get? (t : RoutineTable) (name : String) : Option Routine := t.entries[name]?

/-- Registers a routine. The same file at the same address may do so again. -/
def add (t : RoutineTable) (file : Path) (name : String) (address : Address) :
    Except LinkError RoutineTable :=
  match t.get? name with
  | none => .ok { t with entries := t.entries.insert name ⟨file, address⟩ }
  | some entry =>
    if entry.file.SameRoute file ∧ entry.address = address then .ok t
    else .error (.routineCollision name entry.file file)

def size (t : RoutineTable) : Nat := t.entries.size

def defines (t : RoutineTable) : List (String × String) :=
  t.entries.toList.map fun (name, entry) => (routineMark ++ name, entry.address.render)

end RoutineTable

end RomLinker
