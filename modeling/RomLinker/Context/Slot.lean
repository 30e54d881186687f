import RomLinker.Context.Kind

/-!
Slots and the resources assigned to them. A slot holds a resource once, in the order of assignment.
An assignment succeeds or changes nothing.
-/
namespace RomLinker

/-- A resource in a slot, with the byte values that the list gives it there. -/
structure Assignment where
  resource : Nat
  bytes : List UInt8
deriving DecidableEq, Repr

/-- A slot. The two marks say whether it makes calls and whether some of them answer the interrupt
of the vertical blank; they are up to date once the slot is resolved. -/
structure Slot where
  assignments : List Assignment := []
  hasCalls : Bool := false
  hasNmiCalls : Bool := false
deriving DecidableEq, Repr, Inhabited

inductive SlotFault where
  | outOfRange (kind : ContextKind) (index : Nat)
  | alreadyAssigned (kind : ContextKind) (slot : SlotKey)
deriving DecidableEq, Repr

def SlotFault.message : SlotFault → String
  | .outOfRange kind index =>
    s!"{kind.name} slot ${Text.hex index} is out of range " ++
      s!"(last slot is ${Text.hex (kind.capacity - 1)})"
  | .alreadyAssigned kind slot => s!"resource is already assigned to {kind.name} slot {slot.tag}"

/-- The slot with one more assignment at its end, unless it holds the resource. -/
def Slot.add? (s : Slot) (a : Assignment) : Option Slot :=
  if s.assignments.any (·.resource == a.resource) then none
  else some { s with assignments := s.assignments ++ [a] }

structure Context (kind : ContextKind) where
  aggregate : Slot
  slots : Vector Slot kind.capacity

namespace Context

variable {kind : ContextKind}

def empty : Context kind := ⟨{}, Vector.replicate _ {}⟩

def slot? (c : Context kind) : SlotKey → Option Slot
  | .aggregate => some c.aggregate
  | .index i => c.slots[i]?

def assign (c : Context kind) (slot : SlotKey) (a : Assignment) :
    Except SlotFault (Context kind) :=
  match slot with
  | .aggregate =>
    match c.aggregate.add? a with
    | some s => .ok { c with aggregate := s }
    | none => .error (.alreadyAssigned kind slot)
  | .index i =>
    if h : i < kind.capacity then
      match c.slots[i].add? a with
      | some s => .ok { c with slots := c.slots.set i s }
      | none => .error (.alreadyAssigned kind slot)
    else .error (.outOfRange kind i)

def indexed (c : Context kind) : List (SlotKey × Slot) :=
  (.aggregate, c.aggregate) :: c.slots.toList.zipIdx.map fun (s, i) => (.index i, s)

def placesOf (c : Context kind) (resource : Nat) : List (SlotKey × Assignment) :=
  c.indexed.flatMap fun (index, s) =>
    (s.assignments.filter (·.resource == resource)).map fun a => (index, a)

end Context

structure Contexts where
  level : Context .level
  gamemode : Context .gamemode
  overworld : Context .overworld

namespace Contexts

def empty : Contexts := ⟨.empty, .empty, .empty⟩

def get (cs : Contexts) : (kind : ContextKind) → Context kind
  | .level => cs.level
  | .gamemode => cs.gamemode
  | .overworld => cs.overworld

def set (cs : Contexts) : {kind : ContextKind} → Context kind → Contexts
  | .level, c => { cs with level := c }
  | .gamemode, c => { cs with gamemode := c }
  | .overworld, c => { cs with overworld := c }

def assign (cs : Contexts) (kind : ContextKind) (slot : SlotKey) (a : Assignment) :
    Except SlotFault Contexts :=
  cs.set <$> (cs.get kind).assign slot a

@[simp] theorem get_set_same (cs : Contexts) {kind : ContextKind} (c : Context kind) :
    (cs.set c).get kind = c := by cases kind <;> rfl

theorem get_set_other (cs : Contexts) {kind other : ContextKind} (c : Context kind)
    (different : other ≠ kind) : (cs.set c).get other = cs.get other := by
  cases kind <;> cases other <;> simp_all [get, set]

end Contexts

end RomLinker
