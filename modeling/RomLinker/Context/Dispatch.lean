import RomLinker.Context.Slot
import RomLinker.Resource

/-!
The dispatch text: for every slot of a context two subroutines that call the slot's resources, one
for each frame and one for the interrupt of the vertical blank, and two macros for the aggregate
slot. Slots without calls share one return.
-/
namespace RomLinker

/-- Calls for each frame, or calls in the interrupt of the vertical blank. -/
inductive Phase where
  | frame
  | nmi
deriving DecidableEq, Repr

namespace Phase

def mark : Phase → String
  | .frame => ""
  | .nmi => "NMI"

def part : Phase → String
  | .frame => "ResourceEntry"
  | .nmi => "NMI"

end Phase

def SlotKey.label (kind : ContextKind) (slot : SlotKey) : String := kind.name ++ slot.tag

namespace Dispatch

inductive Line where
  | label (kind : ContextKind) (index : Nat) (phase : Phase)
  | setExtraBytes (resource : Nat) (kind : ContextKind) (slot : SlotKey)
  | call (resource : Nat) (phase : Phase)
  | leave
  | separator
  | macroStart (kind : ContextKind) (phase : Phase)
  | macroEnd
  | reserve
  | release
deriving DecidableEq, Repr

def Line.text : Line → String
  | .label kind index phase => s!"{SlotKey.label kind (.index index)}{phase.mark}JSLs:"
  | .setExtraBytes resource kind slot =>
    let table := Resource.symbol resource ("ExtraBytes_" ++ slot.label kind)
    s!"    %UberSetExtraBytes({table})"
  | .call resource phase => s!"    jsl {Resource.symbol resource phase.part}"
  | .leave => "    rts"
  | .separator => ""
  | .macroStart kind phase => s!"macro {kind.name}All{phase.mark}JSLs()"
  | .macroEnd => "endmacro"
  | .reserve => "    pea $0000"
  | .release => "    pla : pla"

def render (lines : List Line) : String := String.join (lines.map fun l => l.text ++ "\n")

end Dispatch

open Dispatch (Line)

namespace Slot

def isUsed (s : Slot) : Phase → Bool
  | .frame => s.hasCalls
  | .nmi => s.hasNmiCalls

def resolve (s : Slot) (resources : ResourceTable) : Slot :=
  { s with
    hasCalls := !s.assignments.isEmpty
    hasNmiCalls := s.assignments.any fun a => (resources.get? a.resource).any (·.answersNmi) }

/-- The call of one assignment. Extra bytes are set up in front of a frame call. -/
def callLines (resources : ResourceTable) (kind : ContextKind) (slot : SlotKey) (phase : Phase)
    (a : Assignment) : List Line :=
  match resources.get? a.resource, phase with
  | none, _ => []
  | some r, .frame =>
    (if r.directives.extraBytes > 0 then [.setExtraBytes a.resource kind slot] else []) ++
      [.call a.resource .frame]
  | some r, .nmi => if r.answersNmi then [.call a.resource .nmi] else []

def calls (s : Slot) (resources : ResourceTable) (kind : ContextKind) (slot : SlotKey)
    (phase : Phase) : List Line :=
  s.assignments.flatMap (callLines resources kind slot phase)

end Slot

namespace Context

variable {kind : ContextKind}

def resolve (c : Context kind) (resources : ResourceTable) : Context kind :=
  ⟨c.aggregate.resolve resources, c.slots.map (·.resolve resources)⟩

def numbered (c : Context kind) : List (Slot × Nat) := c.slots.toList.zipIdx

def idleLabels (kind : ContextKind) (s : Slot) (i : Nat) : List Line :=
  (if s.hasCalls then [] else [.label kind i .frame]) ++
    (if s.hasNmiCalls then [] else [.label kind i .nmi])

def routine (resources : ResourceTable) (kind : ContextKind) (phase : Phase) (s : Slot) (i : Nat) :
    List Line :=
  if s.isUsed phase then
    .label kind i phase :: s.calls resources kind (.index i) phase ++ [.leave, .separator]
  else []

/-- The macro that runs the aggregate slot. A frame call expects two bytes on the stack below the
return address, which a call from within a macro has to put there. -/
def aggregateMacro (resources : ResourceTable) (c : Context kind) (phase : Phase) : List Line :=
  let calls := c.aggregate.calls resources kind .aggregate phase
  let body := if c.aggregate.assignments.isEmpty then [] else
    match phase with
    | .frame => .reserve :: calls ++ [.release]
    | .nmi => calls
  .macroStart kind phase :: body ++ [.macroEnd, .separator]

def dispatch (resources : ResourceTable) (c : Context kind) : List Line :=
  c.numbered.flatMap (fun (s, i) => idleLabels kind s i) ++ [.leave, .separator] ++
    c.numbered.flatMap (fun (s, i) => routine resources kind .frame s i) ++
    c.numbered.flatMap (fun (s, i) => routine resources kind .nmi s i) ++
    c.aggregateMacro resources .frame ++ c.aggregateMacro resources .nmi

/-- Whether calls in the interrupt come from the aggregate slot, and whether from another. -/
structure NmiUse where
  aggregate : Bool
  indexed : Bool
deriving DecidableEq, Repr

def NmiUse.any (u : NmiUse) : Bool := u.aggregate || u.indexed

def nmiUse (c : Context kind) : NmiUse := ⟨c.aggregate.hasNmiCalls, c.slots.any (·.hasNmiCalls)⟩

def interruptDefines (c : Context kind) : List (String × String) :=
  let use := c.nmiUse
  [(s!"Uber{kind.name}NMIAll", flagText use.aggregate),
    (s!"Uber{kind.name}NMINormal", flagText use.indexed),
    (s!"Uber{kind.name}NMI", flagText use.any)]

end Context

namespace Contexts

def resolve (cs : Contexts) (resources : ResourceTable) : Contexts :=
  ⟨cs.level.resolve resources, cs.gamemode.resolve resources, cs.overworld.resolve resources⟩

def dispatch (cs : Contexts) (resources : ResourceTable) : List Line :=
  ContextKind.all.flatMap fun kind => (cs.get kind).dispatch resources

def interruptDefines (cs : Contexts) : List (String × String) :=
  ContextKind.all.flatMap (fun kind => (cs.get kind).interruptDefines) ++
    [("UberUseNMI", flagText (ContextKind.all.any fun kind => (cs.get kind).nmiUse.any))]

end Contexts

end RomLinker
