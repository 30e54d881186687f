import RomLinker.Text.Numeral

/-!
The three contexts in which the game calls resources, and the places within one: a fixed number of
indexed slots, and the aggregate slot that runs for every index.
-/
namespace RomLinker

inductive ContextKind where
  | level
  | gamemode
  | overworld
deriving DecidableEq, Repr

namespace ContextKind

def all : List ContextKind := [.level, .gamemode, .overworld]

def name : ContextKind → String
  | .level => "Level"
  | .gamemode => "Gamemode"
  | .overworld => "Overworld"

def directory : ContextKind → String
  | .level => "level"
  | .gamemode => "gamemode"
  | .overworld => "overworld"

def capacity : ContextKind → Nat
  | .level => 512
  | .gamemode => 256
  | .overworld => 7

end ContextKind

inductive SlotKey where
  | aggregate
  | index (i : Nat)
deriving DecidableEq, Repr

/-- How a slot is named within its context: `All`, or the index in hex. -/
def SlotKey.tag : SlotKey → String
  | .aggregate => "All"
  | .index i => Text.hex i

end RomLinker
