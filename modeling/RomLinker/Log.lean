import RomLinker.Text.Control

/-!
What a run reports besides its result.
-/
namespace RomLinker

inductive Level where
  | debug
  | info
  | warn
  | error
deriving DecidableEq, Repr

namespace Level

def name : Level → String
  | .debug => "DEBUG"
  | .info => "INFO"
  | .warn => "WARN"
  | .error => "ERROR"

def column (level : Level) : String := "".pushn ' ' (5 - level.name.length) ++ level.name

def rank : Level → Nat
  | .debug => 0
  | .info => 1
  | .warn => 2
  | .error => 3

def passes (level threshold : Level) : Bool := threshold.rank ≤ level.rank

end Level

structure Notice where
  level : Level
  text : String
deriving DecidableEq, Repr

/-- A notice as it is printed. Its text may hold line feeds. -/
def Notice.printed (n : Notice) : String := s!"{n.level.column} {Text.visible n.text}"

abbrev Log := List Notice

end RomLinker
