import RomLinker.Text.Lines
import RomLinker.Text.Numeral

/-!
Addresses of the console. Its bus has 24 address lines: `render` writes the low 24 bits, and
`parse?` reads at most six digits back.
-/
namespace RomLinker

abbrev Address := UInt32

namespace Address

/-- The first number that the bus has no room for. -/
def limit : Nat := 0x1000000

def render (a : Address) : String :=
  String.ofList ('$' :: Text.fixedHex 6 (a.toNat % limit))

/-- White space around the address and one dollar sign in front are left out; at most six bytes may
remain. -/
def parse? (s : String) : Option Address :=
  let trimmed := Text.trim s.toList
  let digits := match trimmed with
    | '$' :: rest => rest
    | _ => trimmed
  if (String.ofList digits).utf8ByteSize > 6 then none else Text.word? digits

example : render 0x1FAB3C = "$1FAB3C" := by decide +kernel

end Address

end RomLinker
