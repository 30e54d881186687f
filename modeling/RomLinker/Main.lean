import RomLinker.CommandLine

/-!
The executable. It has no means to start another program, so the assembler that it is given is one
that cannot be started; a host that can start one passes its own to `CommandLine.execute`.
-/
namespace RomLinker

/-- The program that a path names, where none can be started. -/
def absentProgram (path : Path) : Asar.Program Unit where
  path
  scratch := ⟨"."⟩
  run _ _ disk state := (.error DiskFault.notFound.message, disk, state)

end RomLinker

def main (arguments : List String) : IO UInt32 := do
  let outcome :=
    RomLinker.CommandLine.execute RomLinker.absentProgram arguments RomLinker.Disk.empty ()
  for notice in outcome.log do
    IO.eprintln notice.printed
  return outcome.exitCode
