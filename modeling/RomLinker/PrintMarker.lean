import RomLinker.Linker

/-!
Print markers. A source reports what it inserted by lines that it prints: `_startl` and `_endl`
enclose its main part, `_extral` gives the ends of a part on the side. Every other line is for the
user.
-/
namespace RomLinker

/-- What the main part of a source was found to be. -/
structure Insertion where
  start : Address
  size : Nat
deriving DecidableEq, Repr

namespace PrintMarker

/-- A printed line by its first word. A well formed marker has addresses behind it. -/
inductive Line where
  | start (address? : Option Address)
  | stop (address? : Option Address)
  | extra (start? stop? : Option Address)
  | message
deriving DecidableEq, Repr

def Line.ofText (line : String) : Line :=
  let words := (Text.words line.toList).map String.ofList
  let address? := fun i => words[i]?.bind Address.parse?
  match words.head? with
  | some "_startl" => .start (address? 1)
  | some "_endl" => .stop (address? 1)
  | some "_extral" => .extra (address? 1) (address? 2)
  | _ => .message

/-- What the lines so far said of the main part: where it starts first, how large it is, and the
start that no end has come for yet. -/
structure Progress where
  first? : Option Address := none
  size : Nat := 0
  opened? : Option Address := none

def Progress.insertion (p : Progress) : Insertion := ⟨p.first?.getD 0, p.size⟩

variable {σ : Type}

/-- The distance to an address that may not lie before. -/
def distance (file : Path) (line : String) (start stop : Address) : LinkM σ Nat :=
  if stop < start then throw (.toolchain file (.endsBeforeStart line))
  else pure (stop.toNat - start.toNat)

/-- Takes in one line. The first start is an address to clean if `capture` says so, and the start of
each part on the side always is one. -/
def takeLine (file : Path) (capture : Bool) (p : Progress) (line : String) : LinkM σ Progress := do
  let malformed : LinkError := .toolchain file (.malformedMarker line)
  match Line.ofText line with
  | .start none | .stop none | .extra none _ | .extra _ none => throw malformed
  | .start (some start) =>
    if p.first?.isNone && capture then LinkM.modifySession (·.addClean start)
    return { p with first? := p.first?.or (some start), opened? := some start }
  | .stop (some stop) =>
    match p.opened? with
    | none => throw (.toolchain file (.unmatchedEnd line))
    | some start =>
      let size ← distance file line start stop
      return { p with size := p.size + size, opened? := none }
  | .extra (some start) (some stop) =>
    let size ← distance file line start stop
    LinkM.modifySession fun s => (s.addClean start).addSize .other size
    return p
  | .message =>
    LinkM.note .info s!"{file.text}: {line}"
    return p

end PrintMarker

/-- Takes in the lines that the assembler printed last. -/
def LinkM.takePrints {σ : Type} (file : Path) (capture : Bool) : LinkM σ Insertion := do
  let lines := (← get).session.prints
  let progress ← lines.foldlM (PrintMarker.takeLine file capture) {}
  return progress.insertion

end RomLinker
