import RomLinker.Assembler
import RomLinker.Text.Utf8

/-!
An assembler that is a program of its own. Each request makes a scratch directory, writes the image
to a file there, runs the program on it, and reads the image and the symbol file back (`Tool.patch`).
Every one of these steps can fail, and each is an action on the assembly, the disk and the program's
own state.
-/
namespace RomLinker

/-! Labels stand in the `[labels]` sections of a symbol file, one a line, as bank, colon, offset,
white space and name; lines that do not have this form are passed over. -/
namespace SymbolFile

def label? (line : List Char) : Option Label := do
  let (location, name) ← Text.cutAt? Text.isBlank line
  let (bank, offset) ← Text.cutAt? (· == ':') location
  let bank ← Text.word? bank
  let offset ← Text.word? offset
  return ⟨String.ofList (Text.trim name), bank <<< 16 ||| offset⟩

/-- The labels of lines, where the first line stands in a section of labels or in another one. -/
def ofLines (inLabels : Bool) : List (List Char) → List Label
  | [] => []
  | line :: rest =>
    match Text.trim line with
    | [] | ';' :: _ => ofLines inLabels rest
    | '[' :: name => ofLines (name == "labels]".toList) rest
    | line => (if inLabels then (label? line).toList else []) ++ ofLines inLabels rest

def parse (text : String) : List Label := ofLines false (Text.lines text.toList)

end SymbolFile

namespace Asar

/-- How a program ended, and what it wrote to its two outputs. -/
structure Output where
  succeeded : Bool
  stdout : ByteArray
  stderr : ByteArray

/-- A program under a path, and the scratch directory that it is given. Given its arguments, it may
do anything on the disk, or it cannot be started for a reason. -/
structure Tool (σ : Type) where
  path : Path
  scratch : Disk → σ → Path
  run : List String → Disk → σ → Except String Output × Disk × σ

/-- The assembly of the last request that succeeded, next to what the program works with. -/
structure Bench (σ : Type) where
  assembly : Assembly
  disk : Disk
  state : σ

abbrev AsarM (σ : Type) := EStateM AssemblerFault (Bench σ)

variable {σ : Type}

def imagePath (scratch : Path) : Path := scratch.join ⟨"rom.smc"⟩

def symbolsPath (scratch : Path) : Path := scratch.join ⟨"rom.sym"⟩

def arguments (scratch source : Path) (defines : Defines) : List String :=
  ["--no-title-check", "--symbols=wla", "--symbols-path=" ++ (symbolsPath scratch).text] ++
    defines.entries.map (fun (name, value) => s!"-D{name}={value}") ++
    [source.text, (imagePath scratch).text]

def argumentLimit : Nat := 131071

def commandLimit : Nat := 2097152

/-- The bytes that arguments take, each with the mark of its end and the pointer to it. -/
def commandSize (texts : List String) : Nat :=
  texts.foldr (fun text size => text.utf8ByteSize + 9 + size) 0

def commandFault? (texts : List String) : Option String :=
  if texts.any (·.toList.contains '\x00') then some "nul byte found in provided data"
  else if texts.any (argumentLimit < ·.utf8ByteSize) || commandLimit < commandSize texts then
    some "Argument list too long (os error 7)"
  else none

def outputLines (output : ByteArray) : List String :=
  (Text.lines (Text.Utf8.decode output).toList).map String.ofList

def isBlankOutput (output : ByteArray) : Bool :=
  (Text.Utf8.decode output).toList.all Text.isBlank

/-- A failed program's words are on its error output, or on the other one if that is blank. -/
def Output.diagnostics (output : Output) : List String :=
  outputLines (if isBlankOutput output.stderr then output.stdout else output.stderr)

/-- The labels of a symbol file. One that is not there, or not text, has none. -/
def symbolLabels (symbols? : Option ByteArray) : List Label :=
  match symbols?.bind String.fromUTF8? with
  | some text => SymbolFile.parse text
  | none => []

namespace Tool

def name (_ : Tool σ) : String := "asar"

def unavailable (t : Tool σ) (reason : String) : AssemblerFault :=
  .unavailable s!"{t.path.text}: {reason}"

/-- Makes the scratch directory of a request. -/
def makeScratch (t : Tool σ) : AsarM σ Path := do
  let bench ← get
  let scratch := t.scratch bench.disk bench.state
  match bench.disk.makeDirectory scratch with
  | .error e => throw (t.unavailable e.message)
  | .ok disk =>
    set { bench with disk }
    return scratch

def stage (t : Tool σ) (scratch : Path) : AsarM σ Unit := do
  let bench ← get
  let (result, disk) := bench.disk.store (imagePath scratch) bench.assembly.image
  set { bench with disk }
  match result with
  | .ok () => pure ()
  | .error e => throw (t.unavailable e.message)

def start (t : Tool σ) (arguments : List String) : AsarM σ Output := do
  match commandFault? (t.path.text :: arguments) with
  | some reason => throw (t.unavailable reason)
  | none =>
    let bench ← get
    match t.run arguments bench.disk bench.state with
    | (.error reason, disk, state) =>
      set { bench with disk, state }
      throw (t.unavailable reason)
    | (.ok output, disk, state) =>
      set { bench with disk, state }
      return output

/-- Takes up what a run left, if the program succeeded and the image can be read. -/
def collect (t : Tool σ) (scratch : Path) (output : Output) : AsarM σ Unit := do
  if !output.succeeded then throw (.failed output.diagnostics)
  let disk := (← get).disk
  match disk.read (imagePath scratch) with
  | .error e => throw (t.unavailable e.message)
  | .ok image =>
    let labels := symbolLabels (disk.read (symbolsPath scratch)).toOption
    modify fun bench => { bench with assembly.image := image }
    modify fun bench => { bench with assembly.labels := labels }
    modify fun bench => { bench with assembly.prints := outputLines output.stdout }

def assembleIn (t : Tool σ) (scratch source : Path) (defines : Defines) : AsarM σ Unit := do
  t.stage scratch
  let output ← t.start (arguments scratch source defines)
  t.collect scratch output

/-- An action with the scratch directory removed after it, whether it stopped or not. -/
def within (scratch : Path) (action : AsarM σ Unit) : AsarM σ Unit := fun bench =>
  match action bench with
  | .ok () after => .ok () { after with disk := after.disk.removeTree scratch }
  | .error e after => .error e { after with disk := after.disk.removeTree scratch }

def request (t : Tool σ) (source : Path) (defines : Defines) : AsarM σ Unit := do
  let scratch ← t.makeScratch
  within scratch (t.assembleIn scratch source defines)

def patch (t : Tool σ) (source : Path) (defines : Defines) (last : Assembly) (disk : Disk) (state : σ) :
    Except AssemblerFault Unit × Assembly × Disk × σ :=
  match t.request source defines ⟨last, disk, state⟩ with
  | .ok () bench => (.ok (), bench.assembly, bench.disk, bench.state)
  | .error e bench => (.error e, bench.assembly, bench.disk, bench.state)

/-- The program as the linker's assembler. -/
def toAssembler (t : Tool σ) : Assembler σ where
  name := t.name
  assemble request disk state :=
    match t.patch request.source request.defines ⟨request.image, [], []⟩ disk state with
    | (.ok (), assembly, disk, state) => (.ok assembly, disk, state)
    | (.error e, _, disk, state) => (.error e, disk, state)

def check (t : Tool σ) (disk : Disk) (state : σ) : Except AssemblerFault String × Disk × σ :=
  match t.start ["--version"] ⟨⟨.empty, [], []⟩, disk, state⟩ with
  | .error e bench => (.error e, bench.disk, bench.state)
  | .ok output bench =>
    let first := (Text.lines (Text.Utf8.decode output.stdout).toList).head?.getD []
    (.ok (String.ofList (Text.trim first)), bench.disk, bench.state)

end Tool

/-- A finished run, with what it makes of the image file and of the symbol file. -/
structure Run extends Output where
  image? : Option ByteArray
  symbols? : Option ByteArray

/-- A program with one scratch directory, described by what it makes of the image there. -/
structure Program (σ : Type) where
  path : Path
  scratch : Path
  run : List String → ByteArray → Disk → σ → Except String Run × Disk × σ

/-- The disk with a file as a program leaves it, as far as the disk takes it. -/
def leave (disk : Disk) (p : Path) : Option ByteArray → Disk
  | some content => (disk.store p content).2
  | none => (disk.remove p).toOption.getD disk

def Program.tool (p : Program σ) : Tool σ where
  path := p.path
  scratch _ _ := p.scratch
  run arguments disk state :=
    let image := (disk.read (imagePath p.scratch)).toOption.getD .empty
    match p.run arguments image disk state with
    | (.error reason, disk, state) => (.error reason, disk, state)
    | (.ok run, disk, state) =>
      let disk := leave disk (imagePath p.scratch) run.image?
      (.ok run.toOutput, leave disk (symbolsPath p.scratch) run.symbols?, state)

def assembler (p : Program σ) : Tool σ := p.tool

def check (p : Program σ) : Disk → σ → Except AssemblerFault String × Disk × σ := p.tool.check

end Asar

end RomLinker
