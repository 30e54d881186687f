import RomLinker.Asar
import RomLinker.Build

/-!
The command line: `[options] [list] [rom]`. `parse` reads the arguments from left to right, `run`
builds with the program that they name. Messages pass the filter that the options set; the list may
move it where they do not.
-/
namespace RomLinker.CommandLine

structure Options where
  list : Path := ⟨"list.txt"⟩
  rom? : Option Path := none
  root : Path := ⟨"."⟩
  program : Path := ⟨"asar"⟩
  verbose : Bool := false
  quiet : Bool := false

/-- What the arguments ask for: a build, a text about the program, or nothing that makes sense. -/
inductive Wish where
  | build (o : Options)
  | information
  | misuse

structure Reading where
  list? : Option Path := none
  rom? : Option Path := none
  root? : Option Path := none
  program? : Option Path := none
  verbose : Bool := false
  quiet : Bool := false

inductive Stop where
  | information
  | misuse

inductive Valued where
  | root
  | program

def Valued.ofName? : List Char → Option Valued
  | name =>
    if name == "root".toList then some .root
    else if name == "asar".toList then some .program
    else none

namespace Reading

/-- Options come once, and values are not empty. -/
def setValue (r : Reading) (option : Valued) (value : String) : Except Stop Reading :=
  if value == "" then .error .misuse
  else match option, r.root?, r.program? with
    | .root, none, _ => .ok { r with root? := some ⟨value⟩ }
    | .program, _, none => .ok { r with program? := some ⟨value⟩ }
    | _, _, _ => .error .misuse

def setFlag (r : Reading) : Char → Except Stop Reading
  | 'v' => if r.verbose then .error .misuse else .ok { r with verbose := true }
  | 'q' => if r.quiet then .error .misuse else .ok { r with quiet := true }
  | 'h' | 'V' => .error .information
  | _ => .error .misuse

def setLongFlag (r : Reading) (name : List Char) : Except Stop Reading :=
  if name == "verbose".toList then r.setFlag 'v'
  else if name == "quiet".toList then r.setFlag 'q'
  else if name == "help".toList then r.setFlag 'h'
  else if name == "version".toList then r.setFlag 'V'
  else .error .misuse

/-- The list comes first and the ROM second. -/
def addOperand (r : Reading) (operand : String) : Except Stop Reading :=
  if operand == "" then .error .misuse
  else match r.list?, r.rom? with
    | none, _ => .ok { r with list? := some ⟨operand⟩ }
    | some _, none => .ok { r with rom? := some ⟨operand⟩ }
    | some _, some _ => .error .misuse

/-- Whether an argument in the place of a value is an option instead. -/
def looksLikeOption (argument : String) : Bool :=
  match argument.toList with
  | '-' :: _ :: _ => true
  | _ => false

/-- Reads arguments. A value stands behind an equals sign or in the next argument, short flags may
share a dash, and behind two dashes nothing is an option. -/
def take (r : Reading) : List String → Except Stop Reading
  | [] => .ok r
  | argument :: rest =>
    match argument.toList with
    | ['-', '-'] => rest.foldlM addOperand r
    | '-' :: '-' :: name =>
      match Text.cutAt? (· == '=') name with
      | some (name, value) =>
        match Valued.ofName? name with
        | some option => do (← r.setValue option (String.ofList value)).take rest
        | none => .error .misuse
      | none =>
        match Valued.ofName? name, rest with
        | some _, [] => .error .misuse
        | some option, value :: rest =>
          if looksLikeOption value then .error .misuse
          else do (← r.setValue option value).take rest
        | none, rest => do (← r.setLongFlag name).take rest
    | '-' :: flag :: flags => do (← (flag :: flags).foldlM setFlag r).take rest
    | _ => do (← r.addOperand argument).take rest

def options (r : Reading) : Options where
  list := r.list?.getD ⟨"list.txt"⟩
  rom? := r.rom?
  root := r.root?.getD ⟨"."⟩
  program := r.program?.getD ⟨"asar"⟩
  verbose := r.verbose
  quiet := r.quiet

end Reading

def parse (arguments : List String) : Wish :=
  match Reading.take {} arguments with
  | .error .information => .information
  | .error .misuse => .misuse
  | .ok r => if r.verbose && r.quiet then .misuse else .build r.options

def Options.threshold (o : Options) : Level :=
  if o.quiet then .warn else if o.verbose then .debug else .info

def Options.thresholdFor (o : Options) (settings : Settings) : Level :=
  match settings.verbose? with
  | some on => if o.verbose || o.quiet then o.threshold else if on then .debug else .info
  | none => o.threshold

structure Outcome (σ : Type) where
  exitCode : UInt32
  log : Log
  disk : Disk
  assembler : σ

def shown (threshold : Level) (log : Log) : Log := log.filter (·.level.passes threshold)

def abortNotices (reason : String) : Log :=
  [⟨.error, reason⟩,
    ⟨.error, "Some errors occurred while running UberASM Tool. Process aborted."⟩,
    ⟨.error, "Your ROM has not been modified."⟩]

def chain (e : LinkError) : String := ": ".intercalate (e.message :: e.causes)

variable {σ : Type}

def run (t : Asar.Tool σ) (o : Options) (disk : Disk) (state : σ) : Outcome σ :=
  match t.check disk state with
  | (.error e, disk, state) =>
    ⟨1, abortNotices s!"assembler could not be started: {e.message}", disk, state⟩
  | (.ok version, disk, state) =>
    let first := shown o.threshold [⟨.debug, s!"assembler: {version}"⟩]
    let workspace : Workspace := { root := o.root }
    match Build.loadSettings workspace disk o.list with
    | .error e => ⟨1, first ++ abortNotices (chain e), disk, state⟩
    | .ok settings =>
      let threshold := o.thresholdFor settings
      let start : Linker σ := { disk, workspace, assembler := state }
      match (build t.toAssembler settings o.rom?).run start with
      | .ok _ s => ⟨0, first ++ shown threshold s.log, s.disk, s.assembler⟩
      | .error e s =>
        ⟨1, first ++ shown threshold s.log ++ abortNotices (chain e), s.disk, s.assembler⟩

def execute (program : Path → Asar.Program σ) (arguments : List String) (disk : Disk) (state : σ) :
    Outcome σ :=
  match parse arguments with
  | .information => ⟨0, [], disk, state⟩
  | .misuse => ⟨2, [], disk, state⟩
  | .build o => run (program o.program).tool o disk state

end RomLinker.CommandLine
