import RomLinker.Text.Lines
import RomLinker.Text.Numeral

/-!
Directives: comment lines of a resource file that start with `;>` and tell the linker how to call
the resource. Of each directive only the first line counts.
-/
namespace RomLinker

inductive CallSite where
  | init
  | main
  | load
  | finish
deriving DecidableEq, Repr

namespace CallSite

def all : List CallSite := [.init, .main, .load, .finish]

def name : CallSite → String
  | .init => "init"
  | .main => "main"
  | .load => "load"
  | .finish => "end"

def ofName? (name : String) : Option CallSite := all.find? (·.name == name)

end CallSite

structure Directives where
  setsDataBank : Bool := true
  /-- How many bytes every assignment of the resource carries. -/
  extraBytes : UInt8 := 0
  /-- The call sites that run the resource on the second processor. -/
  onSa1 : CallSite → Bool := fun _ => false

namespace Directives

inductive Fault where
  | invalidNumber
  | numberOutOfRange
  | unknownCallSite (label : String)
deriving DecidableEq, Repr

def Fault.message : Fault → String
  | .invalidNumber => "invalid number in \";>bytes\" command"
  | .numberOutOfRange => "invalid value in \";>bytes\" command (must be 0 - 255)"
  | .unknownCallSite label => s!"invalid label \"{label}\" in \";>sa1\" command"

/-- The text behind the keyword in the first line that starts with it. -/
def argument? (keyword : String) (lines : List (List Char)) : Option (List Char) :=
  lines.findSome? (Text.dropHead? keyword.toList)

def byteCount (argument : List Char) : Except Fault UInt8 :=
  match Text.integer? (Text.trim argument) with
  | none => .error .invalidNumber
  | some n => if 0 ≤ n ∧ n ≤ 255 then .ok (UInt8.ofNat n.toNat) else .error .numberOutOfRange

def callSites (argument : List Char) : Except Fault (List CallSite) :=
  (Text.pieces (· == ',') argument).mapM fun piece =>
    let label := String.ofList (Text.trim piece)
    match CallSite.ofName? label with
    | some site => .ok site
    | none => .error (.unknownCallSite label)

def ofLines (lines : List (List Char)) : Except Fault Directives := do
  let extraBytes ← match argument? ";>bytes " lines with
    | some argument => byteCount argument
    | none => pure 0
  let sites ← match argument? ";>sa1 " lines with
    | some argument => callSites argument
    | none => pure []
  return {
    setsDataBank := !lines.contains ";>dbr off".toList
    extraBytes
    onSa1 := fun site => sites.contains site }

def parse (source : String) : Except Fault Directives := ofLines (Text.lines source.toList)

end Directives

end RomLinker
