import RomLinker.Listing.Token

/-!
What can be wrong with one line of the list, each with its message.
-/
namespace RomLinker.Listing

inductive Needed where
  | onOrOff
  | romFileName
  | fileName
  | ramAddress
deriving DecidableEq, Repr

def Needed.shown : Needed → String
  | .onOrOff => "'on' or 'off'"
  | .romFileName => "a ROM file name"
  | .fileName => "a file name"
  | .ramAddress => "a RAM address"

inductive Fault where
  | unexpectedText (text : String)
  | needed (what : Needed) (found : TokenKind)
  | notOnOrOff (text : String)
  | addressTooLarge
  | byteTooLarge (value : UInt32)
  | invalidHex (text : String)
  | unexpectedStart (found : TokenKind)
  | unexpectedEnd (found : TokenKind)
  | noFiles
deriving DecidableEq, Repr

namespace Fault

def message : Fault → String
  | .unexpectedText text => s!"unexpected character '{text}'"
  | .needed what found => s!"expected {what.shown}, found {found.shown}"
  | .notOnOrOff text => s!"expected 'on' or 'off', found '{text}'"
  | .addressTooLarge => "freeram address must fit in 24 bits"
  | .byteTooLarge value => s!"byte value ${Text.hex value.toNat} is larger than $FF"
  | .invalidHex text => s!"invalid hex number '{text}'"
  | .unexpectedStart found => s!"unexpected {found.shown} at start of statement"
  | .unexpectedEnd found => s!"unexpected {found.shown} at end of statement"
  | .noFiles => "no resource files given for this slot"

def note? : Fault → Option String
  | .unexpectedStart _ =>
    some "expected a command such as 'rom:' or a slot number followed by files"
  | _ => none

end Fault

structure Flagged (φ : Type) where
  fault : φ
  span : Span
deriving Repr

end RomLinker.Listing
