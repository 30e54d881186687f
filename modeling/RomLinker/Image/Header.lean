import RomLinker.Image.Checksum
import RomLinker.Text.Lines

/-!
The internal header of a ROM. It stands at the end of the first bank of its mapping, and is told
from other bytes by a checksum and a complement that together have every bit set.
-/
namespace RomLinker

inductive Mapping where
  | loRom
  | hiRom
deriving DecidableEq, Repr

def Mapping.headerStart : Mapping → Nat
  | .loRom => 0x7FC0
  | .hiRom => 0xFFC0

def Mapping.name : Mapping → String
  | .loRom => "LoRom"
  | .hiRom => "HiRom"

structure Header where
  mapping : Mapping
  title : String
  mapMode : UInt8
  complement : UInt16
  checksum : UInt16
deriving DecidableEq, Repr

namespace Header

def size : Nat := 0x20

def titleSize : Nat := 21

def mapModeOffset : Nat := 0x15

/-- A byte of the title. Only printable ones are shown. -/
def titleChar (b : UInt8) : Char :=
  if 0x20 ≤ b ∧ b ≤ 0x7E then Char.ofNat b.toNat else '?'

def wordAt (body : ByteArray) (i : Nat) : UInt16 :=
  (body.get! i).toUInt16 ||| (body.get! (i + 1)).toUInt16 <<< 8

def read? (body : ByteArray) (mapping : Mapping) : Option Header :=
  let offset := mapping.headerStart
  if body.size < offset + size then none
  else
    let title := (List.range titleSize).map fun i => titleChar (body.get! (offset + i))
    some {
      mapping
      title := String.ofList (Text.trimEnd title)
      mapMode := body.get! (offset + mapModeOffset)
      complement := wordAt body (offset + Image.complementOffset)
      checksum := wordAt body (offset + Image.checksumOffset) }

def isComplementary (h : Header) : Bool := h.checksum ^^^ h.complement == 0xFFFF

/-- Cartridges with a second processor. -/
def hasSa1 (h : Header) : Bool := h.mapMode == 0x23

def locate? (body : ByteArray) : Option Header :=
  [Mapping.loRom, Mapping.hiRom].findSome? fun mapping =>
    (read? body mapping).filter isComplementary

def verifies (h : Header) (body : ByteArray) : Bool := h.checksum == Image.checksum body

end Header

end RomLinker
