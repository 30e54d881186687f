/-!
UTF-8 read with tolerance. `decode` takes any bytes: each longest stretch that begins a character
and cannot end it, and each byte that can begin none, becomes one replacement character.
-/
namespace RomLinker.Text.Utf8

/-- A character begun: how many bytes it still needs, the bounds of the next one and the bits so
far. -/
structure Pending where
  owed : Nat
  low : UInt8
  high : UInt8
  bits : Nat

/-- What the first byte of a character begins. A two-byte form starts at C2 and a four-byte form
ends at F4; the bounds of the second byte exclude overlong forms, surrogates and what lies past
10FFFF. -/
inductive Opening where
  | whole (c : Char)
  | pending (p : Pending)
  | refused

def opening (b : UInt8) : Opening :=
  let n := b.toNat
  if n < 0x80 then .whole (Char.ofNat n)
  else if n < 0xC2 then .refused
  else if n < 0xE0 then .pending ⟨1, 0x80, 0xBF, n - 0xC0⟩
  else if n = 0xE0 then .pending ⟨2, 0xA0, 0xBF, 0⟩
  else if n = 0xED then .pending ⟨2, 0x80, 0x9F, 0xD⟩
  else if n < 0xF0 then .pending ⟨2, 0x80, 0xBF, n - 0xE0⟩
  else if n = 0xF0 then .pending ⟨3, 0x90, 0xBF, 0⟩
  else if n < 0xF4 then .pending ⟨3, 0x80, 0xBF, n - 0xF0⟩
  else if n = 0xF4 then .pending ⟨3, 0x80, 0x8F, 4⟩
  else .refused

/-- U+FFFD. -/
def replacement : Char := Char.ofNat 0xFFFD

/-- The characters that a first byte completes, and the character it leaves pending. -/
def start (b : UInt8) : List Char × Option Pending :=
  match opening b with
  | .whole c => ([c], none)
  | .pending p => ([], some p)
  | .refused => ([replacement], none)

/-- The same for any byte. One that cannot continue the pending character replaces that and is read
as a first byte. -/
def step (pending : Option Pending) (b : UInt8) : List Char × Option Pending :=
  match pending with
  | none => start b
  | some p =>
    if p.low ≤ b ∧ b ≤ p.high then
      let bits := p.bits * 64 + (b.toNat - 0x80)
      if p.owed ≤ 1 then ([Char.ofNat bits], none)
      else ([], some ⟨p.owed - 1, 0x80, 0xBF, bits⟩)
    else
      let (out, next) := start b
      (replacement :: out, next)

def decodeFrom (text : String) : Option Pending → List UInt8 → String
  | none, [] => text
  | some _, [] => text.push replacement
  | pending, b :: bs =>
    let (out, next) := step pending b
    decodeFrom (out.foldl String.push text) next bs

/-- Bytes that are text are taken as they are. -/
def decode (bytes : ByteArray) : String :=
  match String.fromUTF8? bytes with
  | some text => text
  | none => decodeFrom "" none bytes.data.toList

example : (decodeFrom "" none [0x63, 0xE9, 0x0A, 0xE3, 0x81]).toList =
    ['c', replacement, '\n', replacement] := by decide

end RomLinker.Text.Utf8
