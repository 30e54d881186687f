/-!
The checksum of a ROM: the sum of all bytes modulo 2^16, taken as if the image were repeated until
its size is a power of two. What lies behind the largest power of two is itself repeated up to that
size.
-/
namespace RomLinker.Image

/-- The sum of `n` bytes from `i` on, added to `sum`. -/
def sumFrom (data : ByteArray) (sum : UInt32) (i : Nat) : Nat → UInt32
  | 0 => sum
  | n + 1 => sumFrom data (sum + (data.get! i).toUInt32) (i + 1) n

def powerBelow (n : Nat) : Nat := Nat.pow 2 n.log2

/-- The sum of the `len` bytes from `i` on, repeated to fill `span` bytes. -/
def repeatedSum (data : ByteArray) (i len span : Nat) : UInt32 :=
  if _h : len = 0 then 0
  else
    let base := powerBelow len
    if base = len then sumFrom data 0 i len * UInt32.ofNat (span / base)
    else
      (sumFrom data 0 i base + repeatedSum data (i + base) (len - base) base) *
        UInt32.ofNat (max (span / (base * 2)) 1)
termination_by len
decreasing_by have : 0 < powerBelow len := Nat.two_pow_pos len.log2; omega

def checksum (body : ByteArray) : UInt16 :=
  (repeatedSum body 0 body.size body.size.nextPowerOfTwo &&& 0xFFFF).toUInt16

def complementOffset : Nat := 0x1C

def checksumOffset : Nat := 0x1E

def low (w : UInt16) : UInt8 := w.toUInt8

def high (w : UInt16) : UInt8 := (w >>> 8).toUInt8

def setFour (data : ByteArray) (i : Nat) (a b c e : UInt8) : ByteArray :=
  (((data.set! i a).set! (i + 1) b).set! (i + 2) c).set! (i + 3) e

/-- Writes the checksum and its complement into the header at an offset, where the image reaches
that far. The sum is taken over a field whose bytes add up to the same as any such pair. -/
def writeChecksum (body : ByteArray) (header : Nat) : ByteArray :=
  let field := header + complementOffset
  if body.size < field + 4 then body
  else
    let cleared := setFour body field 0xFF 0xFF 0 0
    let sum := checksum cleared
    setFour cleared field (low (~~~sum)) (high (~~~sum)) (low sum) (high sum)

end RomLinker.Image
