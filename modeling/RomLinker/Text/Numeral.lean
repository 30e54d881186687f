/-!
Numerals. Writing: `numeral` gives the shortest form in a base, `fixedHex` a fixed number of hex
digits. Reading: `word?` takes a 32-bit number in hex, `integer?` a signed 64-bit decimal; both take
a leading plus sign.
-/
namespace RomLinker.Text

/-- Digits up to fifteen, letters in upper case. -/
def digitChar (d : Nat) : Char :=
  if d < 10 then Char.ofNat (0x30 + d) else Char.ofNat (0x37 + d)

/-- The shortest numeral of `n`. A base below two has none and yields its last digit. -/
def numeral (base n : Nat) : List Char :=
  if _h : base < 2 ∨ n < base then [digitChar n]
  else numeral base (n / base) ++ [digitChar (n % base)]
termination_by n
decreasing_by exact Nat.div_lt_self (by omega) (by omega)

def decimal (n : Nat) : String := String.ofList (numeral 10 n)

def hex (n : Nat) : String := String.ofList (numeral 16 n)

/-- The last `width` hex digits of `n`, with zeros in front. -/
def fixedHex : Nat → Nat → List Char
  | 0, _ => []
  | width + 1, n => fixedHex width (n / 16) ++ [digitChar (n % 16)]

@[simp] theorem length_fixedHex (width n : Nat) : (fixedHex width n).length = width := by
  induction width generalizing n with
  | zero => rfl
  | succ width ih => simp [fixedHex, ih]

theorem exists_digit_of_mem_fixedHex {width n : Nat} {c : Char} (h : c ∈ fixedHex width n) :
    ∃ d < 16, c = digitChar d := by
  induction width generalizing n with
  | zero => cases h
  | succ width ih =>
    rcases List.mem_append.1 h with h | h
    · exact ih h
    · exact ⟨n % 16, Nat.mod_lt _ (by decide), List.mem_singleton.1 h⟩

def hexDigit? (c : Char) : Option Nat :=
  if '0' ≤ c ∧ c ≤ '9' then some (c.toNat - 0x30)
  else if 'a' ≤ c ∧ c ≤ 'f' then some (c.toNat - 0x57)
  else if 'A' ≤ c ∧ c ≤ 'F' then some (c.toNat - 0x37)
  else none

def isHexDigit (c : Char) : Bool := (hexDigit? c).isSome

theorem toNat_lt_of_isHexDigit {c : Char} (hex : isHexDigit c = true) : c.toNat < 0x80 := by
  unfold isHexDigit hexDigit? at hex
  have bound (high : Char) (le : c ≤ high) (ascii : high.toNat < 0x80) : c.toNat < 0x80 :=
    Nat.lt_of_le_of_lt (UInt32.le_iff_toNat_le.mp (Char.le_def.mp le)) ascii
  split at hex
  · rename_i range
    exact bound '9' range.2 (by decide)
  · split at hex
    · rename_i range
      exact bound 'f' range.2 (by decide)
    · split at hex
      · rename_i range
        exact bound 'F' range.2 (by decide)
      · cases hex

def decimalDigit? (c : Char) : Option Nat :=
  if '0' ≤ c ∧ c ≤ '9' then some (c.toNat - 0x30) else none

/-- The value of digits in a base, the most significant first, after digits worth `high`, if it is
below a bound. -/
def valueFrom? (base bound : Nat) (digit? : Char → Option Nat) : Nat → List Char → Option Nat
  | high, [] => some high
  | high, c :: cs =>
    match digit? c with
    | some d =>
      let value := high * base + d
      if value < bound then valueFrom? base bound digit? value cs else none
    | none => none

/-- The value of a numeral of at least one digit, if it is below a bound. -/
def value? (base bound : Nat) (digit? : Char → Option Nat) (cs : List Char) : Option Nat :=
  if cs.isEmpty then none else valueFrom? base bound digit? 0 cs

/-- A hex number of at most 32 bits, with an optional plus sign. -/
def word? (cs : List Char) : Option UInt32 :=
  let digits := match cs with
    | '+' :: rest => rest
    | _ => cs
  (value? 16 0x100000000 hexDigit? digits).map UInt32.ofNat

/-- A decimal number of at most 64 bits, with an optional sign. -/
def integer? (cs : List Char) : Option Int :=
  let (negative, digits) := match cs with
    | '+' :: rest => (false, rest)
    | '-' :: rest => (true, rest)
    | _ => (false, cs)
  if negative then (value? 10 (0x8000000000000000 + 1) decimalDigit? digits).map fun n => -n
  else (value? 10 0x8000000000000000 decimalDigit? digits).map fun n => n

end RomLinker.Text
