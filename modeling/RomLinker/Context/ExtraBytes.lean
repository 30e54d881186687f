import RomLinker.Context.Dispatch

/-!
Extra bytes: for each assignment of a resource a table of as many bytes as the resource asks for,
filled with the values of the list and then with zeros.
-/
namespace RomLinker.ExtraBytes

structure Table where
  label : String
  bytes : List UInt8
deriving DecidableEq, Repr

/-- The first `count` of the bytes, with zeros where there are not so many. -/
def fill (count : Nat) (bytes : List UInt8) : List UInt8 :=
  (List.range count).map fun i => bytes.getD i 0

/-- The tables of a resource. One that asks for no bytes has none. -/
def tables (cs : Contexts) (resource : Nat) (count : UInt8) : List Table :=
  if count = 0 then [] else
    ContextKind.all.flatMap fun kind =>
      ((cs.get kind).placesOf resource).map fun (slot, a) =>
        ⟨slot.label kind, fill count.toNat a.bytes⟩

def byteText (b : UInt8) : String := String.ofList ('$' :: Text.fixedHex 2 b.toNat)

def Table.text (t : Table) : String :=
  s!"..{t.label}:\n    db " ++ ",".intercalate (t.bytes.map byteText) ++ "\n"

def render (tables : List Table) : String := String.join (tables.map Table.text)

def fragment (cs : Contexts) (resource : Nat) (count : UInt8) : String :=
  render (tables cs resource count)

end RomLinker.ExtraBytes
