import Std.Data.ExtTreeMap

/-!
Places on a disk. A place knows how deep it lies, so that places of different depth are told apart
without their names; a way leads from a directory to a place below it.
-/
namespace RomLinker

/-- A place, by the names from it up to the root. -/
structure Location where
  names : List String
  depth : Nat
  depth_eq : depth = names.length
deriving DecidableEq

namespace Location

@[ext] theorem ext {l m : Location} (h : l.names = m.names) : l = m := by
  obtain ⟨_, _, rfl⟩ := l
  obtain ⟨_, _, rfl⟩ := m
  cases h
  rfl

def root : Location := ⟨[], 0, rfl⟩

def child (l : Location) (name : String) : Location :=
  ⟨name :: l.names, l.depth + 1, by simp [l.depth_eq]⟩

/-- The directory that holds a place. The root holds itself. -/
def parent (l : Location) : Location := ⟨l.names.tail, l.depth - 1, by simp [l.depth_eq]⟩

@[simp] theorem parent_child (l : Location) (name : String) : (l.child name).parent = l := by
  ext1
  rfl

def order (l m : Location) : Ordering :=
  (compare l.depth m.depth).then (compare l.names m.names)

instance : Std.TransCmp order :=
  inferInstanceAs (Std.TransCmp (compareLex (compareOn depth) (compareOn names)))

instance : Std.LawfulEqCmp order where
  eq_of_compare h := by
    simp only [order, Ordering.then_eq_eq] at h
    exact ext (Std.LawfulEqCmp.eq_of_compare h.2)

end Location

/-- Names from a directory down to a place below it. -/
abbrev Way := List String

namespace Location

def way (l : Location) : Way := l.names.reverse

/-- The bytes of the path from the root, where a slash stands in front of each name. -/
def pathSize (l : Location) : Nat := l.names.foldr (fun name size => name.utf8ByteSize + 1 + size) 0

def wayTo? (l place : Location) : Option Way := l.way.isPrefixOf? place.way

def down (l : Location) (way : Way) : Location := way.foldl child l

end Location

/-- Ways in the order of a walk: names go by their bytes, and what is below a directory comes right
behind it. -/
def Way.sort (ways : List Way) : List Way := ways.mergeSort fun a b => (compare a b).isLE

end RomLinker
