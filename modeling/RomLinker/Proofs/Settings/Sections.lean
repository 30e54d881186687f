import RomLinker.Proofs.Resources
import RomLinker.Proofs.Slots
import RomLinker.Settings

/-!
What a list says, without a draft. `placed` finds every item under its most recent header, and
`Accepts` is what an item needs, given the items in front of it.
-/
namespace RomLinker

def EachAfter {α : Type} (passes : List α → α → Prop) (xs : List α) : Prop :=
  ∀ before x after, xs = before ++ x :: after → passes before x

namespace EachAfter
variable {α : Type} {passes : List α → α → Prop} {xs ys : List α} {x : α}

theorem nil : EachAfter passes [] := by
  intro before x after split
  cases before <;> cases split

theorem front (all : EachAfter passes (xs ++ ys)) : EachAfter passes xs :=
  fun before x after split => all before x (after ++ ys) (by rw [split]; simp)

theorem concat_iff : EachAfter passes (xs ++ [x]) ↔ EachAfter passes xs ∧ passes xs x := by
  refine ⟨fun all => ⟨all.front, all xs x [] rfl⟩, ?_⟩
  rintro ⟨old, last⟩ before y after split
  rcases List.eq_nil_or_concat after with rfl | ⟨after, z, rfl⟩
  · obtain ⟨rfl, same⟩ := List.append_inj' split rfl
    cases same
    exact last
  · have cut : xs ++ [x] = (before ++ y :: after) ++ [z] := by simpa using split
    obtain ⟨rfl, -⟩ := List.append_inj' cut rfl
    exact old before y after rfl

end EachAfter

namespace Listing

inductive Command where
  | verbose
  | rom
  | file (role : FileRole)
  | freeram
deriving DecidableEq

namespace Statement

def command? : Statement → Option Command
  | .verbose .. => some .verbose
  | .rom .. => some .rom
  | .file role .. => some (.file role)
  | .freeram .. => some .freeram
  | .header .. | .slot .. => none

def header? : Statement → Option ContextKind
  | .header kind _ => some kind
  | _ => none

def line? : Statement → Option (SlotKey × List Item)
  | .slot place _ items _ => some (place, items)
  | _ => none

end Statement

def count (statements : List Statement) (c : Command) : Nat :=
  statements.countP (·.command? == some c)

/-- The context of the section that the statements end in. -/
def heading? (statements : List Statement) : Option ContextKind :=
  (statements.filterMap Statement.header?).getLast?

/-- An item, with the slot of its line and the context of its section. -/
structure Placed where
  kind : ContextKind
  slot : SlotKey
  item : Item
deriving DecidableEq

namespace Placed

def file (p : Placed) : Path := (Path.mk p.kind.directory).join ⟨p.item.file⟩

/-- The name that counts for the number of the resource. -/
@[irreducible] def name (p : Placed) : Path := p.file.normal

theorem normal_file (p : Placed) : p.file.normal = p.name := by
  unfold name
  rfl

end Placed

def placedIn (section? : Option ContextKind) (s : Statement) : List Placed :=
  match section?, s.line? with
  | some kind, some (slot, items) => items.map fun item => ⟨kind, slot, item⟩
  | _, _ => []

/-- The items of a list in order. A line in front of the first header places nothing. -/
def placedFrom (section? : Option ContextKind) : List Statement → List Placed
  | [] => []
  | s :: rest => placedIn section? s ++ placedFrom (s.header?.or section?) rest

abbrev placed (statements : List Statement) : List Placed := placedFrom none statements

@[simp] theorem count_concat (xs : List Statement) (s : Statement) (c : Command) :
    count (xs ++ [s]) c = count xs c + if s.command? = some c then 1 else 0 := by
  simp [count, List.countP_append, List.countP_cons]

theorem line?_of_command {s : Statement} {c : Command} (command : s.command? = some c) :
    s.line? = none := by
  cases s <;> first | rfl | cases command

theorem header?_of_command {s : Statement} {c : Command} (command : s.command? = some c) :
    s.header? = none := by
  cases s <;> first | rfl | cases command

theorem placedIn_of_bare {section? : Option ContextKind} {s : Statement} (bare : s.line? = none) :
    placedIn section? s = [] := by
  unfold placedIn
  rw [bare]
  cases section? <;> rfl

theorem heading?_concat (xs : List Statement) (s : Statement) :
    heading? (xs ++ [s]) = s.header?.or (heading? xs) := by
  unfold heading?
  cases h : s.header? <;> simp [h]

theorem heading?_isSome {xs : List Statement} :
    (heading? xs).isSome ↔ ∃ s ∈ xs, s.header?.isSome := by
  simp [heading?, Option.isSome_iff_ne_none]

theorem placedFrom_concat (section? : Option ContextKind) (xs : List Statement) (s : Statement) :
    placedFrom section? (xs ++ [s]) =
      placedFrom section? xs ++ placedIn ((heading? xs).or section?) s := by
  induction xs generalizing section? with
  | nil => simp [placedFrom, heading?]
  | cons x xs ih =>
    have here : (heading? xs).or (x.header?.or section?) = (heading? (x :: xs)).or section? := by
      unfold heading?
      cases h : x.header? <;> cases rest : (xs.filterMap Statement.header?).getLast? <;>
        simp [h, rest, List.getLast?_cons]
    rw [List.cons_append, placedFrom, placedFrom, ih, here, List.append_assoc]

theorem placed_concat (xs : List Statement) (s : Statement) :
    placed (xs ++ [s]) = placed xs ++ placedIn (heading? xs) s := by
  rw [placed, placedFrom_concat, Option.or_none]

/-- The number of an item's resource: the place of its name among those of the list. -/
def number (items : List Placed) (p : Placed) : Nat :=
  (items.map Placed.name).eraseDups.idxOf p.name

/-- What an item needs: a file, unless an earlier one has its name, directives that can be read, as
many bytes as these ask for or none, and a slot that does not hold the resource yet. -/
structure Accepts (w : Workspace) (d : Disk) (before : List Placed) (p : Placed) : Prop where
  file : d.isFile (w.path p.file) ∨ ∃ q ∈ before, q.name = p.name
  bytes : ∃ directives, directivesOf? w d p.name = some directives ∧
    (p.item.bytes = [] ∨ p.item.bytes.length = directives.extraBytes.toNat)
  fits : p.slot.Fits p.kind
  fresh : ∀ q ∈ before, q.kind = p.kind → q.slot = p.slot → q.name ≠ p.name

theorem number_concat {items : List Placed} {q : Placed} (p : Placed) (member : q ∈ items) :
    number (items ++ [p]) q = number items q := by
  unfold number
  rw [List.map_append, idxOf_eraseDups_append (List.mem_map_of_mem member)]

theorem number_eq_iff {items : List Placed} {p q : Placed} (member : q ∈ items) :
    number items q = number items p ↔ q.name = p.name :=
  idxOf_eraseDups_inj (List.mem_map_of_mem member)

end Listing
end RomLinker
