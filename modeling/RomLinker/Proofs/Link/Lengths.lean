import Mathlib.Algebra.GroupWithZero.Nat
import Mathlib.Data.List.ReduceOption
import RomLinker.PrintMarker
import RomLinker.Proofs.Settings.Sections

/-!
What printed lines give, each line by the ones in front of it: `mainSize` for the length of the main part,
`sideSize` for those of the parts on the side, and `cleaned` for the addresses to clean.
-/
namespace RomLinker.PrintMarker

theorem map_zipIdx_concat {α β : Type} (f : List α → α → β) (xs : List α) (x : α) :
    ((xs ++ [x]).zipIdx.map fun y => f ((xs ++ [x]).take y.2) y.1) =
      (xs.zipIdx.map fun y => f (xs.take y.2) y.1) ++ [f xs x] := by
  have earlier : xs.zipIdx.map (fun y => f ((xs ++ [x]).take y.2) y.1) =
      xs.zipIdx.map fun y => f (xs.take y.2) y.1 := by
    refine List.map_congr_left fun y member => ?_
    have inside : y.2 < xs.length := List.snd_lt_of_mem_zipIdx member
    rw [List.take_append_of_le_length (Nat.le_of_lt inside)]
  rw [List.zipIdx_append, List.map_append, earlier, List.zipIdx_singleton, List.map_singleton,
    Nat.zero_add, List.take_left]

/-- What a line says of the bounds of the main part: a start, or an end. -/
def Line.bound? : Line → Option (Option Address)
  | .start start? => some start?
  | .stop _ => some none
  | .extra .. | .message => none

/-- The start that an end behind these lines belongs to: the last one, if no end has come since. -/
def opening? (before : List String) : Option Address :=
  (before.filterMap fun line => (Line.ofText line).bound?).getLast?.join

/-- The length from the start that a line ends to this end. -/
def mainLength (before : List String) (line : String) : Nat :=
  match Line.ofText line, opening? before with
  | .stop (some stop), some start => stop.toNat - start.toNat
  | _, _ => 0

def sideLength (line : String) : Nat :=
  match Line.ofText line with
  | .extra (some start) (some stop) => stop.toNat - start.toNat
  | _ => 0

def mainSize (lines : List String) : Nat :=
  (lines.zipIdx.map fun x => mainLength (lines.take x.2) x.1).sum

def sideSize (lines : List String) : Nat := (lines.map sideLength).sum

def Line.start? : Line → Option Address
  | .start start? => start?
  | .stop _ | .extra .. | .message => none

def firstStart? (lines : List String) : Option Address :=
  lines.findSome? fun line => (Line.ofText line).start?

/-- The address to clean that a line gives: the start of a part on the side, and the first start of the main
part if `capture` says so. -/
def cleanOf? (capture : Bool) (before : List String) (line : String) : Option Address :=
  match Line.ofText line with
  | .start start? => if (firstStart? before).isNone && capture then start? else none
  | .extra start? (some _) => start?
  | .extra _ none | .stop _ | .message => none

def cleaned (capture : Bool) (lines : List String) : List Address :=
  (lines.zipIdx.map fun x => cleanOf? capture (lines.take x.2) x.1).reduceOption

/-- A marker has its addresses, an end has a start that it belongs to, and no end lies before its start. -/
def Sound (before : List String) (line : String) : Prop :=
  match Line.ofText line with
  | .start start? => start?.isSome
  | .stop stop? => ∃ start stop, opening? before = some start ∧ stop? = some stop ∧ start ≤ stop
  | .extra start? stop? => ∃ start stop, start? = some start ∧ stop? = some stop ∧ start ≤ stop
  | .message => True

variable {before lines : List String} {line : String} {capture : Bool}

theorem opening?_concat :
    opening? (before ++ [line]) = (Line.ofText line).bound?.getD (opening? before) := by
  unfold opening?
  cases bound : (Line.ofText line).bound? with
  | none => simp [List.filterMap_append, bound]
  | some start? => simp [List.filterMap_append, bound]

theorem mainSize_concat : mainSize (before ++ [line]) = mainSize before + mainLength before line := by
  unfold mainSize
  rw [map_zipIdx_concat mainLength, List.sum_append, List.sum_singleton]

theorem sideSize_concat : sideSize (before ++ [line]) = sideSize before + sideLength line := by
  unfold sideSize
  rw [List.map_append, List.map_singleton, List.sum_append, List.sum_singleton]

theorem firstStart?_concat :
    firstStart? (before ++ [line]) = (firstStart? before).or (Line.ofText line).start? := by
  unfold firstStart?
  rw [List.findSome?_append, List.findSome?_singleton]

theorem cleaned_concat :
    cleaned capture (before ++ [line]) = cleaned capture before ++ (cleanOf? capture before line).toList := by
  unfold cleaned
  rw [map_zipIdx_concat (cleanOf? capture), List.reduceOption_append, List.reduceOption_singleton]

end RomLinker.PrintMarker
