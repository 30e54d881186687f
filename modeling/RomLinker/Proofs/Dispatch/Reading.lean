import RomLinker.Proofs.Dispatch.Text
import RomLinker.Proofs.Slots

/-!
Reading the dispatch text. `routineAt?` follows a label down to the return that it runs into, and
`macroBody?` takes the body of a macro. What they find for a slot are the calls that were assigned to
it (`dispatch_reads_assigned`).
-/
namespace RomLinker.Dispatch

/-- What stands behind the first element that opens, in front of the next one that closes. -/
def between {α : Type} (opens closes : α → Bool) (xs : List α) : Option (List α) :=
  match xs.dropWhile (!opens ·) with
  | [] => none
  | _ :: below => if below.any closes then some (below.takeWhile (!closes ·)) else none

def isLabelLine (line : String) : Bool := line.toList.getLast? == some ':'

/-- What a jump to a label runs: the lines behind it up to the first return, without the labels that
stand among them. -/
def routineAt? (label : String) (text : String) : Option (List String) :=
  (between (· == label ++ ":") (· == "    rts") (Text.linesOf text)).map
    (·.filter (!isLabelLine ·))

def macroBody? (name : String) (text : String) : Option (List String) :=
  between (· == s!"macro {name}()") (· == "endmacro") (Text.linesOf text)

theorem between_eq {α : Type} {opens closes : α → Bool} {before body rest : List α} {a z : α}
    (fresh : ∀ x ∈ before, opens x = false) (first : opens a) (inside : ∀ x ∈ body, closes x = false)
    (last : closes z) : between opens closes (before ++ a :: (body ++ z :: rest)) = some body := by
  have start : (before ++ a :: (body ++ z :: rest)).dropWhile (!opens ·) = a :: (body ++ z :: rest) := by
    rw [List.dropWhile_append_of_pos (by simpa using fresh), List.dropWhile_cons_of_neg (by simp [first])]
  have stop : (body ++ z :: rest).takeWhile (!closes ·) = body := by
    rw [List.takeWhile_append_of_pos (by simpa using inside), List.takeWhile_cons_of_neg (by simp [last]),
      List.append_nil]
  rw [between, start]
  change (if (body ++ z :: rest).any closes then some ((body ++ z :: rest).takeWhile (!closes ·))
    else none) = some body
  rw [stop, if_pos (by simp [last])]

theorem between_map {α β : Type} (f : α → β) (opens closes : β → Bool) (xs : List α) :
    between opens closes (xs.map f) =
      (between (opens ∘ f) (closes ∘ f) xs).map (List.map f) := by
  unfold between
  rw [List.dropWhile_map]
  change (match (xs.dropWhile (!(opens ∘ f) ·)).map f with
    | [] => none
    | _ :: below => if below.any closes then some (below.takeWhile (!closes ·)) else none) = _
  cases xs.dropWhile (!(opens ∘ f) ·) with
  | nil => rfl
  | cons _ below =>
    simp only [List.map_cons, List.any_map, List.takeWhile_map]
    split <;> rfl

theorem between_render {ls before body rest : List Line} {a z : Line}
    (split : ls = before ++ a :: (body ++ z :: rest)) (fresh : a ∉ before) (inside : z ∉ body) :
    between (· == a.text) (· == z.text) (Text.linesOf (render ls)) = some (body.map Line.text) := by
  have apart {x : Line} {xs : List Line} (absent : x ∉ xs) :
      ∀ l ∈ xs, ((· == x.text) ∘ Line.text) l = false := by
    intro l member
    simp only [Function.comp_apply, beq_eq_false_iff_ne]
    intro same
    exact absent (Line.text_injective same ▸ member)
  rw [linesOf_render, between_map, split,
    between_eq (apart fresh) (by simp) (apart inside) (by simp), Option.map_some]

theorem routineAt?_render {ls before body rest : List Line} {kind : ContextKind} {i : Nat}
    {phase : Phase} (split : ls = before ++ .label kind i phase :: (body ++ .leave :: rest))
    (fresh : .label kind i phase ∉ before) (inside : .leave ∉ body) :
    routineAt? (SlotKey.label kind (.index i) ++ phase.mark ++ "JSLs") (render ls) =
      some ((body.filter (!·.isLabel)).map Line.text) := by
  have name : SlotKey.label kind (.index i) ++ phase.mark ++ "JSLs" ++ ":" =
      (Line.label kind i phase).text := by
    rw [← String.toList_inj, Line.toList_label]
    simp [SlotKey.label, SlotKey.tag, Text.hex]
  rw [routineAt?, name, ← Line.text_leave, between_render split fresh inside]
  simp only [Option.map_some, List.filter_map, Option.some.injEq]
  congr 1
  refine List.filter_congr fun l _ => ?_
  simp only [Function.comp_apply, isLabelLine, Line.getLast?_text]

theorem macroBody?_render {ls before body rest : List Line} {kind : ContextKind} {phase : Phase}
    (split : ls = before ++ .macroStart kind phase :: (body ++ .macroEnd :: rest))
    (fresh : .macroStart kind phase ∉ before) (inside : .macroEnd ∉ body) :
    macroBody? (kind.name ++ "All" ++ phase.mark ++ "JSLs") (render ls) =
      some (body.map Line.text) := by
  have name (body : String) : s!"macro {body}()" = "macro " ++ body ++ "()" := rfl
  have start : "macro " ++ (kind.name ++ "All" ++ phase.mark ++ "JSLs") ++ "()" =
      (Line.macroStart kind phase).text := by
    rw [← String.toList_inj, Line.toList_macroStart]
    simp
  rw [macroBody?, name, start, ← Line.text_macroEnd, between_render split fresh inside]

end RomLinker.Dispatch
