import RomLinker.Assembler
import RomLinker.Proofs.Lines

/-!
Labels written as definitions and read back. A definition is a line of three words, and what comes back
of the address are its low 24 bits (`linesOf_definitions`).
-/
namespace RomLinker

namespace Text

/-- A word: there is something, and none of it is white space. -/
def Solid (s : String) : Prop := s ≠ "" ∧ ∀ c ∈ s.toList, isBlank c = false

variable {s : String}

theorem words_of_solid (solid : Solid s) : words s.toList = [s.toList] := by
  obtain ⟨filled, plain⟩ := solid
  have some : s.toList.isEmpty = false := by simpa using filled
  rw [words, pieces_of_none plain, List.filter_cons_of_pos (by simp [some]), List.filter_nil]

theorem Solid.oneLine (solid : Solid s) : OneLine s.toList := by
  intro c member
  have plain := solid.2 c member
  have feed : isBlank '\n' = true ∧ isBlank '\r' = true := by decide
  refine ⟨?_, ?_⟩
  · rintro rfl
    cases plain.symm.trans feed.1
  · rintro rfl
    cases plain.symm.trans feed.2

theorem solid_ofList {cs : List Char} (filled : cs ≠ []) (plain : ∀ c ∈ cs, isBlank c = false) :
    Solid (String.ofList cs) := by
  refine ⟨fun none => filled ?_, ?_⟩
  · simpa using congrArg String.toList none
  · simpa using plain

end Text

namespace Address

def low (a : Address) : Address := UInt32.ofNat (a.toNat % limit)

theorem solid_render (a : Address) : Text.Solid a.render := by
  refine Text.solid_ofList (List.cons_ne_nil _ _) fun c member => ?_
  rcases List.mem_cons.mp member with rfl | digit
  · decide
  · obtain ⟨d, small, rfl⟩ := Text.exists_digit_of_mem_fixedHex digit
    exact (Address.digitChar_plain small).2.1

end Address

namespace Label

def ofDefinition? (line : String) : Option Label :=
  match Text.words line.toList with
  | [name, ['='], value] => (Address.parse? (String.ofList value)).map (⟨String.ofList name, ·⟩)
  | _ => none

def low (l : Label) : Label := { l with address := l.address.low }

variable {l : Label} {labels : List Label}

theorem ofDefinition?_definition (solid : Text.Solid l.name) :
    ofDefinition? (l.name ++ " = " ++ l.address.render) = some l.low := by
  have split : (l.name ++ " = " ++ l.address.render).toList =
      l.name.toList ++ ' ' :: (['='] ++ ' ' :: l.address.render.toList) := by
    simp
  have words : Text.words (l.name ++ " = " ++ l.address.render).toList =
      [l.name.toList, ['='], l.address.render.toList] := by
    rw [split, Text.words_append_cons (by decide), Text.words_append_cons (by decide),
      Text.words_of_solid solid, Text.words_of_solid l.address.solid_render]
    rfl
  unfold ofDefinition?
  rw [words]
  simp only [String.ofList_toList, Address.parse?_render]
  rfl

theorem linesOf_definitions (solid : ∀ l ∈ labels, Text.Solid l.name) :
    (Text.linesOf (definitions labels)).map ofDefinition? = labels.map fun l => some l.low := by
  have text : definitions labels =
      String.join ((labels.map fun l => l.name ++ " = " ++ l.address.render).map (· ++ "\n")) := by
    rw [List.map_map]
    rfl
  have plain : ∀ s ∈ labels.map fun l => l.name ++ " = " ++ l.address.render, Text.OneLine s.toList := by
    intro s member
    obtain ⟨l, here, rfl⟩ := List.mem_map.mp member
    rw [String.toList_append, String.toList_append]
    have equals : Text.OneLine " = ".toList := by decide
    exact ((solid l here).oneLine.append equals).append l.address.solid_render.oneLine
  rw [text, Text.linesOf_join plain, List.map_map]
  refine List.map_congr_left fun l here => ?_
  exact ofDefinition?_definition (solid l here)

end Label
end RomLinker
