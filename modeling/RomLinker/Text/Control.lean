import RomLinker.Text.Numeral

/-!
Text for a terminal. A terminal takes some characters for commands and not for text; `visible`
writes those as escapes and leaves all others, so that what a log quotes cannot move the cursor or
change colours. No command is left in what it writes (`isCommand_eq_false_of_mem_visible`).
-/
namespace RomLinker.Text

/-- The commands that act at any place of a line: bell, backspace, form feed, escape and delete, and
the control characters behind the first 128. -/
def isCommand (c : Char) : Bool :=
  [0x07, 0x08, 0x0C, 0x1B, 0x7F].contains c.toNat || (0x80 ≤ c.toNat && c.toNat ≤ 0x9F)

/-- A command among the first 128 characters has two hex digits, and any other one braces. -/
def escape (c : Char) : List Char :=
  let digits := (fixedHex 2 c.toNat).map Char.toLower
  if c.toNat < 0x80 then '\\' :: 'x' :: digits else '\\' :: 'u' :: '\x7b' :: digits ++ ['\x7d']

def visibleChar (c : Char) : List Char := if isCommand c then escape c else [c]

def visible (s : String) : String := String.ofList (s.toList.flatMap visibleChar)

theorem isCommand_digit {d : Nat} (h : d < 16) : isCommand (digitChar d).toLower = false := by
  revert d
  decide

theorem isCommand_eq_false_of_mem_escape {c x : Char} (h : x ∈ escape c) : isCommand x = false := by
  have digits : ∀ y ∈ (fixedHex 2 c.toNat).map Char.toLower, isCommand y = false := by
    intro y hy
    obtain ⟨z, hz, rfl⟩ := List.mem_map.1 hy
    obtain ⟨d, hd, rfl⟩ := exists_digit_of_mem_fixedHex hz
    exact isCommand_digit hd
  unfold escape at h
  split at h <;> simp only [List.cons_append, List.mem_cons, List.mem_append, List.not_mem_nil,
    or_false] at h
  · obtain rfl | rfl | h := h
    · decide
    · decide
    · exact digits x h
  · obtain rfl | rfl | rfl | h | rfl := h
    · decide
    · decide
    · decide
    · exact digits x h
    · decide

theorem isCommand_eq_false_of_mem_visible {s : String} {x : Char} (h : x ∈ (visible s).toList) :
    isCommand x = false := by
  simp only [visible, String.toList_ofList, List.mem_flatMap] at h
  obtain ⟨c, _, hx⟩ := h
  unfold visibleChar at hx
  split at hx
  · exact isCommand_eq_false_of_mem_escape hx
  · simp_all

end RomLinker.Text
