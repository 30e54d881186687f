import RomLinker.Asar

/-!
Symbol files by sections. A file is read as if it were cut at its headings: the lines of its sections of
labels that are neither blank nor comments are its entries (`entries`), and its labels are those that the
entries are read as, each by itself (`parse_eq_entries`). The ends of lines do not matter, since all of a
line is trimmed.
-/
namespace RomLinker

namespace Text

theorem trim_append_front {front : List Char} (blank : ∀ c ∈ front, isBlank c = true) (cs : List Char) :
    trim (front ++ cs) = trim cs := by
  rw [trim, trimStart, List.dropWhile_append_of_pos blank]
  rfl

theorem trim_append_back {back : List Char} (blank : ∀ c ∈ back, isBlank c = true) (cs : List Char) :
    trim (cs ++ back) = trim cs := by
  unfold trim trimStart
  rw [List.dropWhile_append]
  split
  · rename_i all
    have nothing : back.dropWhile isBlank = [] := by
      rw [← List.append_nil back, List.dropWhile_append_of_pos blank]
      rfl
    rw [List.isEmpty_iff.mp all, nothing]
  · have turned : ∀ c ∈ back.reverse, isBlank c = true := fun c member => blank c (List.mem_reverse.mp member)
    unfold trimEnd
    rw [List.reverse_append, List.dropWhile_append_of_pos turned]

theorem trim_dropReturn (line : List Char) : trim (dropReturn line) = trim line := by
  unfold dropReturn
  split
  · rename_i last
    have blank : ∀ c ∈ ['\r'], isBlank c = true := by decide
    obtain ⟨front, rfl⟩ := List.getLast?_eq_some_iff.mp last
    rw [List.dropLast_concat, trim_append_back blank]
  · rfl

theorem linesBehind_line {cs : List Char} (whole : '\n' ∉ cs) (before : List Char) :
    linesBehind [] before cs = if before.isEmpty && cs.isEmpty then [] else [before.reverse ++ cs] := by
  induction cs generalizing before with
  | nil => cases before <;> simp [linesBehind]
  | cons c cs ih =>
    have other : c ≠ '\n' := fun same => whole (same ▸ List.mem_cons_self)
    have below : '\n' ∉ cs := fun member => whole (List.mem_cons_of_mem c member)
    rw [linesBehind, if_neg other, ih below]
    simp

theorem lines_line {cs : List Char} (whole : '\n' ∉ cs) : lines cs = if cs.isEmpty then [] else [cs] :=
  linesBehind_line whole []

end Text

namespace SymbolFile

section
variable {α : Type}

/-- The lines in front of the first heading, and each heading with the lines below it. -/
def sections (heading : α → Bool) : List α → List α × List (α × List α)
  | [] => ([], [])
  | line :: rest =>
    let (front, below) := sections heading rest
    if heading line then ([], (line, front) :: below) else (line :: front, below)

def isHeading (line : List Char) : Bool := line.head? == some '['

def isEntry (line : List Char) : Bool := line.head?.any (· != ';')

/-- The entries in sections whose lines say, trimmed, what `text` gives for them. -/
def entriesOf (text : α → List Char) (sections : List (α × List α)) : List α :=
  (sections.filter (text ·.1 == "[labels]".toList)).flatMap (·.2.filter (isEntry ∘ text))

/-- The entries of a file. What stands in front of the first heading is in no section. -/
def entries (text : α → List Char) (lines : List α) : List α :=
  entriesOf text (sections (isHeading ∘ text) lines).2

theorem entriesOf_cons (text : α → List Char) (line : α) (below : List α) (rest : List (α × List α)) :
    entriesOf text ((line, below) :: rest) =
      (if text line == "[labels]".toList then below.filter (isEntry ∘ text) else []) ++ entriesOf text rest := by
  unfold entriesOf
  rw [List.filter_cons]
  dsimp only
  split
  · rw [List.flatMap_cons]
  · rw [List.nil_append]

theorem sections_map {β : Type} (heading : β → Bool) (f : α → β) (lines : List α) :
    sections heading (lines.map f) = ((sections (heading ∘ f) lines).1.map f,
      (sections (heading ∘ f) lines).2.map fun s => (f s.1, s.2.map f)) := by
  induction lines with
  | nil => rfl
  | cons line lines ih =>
    rw [List.map_cons, sections, ih, sections]
    dsimp only [Function.comp]
    split <;> rfl

theorem entries_map {β : Type} (text : β → List Char) (f : α → β) (lines : List α) :
    entries text (lines.map f) = (entries (text ∘ f) lines).map f := by
  unfold entries entriesOf
  rw [sections_map]
  simp only [List.filter_map, List.flatMap_map, List.map_flatMap]
  rfl

end

/-- How one line is read: a heading says what the lines below it are, and an entry of a section of labels is
read by itself. -/
theorem ofLines_cons (inLabels : Bool) (line : List Char) (rest : List (List Char)) :
    ofLines inLabels (line :: rest) =
      if isHeading (Text.trim line) then ofLines (Text.trim line == "[labels]".toList) rest
      else (if inLabels ∧ isEntry (Text.trim line) then (label? (Text.trim line)).toList else []) ++
        ofLines inLabels rest := by
  rw [ofLines]
  split
  · rename_i blank
    rw [blank]
    simp [isHeading, isEntry]
  · rename_i comment
    rw [comment]
    simp [isHeading, isEntry]
  · rename_i name heading
    rw [heading]
    simp [isHeading]
  · rename_i filled comment heading
    cases text : Text.trim line with
    | nil => exact absurd text filled
    | cons c cs =>
      have entry : c ≠ ';' := fun same => comment cs (by rw [text, same])
      have inside : c ≠ '[' := fun same => heading cs (by rw [text, same])
      simp [isHeading, isEntry, entry, inside]

theorem ofLines_eq (inLabels : Bool) (lines : List (List Char)) :
    ofLines inLabels lines =
      ((if inLabels then (sections (isHeading ∘ Text.trim) lines).1.filter (isEntry ∘ Text.trim) else []) ++
        entries Text.trim lines).filterMap (label? ∘ Text.trim) := by
  induction lines generalizing inLabels with
  | nil => cases inLabels <;> rfl
  | cons line lines ih =>
    rw [ofLines_cons, entries, sections]
    dsimp only [Function.comp]
    by_cases heading : isHeading (Text.trim line)
    · rw [if_pos heading, if_pos heading, ih, entriesOf_cons]
      cases inLabels <;> rfl
    · rw [if_neg heading, if_neg heading, ih]
      cases inLabels with
      | false => rfl
      | true =>
        by_cases entry : isEntry (Text.trim line)
        · cases read : label? (Text.trim line) <;> simp [entry, entries, read]
        · simp [entry, entries]

/-- Where lines are cut does not matter, for their ends are trimmed, and what is blank is passed over. -/
theorem ofLines_lines (inLabels : Bool) (cs : List Char) :
    ofLines inLabels (Text.lines cs) = ofLines inLabels (cs.splitOn '\n') := by
  induction cs using Text.stretchInduction '\n' generalizing inLabels with
  | last cs whole =>
    rw [List.splitOn_eq_singleton whole, Text.lines_line whole]
    cases cs with
    | nil => rfl
    | cons c cs => rfl
  | below line rest whole ih =>
    have inner : ∀ c ∈ line, c ≠ '\n' := fun c member same => whole (same ▸ member)
    rw [Text.lines_append_cons inner, List.splitOn_append_cons_self, List.splitOn_eq_singleton whole,
      List.singleton_append, ofLines_cons, ofLines_cons, Text.trim_dropReturn, ih, ih]

theorem parse_eq_entries (text : String) :
    parse text = (entries Text.trim (text.toList.splitOn '\n')).filterMap (label? ∘ Text.trim) := by
  rw [parse, ofLines_lines, ofLines_eq]
  rfl

end SymbolFile
end RomLinker
