/-!
Cutting text. `pieces` cuts at every character of a class, `lines` at line feeds, `words` at white
space; `trim` removes white space at both ends. `List.intercalate` undoes `pieces`, and a cut text
splits at every further cut (`pieces_append_cons`).
-/
namespace RomLinker.Text

/-- The ranges of Unicode's `White_Space` property, ends included. -/
def blankRanges : List (Nat × Nat) :=
  [(0x09, 0x0D), (0x20, 0x20), (0x85, 0x85), (0xA0, 0xA0), (0x1680, 0x1680), (0x2000, 0x200A),
    (0x2028, 0x2029), (0x202F, 0x202F), (0x205F, 0x205F), (0x3000, 0x3000)]

/-- White space, by which text is trimmed and cut into words. Most text is ASCII, of which the first two
ranges are all. -/
def isBlank (c : Char) : Bool :=
  if c.val < 0x80 then c == ' ' || (0x09 ≤ c.val && c.val ≤ 0x0D)
  else blankRanges.any fun (low, high) => low ≤ c.toNat && c.toNat ≤ high

/-- The property has twenty-five characters. -/
example : (blankRanges.map fun (low, high) => high + 1 - low).sum = 25 := by decide

/-- A character in front of the stretches of a text: one that cuts starts a stretch, any other one
joins the first. -/
def addToPieces (cut : Char → Bool) (c : Char) (ps : List (List Char)) : List (List Char) :=
  if cut c then [] :: ps
  else match ps with
    | [] => [[c]]
    | p :: ps => (c :: p) :: ps

/-- The stretches between the characters of a class, one more than there are such characters. -/
def pieces (cut : Char → Bool) (cs : List Char) : List (List Char) :=
  cs.foldr (addToPieces cut) [[]]

theorem pieces_cons (cut : Char → Bool) (c : Char) (cs : List Char) :
    pieces cut (c :: cs) = addToPieces cut c (pieces cut cs) := rfl

theorem pieces_ne_nil (cut : Char → Bool) (cs : List Char) : pieces cut cs ≠ [] := by
  cases cs with
  | nil => simp [pieces]
  | cons c cs =>
    simp only [pieces_cons, addToPieces]
    split
    · simp
    · split <;> simp

theorem pieces_of_none {cut : Char → Bool} {cs : List Char} (h : ∀ c ∈ cs, cut c = false) :
    pieces cut cs = [cs] := by
  induction cs with
  | nil => rfl
  | cons c cs ih =>
    simp only [List.mem_cons, forall_eq_or_imp] at h
    simp [pieces_cons, addToPieces, h.1, ih h.2]

theorem pieces_append_cons {cut : Char → Bool} {c : Char} (h : cut c) (a b : List Char) :
    pieces cut (a ++ c :: b) = pieces cut a ++ pieces cut b := by
  induction a with
  | nil => simp [addToPieces, h, pieces]
  | cons x a ih =>
    simp only [List.cons_append, pieces_cons, ih, addToPieces]
    split
    · rfl
    · cases e : pieces cut a with
      | nil => exact absurd e (pieces_ne_nil cut a)
      | cons p ps => rfl

/-- A list is one stretch without a separator, or such a stretch with a separator and a list below it. -/
theorem stretchInduction {α : Type} [DecidableEq α] (separator : α) {motive : List α → Prop}
    (last : ∀ xs, separator ∉ xs → motive xs)
    (below : ∀ xs rest, separator ∉ xs → motive rest → motive (xs ++ separator :: rest)) (xs : List α) :
    motive xs := by
  by_cases whole : separator ∈ xs
  · obtain ⟨front, rest, split, fresh⟩ := List.eq_append_cons_of_mem whole
    have shorter : rest.length < xs.length := by
      rw [split, List.length_append, List.length_cons]
      omega
    rw [split]
    exact below front rest fresh (stretchInduction separator last below rest)
  · exact last xs whole
termination_by xs.length

/-- A line loses the carriage return in front of its line feed. -/
def dropReturn (line : List Char) : List Char :=
  if line.getLast? = some '\r' then line.dropLast else line

/-- The lines of a text behind the lines in `done` and a line begun with the characters in `before`,
all of which come last first. A line feed ends a line; what follows the last line feed counts if it
holds anything, and keeps its carriage return. -/
def linesBehind (done : List (List Char)) (before : List Char) : List Char → List (List Char)
  | [] => if before.isEmpty then done.reverse else (before.reverse :: done).reverse
  | c :: cs =>
    if c = '\n' then linesBehind (dropReturn before.reverse :: done) [] cs
    else linesBehind done (c :: before) cs

def lines (cs : List Char) : List (List Char) := linesBehind [] [] cs

theorem linesBehind_eq (done : List (List Char)) (before cs : List Char) :
    linesBehind done before cs = done.reverse ++ linesBehind [] before cs := by
  induction cs generalizing done before with
  | nil =>
    simp only [linesBehind]
    split <;> simp
  | cons c cs ih =>
    simp only [linesBehind]
    split
    · rw [ih, ih [_]]
      simp
    · exact ih ..

theorem linesBehind_append_cons {line : List Char} (h : ∀ c ∈ line, c ≠ '\n')
    (before rest : List Char) :
    linesBehind [] before (line ++ '\n' :: rest) =
      dropReturn (before.reverse ++ line) :: lines rest := by
  induction line generalizing before with
  | nil => simp [linesBehind, linesBehind_eq [_], lines]
  | cons c line ih =>
    obtain ⟨hc, hl⟩ := List.forall_mem_cons.1 h
    simp [linesBehind, hc, ih hl]

theorem lines_append_cons {line : List Char} (h : ∀ c ∈ line, c ≠ '\n') (rest : List Char) :
    lines (line ++ '\n' :: rest) = dropReturn line :: lines rest :=
  linesBehind_append_cons h [] rest

def trimStart (cs : List Char) : List Char := cs.dropWhile isBlank

def trimEnd (cs : List Char) : List Char := (cs.reverse.dropWhile isBlank).reverse

def trim (cs : List Char) : List Char := trimEnd (trimStart cs)

/-- The longest stretches without white space. -/
def words (cs : List Char) : List (List Char) :=
  (pieces isBlank cs).filter (!·.isEmpty)

theorem words_append_cons {c : Char} (h : isBlank c) (a b : List Char) :
    words (a ++ c :: b) = words a ++ words b := by
  rw [words, pieces_append_cons h, List.filter_append, ← words, ← words]

/-- The text before and after the first character of a class. -/
def cutAt? (cut : Char → Bool) : List Char → Option (List Char × List Char)
  | [] => none
  | c :: cs => if cut c then some ([], cs) else (cutAt? cut cs).map fun (a, b) => (c :: a, b)

theorem cutAt?_append_cons {cut : Char → Bool} {c : Char} (h : cut c) {a : List Char}
    (before : ∀ x ∈ a, cut x = false) (b : List Char) :
    cutAt? cut (a ++ c :: b) = some (a, b) := by
  induction a with
  | nil => simp [cutAt?, h]
  | cons x a ih =>
    obtain ⟨hx, ha⟩ := List.forall_mem_cons.1 before
    simp [cutAt?, hx, ih ha]

/-- What follows `head`, if the text starts with it. -/
def dropHead? : List Char → List Char → Option (List Char)
  | [], cs => some cs
  | _ :: _, [] => none
  | h :: hs, c :: cs => if h = c then dropHead? hs cs else none

theorem dropHead?_eq_some {head cs rest : List Char} :
    dropHead? head cs = some rest ↔ cs = head ++ rest := by
  induction head generalizing cs with
  | nil => simp [dropHead?]
  | cons h hs ih =>
    cases cs with
    | nil => simp [dropHead?]
    | cons c cs =>
      by_cases e : h = c
      · simp [dropHead?, e, ih]
      · simp [dropHead?, e, Ne.symm e]

end RomLinker.Text
