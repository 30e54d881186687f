import RomLinker.Proofs.Listing.Lines
import RomLinker.Proofs.Listing.Pieces

/-!
A text cut up without a look at its lines. A comment and a quote find their end by themselves here
(`firstOfText`), and the lexemes are those of the lines with their line feeds in between
(`lexemesOfText_append`).
-/
namespace RomLinker.Listing

/-- The first piece of a text of any number of lines. A comment and a quote have to look for the end
of their line; all other pieces end before it anyway. -/
def firstOfText (c : Char) (cs : List Char) : PieceKind × Nat :=
  if c = '\n' then (.token .newline, 0)
  else if c = ';' then (.skipped, cs.findIdx (· == '\n'))
  else if c = '"' then
    let n := cs.findIdx fun x => x == '"' || x == '\n'
    if cs[n]? = some '"' then (.token .quoted, n + 1) else (.stray, n)
  else firstPiece c cs

def lexemesOfText (start : Nat) (cs : List Char) : List Lexeme := place start (cover firstOfText cs)

theorem findIdx_congr {p q : Char → Bool} {cs : List Char} (same : ∀ x ∈ cs, p x = q x) :
    cs.findIdx p = cs.findIdx q := by
  induction cs with
  | nil => rfl
  | cons x cs ih =>
    obtain ⟨first, rest⟩ := List.forall_mem_cons.mp same
    rw [List.findIdx_cons, List.findIdx_cons, first, ih rest]

section
variable {c : Char} {cs behind : List Char}

theorem firstOfText_quote (ends : Ends behind) (whole : '\n' ∉ cs) :
    firstOfText '"' (cs ++ behind) = firstPiece '"' cs := by
  have inLine : ∀ x ∈ cs, (x == '"' || x == '\n') = (x == '"') := by
    intro x member
    have other : x ≠ '\n' := fun same => whole (same ▸ member)
    simp [other]
  have reach : (cs ++ behind).findIdx (fun x => x == '"' || x == '\n') = cs.findIdx (· == '"') := by
    rw [findIdx_append_of_stops (ends.forall rfl)]
    exact findIdx_congr inLine
  have text : firstOfText '"' (cs ++ behind) =
      if (cs ++ behind)[cs.findIdx (· == '"')]? = some '"'
      then (.token .quoted, cs.findIdx (· == '"') + 1) else (.stray, cs.findIdx (· == '"')) := by
    rw [← reach]
    rfl
  have line : firstPiece '"' cs =
      if cs[cs.findIdx (· == '"')]? = some '"'
      then (.token .quoted, cs.findIdx (· == '"') + 1) else (.stray, cs.length) := by
    have rule : longest '"' cs = quoted? cs := rfl
    rw [firstPiece, if_neg (by decide), if_neg (by decide), rule, quoted?]
    by_cases closed : cs[cs.findIdx (· == '"')]? = some '"'
    · rw [if_pos closed, if_pos closed]
      rfl
    · rw [if_neg closed, if_neg closed]
      rfl
  rw [text, line]
  -- closed in the line, or else both searches end with the line, and what ends it is no quote
  rcases Nat.lt_or_ge (cs.findIdx (· == '"')) cs.length with inside | outside
  · have quote : cs[cs.findIdx (· == '"')]? = some '"' := by
      have found := List.findIdx_getElem (w := inside)
      rw [List.getElem?_eq_getElem inside, eq_of_beq found]
    rw [List.getElem?_append_left inside, if_pos quote, if_pos quote]
  · have all : cs.findIdx (· == '"') = cs.length :=
      Nat.le_antisymm List.findIdx_le_length outside
    have first : (cs ++ behind)[cs.length]? = behind.head? := by
      rw [List.getElem?_append_right (Nat.le_refl _), Nat.sub_self, List.head?_eq_getElem?]
    have open' : behind.head? ≠ some '"' := by
      intro quote
      exact absurd (ends '"' quote) (by decide)
    have none' : cs[cs.length]? ≠ some '"' := by simp
    rw [all, first, if_neg open', if_neg none']

theorem firstOfText_append (ends : Ends behind) (whole : '\n' ∉ c :: cs) :
    firstOfText c (cs ++ behind) = firstPiece c cs := by
  have other : c ≠ '\n' := fun same => whole (same ▸ List.mem_cons_self)
  have inLine : '\n' ∉ cs := fun member => whole (List.mem_cons_of_mem c member)
  by_cases comment : c = ';'
  · have rest : (cs ++ behind).findIdx (· == '\n') = cs.length := by
      rw [findIdx_append_of_stops (ends.forall rfl), List.findIdx_eq_length]
      intro x member
      have fresh : x ≠ '\n' := fun same => inLine (same ▸ member)
      simp [fresh]
    have line : firstPiece c cs = (.skipped, cs.length) := by
      subst comment
      rfl
    rw [firstOfText, if_neg other, if_pos comment, rest, line]
  · by_cases quote : c = '"'
    · subst quote
      exact firstOfText_quote ends inLine
    · have skipped : (cs ++ behind).findIdx (!isSkipped ·) = cs.findIdx (!isSkipped ·) :=
        findIdx_append_of_stops (ends.forall rfl) cs
      rw [firstOfText, if_neg other, if_neg comment, if_neg quote, firstPiece, firstPiece, skipped,
        if_neg comment, if_neg comment, if_neg quote, if_neg quote, longest_append ends.halts quote]

/-- Up to the end of its first line, a text is cut like that line. -/
theorem cover_append (ends : Ends behind) (whole : '\n' ∉ cs) :
    cover firstOfText (cs ++ behind) = cover firstPiece cs ++ cover firstOfText behind := by
  induction hn : cs.length using Nat.strongRecOn generalizing cs with
  | ind n ih =>
    cases cs with
    | nil => rw [cover_nil, List.nil_append, List.nil_append]
    | cons c cs =>
      have first := firstOfText_append ends whole
      have reach := firstPiece_le c cs
      have inLine : '\n' ∉ cs.drop (firstPiece c cs).2 := by
        intro member
        exact whole (List.mem_cons_of_mem c (List.mem_of_mem_drop member))
      have shorter : (cs.drop (firstPiece c cs).2).length < n := by
        rw [← hn, List.length_drop, List.length_cons]
        omega
      rw [List.cons_append, cover_cons, first, cover_cons, List.take_append_of_le_length reach,
        List.drop_append_of_le_length reach, ih _ shorter inLine rfl, List.cons_append]

theorem place_append (start : Nat) (pieces rest : List (PieceKind × List Char)) :
    place start (pieces ++ rest) =
      place start pieces ++ place (start + size (pieces.map (·.2)).flatten) rest := by
  induction pieces generalizing start with
  | nil => rfl
  | cons piece pieces ih =>
    obtain ⟨kind, text⟩ := piece
    simp only [List.cons_append, place, ih, List.map_cons, List.flatten_cons, size_append,
      List.append_assoc, Nat.add_assoc]

theorem lexemesOfText_line (start : Nat) (whole : '\n' ∉ cs) :
    lexemesOfText start cs = lexemesFrom start cs := by
  have cut := cover_append ends_nil whole
  rw [List.append_nil, cover_nil, List.append_nil] at cut
  rw [lexemesOfText, cut, lexemesFrom_eq]

theorem lexemesOfText_append (start : Nat) (whole : '\n' ∉ cs) (rest : List Char) :
    lexemesOfText start (cs ++ '\n' :: rest) =
      lexemesFrom start cs ++ .token ⟨.newline, "\n", ⟨start + size cs, start + size cs + 1⟩⟩ ::
        lexemesOfText (start + size cs + 1) rest := by
  have feed : cover firstOfText ('\n' :: rest) =
      (.token .newline, ['\n']) :: cover firstOfText rest := by
    rw [cover_cons]
    rfl
  rw [lexemesOfText, cover_append (ends_cons rest) whole, place_append, flatten_cover, feed,
    lexemesFrom_eq]
  rfl

end

end RomLinker.Listing
