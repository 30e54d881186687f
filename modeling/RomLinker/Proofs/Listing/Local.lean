import RomLinker.Proofs.Listing.Recovery
import RomLinker.Proofs.Listing.Shift

/-!
What a line adds to the list. A blank line adds nothing; any other adds one statement or one fault
(`parsed_cases`), whatever stands above and below it (`parse_line_local`).
-/
namespace RomLinker.Listing

/-- White space that the list skips, with or without a comment behind it. -/
def Blank (cs : List Char) : Prop :=
  ∃ spaces comment, cs = spaces ++ comment ∧ (∀ c ∈ spaces, isSkipped c = true) ∧
    ∀ c ∈ comment.head?, c = ';'

theorem blank_nil : Blank [] := ⟨[], [], rfl, nofun, nofun⟩

theorem blank_cons {c : Char} {cs : List Char} :
    Blank (c :: cs) ↔ c = ';' ∨ (isSkipped c = true ∧ Blank cs) := by
  constructor
  · rintro ⟨spaces, comment, split, skipped, starts⟩
    cases spaces with
    | nil =>
      rw [List.nil_append] at split
      exact Or.inl (starts c (by rw [← split]; rfl))
    | cons x spaces =>
      obtain ⟨rfl, below⟩ := List.cons.inj split
      obtain ⟨first, rest⟩ := List.forall_mem_cons.mp skipped
      exact Or.inr ⟨first, spaces, comment, below, rest, starts⟩
  · rintro (rfl | ⟨first, spaces, comment, rfl, rest, starts⟩)
    · exact ⟨[], ';' :: cs, rfl, nofun, fun _ same => (Option.some.inj same).symm⟩
    · exact ⟨c :: spaces, comment, rfl, List.forall_mem_cons.mpr ⟨first, rest⟩, starts⟩

theorem blank_drop_spaces (cs : List Char) : Blank (cs.drop (cs.findIdx (!isSkipped ·))) ↔ Blank cs := by
  induction cs with
  | nil => exact Iff.rfl
  | cons c cs ih =>
    rw [List.findIdx_cons]
    cases skipped : isSkipped c with
    | false => exact Iff.rfl
    | true =>
      have other : c ≠ ';' := by
        rintro rfl
        cases skipped
      change Blank (cs.drop (cs.findIdx (!isSkipped ·))) ↔ _
      rw [ih, blank_cons]
      exact ⟨fun below => Or.inr ⟨skipped, below⟩, fun h => (h.resolve_left other).2⟩

/-- The first piece of a line is skipped and the others are blank just if all of the line is. -/
theorem blank_firstPiece (c : Char) (cs : List Char) :
    (firstPiece c cs).1 = .skipped ∧ Blank (cs.drop (firstPiece c cs).2) ↔ Blank (c :: cs) := by
  unfold firstPiece
  rw [blank_cons]
  split
  · rename_i skipped
    have other : c ≠ ';' := by
      rintro rfl
      cases skipped
    rw [blank_drop_spaces]
    exact ⟨fun h => Or.inr ⟨skipped, h.2⟩, fun h => ⟨rfl, (h.resolve_left other).2⟩⟩
  · rename_i plain
    split
    · rename_i comment
      dsimp only
      rw [List.drop_length]
      exact ⟨fun _ => Or.inl comment, fun _ => ⟨rfl, blank_nil⟩⟩
    · rename_i open'
      constructor
      · intro h
        have skipped := h.1
        split at skipped <;> cases skipped
      · intro h
        exact (h.elim open' fun h => plain h.1).elim

theorem place_cover_eq_nil (start : Nat) (cs : List Char) : place start (cover firstPiece cs) = [] ↔ Blank cs := by
  fun_induction cover firstPiece cs generalizing start with
  | case1 => exact ⟨fun _ => blank_nil, fun _ => rfl⟩
  | case2 c cs kind n first ih =>
    have piece := blank_firstPiece c cs
    rw [first] at piece
    rw [← piece, place, List.append_eq_nil_iff, ih]
    cases kind <;> simp [PieceKind.lexeme?]

theorem content_eq_nil (l : Line) : l.content = [] ↔ Blank l.text := by
  rw [Line.content, lexemesFrom_eq, place_cover_eq_nil]

theorem parsed_cases (l : Line) : (Blank l.text ∧ l.parsed = .empty) ∨
    (¬ Blank l.text ∧ ((∃ s, l.parsed = .ofStatement s) ∨ ∃ e, l.parsed = .ofFault e)) := by
  rw [← content_eq_nil]
  unfold Line.parsed Line.statement?
  cases l.content with
  | nil => exact Or.inl ⟨rfl, rfl⟩
  | cons x rest =>
    refine Or.inr ⟨nofun, ?_⟩
    cases x with
    | stray text span => exact Or.inr ⟨_, rfl⟩
    | token first =>
      dsimp only
      cases statement first rest l.ending with
      | error e => exact Or.inr ⟨e, rfl⟩
      | ok s => exact Or.inl ⟨s, rfl⟩

theorem parse_line {line ending : String} (whole : '\n' ∉ line.toList)
    (ends : ending = "" ∨ ending = "\n") :
    parse (line ++ ending) = (Line.mk 0 line.toList (ending = "\n")).parsed := by
  rw [parse_eq_collect, String.toList_append]
  rcases ends with rfl | rfl
  · change collect (linesFrom 0 (line.toList ++ [])) = _
    rw [List.append_nil, linesFrom_line whole]
    exact Parsed.append_empty _
  · change collect (linesFrom 0 (line.toList ++ '\n' :: [])) = _
    rw [linesFrom_append whole, collect_cons, collect_linesFrom_nil]
    exact Parsed.append_empty _

/-- The list is read line by line, faults included. A reader that knows no lines and has to find the
next one after a fault finds the same; a text below whole lines adds what it says by itself, moved
down; and a line adds nothing if it is blank, and else one statement or one fault. -/
theorem parse_line_local :
    (∀ source, readText source = parse source) ∧
    (∀ a b : String, (a = "" ∨ a.toList.getLast? = some '\n') →
      parse (a ++ b) = (parse a).append ((parse b).shift a.utf8ByteSize)) ∧
    ∀ line ending : String, '\n' ∉ line.toList → (ending = "" ∨ ending = "\n") →
      (Blank line.toList ∧ parse (line ++ ending) = .empty) ∨
      (¬ Blank line.toList ∧ ((∃ s, parse (line ++ ending) = .ofStatement s) ∨
        ∃ e, parse (line ++ ending) = .ofFault e)) := by
  refine ⟨readText_eq_parse, ?_, ?_⟩
  · intro a b ended
    have lines : Ended a.toList := ended.imp (fun none => by rw [none]; rfl) id
    exact parse_append lines b
  · intro line ending whole ends
    rw [parse_line whole ends]
    exact parsed_cases ⟨0, line.toList, ending = "\n"⟩

/-- A quote that nothing closes, and a line below that is none of its business. -/
theorem parse_line_local_quote :
    parse ("105 \"a\n" ++ "level:") =
        (parse "105 \"a\n").append ((parse "level:").shift ("105 \"a\n".utf8ByteSize)) ∧
      ((Blank "105 \"a".toList ∧ parse ("105 \"a" ++ "\n") = .empty) ∨
        (¬ Blank "105 \"a".toList ∧ ((∃ s, parse ("105 \"a" ++ "\n") = .ofStatement s) ∨
          ∃ e, parse ("105 \"a" ++ "\n") = .ofFault e))) :=
  ⟨parse_line_local.2.1 "105 \"a\n" "level:" (Or.inr (by decide)),
    parse_line_local.2.2 "105 \"a" "\n" (by decide) (Or.inr rfl)⟩

end RomLinker.Listing
