import RomLinker.Proofs.Numeral

/-!
Texts made of lines. A text written line by line is read back line by line (`linesOf_join`), where
no line holds a character that ends one.
-/
namespace RomLinker.Text

def linesOf (text : String) : List String := (lines text.toList).map String.ofList

instance decidableAllChars {p : Char → Prop} [DecidablePred p] (cs : List Char) : Decidable (∀ c ∈ cs, p c) :=
  List.decidableBAll p cs

/-- No character of the text ends a line or belongs to the end of one. -/
def OneLine (cs : List Char) : Prop := ∀ c ∈ cs, c ≠ '\n' ∧ c ≠ '\r'

instance (cs : List Char) : Decidable (OneLine cs) :=
  inferInstanceAs (Decidable (∀ c ∈ cs, c ≠ '\n' ∧ c ≠ '\r'))

theorem OneLine.append {cs ds : List Char} (left : OneLine cs) (right : OneLine ds) :
    OneLine (cs ++ ds) := by
  intro c member
  rcases List.mem_append.mp member with member | member
  · exact left c member
  · exact right c member

theorem digitChar_oneLine {d : Nat} (h : d < 16) : digitChar d ≠ '\n' ∧ digitChar d ≠ '\r' := by
  revert d
  decide

theorem oneLine_numeral {base : Nat} (two : 2 ≤ base) (small : base ≤ 16) (n : Nat) :
    OneLine (numeral base n) := by
  intro c member
  obtain ⟨d, below, rfl⟩ := exists_digit_of_mem_numeral two member
  exact digitChar_oneLine (by omega)

theorem oneLine_fixedHex (width n : Nat) : OneLine (fixedHex width n) := by
  intro c member
  obtain ⟨d, small, rfl⟩ := exists_digit_of_mem_fixedHex member
  exact digitChar_oneLine small

theorem dropReturn_of_oneLine {cs : List Char} (h : OneLine cs) : dropReturn cs = cs := by
  unfold dropReturn
  split
  · rename_i last
    exact absurd rfl (h _ (List.mem_of_getLast? last)).2
  · rfl

theorem linesOf_join {ss : List String} (h : ∀ s ∈ ss, OneLine s.toList) :
    linesOf (String.join (ss.map (· ++ "\n"))) = ss := by
  suffices chars : lines ((ss.map (· ++ "\n")).flatMap String.toList) = ss.map String.toList by
    rw [linesOf, String.toList_join, chars]
    simp
  induction ss with
  | nil => rfl
  | cons s ss ih =>
    obtain ⟨head, tail⟩ := List.forall_mem_cons.mp h
    have split : ((s :: ss).map (· ++ "\n")).flatMap String.toList =
        s.toList ++ '\n' :: (ss.map (· ++ "\n")).flatMap String.toList := by
      simp
    rw [split, lines_append_cons fun c member => (head c member).1, dropReturn_of_oneLine head,
      ih tail]
    rfl

end RomLinker.Text
