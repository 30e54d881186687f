import RomLinker.Proofs.Disk.Normal

/-!
What a normal form says of a path. A path leads from every directory to some place (`Path.resolve`), and its
normal form leads to the same (`resolve_normal`). Two normal forms that are not the same can be told apart by
how deep they lead from the root and from a directory far below it (`settled_inj`), so that the normal form of a
path is where it leads, and nothing else (`normal_eq_iff_resolve`).
-/
namespace RomLinker.Path

variable {p q : Path} {base : Location} {absolute absolute' : Bool} {ups ups' : Nat} {names names' : List String}

/-- The place that a path leads to, from the root if it is absolute and else from a directory. A void segment
leads nowhere, and neither does a step up from the root. -/
def resolve (p : Path) (base : Location) : Location :=
  p.segments.foldl Location.move (if p.isAbsolute then .root else base)

theorem resolve_eq_foldl_go (p : Path) (base : Location) : p.resolve base = p.components.foldl Location.go base :=
  (Location.foldl_go_components p base).symm

theorem resolve_normal (p : Path) (base : Location) : p.normal.resolve base = p.resolve base := by
  rw [resolve_eq_foldl_go, resolve_eq_foldl_go, components_normal, Location.foldl_go_normal]

theorem resolve_join (p q : Path) (base : Location) : (p.join q).resolve base = q.resolve (p.resolve base) := by
  cases absolute : q.isAbsolute with
  | true =>
    have alone : p.join q = q := by simp [join, absolute]
    rw [alone]
    simp only [resolve, absolute, if_true]
  | false =>
    obtain ⟨front, parts, joined⟩ := segments_join p
    obtain ⟨whole, start⟩ := joined q absolute
    have here : p.resolve base = front.foldl Location.move (if p.isAbsolute then .root else base) := by
      rcases parts with parts | parts
      · rw [resolve, parts]
      · have void : isVoid "" = true := by decide
        rw [resolve, parts, List.foldl_append, List.foldl_cons, List.foldl_nil, Location.move_of_void void]
    rw [here, resolve, whole, start, List.foldl_append, resolve, absolute, if_neg Bool.false_ne_true]

theorem names_foldl_settled (base : Location) : ((settled absolute ups names).foldl Location.go base).names =
    names.reverse ++ if absolute then [] else base.names.drop ups := by
  have down (names : List String) (l : Location) :
      ((names.map Component.name).foldl Location.go l).names = names.reverse ++ l.names := by
    induction names generalizing l with
    | nil => rfl
    | cons s names ih => simp [ih, Location.go, Location.child]
  have up (ups : Nat) (l : Location) :
      ((List.replicate ups Component.up).foldl Location.go l).names = l.names.drop ups := by
    induction ups generalizing l with
    | zero => rfl
    | succ ups ih => simp [List.replicate_succ, ih, Location.go, Location.parent]
  rw [settled, List.foldl_append, down]
  cases absolute with
  | true => rfl
  | false => exact congrArg _ (up ups base)

def deep (n : Nat) : Location := ⟨List.replicate n "a", n, List.length_replicate.symm⟩

theorem proper_deep (n : Nat) : (deep n).Proper := by
  intro name member
  rw [List.eq_of_mem_replicate member]
  exact ⟨by decide, by decide⟩

/-- What leads to the same place from the root and from deep below has come down to the same: steps up only
count where there is something above. -/
theorem settled_inj (same : ∀ base : Location, base.Proper →
      (settled absolute ups names).foldl Location.go base = (settled absolute' ups' names').foldl Location.go base) :
    settled absolute ups names = settled absolute' ups' names' := by
  have led (n : Nat) : names.reverse ++ (if absolute then [] else (deep n).names.drop ups) =
      names'.reverse ++ if absolute' then [] else (deep n).names.drop ups' := by
    rw [← names_foldl_settled, ← names_foldl_settled, same _ (proper_deep n)]
  have depth (n : Nat) : names.length + (if absolute then 0 else n - ups) =
      names'.length + if absolute' then 0 else n - ups' := by
    have lengths := congrArg List.length (led n)
    cases absolute <;> cases absolute' <;> simpa [deep] using lengths
  have top := depth 0
  have low := depth (ups + ups' + 1)
  have named : names = names' := by
    have root := led 0
    cases absolute <;> cases absolute' <;> simpa [deep] using root
  subst named
  cases absolute with
  | true =>
    cases absolute' with
    | true => rfl
    | false =>
      simp only [if_true, Bool.false_eq_true, if_false] at low
      omega
  | false =>
    cases absolute' with
    | true =>
      simp only [if_true, Bool.false_eq_true, if_false] at low
      omega
    | false =>
      simp only [Bool.false_eq_true, if_false] at low
      have heights : ups = ups' := by omega
      rw [heights]

theorem normal_eq_iff_resolve :
    p.normal = q.normal ↔ ∀ base : Location, base.Proper → p.resolve base = q.resolve base := by
  constructor
  · intro same base _
    rw [← resolve_normal p, same, resolve_normal]
  · intro same
    obtain ⟨ups, names, -, left⟩ := exists_settled p
    obtain ⟨ups', names', -, left'⟩ := exists_settled q
    rw [normal, normal, left, left']
    refine congrArg ofComponents (settled_inj fun base proper => ?_)
    rw [← left, ← left', Location.foldl_go_normal, Location.foldl_go_normal, ← resolve_eq_foldl_go,
      ← resolve_eq_foldl_go]
    exact same base proper

theorem normal_eq_iff_sameRoute : p.normal = q.normal ↔ p.normal.SameRoute q.normal := by
  have spelled (p : Path) : ofComponents p.normal.components = p.normal := by rw [components_normal, normal]
  constructor
  · exact congrArg components
  · intro same
    rw [← spelled p, ← spelled q, same]

theorem normal_normal (p : Path) : p.normal.normal = p.normal :=
  normal_eq_iff_resolve.mpr fun base _ => resolve_normal p base

theorem normal_join (p q : Path) : (p.join q).normal = (p.normal.join q).normal := by
  refine normal_eq_iff_resolve.mpr fun base _ => ?_
  rw [resolve_join, resolve_join, resolve_normal]

/-- For all paths: two have the same normal form, by its text or by its steps, exactly if they lead to the same
place from every directory. A normal form is its own, and it can stand in front of a joined path in place of
the path. It has no dots: its text is that of names, behind a slash if the path is absolute, and else behind
some steps up. -/
theorem normal_exact (p q : Path) :
    (p.normal = q.normal ↔ ∀ base : Location, base.Proper → p.resolve base = q.resolve base) ∧
    (p.normal = q.normal ↔ p.normal.SameRoute q.normal) ∧
    p.normal.normal = p.normal ∧
    (p.join q).normal = (p.normal.join q).normal ∧
    ∃ ups names, (∀ s ∈ names, Named s) ∧
      p.normal.components = settled p.isAbsolute ups names ∧
      p.normal.text = if p.isAbsolute then "/" ++ joinSegments names
        else joinSegments (List.replicate ups ".." ++ names) := by
  refine ⟨normal_eq_iff_resolve, normal_eq_iff_sameRoute, normal_normal p, normal_join p q, ?_⟩
  obtain ⟨ups, names, named, left⟩ := exists_settled p
  refine ⟨ups, names, named, ?_, ?_⟩
  · rw [components_normal, left]
  · rw [normal, left, text_ofComponents_settled named]

example : (Path.mk "a//../.././b/c/").normal = ⟨"../b/c"⟩ := by decide +kernel

end RomLinker.Path
