/-!
Results that may be faults. A step behind another one goes through exactly if both do, and what stops it is the fault
of the first one that does not. A list of steps is one behind the other, up to the first fault.
-/
namespace RomLinker.Except

variable {ε α β : Type} {x : Except ε α} {f : α → Except ε β} {b : β} {e : ε}

theorem exists_of_isOk (passes : x.isOk = true) : ∃ a, x = .ok a := by
  cases x with
  | error e => cases passes
  | ok a => exact ⟨a, rfl⟩

theorem bind_eq_ok : x >>= f = .ok b ↔ ∃ a, x = .ok a ∧ f a = .ok b := by
  cases x with
  | error e => simp [bind, Except.bind]
  | ok a => simp [bind, Except.bind]

theorem bind_eq_error : x >>= f = .error e ↔ x = .error e ∨ ∃ a, x = .ok a ∧ f a = .error e := by
  cases x with
  | error e => simp [bind, Except.bind]
  | ok a => simp [bind, Except.bind]

theorem map_eq_ok {g : α → β} : g <$> x = .ok b ↔ ∃ a, x = .ok a ∧ g a = b := by
  cases x with
  | error e => simp [Functor.map, Except.map]
  | ok a => simp [Functor.map, Except.map]

theorem map_eq_error {g : α → β} : g <$> x = .error e ↔ x = .error e := by
  cases x with
  | error e => simp [Functor.map, Except.map]
  | ok a => simp [Functor.map, Except.map]

theorem mapM_cons_eq_ok {a : α} {as : List α} {bs : List β} :
    (a :: as).mapM f = .ok bs ↔ ∃ b rest, f a = .ok b ∧ as.mapM f = .ok rest ∧ bs = b :: rest := by
  rw [List.mapM_cons, bind_eq_ok]
  constructor
  · rintro ⟨b, first, below⟩
    obtain ⟨rest, others, made⟩ := bind_eq_ok.mp below
    exact ⟨b, rest, first, others, (Except.ok.inj made).symm⟩
  · rintro ⟨b, rest, first, others, rfl⟩
    exact ⟨b, first, bind_eq_ok.mpr ⟨rest, others, rfl⟩⟩

theorem exists_of_mapM_eq_ok {as : List α} {bs : List β} (made : as.mapM f = .ok bs) :
    ∀ b ∈ bs, ∃ a ∈ as, f a = .ok b := by
  induction as generalizing bs with
  | nil =>
    cases made
    exact nofun
  | cons a as ih =>
    obtain ⟨first, rest, head, below, rfl⟩ := mapM_cons_eq_ok.mp made
    intro b member
    rcases List.mem_cons.mp member with rfl | later
    · exact ⟨a, List.mem_cons_self, head⟩
    · obtain ⟨a', inside, same⟩ := ih below b later
      exact ⟨a', List.mem_cons_of_mem _ inside, same⟩

theorem mapM_eq_error {as : List α} (failed : as.mapM f = .error e) : ∃ a ∈ as, f a = .error e := by
  induction as with
  | nil => cases failed
  | cons a as ih =>
    rw [List.mapM_cons] at failed
    rcases bind_eq_error.mp failed with first | ⟨b, -, below⟩
    · exact ⟨a, List.mem_cons_self, first⟩
    · rcases bind_eq_error.mp below with rest | ⟨bs, -, made⟩
      · obtain ⟨a', member, refused⟩ := ih rest
        exact ⟨a', List.mem_cons_of_mem _ member, refused⟩
      · cases made

end RomLinker.Except
