import RomLinker.Proofs.Dispatch.Text

/-!
Where lines stand in the dispatch lines of a context. The label of a slot is among the idle labels if
the slot is not used in its phase and in front of the slot's calls if it is, and nowhere else; the two
macros come last.
-/
namespace RomLinker
open Dispatch (Line)

namespace Slot

theorem mem_calls {s : Slot} {t : ResourceTable} {kind : ContextKind} {slot : SlotKey}
    {phase : Phase} {l : Line} (h : l ∈ s.calls t kind slot phase) :
    (∃ id, l = .setExtraBytes id kind slot) ∨ ∃ id, l = .call id phase := by
  obtain ⟨a, -, h⟩ := List.mem_flatMap.mp h
  unfold callLines at h
  split at h
  · cases h
  · rcases List.mem_append.mp h with h | h
    · split at h
      · exact Or.inl ⟨_, List.mem_singleton.mp h⟩
      · cases h
    · exact Or.inr ⟨_, List.mem_singleton.mp h⟩
  · split at h
    · exact Or.inr ⟨_, List.mem_singleton.mp h⟩
    · cases h

theorem calls_ne {s : Slot} {t : ResourceTable} {kind : ContextKind} {slot : SlotKey}
    {phase : Phase} {m : Line} (other : m.sort ≠ 1 ∧ m.sort ≠ 2) :
    m ∉ s.calls t kind slot phase := by
  intro h
  rcases mem_calls h with ⟨id, rfl⟩ | ⟨id, rfl⟩
  · exact other.1 rfl
  · exact other.2 rfl

end Slot

namespace Context
variable {kind : ContextKind}

theorem mem_idleLabels {s : Slot} {i : Nat} {l : Line} :
    l ∈ idleLabels kind s i ↔ ∃ phase, l = .label kind i phase ∧ s.isUsed phase = false := by
  constructor
  · intro h
    rcases List.mem_append.mp h with h | h
    · split at h
      · cases h
      · rename_i unused
        exact ⟨.frame, List.mem_singleton.mp h, by simpa [Slot.isUsed] using unused⟩
    · split at h
      · cases h
      · rename_i unused
        exact ⟨.nmi, List.mem_singleton.mp h, by simpa [Slot.isUsed] using unused⟩
  · rintro ⟨phase, rfl, unused⟩
    cases phase <;> simp_all [idleLabels, Slot.isUsed]

theorem mem_routine {t : ResourceTable} {phase : Phase} {s : Slot} {i : Nat} {l : Line}
    (h : l ∈ routine t kind phase s i) :
    l = .label kind i phase ∧ s.isUsed phase = true ∨ l ∈ s.calls t kind (.index i) phase ∨
      l = .leave ∨ l = .separator := by
  unfold routine at h
  split at h
  · rename_i used
    simp only [List.cons_append, List.mem_cons, List.mem_append, List.not_mem_nil, or_false] at h
    rcases h with h | h | h | h
    · exact Or.inl ⟨h, used⟩
    · exact Or.inr (Or.inl h)
    · exact Or.inr (Or.inr (Or.inl h))
    · exact Or.inr (Or.inr (Or.inr h))
  · cases h

theorem label_mem_routine {t : ResourceTable} {phase phase' : Phase} {s : Slot} {i j : Nat}
    {kind' : ContextKind} (h : Line.label kind' j phase' ∈ routine t kind phase s i) :
    kind' = kind ∧ j = i ∧ phase' = phase ∧ s.isUsed phase = true := by
  rcases mem_routine h with ⟨same, used⟩ | h | h | h
  · cases same
    exact ⟨rfl, rfl, rfl, used⟩
  · exact absurd h (Slot.calls_ne (by simp [Line.sort]))
  · cases h
  · cases h

def idle (c : Context kind) : List Line := c.numbered.flatMap fun (s, i) => idleLabels kind s i

def routines (t : ResourceTable) (c : Context kind) (phase : Phase) : List Line :=
  c.numbered.flatMap fun (s, i) => routine t kind phase s i

theorem dispatch_eq (t : ResourceTable) (c : Context kind) :
    c.dispatch t = c.idle ++ (.leave :: .separator :: (c.routines t .frame ++ (c.routines t .nmi ++
      (c.aggregateMacro t .frame ++ c.aggregateMacro t .nmi)))) := by
  simp [dispatch, idle, routines]

theorem mem_numbered {c : Context kind} {s : Slot} {i : Nat} :
    (s, i) ∈ c.numbered ↔ c.slots[i]? = some s := by
  rw [numbered, List.mem_zipIdx_iff_getElem?]
  simp

theorem mem_idle {c : Context kind} {l : Line} :
    l ∈ c.idle ↔ ∃ s i phase, c.slots[i]? = some s ∧ l = .label kind i phase ∧
      s.isUsed phase = false := by
  constructor
  · intro h
    obtain ⟨⟨s, i⟩, found, h⟩ := List.mem_flatMap.mp h
    obtain ⟨phase, same, unused⟩ := mem_idleLabels.mp h
    exact ⟨s, i, phase, mem_numbered.mp found, same, unused⟩
  · rintro ⟨s, i, phase, found, rfl, unused⟩
    exact List.mem_flatMap.mpr
      ⟨(s, i), mem_numbered.mpr found, mem_idleLabels.mpr ⟨phase, rfl, unused⟩⟩

theorem label_mem_routines {t : ResourceTable} {c : Context kind} {phase phase' : Phase} {j : Nat}
    {kind' : ContextKind} (h : Line.label kind' j phase' ∈ c.routines t phase) :
    kind' = kind ∧ phase' = phase ∧ ∃ s, c.slots[j]? = some s ∧ s.isUsed phase = true := by
  obtain ⟨⟨s, i⟩, found, h⟩ := List.mem_flatMap.mp h
  obtain ⟨kinds, rfl, phases, used⟩ := label_mem_routine h
  exact ⟨kinds, phases, s, mem_numbered.mp found, used⟩

theorem macroStart_notMem_routines {t : ResourceTable} {c : Context kind} {phase phase' : Phase}
    {kind' : ContextKind} : Line.macroStart kind' phase' ∉ c.routines t phase := by
  intro h
  obtain ⟨⟨s, i⟩, -, h⟩ := List.mem_flatMap.mp h
  rcases mem_routine h with ⟨same, -⟩ | h | h | h
  · cases same
  · exact Slot.calls_ne (by simp [Line.sort]) h
  · cases h
  · cases h

def aggregateBody (t : ResourceTable) (c : Context kind) (phase : Phase) : List Line :=
  let calls := c.aggregate.calls t kind .aggregate phase
  if c.aggregate.assignments.isEmpty then [] else
    match phase with
    | .frame => .reserve :: calls ++ [.release]
    | .nmi => calls

theorem aggregateMacro_eq (t : ResourceTable) (c : Context kind) (phase : Phase) :
    c.aggregateMacro t phase =
      .macroStart kind phase :: (c.aggregateBody t phase ++ [.macroEnd, .separator]) := rfl

theorem aggregateBody_ne {t : ResourceTable} {c : Context kind} {phase : Phase} {m : Line}
    (other : m.sort ≠ 1 ∧ m.sort ≠ 2 ∧ m.sort ≠ 7 ∧ m.sort ≠ 8) : m ∉ c.aggregateBody t phase := by
  intro h
  have calls : m ∉ c.aggregate.calls t kind .aggregate phase :=
    Slot.calls_ne ⟨other.1, other.2.1⟩
  unfold aggregateBody at h
  split at h
  · cases h
  · cases phase with
    | frame =>
      simp only [List.cons_append, List.mem_cons, List.mem_append, List.not_mem_nil, or_false] at h
      rcases h with rfl | h | rfl
      · exact other.2.2.1 rfl
      · exact calls h
      · exact other.2.2.2 rfl
    | nmi => exact calls h

theorem aggregateMacro_ne {t : ResourceTable} {c : Context kind} {phase : Phase} {m : Line}
    (other : m.sort = 0) : m ∉ c.aggregateMacro t phase := by
  rw [aggregateMacro_eq]
  intro h
  simp only [List.mem_cons, List.mem_append, List.not_mem_nil, or_false] at h
  rcases h with rfl | h | rfl | rfl
  · cases other
  · exact aggregateBody_ne (by omega) h
  · cases other
  · cases other

theorem macroStart_mem_aggregateMacro {t : ResourceTable} {c : Context kind}
    {phase phase' : Phase} {kind' : ContextKind}
    (h : Line.macroStart kind' phase' ∈ c.aggregateMacro t phase) :
    kind' = kind ∧ phase' = phase := by
  rw [aggregateMacro_eq] at h
  simp only [List.mem_cons, List.mem_append, List.not_mem_nil, or_false, reduceCtorEq] at h
  rcases h with same | h
  · cases same
    exact ⟨rfl, rfl⟩
  · exact absurd h (aggregateBody_ne (by simp [Line.sort]))

/-- The label of a slot that is not used runs into the shared return. -/
theorem dispatch_split_of_unused (t : ResourceTable) {c : Context kind} {s : Slot} {i : Nat}
    {phase : Phase} (found : c.slots[i]? = some s) (unused : s.isUsed phase = false) :
    ∃ before labels rest, c.dispatch t = before ++ .label kind i phase :: (labels ++ .leave :: rest) ∧
      .label kind i phase ∉ before ∧ ∀ l ∈ labels, l.isLabel = true := by
  obtain ⟨before, labels, split, fresh⟩ :=
    List.eq_append_cons_of_mem (mem_idle.mpr ⟨s, i, phase, found, rfl, unused⟩)
  refine ⟨before, labels, _, by rw [dispatch_eq, split, List.append_assoc]; rfl, fresh, ?_⟩
  intro l member
  have inside : l ∈ c.idle := by simp [split, member]
  obtain ⟨_, _, _, _, rfl, _⟩ := mem_idle.mp inside
  rfl

theorem label_notMem_idle_of_used {c : Context kind} {s : Slot} {i : Nat} {phase : Phase}
    (found : c.slots[i]? = some s) (used : s.isUsed phase = true) :
    .label kind i phase ∉ c.idle := by
  intro h
  obtain ⟨s', i', phase', found', same, unused⟩ := mem_idle.mp h
  cases same
  rw [found] at found'
  cases found'
  rw [used] at unused
  cases unused

theorem routines_split (t : ResourceTable) {c : Context kind} {s : Slot} {i : Nat} {phase : Phase}
    (found : c.slots[i]? = some s) (used : s.isUsed phase = true) :
    ∃ before rest, c.routines t phase = before ++ .label kind i phase ::
      (s.calls t kind (.index i) phase ++ .leave :: rest) ∧ .label kind i phase ∉ before := by
  obtain ⟨earlier, later, split, fresh⟩ :=
    List.eq_append_cons_of_mem (mem_numbered.mpr found)
  refine ⟨earlier.flatMap fun (s, i) => routine t kind phase s i,
    .separator :: later.flatMap fun (s, i) => routine t kind phase s i, ?_, ?_⟩
  · simp [routines, split, routine, used]
  · intro h
    obtain ⟨⟨s', i'⟩, member, h⟩ := List.mem_flatMap.mp h
    obtain ⟨-, rfl, -, -⟩ := label_mem_routine h
    have same : c.slots[i]? = some s' := mem_numbered.mp (by simp [split, member])
    rw [found] at same
    cases same
    exact fresh member

theorem dispatch_split_of_used (t : ResourceTable) {c : Context kind} {s : Slot} {i : Nat}
    {phase : Phase} (found : c.slots[i]? = some s) (used : s.isUsed phase = true) :
    ∃ before rest, c.dispatch t = before ++ .label kind i phase ::
      (s.calls t kind (.index i) phase ++ .leave :: rest) ∧ .label kind i phase ∉ before := by
  have idle := label_notMem_idle_of_used found used
  obtain ⟨before, rest, split, fresh⟩ := routines_split t found used
  cases phase with
  | frame =>
    refine ⟨c.idle ++ .leave :: .separator :: before, rest ++ (c.routines t .nmi ++
      (c.aggregateMacro t .frame ++ c.aggregateMacro t .nmi)), by rw [dispatch_eq, split]; simp, ?_⟩
    simp [idle, fresh]
  | nmi =>
    refine ⟨c.idle ++ .leave :: .separator :: (c.routines t .frame ++ before), rest ++
      (c.aggregateMacro t .frame ++ c.aggregateMacro t .nmi), by rw [dispatch_eq, split]; simp, ?_⟩
    have frames : .label kind i .nmi ∉ c.routines t .frame := by
      intro h
      have phases := (label_mem_routines h).2.1
      cases phases
    simp [idle, frames, fresh]

theorem dispatch_split_macro (t : ResourceTable) (c : Context kind) (phase : Phase) :
    ∃ before rest, c.dispatch t = before ++ .macroStart kind phase ::
      (c.aggregateBody t phase ++ .macroEnd :: rest) ∧ .macroStart kind phase ∉ before := by
  have idle : .macroStart kind phase ∉ c.idle := by
    intro h
    obtain ⟨_, _, _, _, same, _⟩ := mem_idle.mp h
    cases same
  have frames : .macroStart kind phase ∉ c.routines t .frame := macroStart_notMem_routines
  have nmis : .macroStart kind phase ∉ c.routines t .nmi := macroStart_notMem_routines
  cases phase with
  | frame =>
    refine ⟨c.idle ++ .leave :: .separator :: (c.routines t .frame ++ c.routines t .nmi),
      .separator :: c.aggregateMacro t .nmi, by rw [dispatch_eq, aggregateMacro_eq]; simp, ?_⟩
    simp [idle, frames, nmis]
  | nmi =>
    refine ⟨c.idle ++ .leave :: .separator ::
      (c.routines t .frame ++ (c.routines t .nmi ++ c.aggregateMacro t .frame)),
      [.separator], by rw [dispatch_eq, aggregateMacro_eq _ _ .nmi]; simp, ?_⟩
    have first : .macroStart kind .nmi ∉ c.aggregateMacro t .frame := by
      intro h
      cases (macroStart_mem_aggregateMacro h).2
    simp [idle, frames, nmis, first]

end Context
end RomLinker
