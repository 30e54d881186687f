import RomLinker.Context.Slot

/-!
What the slots hold. `Contexts.assignments` reads a slot, and everything about an assignment follows
from two facts: when it succeeds (`assign_ok_iff`) and what it adds (`assignments_assign`). After any
run of assignments a slot holds the first one of each resource, in order (`assignments_placeAll`).
-/
namespace RomLinker

def SlotKey.Fits (kind : ContextKind) : SlotKey → Prop
  | .aggregate => True
  | .index i => i < kind.capacity

instance (kind : ContextKind) : (slot : SlotKey) → Decidable (slot.Fits kind)
  | .aggregate => instDecidableTrue
  | .index i => Nat.decLt i kind.capacity

theorem Slot.add?_eq_some {s t : Slot} {a : Assignment} :
    s.add? a = some t ↔ (∀ b ∈ s.assignments, b.resource ≠ a.resource) ∧
      t = { s with assignments := s.assignments ++ [a] } := by
  unfold Slot.add?
  split
  · rename_i held
    obtain ⟨b, member, same⟩ := List.any_eq_true.mp held
    simp only [reduceCtorEq, false_iff, not_and]
    exact fun fresh => absurd (beq_iff_eq.mp same) (fresh b member)
  · rename_i free
    simp only [Option.some.injEq, eq_comm (a := t)]
    refine ⟨fun same => ⟨fun b member same => ?_, same⟩, fun h => h.2⟩
    exact free (List.any_eq_true.mpr ⟨b, member, beq_iff_eq.mpr same⟩)

namespace Context
variable {kind : ContextKind}

theorem slot?_isSome {c : Context kind} {slot : SlotKey} :
    (c.slot? slot).isSome ↔ slot.Fits kind := by
  cases slot <;> simp [slot?, SlotKey.Fits]

theorem assign_eq_ok {c d : Context kind} {slot : SlotKey} {a : Assignment}
    (h : c.assign slot a = .ok d) :
    ∃ before after, c.slot? slot = some before ∧ before.add? a = some after ∧
      d.slot? slot = some after ∧ ∀ other, other ≠ slot → d.slot? other = c.slot? other := by
  unfold assign at h
  split at h
  · split at h
    · rename_i after added
      cases h
      refine ⟨_, after, rfl, added, rfl, fun other different => ?_⟩
      cases other with
      | aggregate => exact absurd rfl different
      | index i => rfl
    · cases h
  · rename_i i
    split at h
    · rename_i bound
      split at h
      · rename_i after added
        cases h
        refine ⟨_, after, ?_, added, ?_, fun other different => ?_⟩
        · simp [slot?, bound]
        · simp [slot?, bound]
        · cases other with
          | aggregate => rfl
          | index j =>
            have apart : i ≠ j := fun same => different (congrArg SlotKey.index same.symm)
            simp [slot?, Vector.getElem?_set_ne bound apart]
      · cases h
    · cases h

theorem exists_assign_ok {c : Context kind} {slot : SlotKey} {a : Assignment} {before after : Slot}
    (found : c.slot? slot = some before) (added : before.add? a = some after) :
    ∃ d, c.assign slot a = .ok d := by
  cases slot with
  | aggregate =>
    cases found
    exact ⟨_, by simp only [assign, added]; rfl⟩
  | index i =>
    have fits : (SlotKey.index i).Fits kind := slot?_isSome.mp (by rw [found]; rfl)
    have bound : i < kind.capacity := fits
    have same : c.slots[i] = before := by simpa [slot?, bound] using found
    exact ⟨_, by simp only [assign, bound, same, added]; rfl⟩

end Context

namespace Contexts

/-- What a slot holds. A slot that the context does not have holds nothing. -/
def assignments (cs : Contexts) (kind : ContextKind) (slot : SlotKey) : List Assignment :=
  (((cs.get kind).slot? slot).map (·.assignments)).getD []

theorem assignments_of_slot? {cs : Contexts} {kind : ContextKind} {slot : SlotKey} {s : Slot}
    (found : (cs.get kind).slot? slot = some s) : cs.assignments kind slot = s.assignments := by
  simp [assignments, found]

@[simp] theorem assignments_empty (kind : ContextKind) (slot : SlotKey) :
    Contexts.empty.assignments kind slot = [] := by
  have blank : Contexts.empty.get kind = .empty := by cases kind <;> rfl
  cases slot with
  | aggregate => simp [assignments, blank, Context.slot?, Context.empty]
  | index i =>
    by_cases bound : i < kind.capacity <;>
      simp [assignments, blank, Context.slot?, Context.empty, bound]

theorem assign_eq_ok {cs next : Contexts} {kind : ContextKind} {slot : SlotKey} {a : Assignment}
    (h : cs.assign kind slot a = .ok next) :
    ∃ d, (cs.get kind).assign slot a = .ok d ∧ next = cs.set d := by
  unfold assign at h
  cases result : (cs.get kind).assign slot a with
  | error e => rw [result] at h; cases h
  | ok d => rw [result] at h; exact ⟨d, rfl, (Except.ok.inj h).symm⟩

theorem assignments_assign {cs next : Contexts} {kind : ContextKind} {slot : SlotKey}
    {a : Assignment} (h : cs.assign kind slot a = .ok next) (kind' : ContextKind)
    (slot' : SlotKey) :
    next.assignments kind' slot' =
      cs.assignments kind' slot' ++ if kind' = kind ∧ slot' = slot then [a] else [] := by
  obtain ⟨d, assigned, rfl⟩ := assign_eq_ok h
  obtain ⟨before, after, found, added, changed, frame⟩ := Context.assign_eq_ok assigned
  obtain ⟨_, rfl⟩ := Slot.add?_eq_some.mp added
  by_cases here : kind' = kind
  · subst here
    by_cases same : slot' = slot
    · subst same
      simp [assignments, found, changed]
    · simp [assignments, frame slot' same, same]
  · simp [assignments, get_set_other _ _ here, here]

theorem error_of_fits {cs : Contexts} {kind : ContextKind} {slot : SlotKey} {a : Assignment} {e : SlotFault}
    (fits : slot.Fits kind) (h : cs.assign kind slot a = .error e) : e = .alreadyAssigned kind slot := by
  unfold assign at h
  cases result : (cs.get kind).assign slot a with
  | ok d =>
    rw [result] at h
    cases h
  | error e' =>
    rw [result] at h
    cases h
    unfold Context.assign at result
    split at result
    · split at result
      · cases result
      · cases result
        rfl
    · split at result
      · split at result
        · cases result
        · cases result
          rfl
      · rename_i outside
        exact absurd fits outside

theorem assign_ok_iff {cs : Contexts} {kind : ContextKind} {slot : SlotKey} {a : Assignment} :
    (∃ next, cs.assign kind slot a = .ok next) ↔
      slot.Fits kind ∧ ∀ b ∈ cs.assignments kind slot, b.resource ≠ a.resource := by
  constructor
  · rintro ⟨next, h⟩
    obtain ⟨d, assigned, -⟩ := assign_eq_ok h
    obtain ⟨before, after, found, added, -, -⟩ := Context.assign_eq_ok assigned
    refine ⟨Context.slot?_isSome.mp (by rw [found]; rfl), ?_⟩
    rw [assignments_of_slot? found]
    exact (Slot.add?_eq_some.mp added).1
  · rintro ⟨fits, fresh⟩
    obtain ⟨before, found⟩ := Option.isSome_iff_exists.mp
      (Context.slot?_isSome (c := cs.get kind).mpr fits)
    rw [assignments_of_slot? found] at fresh
    obtain ⟨d, assigned⟩ := Context.exists_assign_ok found (Slot.add?_eq_some.mpr ⟨fresh, rfl⟩)
    exact ⟨cs.set d, by unfold assign; rw [assigned]; rfl⟩

/-- What an assignment comes to: the slot is out of range, or holds the resource, or takes it. -/
theorem assign_cases (cs : Contexts) (kind : ContextKind) (slot : SlotKey) (a : Assignment) :
    (∃ i, slot = .index i ∧ ¬slot.Fits kind ∧ cs.assign kind slot a = .error (.outOfRange kind i)) ∨
    (slot.Fits kind ∧ (∃ b ∈ cs.assignments kind slot, b.resource = a.resource) ∧
      cs.assign kind slot a = .error (.alreadyAssigned kind slot)) ∨
    (slot.Fits kind ∧ (∀ b ∈ cs.assignments kind slot, b.resource ≠ a.resource) ∧
      ∃ next, cs.assign kind slot a = .ok next) := by
  by_cases fits : slot.Fits kind
  · by_cases fresh : ∀ b ∈ cs.assignments kind slot, b.resource ≠ a.resource
    · exact Or.inr (Or.inr ⟨fits, fresh, assign_ok_iff.mpr ⟨fits, fresh⟩⟩)
    · have taken : ∃ b ∈ cs.assignments kind slot, b.resource = a.resource := by
        simpa using fresh
      have refused (next : Contexts) : cs.assign kind slot a ≠ .ok next :=
        fun same => fresh (assign_ok_iff.mp ⟨next, same⟩).2
      refine Or.inr (Or.inl ⟨fits, taken, ?_⟩)
      cases result : cs.assign kind slot a with
      | ok next => exact absurd result (refused next)
      | error e => rw [Contexts.error_of_fits fits result]
  · cases slot with
    | aggregate => exact absurd trivial fits
    | index i =>
      have outside : ¬i < kind.capacity := fits
      refine Or.inl ⟨i, rfl, fits, ?_⟩
      simp only [assign, Context.assign, dif_neg outside]
      rfl

end Contexts

/-! ### Runs -/

structure Placement where
  kind : ContextKind
  slot : SlotKey
  assignment : Assignment
deriving DecidableEq, Repr

namespace Contexts

/-- The contexts after a placement was asked for. One that fails changes nothing. -/
def place (cs : Contexts) (p : Placement) : Contexts :=
  match cs.assign p.kind p.slot p.assignment with
  | .ok next => next
  | .error _ => cs

def placeAll (cs : Contexts) (ps : List Placement) : Contexts := ps.foldl place cs

end Contexts

def addFirst (as : List Assignment) (a : Assignment) : List Assignment :=
  if as.any (·.resource == a.resource) then as else as ++ [a]

/-- What placements bring into a slot: the first one of each resource, in order. -/
def held (ps : List Placement) (kind : ContextKind) (slot : SlotKey) : List Assignment :=
  ((ps.filter fun p => p.kind = kind ∧ p.slot = slot).map (·.assignment)).foldl addFirst []

namespace Contexts

theorem assignments_place (cs : Contexts) (p : Placement) {kind : ContextKind} {slot : SlotKey}
    (fits : slot.Fits kind) :
    (cs.place p).assignments kind slot =
      if p.kind = kind ∧ p.slot = slot then addFirst (cs.assignments kind slot) p.assignment
      else cs.assignments kind slot := by
  unfold place
  cases result : cs.assign p.kind p.slot p.assignment with
  | ok next =>
    have fresh := (assign_ok_iff.mp ⟨next, result⟩).2
    have free : (cs.assignments p.kind p.slot).any (·.resource == p.assignment.resource) = false := by
      simpa using fresh
    rw [assignments_assign result]
    by_cases here : p.kind = kind ∧ p.slot = slot
    · obtain ⟨rfl, rfl⟩ := here
      simp [addFirst, free]
    · rw [if_neg (fun h => here ⟨h.1.symm, h.2.symm⟩), if_neg here, List.append_nil]
  | error e =>
    by_cases here : p.kind = kind ∧ p.slot = slot
    · obtain ⟨rfl, rfl⟩ := here
      have taken : (cs.assignments p.kind p.slot).any (·.resource == p.assignment.resource) = true := by
        cases taken : (cs.assignments p.kind p.slot).any (·.resource == p.assignment.resource) with
        | true => rfl
        | false =>
          obtain ⟨next, assigned⟩ := assign_ok_iff.mpr ⟨fits, by simpa using taken⟩
          rw [result] at assigned
          cases assigned
      simp [addFirst, taken]
    · simp [here]

/-- After any run of placements a slot holds what they bring into it. -/
theorem assignments_placeAll (ps : List Placement) {kind : ContextKind} {slot : SlotKey}
    (fits : slot.Fits kind) :
    (Contexts.empty.placeAll ps).assignments kind slot = held ps kind slot := by
  suffices run : ∀ cs : Contexts, (cs.placeAll ps).assignments kind slot =
      ((ps.filter fun p => p.kind = kind ∧ p.slot = slot).map (·.assignment)).foldl addFirst
        (cs.assignments kind slot) by
    rw [run, assignments_empty]
    rfl
  induction ps with
  | nil => intro cs; rfl
  | cons p ps ih =>
    intro cs
    change ((cs.place p).placeAll ps).assignments kind slot = _
    rw [ih, assignments_place cs p fits]
    by_cases here : p.kind = kind ∧ p.slot = slot <;> simp [here]

theorem mem_assignments_place {cs : Contexts} {p : Placement} {kind : ContextKind}
    {slot : SlotKey} {a : Assignment} (member : a ∈ (cs.place p).assignments kind slot) :
    a ∈ cs.assignments kind slot ∨ a = p.assignment := by
  unfold place at member
  split at member
  · rename_i next assigned
    rw [assignments_assign assigned, List.mem_append] at member
    rcases member with old | new
    · exact Or.inl old
    · split at new
      · exact Or.inr (List.mem_singleton.mp new)
      · cases new
  · exact Or.inl member

theorem mem_assignments_placeAll {ps : List Placement} {kind : ContextKind} {slot : SlotKey}
    {a : Assignment} (member : a ∈ (Contexts.empty.placeAll ps).assignments kind slot) :
    ∃ p ∈ ps, p.assignment = a := by
  suffices run : ∀ cs : Contexts, a ∈ (cs.placeAll ps).assignments kind slot →
      a ∈ cs.assignments kind slot ∨ ∃ p ∈ ps, p.assignment = a by
    rcases run _ member with old | asked
    · rw [assignments_empty] at old
      cases old
    · exact asked
  clear member
  induction ps with
  | nil => exact fun cs member => Or.inl member
  | cons p ps ih =>
    intro cs member
    rcases ih (cs.place p) member with old | ⟨q, later, rfl⟩
    · rcases mem_assignments_place old with old | rfl
      · exact Or.inl old
      · exact Or.inr ⟨p, List.mem_cons_self, rfl⟩
    · exact Or.inr ⟨q, List.mem_cons_of_mem _ later, rfl⟩

end Contexts

end RomLinker
