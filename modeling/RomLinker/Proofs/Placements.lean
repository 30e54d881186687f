import Mathlib.Data.List.Nodup
import Mathlib.Data.List.Perm.Basic
import RomLinker.Proofs.Requests
import RomLinker.Proofs.Slots

/-!
What any run of placements leaves in the slots (`placements_recorded`). A slot holds the placements that it
was granted, in order and no resource twice; placements in different slots do not meet, because each acts on
its own slot only (`slot?_place`); and the places of a resource are listed from the aggregate slot on.
-/
namespace RomLinker

namespace SlotKey

def Precedes : SlotKey → SlotKey → Prop
  | .aggregate, .index _ => True
  | .index i, .index j => i < j
  | _, .aggregate => False

def all (kind : ContextKind) : List SlotKey := .aggregate :: (List.range kind.capacity).map .index

theorem mem_all {kind : ContextKind} {slot : SlotKey} : slot ∈ all kind ↔ slot.Fits kind := by
  unfold all
  cases slot <;> simp [Fits]

theorem pairwise_all (kind : ContextKind) : (all kind).Pairwise Precedes := by
  refine List.pairwise_cons.mpr ⟨fun slot member => ?_, ?_⟩
  · obtain ⟨i, -, rfl⟩ := List.mem_map.mp member
    exact trivial
  · exact List.pairwise_map.mpr List.pairwise_lt_range

theorem Precedes.ne {slot slot' : SlotKey} (before : slot.Precedes slot') : slot ≠ slot' := by
  rintro rfl
  cases slot with
  | aggregate => exact before
  | index i => exact Nat.lt_irrefl i before

end SlotKey

namespace Context
variable {kind : ContextKind} {c : Context kind} {slot : SlotKey} {id : Nat}

def assignments (c : Context kind) (slot : SlotKey) : List Assignment :=
  ((c.slot? slot).map (·.assignments)).getD []

theorem indexed_eq (c : Context kind) :
    c.indexed = (SlotKey.all kind).map fun slot => (slot, (c.slot? slot).getD {}) := by
  unfold indexed SlotKey.all
  rw [List.map_cons, List.map_map]
  refine congrArg (List.cons _) (List.ext_getElem (by simp) fun i bound _ => ?_)
  have inside : i < kind.capacity := by simpa using bound
  simp [slot?, inside]

theorem placesOf_eq (c : Context kind) (id : Nat) :
    c.placesOf id = (SlotKey.all kind).flatMap fun slot =>
      ((c.assignments slot).filter (·.resource == id)).map (slot, ·) := by
  unfold placesOf
  rw [indexed_eq, List.flatMap_map]
  refine List.flatMap_congr fun slot _ => ?_
  unfold assignments
  cases c.slot? slot <;> rfl

theorem mem_placesOf {a : Assignment} :
    (slot, a) ∈ c.placesOf id ↔ a ∈ c.assignments slot ∧ a.resource = id := by
  rw [placesOf_eq]
  constructor
  · intro member
    obtain ⟨slot', -, inside⟩ := List.mem_flatMap.mp member
    obtain ⟨a', held, same⟩ := List.mem_map.mp inside
    cases same
    obtain ⟨held, named⟩ := List.mem_filter.mp held
    exact ⟨held, eq_of_beq named⟩
  · rintro ⟨held, rfl⟩
    have fits : slot.Fits kind := by
      refine slot?_isSome (c := c).mp ?_
      unfold assignments at held
      cases found : c.slot? slot with
      | none =>
        rw [found] at held
        cases held
      | some s => rfl
    refine List.mem_flatMap.mpr ⟨slot, SlotKey.mem_all.mpr fits, List.mem_map.mpr ⟨a, ?_, rfl⟩⟩
    exact List.mem_filter.mpr ⟨held, beq_self_eq_true _⟩

theorem pairwise_placesOf
    (distinct : ∀ slot, (c.assignments slot).Pairwise fun a b => a.resource ≠ b.resource) (id : Nat) :
    (c.placesOf id).Pairwise fun p q => p.1.Precedes q.1 := by
  rw [placesOf_eq, List.pairwise_flatMap]
  refine ⟨fun slot _ => ?_, (SlotKey.pairwise_all kind).imp fun before p first q second => ?_⟩
  · refine List.pairwise_map.mpr (((distinct slot).filter _).imp_of_mem fun {a b} first second apart => ?_)
    have here := eq_of_beq (List.mem_filter.mp first).2
    have there := eq_of_beq (List.mem_filter.mp second).2
    exact absurd (here.trans there.symm) apart
  · obtain ⟨a, -, rfl⟩ := List.mem_map.mp first
    obtain ⟨b, -, rfl⟩ := List.mem_map.mp second
    exact before

end Context

def Slot.take (s : Slot) (a : Assignment) : Slot := (s.add? a).getD s

namespace Contexts
variable {cs ds : Contexts} {kind : ContextKind} {slot : SlotKey} {p q : Placement} {ps : List Placement}

def request (cs : Contexts) (p : Placement) : Except SlotFault Contexts :=
  cs.assign p.kind p.slot p.assignment

theorem place_eq_settle (cs : Contexts) (p : Placement) : cs.place p = Requests.settle request cs p := by
  unfold place Requests.settle request
  cases cs.assign p.kind p.slot p.assignment <;> rfl

theorem placeAll_eq_run (cs : Contexts) (ps : List Placement) :
    cs.placeAll ps = Requests.run request cs ps := by
  unfold placeAll Requests.run
  congr 1
  funext cs p
  exact place_eq_settle cs p

theorem ext_slot? (same : ∀ kind slot, (cs.get kind).slot? slot = (ds.get kind).slot? slot) : cs = ds := by
  have contexts (kind : ContextKind) : cs.get kind = ds.get kind := by
    have aggregate := Option.some.inj (same kind .aggregate)
    have slots : (cs.get kind).slots = (ds.get kind).slots :=
      Vector.ext fun i bound => by
        have entry := same kind (.index i)
        simpa [Context.slot?, bound] using entry
    cases left : cs.get kind with
    | mk a v =>
      rw [left] at aggregate slots
      cases right : ds.get kind with
      | mk b w =>
        rw [right] at aggregate slots
        cases aggregate
        cases slots
        rfl
  obtain ⟨level, gamemode, overworld⟩ := cs
  obtain ⟨level', gamemode', overworld'⟩ := ds
  cases contexts .level
  cases contexts .gamemode
  cases contexts .overworld
  rfl

theorem slot?_place (cs : Contexts) (p : Placement) (kind : ContextKind) (slot : SlotKey) :
    ((cs.place p).get kind).slot? slot =
      if kind = p.kind ∧ slot = p.slot then ((cs.get kind).slot? slot).map (·.take p.assignment)
      else (cs.get kind).slot? slot := by
  unfold place
  cases result : cs.assign p.kind p.slot p.assignment with
  | ok next =>
    obtain ⟨d, assigned, rfl⟩ := assign_eq_ok result
    obtain ⟨before, after, found, added, changed, frame⟩ := Context.assign_eq_ok assigned
    dsimp only
    by_cases here : kind = p.kind
    · subst here
      rw [get_set_same]
      by_cases same : slot = p.slot
      · subst same
        rw [if_pos ⟨rfl, rfl⟩, changed, found, Option.map_some, Slot.take, added, Option.getD_some]
      · rw [if_neg fun both => same both.2, frame slot same]
    · rw [if_neg fun both => here both.1, get_set_other _ _ here]
  | error e =>
    dsimp only
    by_cases here : kind = p.kind ∧ slot = p.slot
    · obtain ⟨rfl, rfl⟩ := here
      rw [if_pos ⟨rfl, rfl⟩]
      cases found : (cs.get p.kind).slot? p.slot with
      | none => rfl
      | some s =>
        -- the slot is there, so that it is the slot itself that refuses
        have full : s.add? p.assignment = none := by
          cases added : s.add? p.assignment with
          | none => rfl
          | some after =>
            obtain ⟨d, assigned⟩ := Context.exists_assign_ok found added
            unfold assign at result
            rw [assigned] at result
            cases result
        rw [Option.map_some, Slot.take, full, Option.getD_none]
    · rw [if_neg here]

/-- The answer to a placement lies in its own slot. -/
theorem refusal?_congr (same : cs.assignments p.kind p.slot = ds.assignments p.kind p.slot) :
    Requests.refusal? request cs p = Requests.refusal? request ds p := by
  unfold Requests.refusal? request
  rcases assign_cases cs p.kind p.slot p.assignment with
    ⟨i, named, outside, failed⟩ | ⟨fits, held, failed⟩ | ⟨fits, fresh, next, granted⟩
  · rcases assign_cases ds p.kind p.slot p.assignment with
      ⟨j, named', -, failed'⟩ | ⟨fits, -, -⟩ | ⟨fits, -, -⟩
    · cases named.symm.trans named'
      rw [failed, failed']
    · exact absurd fits outside
    · exact absurd fits outside
  · rcases assign_cases ds p.kind p.slot p.assignment with
      ⟨j, -, outside, -⟩ | ⟨-, -, failed'⟩ | ⟨-, fresh, -⟩
    · exact absurd fits outside
    · rw [failed, failed']
    · obtain ⟨b, member, named⟩ := held
      exact absurd named (fresh b (same ▸ member))
  · rcases assign_cases ds p.kind p.slot p.assignment with
      ⟨j, -, outside, -⟩ | ⟨-, held, -⟩ | ⟨-, -, next', granted'⟩
    · exact absurd fits outside
    · obtain ⟨b, member, named⟩ := held
      exact absurd named (fresh b (same ▸ member))
    · rw [granted, granted']

theorem assignments_place_other (cs : Contexts) (p : Placement) (other : (kind, slot) ≠ (p.kind, p.slot)) :
    (cs.place p).assignments kind slot = cs.assignments kind slot := by
  unfold assignments
  rw [slot?_place, if_neg fun both => other (Prod.ext both.1 both.2)]

theorem apart_of_ne (cs : Contexts) (different : (p.kind, p.slot) ≠ (q.kind, q.slot)) :
    Requests.Apart request cs p q where
  second := by
    rw [← place_eq_settle]
    exact refusal?_congr (assignments_place_other cs p different.symm)
  first := by
    rw [← place_eq_settle]
    exact refusal?_congr (assignments_place_other cs q different)
  state := by
    simp only [← place_eq_settle]
    refine ext_slot? fun kind slot => ?_
    rw [slot?_place, slot?_place, slot?_place, slot?_place]
    by_cases first : kind = p.kind ∧ slot = p.slot
    · have other : ¬(kind = q.kind ∧ slot = q.slot) := by
        rintro ⟨here, there⟩
        exact different (Prod.ext (first.1.symm.trans here) (first.2.symm.trans there))
      rw [if_neg other, if_pos first, if_pos first, if_neg other]
    · rw [if_neg first, if_neg first]

/-! ### Runs -/

theorem assignments_run (cs : Contexts) (ps : List Placement) (kind : ContextKind) (slot : SlotKey) :
    (cs.placeAll ps).assignments kind slot =
      cs.assignments kind slot ++ ((Requests.granted request cs ps).filter
        fun p => p.kind = kind ∧ p.slot = slot).map (·.assignment) := by
  induction ps generalizing cs with
  | nil => exact (List.append_nil _).symm
  | cons p ps ih =>
    change ((cs.place p).placeAll ps).assignments kind slot = _
    unfold Requests.granted
    cases result : request cs p with
    | ok next =>
      have moved : cs.place p = next := (place_eq_settle cs p).trans (Requests.settle_of_ok result)
      have grown := assignments_assign result kind slot
      rw [moved, ih, grown, List.append_assoc]
      by_cases here : p.kind = kind ∧ p.slot = slot
      · obtain ⟨rfl, rfl⟩ := here
        simp
      · rw [if_neg fun both => here ⟨both.1.symm, both.2.symm⟩, List.filter_cons_of_neg (by simpa using here)]
        rfl
    | error e =>
      have stays : cs.place p = cs := (place_eq_settle cs p).trans (Requests.settle_of_error result)
      rw [stays, ih]

def Distinct (cs : Contexts) : Prop :=
  ∀ kind slot, (cs.assignments kind slot).Pairwise fun a b => a.resource ≠ b.resource

theorem distinct_empty : Contexts.empty.Distinct := by
  intro kind slot
  rw [assignments_empty]
  exact List.Pairwise.nil

theorem Distinct.place (distinct : cs.Distinct) (p : Placement) : (cs.place p).Distinct := by
  intro kind slot
  unfold Contexts.place
  cases result : cs.assign p.kind p.slot p.assignment with
  | error e => exact distinct kind slot
  | ok next =>
    obtain ⟨-, fresh⟩ := assign_ok_iff.mp ⟨next, result⟩
    dsimp only
    rw [assignments_assign result]
    split
    · rename_i here
      obtain ⟨rfl, rfl⟩ := here
      refine List.pairwise_append.mpr ⟨distinct _ _, List.pairwise_singleton _ _, fun a held b last => ?_⟩
      rw [List.mem_singleton.mp last]
      exact fresh a held
    · rw [List.append_nil]
      exact distinct kind slot

theorem Distinct.placeAll (distinct : cs.Distinct) (ps : List Placement) : (cs.placeAll ps).Distinct := by
  induction ps generalizing cs with
  | nil => exact distinct
  | cons p ps ih => exact ih (distinct.place p)

/-- After any run of placements from empty contexts: a placement is granted exactly if its slot is there and
does not hold its resource, and one that is refused changes nothing. A slot holds what was granted to it, in
order, and no resource twice. Two neighbours in different slots may change places. The places of a resource
in a context are listed once each, the aggregate slot first and the others by their indices. -/
theorem placements_recorded (ps : List Placement) :
    let cs := Contexts.empty.placeAll ps
    (∀ p : Placement, (∃ next, cs.assign p.kind p.slot p.assignment = .ok next) ↔
      (p.slot = .aggregate ∨ ∃ i < p.kind.capacity, p.slot = .index i) ∧
        ∀ a ∈ cs.assignments p.kind p.slot, a.resource ≠ p.assignment.resource) ∧
    (∀ (p : Placement) (fault : SlotFault), cs.assign p.kind p.slot p.assignment = .error fault →
      Contexts.empty.placeAll (ps ++ [p]) = cs) ∧
    (∀ kind slot,
      cs.assignments kind slot = ((Requests.granted request .empty ps).filter
        fun p => p.kind = kind ∧ p.slot = slot).map (·.assignment) ∧
      ((cs.assignments kind slot).map (·.resource)).Nodup) ∧
    (∀ (p q : Placement) (rest : List Placement), (p.kind, p.slot) ≠ (q.kind, q.slot) →
      Requests.Swaps request .empty ps p q rest) ∧
    ∀ kind id,
      (∀ slot a, (slot, a) ∈ (cs.get kind).placesOf id ↔
        a ∈ cs.assignments kind slot ∧ a.resource = id) ∧
      ((cs.get kind).placesOf id).Nodup ∧
      ((cs.get kind).placesOf id).Pairwise fun p q => p.1.Precedes q.1 := by
  intro cs
  have distinct : cs.Distinct := distinct_empty.placeAll ps
  refine ⟨fun p => ?_, fun p fault refused => ?_, fun kind slot => ⟨?_, ?_⟩, fun p q rest different => ?_,
    fun kind id => ?_⟩
  · rw [assign_ok_iff]
    refine and_congr_left fun _ => ?_
    cases p.slot <;> simp [SlotKey.Fits]
  · have answer : request cs p = .error fault := refused
    rw [placeAll_eq_run, Requests.run_concat, ← placeAll_eq_run]
    exact Requests.settle_of_error answer
  · have held := assignments_run .empty ps kind slot
    rw [assignments_empty, List.nil_append] at held
    exact held
  · exact List.pairwise_map.mpr (distinct kind slot)
  · have apart := apart_of_ne cs different
    unfold cs at apart
    rw [placeAll_eq_run] at apart
    exact apart.swaps rest
  · have listed := Context.pairwise_placesOf (c := cs.get kind) (distinct kind) id
    refine ⟨fun slot a => Context.mem_placesOf, ?_, listed⟩
    exact listed.imp fun before same => before.ne (congrArg Prod.fst same)

end Contexts

end RomLinker
