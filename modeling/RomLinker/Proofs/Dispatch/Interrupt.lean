import Mathlib.Data.List.Nodup
import RomLinker.Proofs.Dispatch.Symbols
import RomLinker.Proofs.Settings.Globals

/-!
The defines that say which contexts answer the interrupt of the vertical blank. They come from the marks
of the slots, while the macros of the dispatch text look at the resources again. In resolved contexts
both say the same (`interruptDefines_agree`).
-/
namespace RomLinker
open Dispatch (Line render routineAt? macroBody? nmiCalls answersNmi)

namespace Dispatch

def isCallLine (line : String) : Bool :=
  (Text.dropHead? "jsl ".toList (Text.trimStart line.toList)).isSome

def CallsIn (body? : Option (List String)) : Prop :=
  ∃ body, body? = some body ∧ body.any isCallLine = true

def Answered (t : ResourceTable) (s : Slot) : Prop := ∃ a ∈ s.assignments, answersNmi t a.resource = true

theorem isCallLine_call (id : Nat) (phase : Phase) : isCallLine (Line.call id phase).text = true := by
  rw [isCallLine, Line.toList_call]
  rfl

theorem callsIn_nmiCalls {t : ResourceTable} {s : Slot} :
    CallsIn (some (nmiCalls t s.assignments)) ↔ Answered t s := by
  constructor
  · rintro ⟨body, found, calls⟩
    cases found
    obtain ⟨line, member, -⟩ := List.any_eq_true.mp calls
    obtain ⟨a, kept, -⟩ := List.mem_map.mp member
    exact ⟨a, List.mem_filter.mp kept⟩
  · rintro ⟨a, member, answers⟩
    refine ⟨_, rfl, List.any_eq_true.mpr ⟨(Line.call a.resource .nmi).text, ?_, isCallLine_call _ _⟩⟩
    rw [text_call_nmi]
    exact List.mem_map.mpr ⟨a, List.mem_filter.mpr ⟨member, answers⟩, rfl⟩

end Dispatch

open Dispatch (CallsIn Answered)

namespace Slot

theorem hasNmiCalls_resolve {s : Slot} {t : ResourceTable} :
    (s.resolve t).hasNmiCalls = true ↔ Answered t s :=
  List.any_eq_true

theorem call_mem_calls {s : Slot} {t : ResourceTable} {kind : ContextKind} {slot : SlotKey}
    {a : Assignment} (member : a ∈ s.assignments) (answers : answersNmi t a.resource = true) :
    Line.call a.resource .nmi ∈ s.calls t kind slot .nmi := by
  refine List.mem_flatMap.mpr ⟨a, member, ?_⟩
  unfold callLines
  cases found : t.get? a.resource with
  | none =>
    rw [answersNmi, found] at answers
    cases answers
  | some r =>
    rw [answersNmi, found] at answers
    have own : r.answersNmi = true := answers
    simp [own]

end Slot

namespace Context
variable {kind : ContextKind} {c : Context kind} {t : ResourceTable}

theorem nmiUse_aggregate_resolve :
    ((c.resolve t).nmiUse).aggregate = true ↔ Answered t c.aggregate :=
  Slot.hasNmiCalls_resolve

theorem nmiUse_indexed_resolve :
    ((c.resolve t).nmiUse).indexed = true ↔
      ∃ (i : Nat) (s : Slot), c.slots[i]? = some s ∧ Answered t s := by
  change (c.slots.map (·.resolve t)).any (·.hasNmiCalls) = true ↔ _
  rw [Vector.any_eq_true]
  constructor
  · rintro ⟨i, bound, used⟩
    rw [Vector.getElem_map] at used
    exact ⟨i, _, Vector.getElem?_eq_getElem bound, Slot.hasNmiCalls_resolve.mp used⟩
  · rintro ⟨i, s, found, answered⟩
    obtain ⟨bound, rfl⟩ := Vector.getElem?_eq_some_iff.mp found
    refine ⟨i, bound, ?_⟩
    rw [Vector.getElem_map]
    exact Slot.hasNmiCalls_resolve.mpr answered

theorem nmiUse_any_resolve :
    ((c.resolve t).nmiUse).any = true ↔ ∃ slot s, c.slot? slot = some s ∧ Answered t s := by
  rw [NmiUse.any, Bool.or_eq_true, nmiUse_aggregate_resolve, nmiUse_indexed_resolve]
  constructor
  · rintro (answered | ⟨i, s, found, answered⟩)
    · exact ⟨.aggregate, c.aggregate, rfl, answered⟩
    · exact ⟨.index i, s, found, answered⟩
  · rintro ⟨slot, s, found, answered⟩
    cases slot with
    | aggregate =>
      cases found
      exact Or.inl answered
    | index i => exact Or.inr ⟨i, s, found, answered⟩

theorem call_mem_dispatch {slot : SlotKey} {s : Slot} {a : Assignment} (found : c.slot? slot = some s)
    (member : a ∈ s.assignments) (answers : answersNmi t a.resource = true) :
    Line.call a.resource .nmi ∈ (c.resolve t).dispatch t := by
  have call {slot : SlotKey} : Line.call a.resource .nmi ∈ (s.resolve t).calls t kind slot .nmi :=
    Slot.call_mem_calls member answers
  rw [dispatch_eq]
  simp only [List.mem_append, List.mem_cons]
  cases slot with
  | aggregate =>
    cases found
    refine Or.inr (Or.inr (Or.inr (Or.inr (Or.inr (Or.inr ?_)))))
    have filled : (c.resolve t).aggregate.assignments.isEmpty = false := by
      rw [List.isEmpty_eq_false_iff_exists_mem]
      exact ⟨a, member⟩
    rw [aggregateMacro_eq, aggregateBody, filled]
    exact List.mem_cons_of_mem _ (List.mem_append_left _ call)
  | index i =>
    have resolved : (c.resolve t).slots[i]? = some (s.resolve t) := by
      have there : c.slots[i]? = some s := found
      simp [resolve, there]
    have used : (s.resolve t).isUsed .nmi = true :=
      Slot.hasNmiCalls_resolve.mpr ⟨a, member, answers⟩
    refine Or.inr (Or.inr (Or.inr (Or.inr (Or.inl ?_))))
    refine List.mem_flatMap.mpr ⟨(s.resolve t, i), mem_numbered.mpr resolved, ?_⟩
    change Line.call a.resource .nmi ∈ routine t kind .nmi (s.resolve t) i
    rw [routine, if_pos used]
    exact List.mem_cons_of_mem _ (List.mem_append_left _ call)

end Context

namespace Contexts
variable {cs : Contexts} {t : ResourceTable}

theorem callsIn_aggregate (kind : ContextKind) :
    CallsIn (macroBody? s!"{kind.name}AllNMIJSLs" (render ((cs.resolve t).dispatch t))) ↔
      ((cs.resolve t).get kind).nmiUse.aggregate = true := by
  rw [Dispatch.macroBody?_nmi, Dispatch.callsIn_nmiCalls, Dispatch.get_resolve,
    Context.nmiUse_aggregate_resolve]

theorem callsIn_routines (kind : ContextKind) :
    (∃ i < kind.capacity,
      CallsIn (routineAt? s!"{kind.name}{Text.hex i}NMIJSLs" (render ((cs.resolve t).dispatch t)))) ↔
      ((cs.resolve t).get kind).nmiUse.indexed = true := by
  rw [Dispatch.get_resolve, Context.nmiUse_indexed_resolve]
  constructor
  · rintro ⟨i, bound, calls⟩
    have found : (cs.get kind).slots[i]? = some (cs.get kind).slots[i] := Vector.getElem?_eq_getElem bound
    rw [Dispatch.routineAt?_nmi found, Dispatch.callsIn_nmiCalls] at calls
    exact ⟨i, _, found, calls⟩
  · rintro ⟨i, s, found, answered⟩
    obtain ⟨bound, -⟩ := Vector.getElem?_eq_some_iff.mp found
    refine ⟨i, bound, ?_⟩
    rw [Dispatch.routineAt?_nmi found, Dispatch.callsIn_nmiCalls]
    exact answered

theorem call_mem_lines :
    (∃ id, s!"    jsl UberResource{Text.decimal id}_NMI" ∈
      Text.linesOf (render ((cs.resolve t).dispatch t))) ↔
      ∃ kind ∈ ContextKind.all, ((cs.resolve t).get kind).nmiUse.any = true := by
  rw [Dispatch.linesOf_render]
  constructor
  · rintro ⟨id, member⟩
    rw [← Dispatch.text_call_nmi] at member
    obtain ⟨l, inside, same⟩ := List.mem_map.mp member
    cases Line.text_injective same
    obtain ⟨kind, listed, inside⟩ := List.mem_flatMap.mp inside
    obtain ⟨slot, phase, s, found, calls⟩ := Context.mem_calls_of_mem_dispatch inside (Or.inr rfl)
    obtain ⟨a, held, r, known, explained⟩ := Slot.explains_of_mem_calls calls
    rw [slot?_resolve] at found
    obtain ⟨unresolved, there, rfl⟩ := Option.map_eq_some_iff.mp found
    refine ⟨kind, listed, ?_⟩
    rw [Dispatch.get_resolve, Context.nmiUse_any_resolve]
    refine ⟨slot, unresolved, there, a, held, ?_⟩
    rcases explained with ⟨other, -⟩ | other | ⟨-, answers⟩
    · cases other
    · cases other
    · rw [answersNmi, known]
      exact answers
  · rintro ⟨kind, listed, used⟩
    rw [Dispatch.get_resolve, Context.nmiUse_any_resolve] at used
    obtain ⟨slot, s, found, a, held, answers⟩ := used
    refine ⟨a.resource, ?_⟩
    rw [← Dispatch.text_call_nmi]
    refine List.mem_map.mpr ⟨_, List.mem_flatMap.mpr ⟨kind, listed, ?_⟩, rfl⟩
    rw [Dispatch.get_resolve]
    exact Context.call_mem_dispatch found held answers

end Contexts

namespace Contexts
variable {cs : Contexts}

theorem nodup_interruptNames : interruptNames.Nodup := by
  decide

theorem value_interruptDefines {define : String × String} (listed : define ∈ cs.interruptDefines) :
    define.2 = "0" ∨ define.2 = "1" := by
  have flag (on : Bool) : flagText on = "0" ∨ flagText on = "1" := by
    cases on
    · exact Or.inl rfl
    · exact Or.inr rfl
  rcases List.mem_append.mp listed with own | common
  · obtain ⟨kind, -, own⟩ := List.mem_flatMap.mp own
    simp only [Context.interruptDefines, List.mem_cons, List.not_mem_nil, or_false] at own
    rcases own with rfl | rfl | rfl
    · exact flag _
    · exact flag _
    · exact flag _
  · cases List.mem_singleton.mp common
    exact flag _

/-- Names are distinct, so that a value listed for a name is its value. -/
theorem one_mem_interruptDefines {name : String} {on : Bool}
    (listed : (name, flagText on) ∈ cs.interruptDefines) :
    (name, "1") ∈ cs.interruptDefines ↔ on = true := by
  have distinct : (cs.interruptDefines.map (·.1)).Nodup := by
    rw [names_interruptDefines]
    exact nodup_interruptNames
  constructor
  · intro one
    have values : flagText on = "1" :=
      congrArg Prod.snd (List.inj_on_of_nodup_map distinct listed one rfl)
    cases on with
    | false => exact absurd values (by decide)
    | true => rfl
  · rintro rfl
    exact listed

theorem own_mem_interruptDefines (cs : Contexts) (kind : ContextKind) {define : String × String}
    (own : define ∈ (cs.get kind).interruptDefines) : define ∈ cs.interruptDefines := by
  have every : kind ∈ ContextKind.all := by cases kind <;> decide
  exact List.mem_append_left _ (List.mem_flatMap.mpr ⟨kind, every, own⟩)

/-- In resolved contexts the defines tell what is in the text: whether the macro of the aggregate slot
calls anything, whether the routine of another slot does, whether one of them does, and whether an
interrupt routine is called at all. -/
theorem interruptDefines_agree (cs : Contexts) (t : ResourceTable) :
    let defines := (cs.resolve t).interruptDefines
    let text := render ((cs.resolve t).dispatch t)
    let allCalls (kind : ContextKind) := CallsIn (macroBody? s!"{kind.name}AllNMIJSLs" text)
    let slotCalls (kind : ContextKind) :=
      ∃ i < kind.capacity, CallsIn (routineAt? s!"{kind.name}{Text.hex i}NMIJSLs" text)
    defines.map (·.1) = interruptNames ∧ interruptNames.Nodup ∧ interruptNames.length = 10 ∧
    (∀ define ∈ defines, define.2 = "0" ∨ define.2 = "1") ∧
    (∀ kind : ContextKind,
      ((s!"Uber{kind.name}NMIAll", "1") ∈ defines ↔ allCalls kind) ∧
      ((s!"Uber{kind.name}NMINormal", "1") ∈ defines ↔ slotCalls kind) ∧
      ((s!"Uber{kind.name}NMI", "1") ∈ defines ↔ allCalls kind ∨ slotCalls kind)) ∧
    (("UberUseNMI", "1") ∈ defines ↔
      ∃ id, s!"    jsl UberResource{Text.decimal id}_NMI" ∈ Text.linesOf text) := by
  intro defines text allCalls slotCalls
  refine ⟨names_interruptDefines _, nodup_interruptNames, rfl, fun _ => value_interruptDefines,
    fun kind => ⟨?_, ?_, ?_⟩, ?_⟩
  · have listed := own_mem_interruptDefines (cs.resolve t) kind (List.mem_cons_self ..)
    exact (one_mem_interruptDefines listed).trans (callsIn_aggregate kind).symm
  · have listed := own_mem_interruptDefines (cs.resolve t) kind
      (List.mem_cons_of_mem _ (List.mem_cons_self ..))
    exact (one_mem_interruptDefines listed).trans (callsIn_routines kind).symm
  · have listed := own_mem_interruptDefines (cs.resolve t) kind
      (List.mem_cons_of_mem _ (List.mem_cons_of_mem _ (List.mem_cons_self ..)))
    refine (one_mem_interruptDefines listed).trans ?_
    rw [Context.NmiUse.any, Bool.or_eq_true]
    exact (or_congr (callsIn_aggregate kind) (callsIn_routines kind)).symm
  · have listed : ("UberUseNMI", flagText (ContextKind.all.any fun kind =>
        ((cs.resolve t).get kind).nmiUse.any)) ∈ defines :=
      List.mem_append_right _ (List.mem_singleton.mpr rfl)
    refine (one_mem_interruptDefines listed).trans ?_
    rw [List.any_eq_true]
    exact call_mem_lines.symm

end Contexts
end RomLinker
