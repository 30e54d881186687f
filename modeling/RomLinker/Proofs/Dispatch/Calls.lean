import RomLinker.Proofs.Dispatch.Layout
import RomLinker.Proofs.Dispatch.Reading

/-!
What the dispatch text calls. A reader that jumps to a slot's label, or expands a macro of the
aggregate slot, finds the calls of what was assigned to the slot, in the order of assignment
(`dispatch_reads_assigned`).
-/
namespace RomLinker
open Dispatch (Line render routineAt? macroBody?)

namespace Context
variable {kind : ContextKind}

theorem label_mem_dispatch {t : ResourceTable} {c : Context kind} {kind' : ContextKind} {i : Nat}
    {phase : Phase} (h : .label kind' i phase ∈ c.dispatch t) : kind' = kind := by
  rw [dispatch_eq] at h
  simp only [List.mem_append, List.mem_cons, reduceCtorEq, false_or] at h
  rcases h with h | h | h | h | h
  · obtain ⟨_, _, _, _, same, _⟩ := mem_idle.mp h
    cases same
    rfl
  · exact (label_mem_routines h).1
  · exact (label_mem_routines h).1
  · exact absurd h (aggregateMacro_ne rfl)
  · exact absurd h (aggregateMacro_ne rfl)

theorem macroStart_mem_dispatch {t : ResourceTable} {c : Context kind} {kind' : ContextKind}
    {phase : Phase} (h : .macroStart kind' phase ∈ c.dispatch t) : kind' = kind := by
  rw [dispatch_eq] at h
  simp only [List.mem_append, List.mem_cons, reduceCtorEq, false_or] at h
  rcases h with h | h | h | h | h
  · obtain ⟨_, _, _, _, same, _⟩ := mem_idle.mp h
    cases same
  · exact absurd h macroStart_notMem_routines
  · exact absurd h macroStart_notMem_routines
  · exact (macroStart_mem_aggregateMacro h).1
  · exact (macroStart_mem_aggregateMacro h).1

end Context

namespace Contexts

/-- A line that only one context has is first met in the lines of that context. -/
theorem dispatch_split {cs : Contexts} {t : ResourceTable} {kind : ContextKind} {a : Line}
    {before rest : List Line} (split : (cs.get kind).dispatch t = before ++ a :: rest)
    (fresh : a ∉ before) (own : ∀ other, a ∈ (cs.get other).dispatch t → other = kind) :
    ∃ before' after, cs.dispatch t = before' ++ a :: (rest ++ after) ∧ a ∉ before' := by
  have level (h : ContextKind.level ≠ kind) : a ∉ (cs.get .level).dispatch t := fun m => h (own _ m)
  have gamemode (h : ContextKind.gamemode ≠ kind) : a ∉ (cs.get .gamemode).dispatch t :=
    fun m => h (own _ m)
  have whole : cs.dispatch t = (cs.get .level).dispatch t ++ ((cs.get .gamemode).dispatch t ++
      (cs.get .overworld).dispatch t) := by
    simp [dispatch, ContextKind.all]
  cases kind with
  | level =>
    exact ⟨before, (cs.get .gamemode).dispatch t ++ (cs.get .overworld).dispatch t,
      by rw [whole, split]; simp, fresh⟩
  | gamemode =>
    refine ⟨(cs.get .level).dispatch t ++ before, (cs.get .overworld).dispatch t,
      by rw [whole, split]; simp, ?_⟩
    simp [level (by decide), fresh]
  | overworld =>
    refine ⟨(cs.get .level).dispatch t ++ ((cs.get .gamemode).dispatch t ++ before), [],
      by rw [whole, split]; simp, ?_⟩
    simp [level (by decide), gamemode (by decide), fresh]

end Contexts

namespace Dispatch

def extraBytesOf (t : ResourceTable) (id : Nat) : Nat :=
  ((t.get? id).map (·.directives.extraBytes.toNat)).getD 0

def answersNmi (t : ResourceTable) (id : Nat) : Bool := (t.get? id).any (·.answersNmi)

def frameCalls (t : ResourceTable) (place : String) (as : List Assignment) : List String :=
  as.flatMap fun a =>
    let symbol := s!"UberResource{Text.decimal a.resource}"
    (if 0 < extraBytesOf t a.resource then [s!"    %UberSetExtraBytes({symbol}_ExtraBytes_{place})"]
      else []) ++ [s!"    jsl {symbol}_ResourceEntry"]

def nmiCalls (t : ResourceTable) (as : List Assignment) : List String :=
  (as.filter fun a => answersNmi t a.resource).map fun a =>
    s!"    jsl UberResource{Text.decimal a.resource}_NMI"

theorem text_setExtraBytes (id : Nat) (kind : ContextKind) (slot : SlotKey) :
    (Line.setExtraBytes id kind slot).text =
      let symbol := s!"UberResource{Text.decimal id}"
      s!"    %UberSetExtraBytes({symbol}_ExtraBytes_{slot.label kind})" := by
  rw [← String.toList_inj, Line.toList_setExtraBytes, Resource.toList_symbol]
  change _ = ("    %UberSetExtraBytes(" ++ ("UberResource" ++ Text.decimal id) ++ "_ExtraBytes_" ++
    slot.label kind ++ ")").toList
  simp [Text.decimal]

theorem text_call_frame (id : Nat) : (Line.call id .frame).text =
    let symbol := s!"UberResource{Text.decimal id}"
    s!"    jsl {symbol}_ResourceEntry" := by
  rw [← String.toList_inj, Line.toList_call, Resource.toList_symbol]
  change _ = ("    jsl " ++ ("UberResource" ++ Text.decimal id) ++ "_ResourceEntry").toList
  simp [Text.decimal, Phase.part]

theorem text_call_nmi (id : Nat) :
    (Line.call id .nmi).text = s!"    jsl UberResource{Text.decimal id}_NMI" := by
  rw [← String.toList_inj, Line.toList_call, Resource.toList_symbol]
  change _ = ("    jsl UberResource" ++ Text.decimal id ++ "_NMI").toList
  simp [Text.decimal, Phase.part]

end Dispatch

namespace Slot
open Dispatch
variable {s : Slot} {t : ResourceTable} {kind : ContextKind} {slot : SlotKey}

theorem map_text_calls_frame (known : ∀ a ∈ s.assignments, (t.get? a.resource).isSome) :
    (s.calls t kind slot .frame).map Line.text =
      frameCalls t (slot.label kind) s.assignments := by
  unfold calls frameCalls
  revert known
  induction s.assignments with
  | nil => intro _; rfl
  | cons a as ih =>
    intro known
    obtain ⟨head, tail⟩ := List.forall_mem_cons.mp known
    obtain ⟨r, found⟩ := Option.isSome_iff_exists.mp head
    have positive : (r.directives.extraBytes > 0) = (0 < extraBytesOf t a.resource) := by
      simp [extraBytesOf, found, UInt8.lt_iff_toNat_lt]
    rw [List.flatMap_cons, List.map_append, ih tail, List.flatMap_cons]
    simp only [callLines, found, positive]
    split <;> simp [text_setExtraBytes, text_call_frame]

theorem map_text_calls_nmi :
    (s.calls t kind slot .nmi).map Line.text = nmiCalls t s.assignments := by
  unfold calls nmiCalls
  induction s.assignments with
  | nil => rfl
  | cons a as ih =>
    rw [List.flatMap_cons, List.map_append, ih]
    cases found : t.get? a.resource with
    | none => simp [callLines, found, answersNmi]
    | some r =>
      by_cases answers : r.answersNmi <;>
        simp [callLines, found, answersNmi, answers, text_call_nmi]

theorem filter_calls (phase : Phase) :
    (s.calls t kind slot phase).filter (!·.isLabel) = s.calls t kind slot phase := by
  rw [List.filter_eq_self]
  intro l member
  rcases mem_calls member with ⟨id, rfl⟩ | ⟨id, rfl⟩ <;> rfl

@[simp] theorem calls_resolve (phase : Phase) :
    (s.resolve t).calls t kind slot phase = s.calls t kind slot phase := rfl

theorem isUsed_resolve_frame :
    (s.resolve t).isUsed .frame = false ↔ s.assignments = [] := by
  simp [isUsed, resolve]

theorem isUsed_resolve_nmi :
    (s.resolve t).isUsed .nmi = false → nmiCalls t s.assignments = [] := by
  intro unused
  simp only [isUsed, resolve, List.any_eq_false] at unused
  simp only [nmiCalls, List.map_eq_nil_iff, List.filter_eq_nil_iff, answersNmi]
  exact unused

end Slot

/-! ### Reading the three contexts -/

namespace Dispatch
variable {cs : Contexts} {t : ResourceTable} {kind : ContextKind}

theorem get_resolve : (cs.resolve t).get kind = (cs.get kind).resolve t := by
  cases kind <;> rfl

theorem routineAt?_resolve {s : Slot} {i : Nat} (found : (cs.get kind).slots[i]? = some s)
    (phase : Phase) :
    routineAt? (SlotKey.label kind (.index i) ++ phase.mark ++ "JSLs")
        (render ((cs.resolve t).dispatch t)) =
      some (if (s.resolve t).isUsed phase then (s.calls t kind (.index i) phase).map Line.text
        else []) := by
  have resolved : ((cs.resolve t).get kind).slots[i]? = some (s.resolve t) := by
    simp [get_resolve, Context.resolve, found]
  have own (other : ContextKind) (h : .label kind i phase ∈ ((cs.resolve t).get other).dispatch t) :
      other = kind := (Context.label_mem_dispatch h).symm
  by_cases used : (s.resolve t).isUsed phase
  · obtain ⟨before, rest, split, fresh⟩ := Context.dispatch_split_of_used t resolved used
    obtain ⟨before', after, whole, fresh'⟩ := Contexts.dispatch_split split fresh own
    rw [List.append_assoc, List.cons_append] at whole
    rw [routineAt?_render whole fresh' (Slot.calls_ne (by decide)), Slot.calls_resolve,
      Slot.filter_calls, if_pos used]
  · have unused : (s.resolve t).isUsed phase = false := by simpa using used
    obtain ⟨before, labels, rest, split, fresh, only⟩ :=
      Context.dispatch_split_of_unused t resolved unused
    obtain ⟨before', after, whole, fresh'⟩ := Contexts.dispatch_split split fresh own
    rw [List.append_assoc, List.cons_append] at whole
    have inside : .leave ∉ labels := fun h => by cases only _ h
    have none : labels.filter (!·.isLabel) = [] := by
      rw [List.filter_eq_nil_iff]
      intro l member
      simp [only l member]
    rw [routineAt?_render whole fresh' inside, none, if_neg used, List.map_nil]

theorem macroBody?_resolve (phase : Phase) :
    macroBody? (kind.name ++ "All" ++ phase.mark ++ "JSLs") (render ((cs.resolve t).dispatch t)) =
      some ((((cs.resolve t).get kind).aggregateBody t phase).map Line.text) := by
  obtain ⟨before, rest, split, fresh⟩ :=
    Context.dispatch_split_macro t ((cs.resolve t).get kind) phase
  obtain ⟨before', after, whole, fresh'⟩ := Contexts.dispatch_split split fresh
    fun other h => (Context.macroStart_mem_dispatch h).symm
  rw [List.append_assoc, List.cons_append] at whole
  rw [macroBody?_render whole fresh' (Context.aggregateBody_ne (by decide))]

end Dispatch

namespace Dispatch
variable {cs : Contexts} {t : ResourceTable} {kind : ContextKind}

theorem routineAt?_frame {s : Slot} {i : Nat} (found : (cs.get kind).slots[i]? = some s)
    (known : ∀ a ∈ s.assignments, (t.get? a.resource).isSome) :
    routineAt? s!"{kind.name}{Text.hex i}JSLs" (render ((cs.resolve t).dispatch t)) =
      some (frameCalls t (kind.name ++ Text.hex i) s.assignments) := by
  have name : s!"{kind.name}{Text.hex i}JSLs" =
      SlotKey.label kind (.index i) ++ Phase.frame.mark ++ "JSLs" := by
    change kind.name ++ Text.hex i ++ "JSLs" = kind.name ++ Text.hex i ++ "" ++ "JSLs"
    rw [String.append_empty]
  rw [name, routineAt?_resolve found]
  split
  · rw [Slot.map_text_calls_frame known]
    rfl
  · rename_i unused
    rw [Slot.isUsed_resolve_frame.mp (by simpa using unused)]
    rfl

theorem routineAt?_nmi {s : Slot} {i : Nat} (found : (cs.get kind).slots[i]? = some s) :
    routineAt? s!"{kind.name}{Text.hex i}NMIJSLs" (render ((cs.resolve t).dispatch t)) =
      some (nmiCalls t s.assignments) := by
  have name : s!"{kind.name}{Text.hex i}NMIJSLs" =
      SlotKey.label kind (.index i) ++ Phase.nmi.mark ++ "JSLs" := by
    change kind.name ++ Text.hex i ++ "NMIJSLs" = kind.name ++ Text.hex i ++ "NMI" ++ "JSLs"
    rw [← String.toList_inj]
    simp
  rw [name, routineAt?_resolve found]
  split
  · rw [Slot.map_text_calls_nmi]
  · rename_i unused
    rw [Slot.isUsed_resolve_nmi (by simpa using unused)]

theorem macroBody?_frame
    (known : ∀ a ∈ (cs.get kind).aggregate.assignments, (t.get? a.resource).isSome) :
    macroBody? s!"{kind.name}AllJSLs" (render ((cs.resolve t).dispatch t)) =
      some (if (cs.get kind).aggregate.assignments = [] then [] else
        "    pea $0000" ::
          frameCalls t (kind.name ++ "All") (cs.get kind).aggregate.assignments ++
            ["    pla : pla"]) := by
  have name : s!"{kind.name}AllJSLs" = kind.name ++ "All" ++ Phase.frame.mark ++ "JSLs" := by
    change kind.name ++ "AllJSLs" = kind.name ++ "All" ++ "" ++ "JSLs"
    rw [← String.toList_inj]
    simp
  rw [name, macroBody?_resolve, get_resolve, Context.aggregateBody]
  change some (List.map _ (if ((cs.get kind).aggregate.resolve t).assignments.isEmpty then [] else
    .reserve :: (cs.get kind).aggregate.calls t kind .aggregate .frame ++ [.release])) = _
  by_cases none : (cs.get kind).aggregate.assignments = []
  · simp [Slot.resolve, none]
  · have calls := @Slot.map_text_calls_frame _ t kind .aggregate known
    simp only [Slot.resolve, List.isEmpty_iff, none, if_false, List.map_cons, List.map_append,
      List.map_nil, calls, Line.text_reserve, Line.text_release]
    rfl

theorem macroBody?_nmi :
    macroBody? s!"{kind.name}AllNMIJSLs" (render ((cs.resolve t).dispatch t)) =
      some (nmiCalls t (cs.get kind).aggregate.assignments) := by
  have name : s!"{kind.name}AllNMIJSLs" = kind.name ++ "All" ++ Phase.nmi.mark ++ "JSLs" := by
    change kind.name ++ "AllNMIJSLs" = kind.name ++ "All" ++ "NMI" ++ "JSLs"
    rw [← String.toList_inj]
    simp
  rw [name, macroBody?_resolve, get_resolve, Context.aggregateBody]
  change some (List.map _ (if ((cs.get kind).aggregate.resolve t).assignments.isEmpty then [] else
    (cs.get kind).aggregate.calls t kind .aggregate .nmi)) = _
  by_cases none : (cs.get kind).aggregate.assignments = []
  · simp [Slot.resolve, none, nmiCalls]
  · simp only [Slot.resolve, List.isEmpty_iff, none, if_false]
    rw [Slot.map_text_calls_nmi]

/-- After any run of placements whose resources exist, the text of the resolved contexts calls what
was assigned: each slot's routine has the frame calls, and its other routine the interrupt calls, of
what the slot holds, and the macros have those of the aggregate slot. -/
theorem dispatch_reads_assigned (ps : List Placement) (t : ResourceTable)
    (known : ∀ kind slot, ∀ a ∈ (Contexts.empty.placeAll ps).assignments kind slot,
      (t.get? a.resource).isSome) (kind : ContextKind) :
    let text := render (((Contexts.empty.placeAll ps).resolve t).dispatch t)
    (∀ i < kind.capacity,
      routineAt? s!"{kind.name}{Text.hex i}JSLs" text =
        some (frameCalls t (kind.name ++ Text.hex i) (held ps kind (.index i))) ∧
      routineAt? s!"{kind.name}{Text.hex i}NMIJSLs" text =
        some (nmiCalls t (held ps kind (.index i)))) ∧
    macroBody? s!"{kind.name}AllJSLs" text =
      some (if held ps kind .aggregate = [] then [] else
        "    pea $0000" :: frameCalls t (kind.name ++ "All") (held ps kind .aggregate) ++
          ["    pla : pla"]) ∧
    macroBody? s!"{kind.name}AllNMIJSLs" text = some (nmiCalls t (held ps kind .aggregate)) := by
  have holds (slot : SlotKey) {s : Slot} (fits : slot.Fits kind)
      (found : ((Contexts.empty.placeAll ps).get kind).slot? slot = some s) :
      s.assignments = held ps kind slot ∧ ∀ a ∈ s.assignments, (t.get? a.resource).isSome := by
    have read := Contexts.assignments_of_slot? found
    refine ⟨by rw [← read, Contexts.assignments_placeAll ps fits], fun a member => ?_⟩
    exact known kind slot a (read ▸ member)
  refine ⟨fun i bound => ?_, ?_, ?_⟩
  · have found : ((Contexts.empty.placeAll ps).get kind).slots[i]? =
        some ((Contexts.empty.placeAll ps).get kind).slots[i] := by simp [bound]
    obtain ⟨same, exist⟩ := holds (.index i) bound found
    exact ⟨by rw [routineAt?_frame found exist, same], by rw [routineAt?_nmi found, same]⟩
  · obtain ⟨same, exist⟩ := holds .aggregate trivial rfl
    rw [macroBody?_frame exist, same]
  · obtain ⟨same, -⟩ := holds .aggregate trivial rfl
    rw [macroBody?_nmi, same]

/-- Two resources in one slot, the second with a byte of its own and an interrupt routine. -/
theorem dispatch_reads_assigned_two :
    let ps : List Placement := [⟨.level, .index 26, ⟨0, []⟩⟩, ⟨.level, .index 26, ⟨1, [7]⟩⟩,
      ⟨.level, .index 26, ⟨0, []⟩⟩, ⟨.level, .aggregate, ⟨1, [9]⟩⟩]
    let t : ResourceTable := ⟨[{ id := 0, file := ⟨"a.asm"⟩ },
      { id := 1, file := ⟨"b.asm"⟩, directives := { extraBytes := 1 }, nmi? := some 0x108000 }]⟩
    let text := render (((Contexts.empty.placeAll ps).resolve t).dispatch t)
    (∀ kind slot, ∀ a ∈ (Contexts.empty.placeAll ps).assignments kind slot,
      (t.get? a.resource).isSome) ∧
    routineAt? "Level1AJSLs" text = some ["    jsl UberResource0_ResourceEntry",
      "    %UberSetExtraBytes(UberResource1_ExtraBytes_Level1A)",
      "    jsl UberResource1_ResourceEntry"] ∧
    routineAt? "Level1ANMIJSLs" text = some ["    jsl UberResource1_NMI"] := by
  intro ps t text
  have known : ∀ kind slot, ∀ a ∈ (Contexts.empty.placeAll ps).assignments kind slot,
      (t.get? a.resource).isSome := by
    intro kind slot a member
    obtain ⟨p, asked, rfl⟩ := Contexts.mem_assignments_placeAll member
    clear member
    revert p
    decide
  obtain ⟨frame, nmi⟩ := (dispatch_reads_assigned ps t known .level).1 26 (by decide)
  have frameLabel : s!"{ContextKind.level.name}{Text.hex 26}JSLs" = "Level1AJSLs" := by
    decide +kernel
  have nmiLabel : s!"{ContextKind.level.name}{Text.hex 26}NMIJSLs" = "Level1ANMIJSLs" := by
    decide +kernel
  rw [frameLabel] at frame
  rw [nmiLabel] at nmi
  refine ⟨known, frame.trans ?_, nmi.trans ?_⟩
  · decide +kernel
  · decide +kernel

end Dispatch
end RomLinker
