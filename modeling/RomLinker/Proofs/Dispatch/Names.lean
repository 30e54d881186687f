import Mathlib.Data.List.Nodup
import Mathlib.Data.List.Perm.Basic
import RomLinker.Proofs.Definitions
import RomLinker.Proofs.Dispatch.Symbols

/-!
The names that the dispatch text defines. Whether a label stands among those that share a return or in
front of calls of its own hangs on the marks of its slot; whatever these are, the text defines each label
of each slot once, each macro once, and nothing else (`dispatch_defines_once`).
-/
namespace RomLinker

namespace Dispatch

/-- The name in front of the colon that a word ends in. A colon by itself only parts instructions. -/
def labelOfWord? (word : List Char) : Option String :=
  if word.getLast? = some ':' ∧ word ≠ [':'] then some (String.ofList word.dropLast) else none

def definedLabels (text : String) : List String :=
  (Text.linesOf text).flatMap fun line => (Text.words line.toList).filterMap labelOfWord?

def definedMacros (text : String) : List String :=
  (Text.linesOf text).filterMap fun line =>
    (Text.dropHead? "macro ".toList (Text.trimStart line.toList)).map fun rest =>
      String.ofList (rest.takeWhile (· != '('))

/-- What the calls of a slot go by: the label in front of them, or the macro of the aggregate slot. -/
def callName (kind : ContextKind) (slot : SlotKey) (phase : Phase) : String :=
  s!"{kind.name}{slot.tag}{phase.mark}JSLs"

def labelNames : List String :=
  ContextKind.all.flatMap fun kind => (List.range kind.capacity).flatMap fun i =>
    [callName kind (.index i) .frame, callName kind (.index i) .nmi]

def macroNames : List String :=
  ContextKind.all.flatMap fun kind =>
    [callName kind .aggregate .frame, callName kind .aggregate .nmi]

theorem toList_callName (kind : ContextKind) (slot : SlotKey) (phase : Phase) :
    (callName kind slot phase).toList =
      kind.name.toList ++ (slot.tag.toList ++ (phase.mark.toList ++ "JSLs".toList)) := by
  change (kind.name ++ slot.tag ++ phase.mark ++ "JSLs").toList = _
  simp only [String.toList_append, List.append_assoc]

theorem callName_inj {kind kind' : ContextKind} {slot slot' : SlotKey} {phase phase' : Phase}
    (same : callName kind slot phase = callName kind' slot' phase') :
    kind = kind' ∧ slot = slot' ∧ phase = phase' := by
  rw [← String.toList_inj, toList_callName, toList_callName] at same
  obtain ⟨rfl, rest⟩ := Line.name_append_inj same
  have stop : ∀ phase : Phase, ∀ c ∈ (phase.mark.toList ++ "JSLs".toList).head?,
      Text.hexDigit? c = none := by
    intro phase
    cases phase <;> simp [Phase.mark] <;> decide
  -- the name of an aggregate slot has an `l` in it, that of no other slot has
  have letter (i : Nat) (phase : Phase) :
      'l' ∉ (SlotKey.index i).tag.toList ++ (phase.mark.toList ++ "JSLs".toList) := by
    have back : ∀ phase : Phase, 'l' ∉ phase.mark.toList ++ "JSLs".toList := by
      intro phase
      cases phase <;> decide
    rw [SlotKey.tag, Text.hex, String.toList_ofList, List.mem_append]
    exact not_or.mpr ⟨Line.notMem_numeral i, back phase⟩
  have whole : 'l' ∈ SlotKey.aggregate.tag.toList := by decide
  cases slot with
  | aggregate =>
    cases slot' with
    | aggregate => exact ⟨rfl, rfl, Line.mark_append_inj (List.append_cancel_left rest)⟩
    | index j => exact absurd (rest ▸ List.mem_append_left _ whole) (letter j phase')
  | index i =>
    cases slot' with
    | aggregate => exact absurd (rest ▸ List.mem_append_left _ whole) (letter i phase)
    | index j =>
      simp only [SlotKey.tag, Text.hex, String.toList_ofList] at rest
      obtain ⟨rfl, marked⟩ := Text.hex_append_inj (stop _) (stop _) rest
      exact ⟨rfl, rfl, Line.mark_append_inj marked⟩

theorem exists_phase {kind : ContextKind} {slot : SlotKey} {name : String}
    (member : name ∈ [callName kind slot .frame, callName kind slot .nmi]) :
    ∃ phase, name = callName kind slot phase := by
  rcases List.mem_cons.mp member with frame | nmi
  · exact ⟨.frame, frame⟩
  · exact ⟨.nmi, List.mem_singleton.mp nmi⟩

theorem nodup_phases (kind : ContextKind) (slot : SlotKey) :
    [callName kind slot .frame, callName kind slot .nmi].Nodup := by
  rw [List.nodup_cons, List.mem_singleton]
  refine ⟨fun same => ?_, List.nodup_singleton _⟩
  cases (callName_inj same).2.2

theorem nodup_labelNames : labelNames.Nodup := by
  have slots (kind : ContextKind) : ((List.range kind.capacity).flatMap fun i =>
      [callName kind (.index i) .frame, callName kind (.index i) .nmi]).Nodup := by
    refine List.nodup_flatMap.mpr ⟨fun i _ => nodup_phases kind (.index i), ?_⟩
    refine List.nodup_range.imp fun different name left right => different ?_
    obtain ⟨phase, rfl⟩ := exists_phase left
    obtain ⟨phase', same⟩ := exists_phase right
    cases (callName_inj same).2.1
    rfl
  refine List.nodup_flatMap.mpr ⟨fun kind _ => slots kind, ?_⟩
  refine (by decide : ContextKind.all.Nodup).imp fun different name left right => different ?_
  obtain ⟨i, -, left⟩ := List.mem_flatMap.mp left
  obtain ⟨j, -, right⟩ := List.mem_flatMap.mp right
  obtain ⟨phase, rfl⟩ := exists_phase left
  obtain ⟨phase', same⟩ := exists_phase right
  exact (callName_inj same).1

theorem nodup_macroNames : macroNames.Nodup := by
  refine List.nodup_flatMap.mpr ⟨fun kind _ => nodup_phases kind .aggregate, ?_⟩
  refine (by decide : ContextKind.all.Nodup).imp fun different name left right => different ?_
  obtain ⟨phase, rfl⟩ := exists_phase left
  obtain ⟨phase', same⟩ := exists_phase right
  exact (callName_inj same).1

theorem nodup_names : (labelNames ++ macroNames).Nodup := by
  refine List.nodup_append.mpr ⟨nodup_labelNames, nodup_macroNames, ?_⟩
  intro label listed name inside same
  obtain ⟨kind, -, listed⟩ := List.mem_flatMap.mp listed
  obtain ⟨i, -, listed⟩ := List.mem_flatMap.mp listed
  obtain ⟨kind', -, inside⟩ := List.mem_flatMap.mp inside
  obtain ⟨phase, rfl⟩ := exists_phase listed
  obtain ⟨phase', rfl⟩ := exists_phase inside
  cases (callName_inj same).2.1

/-! ### The names of lines -/

def Line.label? : Line → Option String
  | .label kind i phase => some (callName kind (.index i) phase)
  | _ => none

def Line.macro? : Line → Option String
  | .macroStart kind phase => some (callName kind .aggregate phase)
  | _ => none

theorem Line.label?_eq_none {l : Line} (other : l.sort ≠ 0) : l.label? = none := by
  cases l with
  | label => exact absurd rfl other
  | _ => rfl

theorem Line.macro?_eq_none {l : Line} (other : l.sort ≠ 5) : l.macro? = none := by
  cases l with
  | macroStart => exact absurd rfl other
  | _ => rfl

theorem words_label (kind : ContextKind) (i : Nat) (phase : Phase) :
    Text.words (Line.label kind i phase).text.toList =
      [(callName kind (.index i) phase).toList ++ [':']] := by
  have name : ∀ kind : ContextKind, ∀ c ∈ kind.name.toList, Text.isBlank c = false := by
    intro kind
    cases kind <;> decide
  have back : ∀ phase : Phase, ∀ c ∈ phase.mark.toList ++ "JSLs:".toList, Text.isBlank c = false := by
    intro phase
    cases phase <;> decide
  have solid : Text.Solid (Line.label kind i phase).text := by
    refine ⟨fun none => ?_, fun c member => ?_⟩
    · have last := Line.getLast?_text (.label kind i phase)
      rw [none] at last
      cases last
    · rw [Line.toList_label] at member
      rcases List.mem_append.mp member with front | rest
      · exact name kind c front
      rcases List.mem_append.mp rest with number | rest
      · obtain ⟨d, small, rfl⟩ := Text.exists_digit_of_mem_numeral (by decide) number
        exact (Address.digitChar_plain small).2.1
      · exact back phase c rest
  rw [Text.words_of_solid solid, Line.toList_label, toList_callName, SlotKey.tag, Text.hex,
    String.toList_ofList]
  simp

/-- Only labels and the line that takes two bytes off the stack have a colon. -/
theorem colon_notMem_text {l : Line} (other : l.sort ≠ 0 ∧ l.sort ≠ 8) : ':' ∉ l.text.toList := by
  have symbol {id : Nat} {part : String} (plain : ∀ c ∈ part.toList, isSymbolChar c = true) :
      ':' ∉ (Resource.symbol id part).toList := by
    intro member
    cases isSymbolChar_symbol plain member
  cases l with
  | label => exact absurd rfl other.1
  | release => exact absurd rfl other.2
  | setExtraBytes id kind slot =>
    have head : ∀ c ∈ "ExtraBytes_".toList, isSymbolChar c = true := by decide
    have table : ∀ c ∈ ("ExtraBytes_" ++ slot.label kind).toList, isSymbolChar c = true := by
      intro c member
      rw [String.toList_append] at member
      rcases List.mem_append.mp member with front | back
      · exact head c front
      · exact isSymbolChar_slotLabel back
    rw [Line.toList_setExtraBytes]
    simp [symbol table]
  | call id phase =>
    have part : ∀ c ∈ phase.part.toList, isSymbolChar c = true := by cases phase <;> decide
    rw [Line.toList_call]
    simp [symbol part]
  | macroStart kind phase =>
    rw [Line.toList_macroStart]
    cases kind <;> cases phase <;> decide
  | leave => rw [Line.text_leave]; decide
  | separator => rw [Line.text_separator]; decide
  | macroEnd => rw [Line.text_macroEnd]; decide
  | reserve => rw [Line.text_reserve]; decide

theorem labels_text (l : Line) :
    (Text.words l.text.toList).filterMap labelOfWord? = l.label?.toList := by
  by_cases sort : l.sort = 0 ∨ l.sort = 8
  · cases l with
    | label kind i phase =>
      have filled : (callName kind (.index i) phase).toList ≠ [] := by
        rw [toList_callName]
        cases kind <;> simp [ContextKind.name]
      rw [words_label]
      simp [labelOfWord?, Line.label?, filled]
    | release =>
      rw [Line.text_release]
      decide
    | _ => simp [Line.sort] at sort
  · obtain ⟨label, release⟩ := not_or.mp sort
    rw [Line.label?_eq_none label, Option.toList_none, List.filterMap_eq_nil_iff]
    intro word member
    have part : word <:+: l.text.toList := Text.infix_of_mem_pieces (List.mem_filter.mp member).1
    have inside : ':' ∉ word := fun colon => colon_notMem_text ⟨label, release⟩ (part.subset colon)
    exact if_neg fun ends => inside (List.mem_of_getLast? ends.1)

theorem definedLabels_render (ls : List Line) :
    definedLabels (render ls) = ls.filterMap Line.label? := by
  unfold definedLabels
  rw [linesOf_render, List.flatMap_map, List.filterMap_eq_flatMap_toList]
  exact List.flatMap_congr fun l _ => labels_text l

theorem macro_text (l : Line) :
    (Text.dropHead? "macro ".toList (Text.trimStart l.text.toList)).map
      (fun rest => String.ofList (rest.takeWhile (· != '('))) = l.macro? := by
  cases l with
  | macroStart kind phase =>
    rw [Line.toList_macroStart]
    cases kind <;> cases phase <;> decide
  | label kind i phase =>
    rw [Line.toList_label]
    cases kind <;> rfl
  | setExtraBytes => rw [Line.toList_setExtraBytes]; rfl
  | call => rw [Line.toList_call]; rfl
  | _ => rfl

theorem definedMacros_render (ls : List Line) :
    definedMacros (render ls) = ls.filterMap Line.macro? := by
  unfold definedMacros
  rw [linesOf_render, List.filterMap_map]
  exact List.filterMap_congr fun l _ => macro_text l

end Dispatch

open Dispatch (Line callName labelNames macroNames definedLabels definedMacros render)

namespace Slot

theorem filterMap_calls {α : Type} {f : Line → Option α}
    (plain : ∀ l : Line, l.sort = 1 ∨ l.sort = 2 → f l = none) (s : Slot) (t : ResourceTable)
    (kind : ContextKind) (slot : SlotKey) (phase : Phase) :
    (s.calls t kind slot phase).filterMap f = [] := by
  rw [List.filterMap_eq_nil_iff]
  intro l member
  rcases mem_calls member with ⟨id, rfl⟩ | ⟨id, rfl⟩
  · exact plain _ (Or.inl rfl)
  · exact plain _ (Or.inr rfl)

end Slot

namespace Context
variable {kind : ContextKind}

theorem filterMap_aggregateBody {α : Type} {f : Line → Option α}
    (plain : ∀ l : Line, l.sort ≠ 0 → l.sort ≠ 5 → f l = none) (t : ResourceTable) (c : Context kind)
    (phase : Phase) : (c.aggregateBody t phase).filterMap f = [] := by
  have calls := Slot.filterMap_calls
    (fun l sort => plain l (by omega) (by omega)) c.aggregate t kind .aggregate
  have reserve : f .reserve = none := plain _ (by decide) (by decide)
  have release : f .release = none := plain _ (by decide) (by decide)
  unfold aggregateBody
  split
  · rfl
  · cases phase with
    | frame => simp [List.filterMap_append, calls, reserve, release]
    | nmi => exact calls .nmi

theorem labels_routine (t : ResourceTable) (phase : Phase) (s : Slot) (i : Nat) :
    (routine t kind phase s i).filterMap Line.label? =
      if s.isUsed phase then [callName kind (.index i) phase] else [] := by
  have calls := Slot.filterMap_calls (f := Line.label?)
    (fun l sort => Line.label?_eq_none (by omega)) s t kind (.index i) phase
  unfold routine
  split
  · simp only [List.cons_append, List.filterMap_cons, List.filterMap_append, List.filterMap_nil, calls,
      Line.label?, List.nil_append]
  · rfl

theorem macros_routine (t : ResourceTable) (phase : Phase) (s : Slot) (i : Nat) :
    (routine t kind phase s i).filterMap Line.macro? = [] := by
  have calls := Slot.filterMap_calls (f := Line.macro?)
    (fun l sort => Line.macro?_eq_none (by omega)) s t kind (.index i) phase
  unfold routine
  split
  · simp only [List.cons_append, List.filterMap_cons, List.filterMap_append, List.filterMap_nil, calls,
      Line.macro?, List.nil_append]
  · rfl

theorem labels_aggregateMacro (t : ResourceTable) (c : Context kind) (phase : Phase) :
    (c.aggregateMacro t phase).filterMap Line.label? = [] := by
  have body := filterMap_aggregateBody (f := Line.label?)
    (fun l label _ => Line.label?_eq_none label) t c phase
  rw [aggregateMacro_eq]
  simp only [List.filterMap_cons, List.filterMap_append, List.filterMap_nil, body, Line.label?,
    List.nil_append]

theorem macros_aggregateMacro (t : ResourceTable) (c : Context kind) (phase : Phase) :
    (c.aggregateMacro t phase).filterMap Line.macro? = [callName kind .aggregate phase] := by
  have body := filterMap_aggregateBody (f := Line.macro?)
    (fun l _ start => Line.macro?_eq_none start) t c phase
  rw [aggregateMacro_eq]
  simp only [List.filterMap_cons, List.filterMap_append, List.filterMap_nil, body, Line.macro?,
    List.nil_append]

/-- Each of the two labels of a slot comes from one of three passes over the slots, whatever its marks. -/
theorem labels_slot (t : ResourceTable) (s : Slot) (i : Nat) :
    ((idleLabels kind s i).filterMap Line.label? ++ ((routine t kind .frame s i).filterMap Line.label? ++
      (routine t kind .nmi s i).filterMap Line.label?)).Perm
        [callName kind (.index i) .frame, callName kind (.index i) .nmi] := by
  rw [labels_routine, labels_routine]
  -- with one mark set, one label shares the return and the other stands in front of calls
  obtain ⟨assignments, hasCalls, hasNmiCalls⟩ := s
  cases hasCalls with
  | false =>
    cases hasNmiCalls with
    | false => exact List.Perm.refl _
    | true => exact List.Perm.refl _
  | true =>
    cases hasNmiCalls with
    | false => exact List.Perm.swap _ _ _
    | true => exact List.Perm.refl _

theorem labels_dispatch (t : ResourceTable) (c : Context kind) :
    ((c.dispatch t).filterMap Line.label?).Perm ((List.range kind.capacity).flatMap fun i =>
      [callName kind (.index i) .frame, callName kind (.index i) .nmi]) := by
  have passes : (c.dispatch t).filterMap Line.label? = c.idle.filterMap Line.label? ++
      ((c.routines t .frame).filterMap Line.label? ++ (c.routines t .nmi).filterMap Line.label?) := by
    rw [dispatch_eq]
    simp only [List.filterMap_cons, List.filterMap_append, labels_aggregateMacro, Line.label?,
      List.append_nil]
  have numbers : c.numbered.map Prod.snd = List.range kind.capacity := by
    rw [numbered, List.zipIdx_map_snd, Vector.length_toList, List.range_eq_range']
  rw [passes, idle, routines, routines, List.filterMap_flatMap, List.filterMap_flatMap,
    List.filterMap_flatMap, ← numbers, List.flatMap_map]
  refine ((List.flatMap_append_perm ..).append_left _).trans ?_
  refine (List.flatMap_append_perm ..).trans ?_
  exact List.Perm.flatMap_left _ fun si _ => labels_slot t si.1 si.2

theorem macros_dispatch (t : ResourceTable) (c : Context kind) :
    (c.dispatch t).filterMap Line.macro? =
      [callName kind .aggregate .frame, callName kind .aggregate .nmi] := by
  have idle : c.idle.filterMap Line.macro? = [] := by
    rw [List.filterMap_eq_nil_iff]
    intro l member
    obtain ⟨_, _, _, _, rfl, _⟩ := mem_idle.mp member
    rfl
  have routines (phase : Phase) : (c.routines t phase).filterMap Line.macro? = [] := by
    rw [routines, List.filterMap_flatMap, List.flatMap_eq_nil_iff]
    exact fun si _ => macros_routine t phase si.1 si.2
  rw [dispatch_eq]
  simp only [List.filterMap_cons, List.filterMap_append, idle, routines, macros_aggregateMacro,
    Line.macro?, List.nil_append, List.cons_append]

end Context

namespace Dispatch

/-- The dispatch text defines each label of each slot once, each macro of each context once, and no
other label or macro. It does so whether or not the marks of the slots are up to date. -/
theorem dispatch_defines_once (cs : Contexts) (t : ResourceTable) :
    (definedLabels (render (cs.dispatch t))).Perm labelNames ∧
      (definedMacros (render (cs.dispatch t))).Perm macroNames ∧ (labelNames ++ macroNames).Nodup := by
  refine ⟨?_, ?_, nodup_names⟩
  · rw [definedLabels_render, Contexts.dispatch, List.filterMap_flatMap]
    exact List.Perm.flatMap_left _ fun kind _ => Context.labels_dispatch t (cs.get kind)
  · rw [definedMacros_render, Contexts.dispatch, List.filterMap_flatMap]
    exact List.Perm.flatMap_left _ fun kind _ => .of_eq (Context.macros_dispatch t (cs.get kind))

end Dispatch
end RomLinker
