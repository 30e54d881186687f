import RomLinker.Proofs.Dispatch.Calls
import RomLinker.Proofs.Path

/-!
The symbols of the dispatch text. Whatever it says of a resource stands in a call of that resource, or
in front of one (`mem_symbolsIn_render`), and the call is there because a slot holds the resource
(`Contexts.explains_of_mem_dispatch`).
-/
namespace RomLinker
open Dispatch (Line render)

def isSymbolChar (c : Char) : Bool := c.isAlphanum || c == '_'

namespace Dispatch

def symbolsIn (text : String) : List String :=
  ((Text.pieces (!isSymbolChar ·) text.toList).map String.ofList).filter
    fun symbol => "UberResource".toList.isPrefixOf symbol.toList

theorem mem_symbolsIn {text s : String} : s ∈ symbolsIn text ↔
    s.toList ∈ Text.pieces (!isSymbolChar ·) text.toList ∧ "UberResource".toList <+: s.toList := by
  unfold symbolsIn
  rw [List.mem_filter, List.isPrefixOf_iff_prefix]
  constructor
  · rintro ⟨member, named⟩
    obtain ⟨piece, inside, rfl⟩ := List.mem_map.mp member
    have same : (String.ofList piece).toList = piece := String.toList_ofList
    rw [same] at named ⊢
    exact ⟨inside, named⟩
  · rintro ⟨inside, named⟩
    exact ⟨List.mem_map.mpr ⟨s.toList, inside, String.ofList_toList⟩, named⟩

theorem isSymbolChar_digit {d : Nat} (small : d < 16) :
    isSymbolChar (Text.digitChar d) = true ∧ Text.digitChar d ≠ 'U' := by
  revert d
  decide

theorem isSymbolChar_numeral {base : Nat} (two : 2 ≤ base) (few : base ≤ 16) {n : Nat} {c : Char}
    (member : c ∈ Text.numeral base n) : isSymbolChar c = true ∧ c ≠ 'U' := by
  obtain ⟨d, small, rfl⟩ := Text.exists_digit_of_mem_numeral two member
  exact isSymbolChar_digit (by omega)

theorem isSymbolChar_slotLabel {kind : ContextKind} {slot : SlotKey} {c : Char}
    (member : c ∈ (slot.label kind).toList) : isSymbolChar c = true := by
  rw [SlotKey.label, String.toList_append] at member
  rcases List.mem_append.mp member with front | back
  · have all : ∀ c ∈ kind.name.toList, isSymbolChar c = true := by cases kind <;> decide
    exact all c front
  · cases slot with
    | aggregate =>
      have all : ∀ c ∈ SlotKey.aggregate.tag.toList, isSymbolChar c = true := by decide
      exact all c back
    | index i =>
      rw [SlotKey.tag, Text.hex, String.toList_ofList] at back
      exact (isSymbolChar_numeral (by decide) (by decide) back).1

theorem isSymbolChar_symbol {id : Nat} {part : String} (plain : ∀ c ∈ part.toList, isSymbolChar c = true)
    {c : Char} (member : c ∈ (Resource.symbol id part).toList) : isSymbolChar c = true := by
  have head : ∀ c ∈ "UberResource".toList, isSymbolChar c = true := by decide
  rw [Resource.toList_symbol] at member
  rcases List.mem_append.mp member with front | rest
  · exact head c front
  rcases List.mem_append.mp rest with digit | rest
  · exact (isSymbolChar_numeral (by decide) (by decide) digit).1
  rcases List.mem_cons.mp rest with rfl | back
  · decide
  · exact plain c back

/-- No line of another sort has the letter that a resource's symbol begins with. -/
theorem notMem_text {l : Line} (other : l.sort ≠ 1 ∧ l.sort ≠ 2) : 'U' ∉ l.text.toList := by
  have name (kind : ContextKind) : 'U' ∉ kind.name.toList := by cases kind <;> decide
  have mark (phase : Phase) : 'U' ∉ phase.mark.toList := by cases phase <;> decide
  cases l with
  | label kind i phase =>
    have number : 'U' ∉ Text.numeral 16 i := fun member =>
      (isSymbolChar_numeral (by decide) (by decide) member).2 rfl
    rw [Line.toList_label]
    simp [name, mark, number]
  | macroStart kind phase =>
    rw [Line.toList_macroStart]
    simp [name, mark]
  | setExtraBytes => exact absurd rfl other.1
  | call => exact absurd rfl other.2
  | leave => rw [Line.text_leave]; decide
  | separator => rw [Line.text_separator]; decide
  | macroEnd => rw [Line.text_macroEnd]; decide
  | reserve => rw [Line.text_reserve]; decide
  | release => rw [Line.text_release]; decide

def Line.symbol? : Line → Option String
  | .setExtraBytes id kind slot => some (Resource.symbol id ("ExtraBytes_" ++ slot.label kind))
  | .call id phase => some (Resource.symbol id phase.part)
  | _ => none

theorem pieces_symbol (id : Nat) {part : String} (plain : ∀ c ∈ part.toList, isSymbolChar c = true) :
    Text.pieces (!isSymbolChar ·) (Resource.symbol id part).toList = [(Resource.symbol id part).toList] :=
  Text.pieces_of_none fun c member => by rw [isSymbolChar_symbol plain member]; rfl

theorem pieces_setExtraBytes (id : Nat) (kind : ContextKind) (slot : SlotKey) :
    Text.pieces (!isSymbolChar ·) (Line.setExtraBytes id kind slot).text.toList =
      Text.pieces (!isSymbolChar ·) "    %UberSetExtraBytes".toList ++
        [(Resource.symbol id ("ExtraBytes_" ++ slot.label kind)).toList, []] := by
  have plain : ∀ c ∈ ("ExtraBytes_" ++ slot.label kind).toList, isSymbolChar c = true := by
    intro c member
    rw [String.toList_append] at member
    have head : ∀ c ∈ "ExtraBytes_".toList, isSymbolChar c = true := by decide
    rcases List.mem_append.mp member with front | back
    · exact head c front
    · exact isSymbolChar_slotLabel back
  have front : "    %UberSetExtraBytes(".toList = "    %UberSetExtraBytes".toList ++ ['('] := by decide
  rw [Line.toList_setExtraBytes, front, List.append_assoc, List.singleton_append,
    Text.pieces_append_cons (by decide), Text.pieces_append_cons (by decide), pieces_symbol id plain]
  rfl

theorem pieces_call (id : Nat) (phase : Phase) :
    Text.pieces (!isSymbolChar ·) (Line.call id phase).text.toList =
      Text.pieces (!isSymbolChar ·) "    jsl".toList ++ [(Resource.symbol id phase.part).toList] := by
  have plain : ∀ c ∈ phase.part.toList, isSymbolChar c = true := by cases phase <;> decide
  have front : "    jsl ".toList = "    jsl".toList ++ [' '] := by decide
  rw [Line.toList_call, front, List.append_assoc, List.singleton_append,
    Text.pieces_append_cons (by decide), pieces_symbol id plain]

theorem symbol?_eq_of_piece {l : Line} {s : String}
    (inside : s.toList ∈ Text.pieces (!isSymbolChar ·) l.text.toList)
    (named : "UberResource".toList <+: s.toList) : l.symbol? = some s := by
  have notNamed (front : List (List Char))
      (none : ∀ piece ∈ front, "UberResource".toList.isPrefixOf piece = false) :
      s.toList ∉ front := by
    intro member
    cases (none _ member).symm.trans (List.isPrefixOf_iff_prefix.mpr named)
  by_cases sort : l.sort = 1 ∨ l.sort = 2
  · cases l with
    | setExtraBytes id kind slot =>
      rw [pieces_setExtraBytes, List.mem_append, List.mem_cons] at inside
      rcases inside with front | here | back
      · exact absurd front (notNamed _ (by decide))
      · rw [Line.symbol?, String.toList_inj.mp here]
      · exact absurd back (notNamed _ (by decide))
    | call id phase =>
      rw [pieces_call, List.mem_append, List.mem_singleton] at inside
      rcases inside with front | here
      · exact absurd front (notNamed _ (by decide))
      · rw [Line.symbol?, String.toList_inj.mp here]
    | _ => exact absurd sort (by simp [Line.sort])
  · obtain ⟨rest, split⟩ := named
    have letter : 'U' ∈ s.toList := by
      rw [← split]
      exact List.mem_append_left _ (by decide)
    have here := (Text.infix_of_mem_pieces inside).subset letter
    exact absurd here (notMem_text (by omega))

theorem mem_symbolsIn_render {ls : List Line} {s : String} (member : s ∈ symbolsIn (render ls)) :
    ∃ l ∈ ls, l.symbol? = some s := by
  obtain ⟨inside, named⟩ := mem_symbolsIn.mp member
  clear member
  induction ls with
  | nil =>
    have none : s.toList = [] := List.mem_singleton.mp inside
    rw [none] at named
    exact absurd named (by decide)
  | cons l ls ih =>
    have split : (render (l :: ls)).toList = l.text.toList ++ '\n' :: (render ls).toList := by
      simp [render]
    rw [split, Text.pieces_append_cons (by decide), List.mem_append] at inside
    rcases inside with here | later
    · exact ⟨l, List.mem_cons_self, symbol?_eq_of_piece here named⟩
    · obtain ⟨m, member, symbol⟩ := ih later
      exact ⟨m, List.mem_cons_of_mem l member, symbol⟩

end Dispatch

namespace Slot
variable {s : Slot} {t : ResourceTable} {kind : ContextKind} {slot : SlotKey} {phase : Phase} {l : Line}

/-- A line is there for a resource, for the reason that it gives. -/
def Explains (t : ResourceTable) (kind : ContextKind) (slot : SlotKey) (a : Assignment) (l : Line) :
    Prop :=
  ∃ r, t.get? a.resource = some r ∧
    ((l = .setExtraBytes a.resource kind slot ∧ 0 < r.directives.extraBytes) ∨
      l = .call a.resource .frame ∨ (l = .call a.resource .nmi ∧ r.answersNmi = true))

theorem explains_of_mem_calls (member : l ∈ s.calls t kind slot phase) :
    ∃ a ∈ s.assignments, Explains t kind slot a l := by
  obtain ⟨a, held, member⟩ := List.mem_flatMap.mp member
  unfold callLines at member
  cases found : t.get? a.resource with
  | none =>
    rw [found] at member
    cases member
  | some r =>
    rw [found] at member
    refine ⟨a, held, r, found, ?_⟩
    cases phase with
    | frame =>
      rcases List.mem_append.mp member with front | back
      · split at front
        · rename_i bytes
          exact Or.inl ⟨List.mem_singleton.mp front, bytes⟩
        · cases front
      · exact Or.inr (Or.inl (List.mem_singleton.mp back))
    | nmi =>
      dsimp only at member
      split at member
      · rename_i answers
        exact Or.inr (Or.inr ⟨List.mem_singleton.mp member, answers⟩)
      · cases member

end Slot

namespace Context
variable {kind : ContextKind} {c : Context kind} {t : ResourceTable} {l : Line}

theorem mem_calls_of_mem_dispatch (member : l ∈ c.dispatch t) (sort : l.sort = 1 ∨ l.sort = 2) :
    ∃ slot phase s, c.slot? slot = some s ∧ l ∈ s.calls t kind slot phase := by
  have routine (phase : Phase) (member : l ∈ c.routines t phase) :
      ∃ slot phase s, c.slot? slot = some s ∧ l ∈ s.calls t kind slot phase := by
    obtain ⟨⟨s, i⟩, found, inside⟩ := List.mem_flatMap.mp member
    rcases mem_routine inside with ⟨rfl, -⟩ | calls | rfl | rfl
    · exact absurd sort (by simp [Line.sort])
    · exact ⟨.index i, phase, s, mem_numbered.mp found, calls⟩
    · exact absurd sort (by simp [Line.sort])
    · exact absurd sort (by simp [Line.sort])
  have aggregate (phase : Phase) (member : l ∈ c.aggregateMacro t phase) :
      ∃ slot phase s, c.slot? slot = some s ∧ l ∈ s.calls t kind slot phase := by
    rw [aggregateMacro_eq] at member
    simp only [List.mem_cons, List.mem_append, List.not_mem_nil, or_false] at member
    rcases member with rfl | body | rfl | rfl
    · exact absurd sort (by simp [Line.sort])
    · refine ⟨.aggregate, phase, c.aggregate, rfl, ?_⟩
      unfold aggregateBody at body
      split at body
      · cases body
      · cases phase with
        | frame =>
          simp only [List.cons_append, List.mem_cons, List.mem_append, List.not_mem_nil, or_false] at body
          rcases body with rfl | calls | rfl
          · exact absurd sort (by simp [Line.sort])
          · exact calls
          · exact absurd sort (by simp [Line.sort])
        | nmi => exact body
    · exact absurd sort (by simp [Line.sort])
    · exact absurd sort (by simp [Line.sort])
  rw [dispatch_eq] at member
  simp only [List.mem_append, List.mem_cons] at member
  rcases member with idle | rfl | rfl | frame | nmi | frame | nmi
  · obtain ⟨_, _, _, -, rfl, -⟩ := mem_idle.mp idle
    exact absurd sort (by simp [Line.sort])
  · exact absurd sort (by simp [Line.sort])
  · exact absurd sort (by simp [Line.sort])
  · exact routine .frame frame
  · exact routine .nmi nmi
  · exact aggregate .frame frame
  · exact aggregate .nmi nmi

end Context

namespace Contexts
variable {cs : Contexts} {t : ResourceTable} {l : Line} {symbol : String}

theorem sort_of_symbol? (uses : l.symbol? = some symbol) : l.sort = 1 ∨ l.sort = 2 := by
  cases l with
  | setExtraBytes => exact Or.inl rfl
  | call => exact Or.inr rfl
  | _ => cases uses

theorem slot?_resolve {kind : ContextKind} (slot : SlotKey) :
    ((cs.resolve t).get kind).slot? slot = ((cs.get kind).slot? slot).map (·.resolve t) := by
  rw [Dispatch.get_resolve]
  cases slot with
  | aggregate => rfl
  | index i => simp [Context.slot?, Context.resolve]

theorem explains_of_mem_dispatch (member : l ∈ (cs.resolve t).dispatch t)
    (uses : l.symbol? = some symbol) :
    ∃ kind slot, ∃ a ∈ cs.assignments kind slot, Slot.Explains t kind slot a l := by
  obtain ⟨kind, -, inside⟩ := List.mem_flatMap.mp member
  obtain ⟨slot, phase, s, found, calls⟩ :=
    Context.mem_calls_of_mem_dispatch inside (sort_of_symbol? uses)
  obtain ⟨a, held, explains⟩ := Slot.explains_of_mem_calls calls
  refine ⟨kind, slot, a, ?_, explains⟩
  rw [slot?_resolve] at found
  obtain ⟨unresolved, there, rfl⟩ := Option.map_eq_some_iff.mp found
  rw [assignments_of_slot? there]
  exact held

end Contexts
end RomLinker
