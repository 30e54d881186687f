import RomLinker.Context.Dispatch
import RomLinker.Proofs.Lines

/-!
The text of the dispatch lines. A line is known by its text as far as a reader needs: labels, macro
heads and ends, and returns are each written in one way that no other line is (`label_inj` and
its neighbours), labels alone end in a colon, and the rendered text has the lines that were rendered
(`linesOf_render`).
-/
namespace RomLinker

namespace Resource

theorem toList_symbol (id : Nat) (part : String) :
    (symbol id part).toList = "UberResource".toList ++ (Text.numeral 10 id ++ '_' :: part.toList) := by
  change ("UberResource" ++ Text.decimal id ++ "_" ++ part).toList = _
  simp [Text.decimal]

theorem symbol_inj {id id' : Nat} {part part' : String} (same : symbol id part = symbol id' part') :
    id = id' ∧ part = part' := by
  rw [← String.toList_inj, toList_symbol, toList_symbol, List.append_cancel_left_eq] at same
  have stop : ∀ cs : List Char, ∀ c ∈ ('_' :: cs).head?, Text.decimalDigit? c = none := by
    intro cs c member
    obtain rfl := Option.some.inj member
    decide
  obtain ⟨number, rest⟩ := Text.decimal_append_inj (stop _) (stop _) same
  exact ⟨number, String.toList_inj.mp (List.cons.inj rest).2⟩

end Resource

namespace Dispatch.Line

theorem toList_label (kind : ContextKind) (i : Nat) (phase : Phase) :
    (label kind i phase).text.toList =
      kind.name.toList ++ (Text.numeral 16 i ++ (phase.mark.toList ++ "JSLs:".toList)) := by
  change (kind.name ++ Text.hex i ++ phase.mark ++ "JSLs:").toList = _
  simp only [String.toList_append, Text.hex, String.toList_ofList, List.append_assoc]

theorem toList_setExtraBytes (id : Nat) (kind : ContextKind) (slot : SlotKey) :
    (setExtraBytes id kind slot).text.toList =
      "    %UberSetExtraBytes(".toList ++
        ((Resource.symbol id ("ExtraBytes_" ++ slot.label kind)).toList ++ [')']) := by
  change ("    %UberSetExtraBytes(" ++ Resource.symbol id ("ExtraBytes_" ++ slot.label kind) ++
    ")").toList = _
  simp

theorem toList_call (id : Nat) (phase : Phase) :
    (call id phase).text.toList = "    jsl ".toList ++ (Resource.symbol id phase.part).toList := by
  change ("    jsl " ++ Resource.symbol id phase.part).toList = _
  simp

theorem toList_macroStart (kind : ContextKind) (phase : Phase) :
    (macroStart kind phase).text.toList =
      "macro ".toList ++ (kind.name.toList ++ ("All".toList ++ (phase.mark.toList ++ "JSLs()".toList))) := by
  change ("macro " ++ kind.name ++ "All" ++ phase.mark ++ "JSLs()").toList = _
  simp only [String.toList_append, List.append_assoc]

theorem text_leave : leave.text = "    rts" := rfl
theorem text_separator : separator.text = "" := rfl
theorem text_macroEnd : macroEnd.text = "endmacro" := rfl
theorem text_reserve : reserve.text = "    pea $0000" := rfl
theorem text_release : release.text = "    pla : pla" := rfl

theorem mark_append_inj {phase phase' : Phase} {cs : List Char}
    (same : phase.mark.toList ++ 'J' :: cs = phase'.mark.toList ++ 'J' :: cs) : phase = phase' := by
  have sizes := congrArg List.length same
  revert sizes
  cases phase <;> cases phase' <;> simp [Phase.mark]
  omega

theorem name_append_inj {kind kind' : ContextKind} {cs ds : List Char}
    (same : kind.name.toList ++ cs = kind'.name.toList ++ ds) : kind = kind' ∧ cs = ds := by
  have kinds : kind = kind' := by
    revert same
    cases kind <;> cases kind' <;> simp [ContextKind.name]
  subst kinds
  exact ⟨rfl, List.append_cancel_left same⟩

theorem label_inj {kind kind' : ContextKind} {i i' : Nat} {phase phase' : Phase}
    (same : (label kind i phase).text = (label kind' i' phase').text) :
    label kind i phase = label kind' i' phase' := by
  rw [← String.toList_inj, toList_label, toList_label] at same
  have stop : ∀ phase : Phase, ∀ c ∈ (phase.mark.toList ++ "JSLs:".toList).head?,
      Text.hexDigit? c = none := by
    intro phase
    cases phase <;> simp [Phase.mark] <;> decide
  obtain ⟨rfl, indexed⟩ := name_append_inj same
  obtain ⟨rfl, marked⟩ := Text.hex_append_inj (stop _) (stop _) indexed
  rw [mark_append_inj marked]

/-- `l` is no digit, so that no index is named like the aggregate slot. -/
theorem notMem_numeral (i : Nat) : 'l' ∉ Text.numeral 16 i := by
  intro member
  obtain ⟨d, small, digit⟩ := Text.exists_digit_of_mem_numeral (by decide) member
  revert digit
  revert d
  decide

theorem tag_injective {slot slot' : SlotKey} (same : slot.tag = slot'.tag) : slot = slot' := by
  rw [← String.toList_inj] at same
  have apart (i : Nat) (same : "All".toList = Text.numeral 16 i) : False :=
    notMem_numeral i (same ▸ (by decide : 'l' ∈ "All".toList))
  cases slot with
  | aggregate =>
    cases slot' with
    | aggregate => rfl
    | index i => exact absurd (by simpa [SlotKey.tag, Text.hex] using same) (apart i)
  | index i =>
    cases slot' with
    | aggregate => exact absurd (by simpa [SlotKey.tag, Text.hex] using same.symm) (apart i)
    | index j =>
      have digits : Text.numeral 16 i = Text.numeral 16 j := by
        simpa [SlotKey.tag, Text.hex] using same
      rw [Text.numeral_injective (by decide) (fun _ => Text.hexDigit?_digitChar) digits]

theorem slotLabel_inj {kind kind' : ContextKind} {slot slot' : SlotKey}
    (same : slot.label kind = slot'.label kind') : kind = kind' ∧ slot = slot' := by
  rw [← String.toList_inj, SlotKey.label, SlotKey.label, String.toList_append,
    String.toList_append] at same
  obtain ⟨rfl, tags⟩ := name_append_inj same
  exact ⟨rfl, tag_injective (String.toList_inj.mp tags)⟩

theorem setExtraBytes_inj {id id' : Nat} {kind kind' : ContextKind} {slot slot' : SlotKey}
    (same : (setExtraBytes id kind slot).text = (setExtraBytes id' kind' slot').text) :
    setExtraBytes id kind slot = setExtraBytes id' kind' slot' := by
  rw [← String.toList_inj, toList_setExtraBytes, toList_setExtraBytes, List.append_cancel_left_eq,
    List.append_cancel_right_eq, String.toList_inj] at same
  obtain ⟨rfl, parts⟩ := Resource.symbol_inj same
  rw [← String.toList_inj, String.toList_append, String.toList_append, List.append_cancel_left_eq,
    String.toList_inj] at parts
  obtain ⟨rfl, rfl⟩ := slotLabel_inj parts
  rfl

theorem call_inj {id id' : Nat} {phase phase' : Phase}
    (same : (call id phase).text = (call id' phase').text) : call id phase = call id' phase' := by
  rw [← String.toList_inj, toList_call, toList_call, List.append_cancel_left_eq,
    String.toList_inj] at same
  obtain ⟨rfl, parts⟩ := Resource.symbol_inj same
  revert parts
  cases phase <;> cases phase' <;> simp [Phase.part]

theorem macroStart_inj {kind kind' : ContextKind} {phase phase' : Phase}
    (same : (macroStart kind phase).text = (macroStart kind' phase').text) :
    macroStart kind phase = macroStart kind' phase' := by
  rw [← String.toList_inj, toList_macroStart, toList_macroStart, List.append_cancel_left_eq] at same
  obtain ⟨rfl, named⟩ := name_append_inj same
  rw [List.append_cancel_left_eq] at named
  rw [mark_append_inj named]

def sort : Line → Nat
  | label .. => 0
  | setExtraBytes .. => 1
  | call .. => 2
  | leave => 3
  | separator => 4
  | macroStart .. => 5
  | macroEnd => 6
  | reserve => 7
  | release => 8

/-- The constructor of a line, read off its first characters. -/
def sortOf : List Char → Nat
  | ' ' :: _ :: _ :: _ :: '%' :: _ => 1
  | ' ' :: _ :: _ :: _ :: 'j' :: _ => 2
  | ' ' :: _ :: _ :: _ :: 'r' :: _ => 3
  | [] => 4
  | 'm' :: _ => 5
  | 'e' :: _ => 6
  | ' ' :: _ :: _ :: _ :: 'p' :: 'e' :: _ => 7
  | ' ' :: _ :: _ :: _ :: 'p' :: 'l' :: _ => 8
  | _ => 0

theorem sortOf_text (l : Line) : sortOf l.text.toList = l.sort := by
  cases l with
  | label kind i phase =>
    rw [toList_label]
    cases kind <;> rfl
  | setExtraBytes id kind slot => rw [toList_setExtraBytes]; rfl
  | call id phase => rw [toList_call]; rfl
  | macroStart kind phase => rw [toList_macroStart]; rfl
  | _ => rfl

theorem text_injective {l m : Line} (same : l.text = m.text) : l = m := by
  have sorts : l.sort = m.sort := by rw [← sortOf_text, same, sortOf_text]
  cases l with
  | label => cases m with
    | label => exact label_inj same
    | _ => exact absurd sorts (by simp [sort])
  | setExtraBytes => cases m with
    | setExtraBytes => exact setExtraBytes_inj same
    | _ => exact absurd sorts (by simp [sort])
  | call => cases m with
    | call => exact call_inj same
    | _ => exact absurd sorts (by simp [sort])
  | macroStart => cases m with
    | macroStart => exact macroStart_inj same
    | _ => exact absurd sorts (by simp [sort])
  | _ => cases m <;> first | rfl | exact absurd sorts (by simp [sort])

def isLabel : Line → Bool
  | .label .. => true
  | _ => false

theorem getLast?_text (l : Line) : (l.text.toList.getLast? == some ':') = l.isLabel := by
  cases l with
  | label kind i phase =>
    rw [toList_label, List.getLast?_append, List.getLast?_append, List.getLast?_append]
    rfl
  | setExtraBytes id kind slot =>
    rw [toList_setExtraBytes, List.getLast?_append, List.getLast?_append]
    rfl
  | call id phase =>
    rw [toList_call, Resource.toList_symbol, List.getLast?_append, List.getLast?_append,
      List.getLast?_append]
    cases phase <;> rfl
  | macroStart kind phase =>
    rw [toList_macroStart, List.getLast?_append, List.getLast?_append, List.getLast?_append,
      List.getLast?_append]
    rfl
  | _ => rfl

theorem oneLine_text (l : Line) : Text.OneLine l.text.toList := by
  have symbol (id : Nat) {part : String} (h : Text.OneLine part.toList) :
      Text.OneLine (Resource.symbol id part).toList := by
    rw [Resource.toList_symbol]
    refine Text.OneLine.append (by decide) ((Text.oneLine_numeral (by decide) (by decide) id).append ?_)
    exact Text.OneLine.append (show Text.OneLine ['_'] by decide) h
  have name (kind : ContextKind) : Text.OneLine kind.name.toList := by cases kind <;> decide
  have mark (phase : Phase) : Text.OneLine phase.mark.toList := by cases phase <;> decide
  have tag (slot : SlotKey) : Text.OneLine slot.tag.toList := by
    cases slot with
    | aggregate => decide
    | index i => simpa [SlotKey.tag, Text.hex] using Text.oneLine_numeral (by decide) (by decide) i
  cases l with
  | label kind i phase =>
    rw [toList_label]
    exact (name kind).append ((Text.oneLine_numeral (by decide) (by decide) i).append
      ((mark phase).append (by decide)))
  | setExtraBytes id kind slot =>
    have table : Text.OneLine ("ExtraBytes_" ++ slot.label kind).toList := by
      rw [String.toList_append, SlotKey.label, String.toList_append]
      exact Text.OneLine.append (by decide) ((name kind).append (tag slot))
    rw [toList_setExtraBytes]
    exact Text.OneLine.append (by decide) ((symbol id table).append (by decide))
  | call id phase =>
    have part : Text.OneLine phase.part.toList := by cases phase <;> decide
    rw [toList_call]
    exact Text.OneLine.append (by decide) (symbol id part)
  | macroStart kind phase =>
    rw [toList_macroStart]
    exact Text.OneLine.append (by decide) ((name kind).append
      (Text.OneLine.append (by decide) ((mark phase).append (by decide))))
  | leave => rw [text_leave]; decide
  | separator => rw [text_separator]; decide
  | macroEnd => rw [text_macroEnd]; decide
  | reserve => rw [text_reserve]; decide
  | release => rw [text_release]; decide

end Dispatch.Line

namespace Dispatch

theorem linesOf_render (ls : List Line) : Text.linesOf (render ls) = ls.map Line.text := by
  have oneLine : ∀ s ∈ ls.map Line.text, Text.OneLine s.toList := by
    intro s member
    obtain ⟨l, -, rfl⟩ := List.mem_map.mp member
    exact Line.oneLine_text l
  rw [← Text.linesOf_join oneLine, List.map_map]
  rfl

end Dispatch
end RomLinker
