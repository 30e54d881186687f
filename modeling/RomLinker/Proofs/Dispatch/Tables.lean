import Mathlib.Data.List.Nodup
import Mathlib.Data.List.Perm.Basic
import RomLinker.Proofs.ExtraBytes
import RomLinker.Proofs.Placements

/-!
The tables of extra bytes and the calls that ask for them. The source of a resource's tables reads back as
one table for each place of the resource, and the dispatch text asks for each of these tables once and for no
other one of the resource (`tables_match_calls`).
-/
namespace RomLinker
open Dispatch (Line render)

namespace ExtraBytes

def nameOf? (line : List Char) : Option String :=
  (Text.dropHead? "..".toList line).bind fun rest =>
    if rest.getLast? = some ':' then some (String.ofList rest.dropLast) else none

def byteOf? : List Char → Option UInt8
  | ['$', high, low] => do return UInt8.ofNat ((← Text.hexDigit? high) * 16 + (← Text.hexDigit? low))
  | _ => none

def bytesOf? (line : List Char) : Option (List UInt8) :=
  (Text.dropHead? "    db ".toList line).bind fun rest => (Text.pieces (· == ',') rest).mapM byteOf?

/-- The tables of a source that has two lines for each: its name and its bytes. -/
def tablesOf? : List String → Option (List Table)
  | [] => some []
  | [_] => none
  | first :: second :: rest => do
    return ⟨← nameOf? first.toList, ← bytesOf? second.toList⟩ :: (← tablesOf? rest)

theorem nameOf?_nameLine (name : String) : nameOf? (nameLine name).toList = some name := by
  have dropped : Text.dropHead? "..".toList (nameLine name).toList = some (name.toList ++ [':']) := by
    rw [Text.dropHead?_eq_some, nameLine, String.toList_append, String.toList_append, List.append_assoc]
    rfl
  rw [nameOf?, dropped, Option.bind_some, if_pos List.getLast?_concat, List.dropLast_concat,
    String.ofList_toList]

theorem byteOf?_byteText (b : UInt8) : byteOf? (byteText b).toList = some b := by
  have small : b.toNat < 256 := b.toNat_lt
  have high : b.toNat / 16 % 16 < 16 := Nat.mod_lt _ (by decide)
  have low : b.toNat % 16 < 16 := Nat.mod_lt _ (by decide)
  have value : b.toNat / 16 % 16 * 16 + b.toNat % 16 = b.toNat := by omega
  rw [byteText, String.toList_ofList]
  change byteOf? ['$', Text.digitChar (b.toNat / 16 % 16), Text.digitChar (b.toNat % 16)] = some b
  simp only [byteOf?, Text.hexDigit?_digitChar high, Text.hexDigit?_digitChar low, Option.bind_eq_bind,
    Option.bind_some, Option.pure_def, value, UInt8.ofNat_toNat]

theorem comma_notMem_byteText (b : UInt8) : ',' ∉ (byteText b).toList := by
  rw [byteText, String.toList_ofList]
  intro member
  rcases List.mem_cons.mp member with dollar | digit
  · cases dollar
  · obtain ⟨d, small, same⟩ := Text.exists_digit_of_mem_fixedHex digit
    revert same
    revert d
    decide

theorem bytesOf?_valueLine {bytes : List UInt8} (filled : bytes ≠ []) :
    bytesOf? (valueLine bytes).toList = some bytes := by
  have dropped : Text.dropHead? "    db ".toList (valueLine bytes).toList =
      some ([','].intercalate (bytes.map fun b => (byteText b).toList)) := by
    rw [Text.dropHead?_eq_some, valueLine, String.toList_append, String.toList_intercalate, List.map_map]
    rfl
  have cut : Text.pieces (· == ',') ([','].intercalate (bytes.map fun b => (byteText b).toList)) =
      bytes.map fun b => (byteText b).toList := by
    refine Text.pieces_intercalate (fun piece member => ?_) (by simpa using filled)
    obtain ⟨b, -, rfl⟩ := List.mem_map.mp member
    exact comma_notMem_byteText b
  rw [bytesOf?, dropped, Option.bind_some, cut]
  clear filled dropped cut
  induction bytes with
  | nil => rfl
  | cons b bytes ih =>
    rw [List.map_cons, List.mapM_cons, byteOf?_byteText, ih]
    rfl

theorem tablesOf?_lines {tables : List Table} (filled : ∀ t ∈ tables, t.bytes ≠ []) :
    tablesOf? (tables.flatMap fun t => [nameLine t.label, valueLine t.bytes]) = some tables := by
  induction tables with
  | nil => rfl
  | cons t tables ih =>
    obtain ⟨head, tail⟩ := List.forall_mem_cons.mp filled
    rw [List.flatMap_cons]
    change tablesOf? (nameLine t.label :: valueLine t.bytes :: tables.flatMap _) = _
    rw [tablesOf?, nameOf?_nameLine, bytesOf?_valueLine head, ih tail]
    rfl

theorem fill_eq (count : Nat) (bytes : List UInt8) :
    fill count bytes = (bytes ++ List.replicate count 0).take count := by
  refine List.ext_getElem (by simp [fill]) fun i bound _ => ?_
  have inside : i < count := by simpa [fill] using bound
  rw [List.getElem_take]
  by_cases given : i < bytes.length
  · simp [fill, List.getElem_append_left given, given]
  · simp [fill, List.getElem_append_right (Nat.le_of_not_lt given), given]

end ExtraBytes

/-! ### The places of a resource in all contexts -/

namespace Contexts

/-- Where a resource is: in each context the aggregate slot first, and the others by their indices. -/
def placed (cs : Contexts) (id : Nat) : List (ContextKind × SlotKey × Assignment) :=
  ContextKind.all.flatMap fun kind => (SlotKey.all kind).flatMap fun slot =>
    ((cs.assignments kind slot).filter (·.resource == id)).map fun a => (kind, slot, a)

def placedNames (cs : Contexts) (id : Nat) : List String :=
  (cs.placed id).map fun (kind, slot, _) => slot.label kind

variable {cs : Contexts} {id : Nat}

theorem placed_eq (cs : Contexts) (id : Nat) :
    cs.placed id = ContextKind.all.flatMap fun kind => ((cs.get kind).placesOf id).map (kind, ·) := by
  refine List.flatMap_congr fun kind _ => ?_
  rw [Context.placesOf_eq, List.map_flatMap]
  refine List.flatMap_congr fun slot _ => ?_
  rw [List.map_map]
  rfl

theorem placedNames_eq (cs : Contexts) (id : Nat) :
    cs.placedNames id = ContextKind.all.flatMap fun kind =>
      ((cs.get kind).placesOf id).map fun p => p.1.label kind := by
  rw [placedNames, placed_eq, List.map_flatMap]
  refine List.flatMap_congr fun kind _ => ?_
  rw [List.map_map]
  rfl

theorem Distinct.nodup_placedNames (distinct : cs.Distinct) (id : Nat) : (cs.placedNames id).Nodup := by
  rw [placedNames_eq]
  refine List.nodup_flatMap.mpr ⟨fun kind _ => ?_, ?_⟩
  · have listed := Context.pairwise_placesOf (c := cs.get kind) (distinct kind) id
    exact List.pairwise_map.mpr (listed.imp fun before same => before.ne (Dispatch.Line.slotLabel_inj same).2)
  · refine (by decide : ContextKind.all.Nodup).imp fun different name left right => different ?_
    obtain ⟨p, -, rfl⟩ := List.mem_map.mp left
    obtain ⟨q, -, same⟩ := List.mem_map.mp right
    exact (Dispatch.Line.slotLabel_inj same).1.symm

end Contexts

namespace ExtraBytes

theorem tables_eq (cs : Contexts) (id : Nat) {count : UInt8} (asked : count ≠ 0) :
    tables cs id count = (cs.placed id).map fun (kind, slot, a) =>
      ⟨slot.label kind, (a.bytes ++ List.replicate count.toNat 0).take count.toNat⟩ := by
  simp only [← fill_eq]
  rw [tables, if_neg asked, Contexts.placed_eq, List.map_flatMap]
  refine List.flatMap_congr fun kind _ => ?_
  rw [List.map_map]
  rfl

theorem tablesOf?_fragment (cs : Contexts) (id : Nat) {count : UInt8} (asked : count ≠ 0) :
    tablesOf? (Text.linesOf (fragment cs id count)) = some (tables cs id count) := by
  have positive : 0 < count.toNat := Nat.pos_of_ne_zero fun none => asked (UInt8.toNat_inj.mp none)
  have shape : ∀ t ∈ tables cs id count, Text.OneLine t.label.toList ∧ t.bytes ≠ [] := by
    intro t member
    rw [tables, if_neg asked] at member
    obtain ⟨kind, -, member⟩ := List.mem_flatMap.mp member
    obtain ⟨⟨slot, a⟩, -, rfl⟩ := List.mem_map.mp member
    refine ⟨oneLine_slotLabel, fun empty => ?_⟩
    have length : count.toNat = 0 := by simpa [fill] using congrArg List.length empty
    omega
  rw [fragment, linesOf_render fun t member => (shape t member).1]
  exact tablesOf?_lines fun t member => (shape t member).2

end ExtraBytes

/-! ### The tables that the dispatch text asks for -/

namespace Dispatch

def setHead (id : Nat) : String := s!"    %UberSetExtraBytes(UberResource{Text.decimal id}_ExtraBytes_"

def setName? (id : Nat) (line : List Char) : Option String :=
  (Text.dropHead? (setHead id).toList line).bind fun rest =>
    if rest.getLast? = some ')' then some (String.ofList rest.dropLast) else none

/-- The names of the tables that a text sets for a resource, line after line. -/
def namesSet (id : Nat) (text : String) : List String :=
  (Text.linesOf text).filterMap fun line => setName? id line.toList

def Line.setName? (id : Nat) : Line → Option String
  | .setExtraBytes id' kind slot => if id' = id then some (slot.label kind) else none
  | _ => none

theorem Line.setName?_of_sort {id : Nat} {l : Line} (other : l.sort ≠ 1) : l.setName? id = none := by
  cases l with
  | setExtraBytes => exact absurd rfl other
  | _ => rfl

theorem toList_setHead (id : Nat) :
    (setHead id).toList = "    %UberSetExtraBytes(".toList ++
      ("UberResource".toList ++ (Text.numeral 10 id ++ '_' :: "ExtraBytes_".toList)) := by
  change ("    %UberSetExtraBytes(UberResource" ++ Text.decimal id ++ "_ExtraBytes_").toList = _
  simp [Text.decimal]

theorem toList_setExtraBytes_eq (id : Nat) (kind : ContextKind) (slot : SlotKey) :
    (Line.setExtraBytes id kind slot).text.toList =
      (setHead id).toList ++ ((slot.label kind).toList ++ [')']) := by
  rw [Line.toList_setExtraBytes, Resource.toList_symbol, toList_setHead]
  simp

theorem setHead_inj {id id' : Nat} {rest rest' : List Char}
    (same : (setHead id).toList ++ rest = (setHead id').toList ++ rest') : id = id' := by
  rw [toList_setHead, toList_setHead] at same
  simp only [List.append_assoc, List.append_cancel_left_eq, List.cons_append] at same
  have stop : ∀ cs : List Char, ∀ c ∈ ('_' :: cs).head?, Text.decimalDigit? c = none := by
    intro cs c member
    obtain rfl := Option.some.inj member
    decide
  exact (Text.decimal_append_inj (stop _) (stop _) same).1

theorem setName?_text (id : Nat) (l : Line) : setName? id l.text.toList = l.setName? id := by
  unfold setName?
  by_cases sort : l.sort = 1
  · cases l with
    | setExtraBytes id' kind slot =>
      by_cases here : id' = id
      · subst here
        rw [Text.dropHead?_eq_some.mpr (toList_setExtraBytes_eq id' kind slot), Option.bind_some,
          if_pos List.getLast?_concat, List.dropLast_concat, String.ofList_toList, Line.setName?,
          if_pos rfl]
      · rw [Line.setName?, if_neg here]
        cases dropped : Text.dropHead? _ (Line.setExtraBytes id' kind slot).text.toList with
        | none => rfl
        | some rest =>
          have split := Text.dropHead?_eq_some.mp dropped
          rw [toList_setExtraBytes_eq] at split
          exact absurd (setHead_inj split) here
    | _ => cases sort
  · rw [Line.setName?_of_sort sort]
    cases dropped : Text.dropHead? _ l.text.toList with
    | none => rfl
    | some rest =>
      have split := Text.dropHead?_eq_some.mp dropped
      rw [toList_setHead] at split
      have first : Line.sortOf l.text.toList = 1 := by
        rw [split]
        rfl
      exact absurd ((Line.sortOf_text l).symm.trans first) sort

theorem namesSet_render (id : Nat) (ls : List Line) :
    namesSet id (render ls) = ls.filterMap (Line.setName? id) := by
  unfold namesSet
  rw [linesOf_render, List.filterMap_map]
  exact List.filterMap_congr fun l _ => setName?_text id l

end Dispatch

namespace Slot
variable {s : Slot} {t : ResourceTable} {kind : ContextKind} {slot : SlotKey} {id : Nat} {r : Resource}

/-- The calls for each frame set a table of the resource for each of its assignments, if it has any. -/
theorem setNames_calls_frame (found : t.get? id = some r) :
    (s.calls t kind slot .frame).filterMap (Line.setName? id) =
      if 0 < r.directives.extraBytes then
        (s.assignments.filter (·.resource == id)).map fun _ => slot.label kind
      else [] := by
  unfold calls
  induction s.assignments with
  | nil => simp
  | cons a as ih =>
    rw [List.flatMap_cons, List.filterMap_append, ih]
    by_cases here : a.resource = id
    · subst here
      by_cases positive : 0 < r.directives.extraBytes
      · simp [callLines, found, positive, Line.setName?]
      · simp [callLines, found, positive, Line.setName?]
    · have skipped : (callLines t kind slot .frame a).filterMap (Line.setName? id) = [] := by
        unfold callLines
        cases t.get? a.resource with
        | none => rfl
        | some r' =>
          by_cases positive : r'.directives.extraBytes > 0
          · simp [positive, Line.setName?, here]
          · simp [positive, Line.setName?]
      rw [skipped, List.nil_append, List.filter_cons_of_neg (by simpa using here)]

theorem setNames_calls_nmi : (s.calls t kind slot .nmi).filterMap (Line.setName? id) = [] := by
  rw [List.filterMap_eq_nil_iff]
  intro l member
  obtain ⟨a, -, member⟩ := List.mem_flatMap.mp member
  unfold callLines at member
  cases found : t.get? a.resource with
  | none =>
    rw [found] at member
    cases member
  | some r =>
    rw [found] at member
    dsimp only at member
    split at member
    · rw [List.mem_singleton.mp member]
      rfl
    · cases member

end Slot

namespace Context
variable {kind : ContextKind} {id : Nat} {t : ResourceTable}

theorem setNames_routine (phase : Phase) (s : Slot) (i : Nat) :
    (routine t kind phase (s.resolve t) i).filterMap (Line.setName? id) =
      (s.calls t kind (.index i) phase).filterMap (Line.setName? id) := by
  unfold routine
  by_cases used : (s.resolve t).isUsed phase = true
  · rw [if_pos used]
    simp only [List.cons_append, List.filterMap_cons, List.filterMap_append, List.filterMap_nil,
      Line.setName?, List.append_nil, Slot.calls_resolve]
  · rw [if_neg used, List.filterMap_nil]
    cases phase with
    | frame =>
      have none := Slot.isUsed_resolve_frame.mp (Bool.eq_false_iff.mpr used)
      rw [Slot.calls, none]
      rfl
    | nmi => exact Slot.setNames_calls_nmi.symm

theorem setNames_aggregateMacro (c : Context kind) (phase : Phase) :
    (c.aggregateMacro t phase).filterMap (Line.setName? id) =
      (c.aggregate.calls t kind .aggregate phase).filterMap (Line.setName? id) := by
  have body : (c.aggregateBody t phase).filterMap (Line.setName? id) =
      (c.aggregate.calls t kind .aggregate phase).filterMap (Line.setName? id) := by
    unfold aggregateBody
    by_cases none : c.aggregate.assignments = []
    · simp [Slot.calls, none]
    · rw [if_neg (by simpa using none)]
      cases phase with
      | frame =>
        simp only [List.cons_append, List.filterMap_cons, List.filterMap_append, List.filterMap_nil,
          Line.setName?, List.append_nil]
      | nmi => rfl
  rw [aggregateMacro_eq]
  simp only [List.filterMap_cons, List.filterMap_append, List.filterMap_nil, body, Line.setName?,
    List.append_nil]

theorem setNames_dispatch (c : Context kind) :
    (((c.resolve t).dispatch t).filterMap (Line.setName? id)).Perm
      (c.indexed.flatMap fun p => (p.2.calls t kind p.1 .frame).filterMap (Line.setName? id)) := by
  have numbers : (c.resolve t).numbered = c.numbered.map fun si => (si.1.resolve t, si.2) := by
    rw [numbered, resolve, Vector.toList_map, List.zipIdx_map]
    rfl
  have routines (phase : Phase) : ((c.resolve t).routines t phase).filterMap (Line.setName? id) =
      c.numbered.flatMap fun si =>
        (si.1.calls t kind (.index si.2) phase).filterMap (Line.setName? id) := by
    rw [Context.routines, numbers, List.flatMap_map, List.filterMap_flatMap]
    exact List.flatMap_congr fun si _ => setNames_routine phase si.1 si.2
  have nmi : ((c.resolve t).routines t .nmi).filterMap (Line.setName? id) = [] := by
    rw [routines, List.flatMap_eq_nil_iff]
    exact fun si _ => Slot.setNames_calls_nmi
  have idle : (c.resolve t).idle.filterMap (Line.setName? id) = [] := by
    rw [List.filterMap_eq_nil_iff]
    intro l member
    obtain ⟨_, _, _, _, rfl, _⟩ := mem_idle.mp member
    rfl
  have macros (phase : Phase) : ((c.resolve t).aggregateMacro t phase).filterMap (Line.setName? id) =
      (c.aggregate.calls t kind .aggregate phase).filterMap (Line.setName? id) :=
    setNames_aggregateMacro (c.resolve t) phase
  rw [dispatch_eq]
  simp only [List.filterMap_append, List.filterMap_cons, Line.setName?, idle, routines .frame, nmi, macros,
    Slot.setNames_calls_nmi, List.nil_append, List.append_nil]
  -- the text has the aggregate slot behind all others
  rw [indexed, List.flatMap_cons, List.flatMap_map]
  exact List.perm_append_comm

end Context

namespace Contexts
variable {cs : Contexts} {id : Nat} {t : ResourceTable} {r : Resource}

theorem setNames_dispatch (cs : Contexts) (found : t.get? id = some r) :
    (((cs.resolve t).dispatch t).filterMap (Line.setName? id)).Perm
      (if 0 < r.directives.extraBytes then cs.placedNames id else []) := by
  have wanted (kind : ContextKind) : ((cs.get kind).indexed.flatMap fun p =>
      (p.2.calls t kind p.1 .frame).filterMap (Line.setName? id)) =
        if 0 < r.directives.extraBytes then
          ((cs.get kind).placesOf id).map fun p => p.1.label kind
        else [] := by
    unfold Context.placesOf
    simp only [Slot.setNames_calls_frame found]
    split
    · simp only [List.map_flatMap, List.map_map]
      rfl
    · exact List.flatMap_eq_nil_iff.mpr fun _ _ => rfl
  have contexts : (((cs.resolve t).dispatch t).filterMap (Line.setName? id)).Perm
      (ContextKind.all.flatMap fun kind => if 0 < r.directives.extraBytes then
        ((cs.get kind).placesOf id).map fun p => p.1.label kind
      else []) := by
    rw [dispatch, List.filterMap_flatMap]
    refine List.Perm.flatMap_left _ fun kind _ => ?_
    rw [Dispatch.get_resolve, ← wanted kind]
    exact Context.setNames_dispatch (cs.get kind)
  refine contexts.trans (.of_eq ?_)
  split
  · exact (placedNames_eq cs id).symm
  · exact List.flatMap_eq_nil_iff.mpr fun _ _ => rfl

/-- After any run of placements, the source of a resource's tables reads back as one table for each of its
places, the aggregate slot of a context first, with the bytes of the place cut or filled with zeros to the
count. No two tables have one name, and the dispatch text of the resolved contexts sets each of them once and
no other table of the resource. A resource that asks for no bytes has no tables. -/
theorem tables_match_calls (ps : List Placement) (id : Nat) (count : UInt8) :
    let cs := Contexts.empty.placeAll ps
    let places := if count = 0 then [] else cs.placed id
    let names := places.map fun (kind, slot, _) => slot.label kind
    ExtraBytes.tablesOf? (Text.linesOf (ExtraBytes.fragment cs id count)) =
      some (places.map fun (kind, slot, a) =>
        ⟨slot.label kind, (a.bytes ++ List.replicate count.toNat 0).take count.toNat⟩) ∧
    (count = 0 → ExtraBytes.fragment cs id count = "") ∧
    names.Nodup ∧
    ∀ (t : ResourceTable) (r : Resource), t.get? id = some r → r.directives.extraBytes = count →
      (Dispatch.namesSet id (render ((cs.resolve t).dispatch t))).Perm names := by
  intro cs places names
  by_cases none : count = 0
  · subst none
    refine ⟨rfl, fun _ => rfl, List.nodup_nil, fun t r found asked => ?_⟩
    have set := setNames_dispatch cs found
    rw [asked, if_neg (by decide)] at set
    rw [Dispatch.namesSet_render]
    exact set
  · have listed : names = cs.placedNames id := by
      rw [placedNames]
      exact congrArg _ (if_neg none)
    have distinct : cs.Distinct := distinct_empty.placeAll ps
    refine ⟨?_, fun empty => absurd empty none, ?_, fun t r found asked => ?_⟩
    · rw [ExtraBytes.tablesOf?_fragment cs id none, ExtraBytes.tables_eq cs id none]
      exact congrArg (some <| List.map _ ·) (if_neg none).symm
    · rw [listed]
      exact distinct.nodup_placedNames id
    · have positive : 0 < r.directives.extraBytes := by
        rw [asked]
        exact UInt8.pos_iff_ne_zero.mpr none
      have set := setNames_dispatch cs found
      rw [if_pos positive] at set
      rw [Dispatch.namesSet_render, listed]
      exact set

example : ExtraBytes.fragment (Contexts.empty.placeAll [⟨.level, .index 5, ⟨0, [7]⟩⟩]) 0 2 =
    "..Level5:\n    db $07,$00\n" := by decide +kernel

end Contexts

end RomLinker
