import RomLinker.Context.ExtraBytes
import RomLinker.Proofs.Dispatch.Symbols
import RomLinker.Proofs.Placements

/-!
The source of extra bytes, line by line. Every assignment of a resource that asks for bytes has a line
with the name of its slot there (`label_mem_fragment`).
-/
namespace RomLinker

namespace ExtraBytes
variable {cs : Contexts} {kind : ContextKind} {slot : SlotKey} {a : Assignment} {count : UInt8}

def nameLine (name : String) : String := ".." ++ name ++ ":"

def valueLine (bytes : List UInt8) : String := "    db " ++ ",".intercalate (bytes.map byteText)

theorem oneLine_slotLabel : Text.OneLine (slot.label kind).toList := by
  intro c member
  have symbolic := Dispatch.isSymbolChar_slotLabel member
  have others : isSymbolChar '\n' = false ∧ isSymbolChar '\r' = false := by decide
  refine ⟨?_, ?_⟩
  · rintro rfl
    cases symbolic.symm.trans others.1
  · rintro rfl
    cases symbolic.symm.trans others.2

theorem oneLine_valueLine (bytes : List UInt8) : Text.OneLine (valueLine bytes).toList := by
  have byte (b : UInt8) : Text.OneLine (byteText b).toList := by
    rw [byteText, String.toList_ofList]
    exact Text.OneLine.append (show Text.OneLine ['$'] by decide) (Text.oneLine_fixedHex 2 _)
  rw [valueLine, String.toList_append]
  refine Text.OneLine.append (by decide) ?_
  induction bytes with
  | nil => exact nofun
  | cons b bytes ih =>
    cases bytes with
    | nil => simpa using byte b
    | cons b' bytes =>
      rw [List.map_cons, List.map_cons, String.intercalate_cons_cons, String.toList_append,
        String.toList_append]
      exact ((byte b).append (show Text.OneLine [','] by decide)).append ih

theorem linesOf_render {tables : List Table} (plain : ∀ t ∈ tables, Text.OneLine t.label.toList) :
    Text.linesOf (render tables) = tables.flatMap fun t => [nameLine t.label, valueLine t.bytes] := by
  have text : render tables =
      String.join ((tables.flatMap fun t => [nameLine t.label, valueLine t.bytes]).map (· ++ "\n")) := by
    induction tables with
    | nil => rfl
    | cons t tables ih =>
      obtain ⟨-, tail⟩ := List.forall_mem_cons.mp plain
      have first : t.text = nameLine t.label ++ "\n" ++ (valueLine t.bytes ++ "\n") := by
        change ".." ++ t.label ++ ":\n    db " ++ ",".intercalate (t.bytes.map byteText) ++ "\n" = _
        rw [← String.toList_inj]
        simp [nameLine, valueLine]
      have rest := ih tail
      unfold render at rest ⊢
      rw [List.map_cons, String.join_cons, rest, first]
      simp [String.append_assoc]
  rw [text]
  refine Text.linesOf_join fun s member => ?_
  obtain ⟨t, here, which⟩ := List.mem_flatMap.mp member
  rcases List.mem_cons.mp which with rfl | last
  · rw [nameLine, String.toList_append, String.toList_append]
    exact (Text.OneLine.append (by decide) (plain t here)).append (by decide)
  · rw [List.mem_singleton.mp last]
    exact oneLine_valueLine t.bytes

theorem label_mem_fragment (member : a ∈ cs.assignments kind slot) (some : 0 < count) :
    nameLine (slot.label kind) ∈ Text.linesOf (fragment cs a.resource count) := by
  have filled : count ≠ 0 := by
    rintro rfl
    exact absurd some (by decide)
  have plain : ∀ t ∈ tables cs a.resource count, Text.OneLine t.label.toList := by
    intro t member
    rw [tables, if_neg filled] at member
    obtain ⟨kind', -, member⟩ := List.mem_flatMap.mp member
    obtain ⟨⟨slot', b⟩, -, rfl⟩ := List.mem_map.mp member
    exact oneLine_slotLabel
  have table : ⟨slot.label kind, fill count.toNat a.bytes⟩ ∈ tables cs a.resource count := by
    rw [tables, if_neg filled]
    refine List.mem_flatMap.mpr ⟨kind, by cases kind <;> decide, ?_⟩
    exact List.mem_map.mpr ⟨(slot, a), Context.mem_placesOf.mpr ⟨member, rfl⟩, rfl⟩
  rw [fragment, linesOf_render plain]
  exact List.mem_flatMap.mpr ⟨_, table, List.mem_cons_self⟩

end ExtraBytes
end RomLinker
