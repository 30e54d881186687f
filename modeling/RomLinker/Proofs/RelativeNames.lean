import RomLinker.Proofs.LibraryNames

/-!
Names of relative labels, which have a colon in them. Routines and the labels of library files are never
called by one (`absolute_of_routine`, `LibraryFile.absolute_exports`). What a resource exports is, but only
for a label of its extra bytes (`Resource.leaks_iff`).
-/
namespace RomLinker

/-- There is no colon in a name or a text. -/
def Absolute (name : String) : Prop := ':' ∉ name.toList

instance : DecidablePred Absolute := fun _ => inferInstanceAs (Decidable (¬_))

theorem absolute_append {s t : String} : Absolute (s ++ t) ↔ Absolute s ∧ Absolute t := by
  unfold Absolute
  rw [String.toList_append, List.mem_append, not_or]

theorem absolute_of_identifier {name : String} (identifier : isIdentifier name = true) :
    Absolute name := by
  intro colon
  have word := isWord_of_identifier identifier ':' colon
  exact absurd word (by decide)

theorem Text.digitChar_ne_colon {d : Nat} (small : d < 16) : digitChar d ≠ ':' := by
  revert d
  decide

theorem Address.absolute_render (a : Address) : Absolute a.render := by
  unfold Absolute render
  rw [String.toList_ofList]
  intro colon
  rcases List.mem_cons.mp colon with mark | digit
  · exact absurd mark (by decide)
  · obtain ⟨d, small, same⟩ := Text.exists_digit_of_mem_fixedHex digit
    exact Text.digitChar_ne_colon small same.symm

namespace Label
variable {l m : Label} {labels : List Label} {name : String}

theorem absolute_iff : Absolute l.name ↔ l.isRelative = false := by
  simp [Absolute, isRelative]

/-- A text of definitions has no colon but in the names that it defines. -/
theorem absolute_definitions : Absolute (definitions labels) ↔ ∀ l ∈ labels, Absolute l.name := by
  have one (l : Label) : Absolute l.definition ↔ Absolute l.name := by
    have rest : Absolute " = " ∧ Absolute "\n" := by decide
    unfold definition
    rw [absolute_append, absolute_append, absolute_append]
    exact ⟨fun all => all.1.1.1, fun name => ⟨⟨⟨name, rest.1⟩, l.address.absolute_render⟩, rest.2⟩⟩
  induction labels with
  | nil => simp [Absolute, definitions]
  | cons l labels ih =>
    have cons : definitions (l :: labels) = l.definition ++ definitions labels := by
      unfold definitions
      rw [List.map_cons, String.join_cons]
    rw [cons, absolute_append, List.forall_mem_cons]
    exact and_congr (one l) ih

theorem absolute_of_dropped {head rest : List Char} (absolute : Absolute l.name)
    (dropped : Text.dropHead? head l.name.toList = some rest) : Absolute (String.ofList rest) := by
  unfold Absolute at absolute ⊢
  rw [Text.dropHead?_eq_some.mp dropped, List.mem_append, not_or] at absolute
  rw [String.toList_ofList]
  exact absolute.2

theorem absolute_of_routine (named : l.routine? = some name) : Absolute name := by
  unfold routine? at named
  split at named
  · cases named
  · rename_i absolute
    obtain ⟨rest, dropped, rfl⟩ := Option.map_eq_some_iff.mp named
    exact absolute_of_dropped (absolute_iff.mpr (Bool.eq_false_iff.mpr absolute)) dropped

theorem absolute_of_exported (out : l.exported? = some m) : Absolute m.name := by
  unfold exported? at out
  split at out
  · cases out
  · unfold inner? at out
    split at out
    · cases out
    · rename_i absolute
      obtain ⟨rest, dropped, rfl⟩ := Option.map_eq_some_iff.mp out
      exact absolute_of_dropped (absolute_iff.mpr (Bool.eq_false_iff.mpr absolute)) dropped

end Label

theorem LibraryFile.absolute_exports {f : LibraryFile} (identifier : isIdentifier f.stem = true)
    (absolute : ∀ l ∈ f.labels, Absolute l.name) : ∀ e ∈ f.exports, Absolute e.name := by
  have stem := absolute_of_identifier identifier
  intro e member
  unfold exports at member
  split at member
  · obtain ⟨start, -, rfl⟩ := Option.map_eq_some_iff.mp (Option.mem_toList.mp member)
    exact stem
  · obtain ⟨l, inside, rfl⟩ := List.mem_map.mp member
    have mark : Absolute "_" := by decide
    show Absolute (f.stem ++ "_" ++ l.name)
    rw [absolute_append, absolute_append]
    exact ⟨⟨stem, mark⟩, absolute l inside⟩

namespace Resource
variable {r r' : Resource} {labels : List Label} {e : Label} {part : String}

theorem absolute_symbol {id : Nat} : Absolute (symbol id part) ↔ Absolute part := by
  have number : ':' ∉ Text.numeral 10 id := by
    intro colon
    obtain ⟨d, small, same⟩ := Text.exists_digit_of_mem_numeral (by decide) colon
    exact Text.digitChar_ne_colon (by omega) same.symm
  unfold Absolute
  rw [toList_symbol]
  simp [number]

/-- A resource exports a relative label of its source, one of its extra bytes. -/
def Leaks (id : Nat) (labels : List Label) (e : Label) : Prop :=
  ∃ l ∈ labels, ∃ part, l.name = innerMark ++ part ∧ "ExtraBytes".toList <+: part.toList ∧
    ¬Absolute part ∧ e = ⟨symbol id part, l.address⟩

/-- Nothing else that a resource exports is relative, and all that is of this kind is exported. -/
theorem leaks_iff (taken : r.withLabels? labels = some r') :
    e ∈ r'.exports ∧ ¬Absolute e.name ↔ Leaks r.id labels e := by
  obtain ⟨entry, -, rfl⟩ := withLabels?_eq_some taken
  have known : Absolute "ResourceEntry" ∧ Absolute "NMI" := by decide
  constructor
  · rintro ⟨member, relative⟩
    unfold exports at member
    rcases List.mem_append.mp member with member | table
    rcases List.mem_append.mp member with first | nmi
    · rw [List.mem_singleton.mp first] at relative
      exact absurd (absolute_symbol.mpr known.1) relative
    · obtain ⟨address, -, rfl⟩ := Option.map_eq_some_iff.mp (Option.mem_toList.mp nmi)
      exact absurd (absolute_symbol.mpr known.2) relative
    · obtain ⟨m, inside, rfl⟩ := List.mem_map.mp table
      obtain ⟨l, here, out⟩ := List.mem_filterMap.mp inside
      obtain ⟨named, extra, address⟩ := tableLabel?_eq_some.mp out
      refine ⟨l, here, m.name, named, extra, fun absolute => relative (absolute_symbol.mpr absolute), ?_⟩
      rw [address]
  · rintro ⟨l, here, part, named, extra, relative, rfl⟩
    have out : tableLabel? l = some ⟨part, l.address⟩ := tableLabel?_eq_some.mpr ⟨named, extra, rfl⟩
    refine ⟨List.mem_append_right _ (List.mem_map.mpr ⟨_, List.mem_filterMap.mpr ⟨l, here, out⟩, rfl⟩), ?_⟩
    exact fun absolute => relative (absolute_symbol.mp absolute)

theorem exists_leaks {id : Nat} : (∃ e, Leaks id labels e) ↔
    ∃ l ∈ labels, (innerMark ++ "ExtraBytes").toList <+: l.name.toList ∧ ¬Absolute l.name := by
  have mark : Absolute innerMark := by decide
  constructor
  · rintro ⟨e, l, here, part, named, extra, relative, -⟩
    refine ⟨l, here, ?_, ?_⟩
    · rw [named, String.toList_append, String.toList_append]
      exact (List.prefix_append_right_inj _).mpr extra
    · rw [named, absolute_append]
      exact fun both => relative both.2
  · rintro ⟨l, here, ⟨rest, split⟩, relative⟩
    have named : l.name = innerMark ++ ("ExtraBytes" ++ String.ofList rest) := by
      rw [← String.toList_inj, ← split]
      simp
    refine ⟨_, l, here, _, named, ?_, fun absolute => relative ?_, rfl⟩
    · rw [String.toList_append]
      exact List.prefix_append _ _
    · rw [named, absolute_append]
      exact ⟨mark, absolute⟩

end Resource
end RomLinker
