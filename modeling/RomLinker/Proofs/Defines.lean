import RomLinker.Proofs.ByteOrder
import RomLinker.Resource
import RomLinker.Session
import Std.Data.ExtTreeMap.Lemmas

/-!
What a source finds defined. Tables of defines grow at their end only (`extend_eq_ok`), and of the
routines a source finds the first registration of every name, in the order of the names' bytes
(`RoutineTable.Holds.registers`).
-/
namespace RomLinker

namespace Defines
variable {d e : Defines} {name value : String} {entries : List (String × String)}

theorem add?_eq_some (h : d.add? name value = some e) : e.entries = d.entries ++ [(name, value)] := by
  unfold add? at h
  split at h
  · cases h
  · cases h
    rfl

theorem extend_eq_ok (h : d.extend entries = .ok e) : e.entries = d.entries ++ entries := by
  induction entries generalizing d with
  | nil =>
    cases h
    exact (List.append_nil _).symm
  | cons entry rest ih =>
    obtain ⟨name, value⟩ := entry
    unfold extend at h
    split at h
    · rename_i more added
      rw [ih h, add?_eq_some added, List.append_assoc]
      rfl
    · cases h

theorem exists_add? (fresh : name ∉ d.names) (value : String) : ∃ e, d.add? name value = some e := by
  unfold add?
  rw [dif_neg fresh]
  exact ⟨_, rfl⟩

theorem names_of_add? {e : Defines} (added : d.add? name value = some e) :
    e.names = d.names ++ [name] := by
  unfold names
  rw [add?_eq_some added, List.map_append]
  rfl

theorem exists_extend (distinct : (d.names ++ entries.map (·.1)).Nodup) :
    ∃ e, d.extend entries = .ok e := by
  induction entries generalizing d with
  | nil => exact ⟨d, rfl⟩
  | cons entry rest ih =>
    obtain ⟨name, value⟩ := entry
    have fresh : name ∉ d.names := fun taken =>
      (List.nodup_append.mp distinct).2.2 name taken name List.mem_cons_self rfl
    obtain ⟨e, added⟩ := exists_add? fresh value
    have more : (e.names ++ rest.map (·.1)).Nodup := by
      rw [names_of_add? added, List.append_assoc]
      exact distinct
    unfold extend
    rw [added]
    exact ih more

theorem set_of_fresh (fresh : name ∉ d.names) (value : String) :
    (d.set name value).entries = d.entries ++ [(name, value)] := by
  unfold set
  rw [dif_neg fresh]

theorem entries_ofList (distinct : (entries.map (·.1)).Nodup) : (ofList entries).entries = entries := by
  suffices grows : ∀ d : Defines, ((d.entries ++ entries).map (·.1)).Nodup →
      (entries.foldl (fun d entry => d.set entry.1 entry.2) d).entries = d.entries ++ entries from
    grows empty distinct
  clear distinct
  induction entries with
  | nil => exact fun d _ => (List.append_nil _).symm
  | cons entry rest ih =>
    intro d distinct
    have fresh : entry.1 ∉ d.names := by
      rw [List.map_append, List.map_cons] at distinct
      exact fun taken => (List.nodup_append.mp distinct).2.2 _ taken _ List.mem_cons_self rfl
    have grown := set_of_fresh fresh entry.2
    rw [List.foldl_cons, ih]
    · rw [grown, List.append_assoc]
      rfl
    · rw [grown, List.append_assoc]
      exact distinct

end Defines

/-- The global defines of a build come in front of those of the routines, and these in front of what the
source has for itself. -/
theorem Session.definesFor_eq_ok {s : Session} {own defines : Defines}
    (h : s.definesFor own = .ok defines) :
    defines.entries = s.defines.entries ++ s.routines.defines ++ own.entries := by
  unfold Session.definesFor at h
  split at h
  · rename_i more extended
    cases h
    rw [Defines.extend_eq_ok extended, List.append_assoc]
  · cases h

namespace Session
variable {s t : Session} {file : Path} {name value : String} {address : Address}

theorem define_eq_ok (h : s.define name value = .ok t) :
    ∃ defines, s.defines.add? name value = some defines ∧ t = { s with defines } := by
  unfold define at h
  split at h
  · rename_i defines added
    cases h
    exact ⟨defines, added, rfl⟩
  · cases h

theorem register_eq_ok (h : s.register file name address = .ok t) : s.routines.wasScanned = true ∧
    ∃ routines, s.routines.add file name address = .ok routines ∧ t = { s with routines } := by
  unfold register at h
  cases scanned : s.routines.wasScanned with
  | false =>
    rw [scanned] at h
    cases h
  | true =>
    rw [scanned, if_neg (by decide)] at h
    split at h
    · rename_i routines added
      cases h
      exact ⟨rfl, routines, added, rfl⟩
    · cases h

/-- Once the routines are scanned, only another file that holds the name stops a registration. -/
theorem register_eq_error {e : LinkError} (scanned : s.routines.wasScanned = true)
    (h : s.register file name address = .error e) : ∃ holder, e = .routineCollision name holder file := by
  unfold register at h
  rw [scanned, if_neg (by decide)] at h
  split at h
  · cases h
  · rename_i e' failed
    cases h
    unfold RoutineTable.add at failed
    split at failed
    · cases failed
    · rename_i entry taken
      split at failed
      · cases failed
      · cases failed
        exact ⟨entry.file, rfl⟩

end Session

/-- What a resource is told: for every call site, whether the second processor runs it. -/
def Resource.processorDefines (r : Resource) : List (String × String) :=
  CallSite.all.map fun site =>
    ("InvokeSA1" ++ site.name, if r.directives.onSa1 site then "1" else "0")

theorem Resource.entries_defines (r : Resource) : r.defines.entries = r.processorDefines := by
  have names : (r.processorDefines.map (·.1)) = CallSite.all.map fun site => "InvokeSA1" ++ site.name := by
    unfold Resource.processorDefines
    rw [List.map_map]
    rfl
  have distinct : (CallSite.all.map fun site => "InvokeSA1" ++ site.name).Nodup := by decide +kernel
  exact Defines.entries_ofList (names ▸ distinct)

/-- Each name with the address of its first registration, in the order of the names' bytes. -/
structure Registers (registered routines : List (String × Address)) : Prop where
  sorted : routines.Pairwise fun r q => Text.bytes r.1 < Text.bytes q.1
  first : ∀ name address, (name, address) ∈ routines ↔
    registered.find? (·.1 == name) = some (name, address)

def routineDefine (r : String × Address) : String × String := (routineMark ++ r.1, r.2.render)

namespace RoutineTable
variable {t u : RoutineTable} {registered : List (String × Address)} {file : Path} {name : String}
  {address : Address}

def Holds (t : RoutineTable) (registered : List (String × Address)) : Prop :=
  ∀ name, (t.get? name).map (·.address) = (registered.find? (·.1 == name)).map (·.2)

theorem get?_empty (name : String) : empty.get? name = none := Std.ExtTreeMap.getElem?_empty

theorem holds_empty : empty.Holds [] := by
  intro name
  rw [get?_empty]
  rfl

theorem get?_insert (t : RoutineTable) (name other : String) (r : Routine) :
    get? { t with entries := t.entries.insert name r } other =
      if name = other then some r else t.get? other := by
  unfold get?
  simp only [Std.ExtTreeMap.getElem?_insert, Std.LawfulEqCmp.compare_eq_iff_eq]

theorem declared?_add (added : t.add file name address = .ok u) : u.declared? = t.declared? := by
  unfold add at added
  split at added
  · cases added
    rfl
  · split at added
    · cases added
      rfl
    · cases added

theorem wasScanned_add (added : t.add file name address = .ok u) : u.wasScanned = t.wasScanned := by
  unfold wasScanned
  rw [declared?_add added]

theorem get?_add {other : String} {routine : Routine} (added : t.add file name address = .ok u)
    (held : t.get? other = some routine) : u.get? other = some routine := by
  unfold add at added
  split at added
  · rename_i free
    cases added
    rw [get?_insert]
    split
    · rename_i same
      rw [← same, free] at held
      cases held
    · exact held
  · split at added
    · cases added
      exact held
    · cases added

theorem Holds.add (holds : t.Holds registered) (added : t.add file name address = .ok u) :
    u.Holds (registered ++ [(name, address)]) := by
  intro other
  have last : [(name, address)].find? (·.1 == other) =
      if name = other then some (name, address) else none := by
    rw [List.find?_singleton]
    simp only [beq_iff_eq]
  rw [List.find?_append, last]
  have before := holds other
  unfold RoutineTable.add at added
  split at added
  · rename_i free
    cases added
    rw [get?_insert]
    by_cases same : name = other
    · subst same
      rw [free] at before
      have fresh : registered.find? (·.1 == name) = none := Option.map_eq_none_iff.mp before.symm
      rw [if_pos rfl, if_pos rfl, fresh]
      rfl
    · rw [if_neg same, if_neg same, Option.or_none]
      exact before
  · rename_i entry taken
    split at added
    · cases added
      rw [before]
      by_cases same : name = other
      · subst same
        rw [taken] at before
        obtain ⟨r, found, -⟩ := Option.map_eq_some_iff.mp before.symm
        rw [found]
        rfl
      · rw [if_neg same, Option.or_none]
    · cases added

theorem declare_eq_ok {names : List String} (declared : t.declare names = .ok u) :
    t.wasScanned = false ∧ u = { t with declared? := some names } := by
  unfold declare at declared
  split at declared
  · cases declared
  · rename_i unscanned
    cases declared
    exact ⟨Bool.eq_false_iff.mpr unscanned, rfl⟩

theorem declare_eq_error {names : List String} {e : LinkError} (declared : t.declare names = .error e) :
    t.wasScanned = true ∧ e = .outOfOrder .alreadyScanned := by
  unfold declare at declared
  split at declared
  · rename_i scanned
    cases declared
    exact ⟨scanned, rfl⟩
  · cases declared

theorem Holds.declare {names : List String} (holds : t.Holds registered)
    (declared : t.declare names = .ok u) : u.Holds registered := by
  unfold RoutineTable.declare at declared
  split at declared
  · cases declared
  · cases declared
    exact holds

theorem sorted_entries (t : RoutineTable) :
    t.entries.toList.Pairwise fun r q => Text.bytes r.1 < Text.bytes q.1 := by
  refine Std.ExtTreeMap.ordered_keys_toList.imp fun {r q} before => ?_
  exact Text.bytes_lt (compareOfLessAndEq_eq_lt.mp before)

theorem mem_entries {routine : Routine} : (name, routine) ∈ t.entries.toList ↔ t.get? name = some routine :=
  Std.ExtTreeMap.mem_toList_iff_getElem?_eq_some

theorem nodup_names_defines (t : RoutineTable) : (t.defines.map (·.1)).Nodup := by
  have names : t.defines.map (·.1) = t.entries.toList.map fun r => routineMark ++ r.1 := by
    unfold defines
    rw [List.map_map]
    rfl
  rw [names, List.nodup_iff_pairwise_ne, List.pairwise_map]
  refine Std.ExtTreeMap.distinct_keys_toList.imp fun {r q} apart same => apart ?_
  rw [(String.append_right_inj routineMark).mp same]
  exact Std.ReflCmp.compare_self

/-- The defines of a table are those of its registrations. -/
theorem Holds.registers (holds : t.Holds registered) :
    ∃ routines, Registers registered routines ∧ t.defines = routines.map routineDefine := by
  refine ⟨t.entries.toList.map fun r => (r.1, r.2.address), ⟨?_, fun name address => ?_⟩, ?_⟩
  · exact List.pairwise_map.mpr t.sorted_entries
  · have found : (name, address) ∈ (t.entries.toList.map fun r => (r.1, r.2.address)) ↔
        (t.get? name).map (·.address) = some address := by
      rw [List.mem_map, Option.map_eq_some_iff]
      constructor
      · rintro ⟨⟨other, routine⟩, listed, same⟩
        cases same
        exact ⟨routine, mem_entries.mp listed, rfl⟩
      · rintro ⟨routine, held, rfl⟩
        exact ⟨(name, routine), mem_entries.mpr held, rfl⟩
    rw [found, holds name, Option.map_eq_some_iff]
    constructor
    · rintro ⟨⟨other, a⟩, first, rfl⟩
      have same : other = name := eq_of_beq (List.find?_some first :)
      rw [first, same]
    · intro first
      exact ⟨_, first, rfl⟩
  · unfold RoutineTable.defines
    rw [List.map_map]
    rfl

end RoutineTable

end RomLinker
