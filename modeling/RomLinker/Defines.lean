/-!
Define tables: the textual substitutions handed to the assembler, in the order in which they were
made, each name once.
-/
namespace RomLinker

structure Defines where
  entries : List (String × String)
  distinct : (entries.map (·.1)).Nodup

namespace Defines

def empty : Defines := ⟨[], List.nodup_nil⟩

def names (d : Defines) : List String := d.entries.map (·.1)

theorem nodup_append_singleton {names : List String} {name : String} (distinct : names.Nodup)
    (fresh : name ∉ names) : (names ++ [name]).Nodup := by
  rw [List.nodup_append]
  exact ⟨distinct, by simp, by rintro a ha b hb rfl; simp_all⟩

/-- The table with one more define at its end, if the name is free. -/
def add? (d : Defines) (name value : String) : Option Defines :=
  if fresh : name ∈ d.names then none
  else some ⟨d.entries ++ [(name, value)], by
    simpa using nodup_append_singleton d.distinct fresh⟩

/-- The value of a name, which keeps its place if it has one. -/
def set (d : Defines) (name value : String) : Defines :=
  if fresh : name ∈ d.names then
    ⟨d.entries.map fun e => if e.1 = name then (name, value) else e, by
      have same : (d.entries.map fun e => if e.1 = name then (name, value) else e).map (·.1) =
          d.entries.map (·.1) := by
        rw [List.map_map]
        refine List.map_congr_left fun e _ => ?_
        by_cases h : e.1 = name <;> simp [h]
      exact same ▸ d.distinct⟩
  else ⟨d.entries ++ [(name, value)], by simpa using nodup_append_singleton d.distinct fresh⟩

/-- The last value that the list has for each name, in the order of the first ones. -/
def ofList (entries : List (String × String)) : Defines :=
  entries.foldl (fun d (name, value) => d.set name value) empty

/-- The table with more defines at its end, or the first name that is taken by then. -/
def extend (d : Defines) : List (String × String) → Except String Defines
  | [] => .ok d
  | (name, value) :: rest =>
    match d.add? name value with
    | some d => d.extend rest
    | none => .error name

end Defines

def flagText (on : Bool) : String := if on then "1" else "0"

end RomLinker
