import RomLinker.Proofs.Defines
import RomLinker.Proofs.Numeral
import RomLinker.Proofs.Requests

/-!
What any run of requests leaves in the table of routines (`first_registered`). A request adds what the table
does not have (`get?_settle`, `declared?_settle`), so that a name keeps its first registration, and the
first scan stays the only one; requests for different names do not meet.
-/
namespace RomLinker.RoutineTable

/-- What is asked of a table: to take the names that a scan found, or to register a routine. -/
inductive Request where
  | declare (names : List String)
  | add (file : Path) (name : String) (address : Address)

def request (t : RoutineTable) : Request → Except LinkError RoutineTable
  | .declare names => t.declare names
  | .add file name address => t.add file name address

namespace Request

def routine? (name : String) : Request → Option Routine
  | .declare _ => none
  | .add file own address => if own = name then some ⟨file, address⟩ else none

def names? : Request → Option (List String)
  | .declare names => some names
  | .add .. => none

end Request

variable {t u : RoutineTable} {file file' : Path} {name name' : String} {address address' : Address}

/-- A registration takes a free name, is a repetition, or meets another routine. -/
theorem add_cases (t : RoutineTable) (file : Path) (name : String) (address : Address) :
    (t.get? name = none ∧
      t.add file name address = .ok { t with entries := t.entries.insert name ⟨file, address⟩ }) ∨
    ∃ routine, t.get? name = some routine ∧
      ((routine.file.SameRoute file ∧ routine.address = address ∧ t.add file name address = .ok t) ∨
        (¬(routine.file.SameRoute file ∧ routine.address = address) ∧
          t.add file name address = .error (.routineCollision name routine.file file))) := by
  unfold add
  cases held : t.get? name with
  | none => exact Or.inl ⟨rfl, rfl⟩
  | some routine =>
    refine Or.inr ⟨routine, rfl, ?_⟩
    by_cases same : routine.file.SameRoute file ∧ routine.address = address
    · exact Or.inl ⟨same.1, same.2, if_pos same⟩
    · exact Or.inr ⟨same, if_neg same⟩

theorem add_granted : (∃ u, t.add file name address = .ok u) ↔ t.get? name = none ∨
    ∃ routine, t.get? name = some routine ∧ routine.file.SameRoute file ∧ routine.address = address := by
  rcases add_cases t file name address with
    ⟨free, added⟩ | ⟨routine, held, ⟨route, same, added⟩ | ⟨different, refused⟩⟩
  · exact ⟨fun _ => Or.inl free, fun _ => ⟨_, added⟩⟩
  · exact ⟨fun _ => Or.inr ⟨routine, held, route, same⟩, fun _ => ⟨_, added⟩⟩
  · constructor
    · rintro ⟨u, added⟩
      cases refused.symm.trans added
    · rintro (free | ⟨other, found, same⟩)
      · cases free.symm.trans held
      · cases found.symm.trans held
        exact absurd same different

theorem declare_granted {names : List String} :
    (∃ u, t.declare names = .ok u) ↔ t.declared? = none := by
  unfold declare wasScanned
  cases t.declared? with
  | none => simp
  | some held => simp

theorem get?_settle (t : RoutineTable) (q : Request) (name : String) :
    (Requests.settle request t q).get? name = (t.get? name).or (q.routine? name) := by
  cases q with
  | declare names =>
    rw [Request.routine?, Option.or_none]
    cases result : request t (.declare names) with
    | ok u =>
      rw [Requests.settle_of_ok result, (declare_eq_ok result).2]
      rfl
    | error e => rw [Requests.settle_of_error result]
  | add file own address =>
    have holds {routine : Routine} (held : t.get? own = some routine) :
        t.get? name = (t.get? name).or ((Request.add file own address).routine? name) := by
      by_cases same : own = name
      · rw [← same, held, Option.some_or]
      · rw [Request.routine?, if_neg same, Option.or_none]
    rcases add_cases t file own address with
      ⟨free, added⟩ | ⟨routine, held, ⟨-, -, added⟩ | ⟨-, refused⟩⟩
    · have answer : request t (.add file own address) = .ok _ := added
      rw [Requests.settle_of_ok answer, get?_insert, Request.routine?]
      by_cases same : own = name
      · rw [if_pos same, if_pos same, ← same, free, Option.none_or]
      · rw [if_neg same, if_neg same, Option.or_none]
    · have answer : request t (.add file own address) = .ok t := added
      rw [Requests.settle_of_ok answer]
      exact holds held
    · have answer : request t (.add file own address) = .error _ := refused
      rw [Requests.settle_of_error answer]
      exact holds held

theorem declared?_settle (t : RoutineTable) (q : Request) :
    (Requests.settle request t q).declared? = t.declared?.or q.names? := by
  cases q with
  | declare names =>
    cases result : request t (.declare names) with
    | ok u =>
      obtain ⟨unscanned, rfl⟩ := declare_eq_ok result
      have none : t.declared? = none := Option.isNone_iff_eq_none.mp (Option.isSome_eq_false_iff.mp unscanned)
      rw [Requests.settle_of_ok result, none]
      rfl
    | error e =>
      obtain ⟨held, found⟩ := Option.isSome_iff_exists.mp (declare_eq_error result).1
      rw [Requests.settle_of_error result, found, Option.some_or]
  | add file own address =>
    rw [Request.names?, Option.or_none]
    cases result : request t (.add file own address) with
    | ok u => rw [Requests.settle_of_ok result, declared?_add result]
    | error e => rw [Requests.settle_of_error result]

/-- A table is what it has for each name, and the names that were found. -/
theorem ext_get? (names : t.declared? = u.declared?) (routines : ∀ name, t.get? name = u.get? name) :
    t = u := by
  cases t with
  | mk declared? entries =>
    cases u with
    | mk declared?' entries' =>
      cases names
      cases Std.ExtTreeMap.ext_getElem? routines
      rfl

theorem refusal?_add (t : RoutineTable) (file : Path) (name : String) (address : Address) :
    Requests.refusal? request t (.add file name address) = (t.get? name).bind fun routine =>
      if routine.file.SameRoute file ∧ routine.address = address then none
      else some (.routineCollision name routine.file file) := by
  rcases add_cases t file name address with
    ⟨free, added⟩ | ⟨routine, held, ⟨route, same, added⟩ | ⟨different, refused⟩⟩
  · rw [free]
    exact Requests.refusal?_eq_none.mpr ⟨_, added⟩
  · rw [held, Option.bind_some, if_pos ⟨route, same⟩]
    exact Requests.refusal?_eq_none.mpr ⟨_, added⟩
  · rw [held, Option.bind_some, if_neg different]
    exact Requests.refusal?_eq_some.mpr refused

theorem get?_settle_other (t : RoutineTable) (different : name ≠ name') :
    (Requests.settle request t (.add file name address)).get? name' = t.get? name' := by
  rw [get?_settle, Request.routine?, if_neg different, Option.or_none]

theorem apart_of_ne (t : RoutineTable) (different : name ≠ name') :
    Requests.Apart request t (.add file name address) (.add file' name' address') where
  second := by rw [refusal?_add, refusal?_add, get?_settle_other t different]
  first := by rw [refusal?_add, refusal?_add, get?_settle_other t different.symm]
  state := by
    refine ext_get? ?_ fun other => ?_
    · rw [declared?_settle, declared?_settle, declared?_settle, declared?_settle]
      rfl
    · rw [get?_settle, get?_settle, get?_settle, get?_settle, Option.or_assoc, Option.or_assoc]
      by_cases here : name = other
      · subst here
        simp [Request.routine?, different.symm]
      · simp [Request.routine?, here]

theorem get?_run (t : RoutineTable) (qs : List Request) (name : String) :
    (Requests.run request t qs).get? name = (t.get? name).or (qs.findSome? (·.routine? name)) := by
  induction qs generalizing t with
  | nil => exact Option.or_none.symm
  | cons q qs ih =>
    change (Requests.run request (Requests.settle request t q) qs).get? name = _
    rw [ih, get?_settle, Option.or_assoc, List.findSome?_cons]
    cases q.routine? name <;> rfl

theorem declared?_run (t : RoutineTable) (qs : List Request) :
    (Requests.run request t qs).declared? = t.declared?.or (qs.findSome? (·.names?)) := by
  induction qs generalizing t with
  | nil => exact Option.or_none.symm
  | cons q qs ih =>
    change (Requests.run request (Requests.settle request t q) qs).declared? = _
    rw [ih, declared?_settle, Option.or_assoc, List.findSome?_cons]
    cases q.names? <;> rfl

/-- After any run of requests from an empty table: a registration is granted exactly if its name has no
routine or has one by the same way at the same address, and a scan exactly if there was none before. What is
refused changes nothing. A name has the routine that was registered first for it, and keeps it. Two
neighbouring registrations of different names may change places. The defines have every name that is
registered once, in the order of their bytes, with an address that reads back as its low 24 bits. -/
theorem first_registered (qs : List Request) :
    let t := Requests.run request .empty qs
    (∀ file name address, (∃ u, t.add file name address = .ok u) ↔
      t.get? name = none ∨
        ∃ routine, t.get? name = some routine ∧ routine.file.SameRoute file ∧ routine.address = address) ∧
    (∀ names, (∃ u, t.declare names = .ok u) ↔ ∀ q ∈ qs, q.names? = none) ∧
    (∀ q e, request t q = .error e → Requests.run request .empty (qs ++ [q]) = t) ∧
    (∀ name, t.get? name = qs.findSome? (·.routine? name) ∧
      ∀ routine more, t.get? name = some routine →
        (Requests.run request .empty (qs ++ more)).get? name = some routine) ∧
    (∀ file name address file' name' address' rest, name ≠ name' →
      Requests.Swaps request .empty qs (.add file name address) (.add file' name' address') rest) ∧
    ∃ entries : List (String × Routine),
      entries.Pairwise (fun r q => Text.bytes r.1 < Text.bytes q.1) ∧
      (∀ name routine, (name, routine) ∈ entries ↔ t.get? name = some routine) ∧
      t.defines = entries.map (fun r => ("UberRoutine_" ++ r.1, r.2.address.render)) ∧
      ∀ r ∈ entries, (Address.parse? r.2.address.render).map UInt32.toNat =
        some (r.2.address.toNat % 2 ^ 24) := by
  intro t
  have first (qs : List Request) (name : String) :
      (Requests.run request .empty qs).get? name = qs.findSome? (·.routine? name) := by
    rw [get?_run, get?, empty, Std.ExtTreeMap.getElem?_empty, Option.none_or]
  refine ⟨fun file name address => add_granted, fun names => ?_, fun q e refused => ?_,
    fun name => ⟨first qs name, fun routine more held => ?_⟩,
    fun file name address file' name' address' rest different => (apart_of_ne t different).swaps rest,
    t.entries.toList, t.sorted_entries, fun name routine => mem_entries, rfl, fun r _ => ?_⟩
  · rw [declare_granted, declared?_run, ← List.findSome?_eq_none_iff]
    rfl
  · rw [Requests.run_concat]
    exact Requests.settle_of_error refused
  · rw [Requests.run_append, get?_run, held]
    rfl
  · have below : r.2.address.toNat % Address.limit < 2 ^ 32 :=
      Nat.lt_trans (Nat.mod_lt _ (by decide)) (by decide)
    rw [Address.parse?_render, Option.map_some, UInt32.toNat_ofNat_of_lt' below]
    rfl

end RomLinker.RoutineTable
