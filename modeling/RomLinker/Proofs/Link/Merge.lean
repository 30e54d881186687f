import RomLinker.Proofs.Link.History
import RomLinker.Proofs.Link.Intact
import RomLinker.Proofs.Link.Trace

/-!
The table of defines that a patch hands to the assembler. Three tables are merged, and the first name that
comes for the second time stops the patch before the assembler is called (`Defines.extend_eq_error`). The
global table has what was defined first for each name (`LinkM.entries_run`), so that the defines of a call
are known in full and in order (`LinkM.patch_merges`).
-/
namespace RomLinker

/-- A name that comes for the second time in a list, while nothing does so in front of it. -/
def FirstRepeated (names : List String) (name : String) : Prop :=
  ∃ before after, names = before ++ name :: after ∧ before.Nodup ∧ name ∈ before

theorem not_nodup_of_mem {before after : List String} {name : String} (member : name ∈ before) :
    ¬(before ++ name :: after).Nodup := by
  intro distinct
  exact (List.nodup_append.mp distinct).2.2 name member name List.mem_cons_self rfl

theorem FirstRepeated.unique {names : List String} {name other : String}
    (first : FirstRepeated names name) (first' : FirstRepeated names other) : name = other := by
  obtain ⟨before, after, split, distinct, member⟩ := first
  obtain ⟨before', after', split', distinct', member'⟩ := first'
  have same : before ++ name :: after = before' ++ other :: after' := split.symm.trans split'
  rcases List.append_eq_append_iff.mp same with ⟨gap, longer, rest⟩ | ⟨gap, longer, rest⟩
  · cases gap with
    | nil => exact (List.cons.inj rest).1
    | cons x gap =>
      obtain ⟨rfl, -⟩ := List.cons.inj rest
      exact absurd (longer ▸ distinct') (not_nodup_of_mem member)
  · cases gap with
    | nil => exact (List.cons.inj rest).1.symm
    | cons x gap =>
      obtain ⟨rfl, -⟩ := List.cons.inj rest
      exact absurd (longer ▸ distinct) (not_nodup_of_mem member')

def Separate (globals routines own : List String) : Prop :=
  globals.Disjoint routines ∧ globals.Disjoint own ∧ routines.Disjoint own

theorem nodup_iff_separate {globals routines own : List String} (first : globals.Nodup)
    (second : routines.Nodup) (third : own.Nodup) :
    (globals ++ (routines ++ own)).Nodup ↔ Separate globals routines own := by
  rw [List.nodup_append', List.nodup_append', List.disjoint_append_right]
  constructor
  · rintro ⟨-, ⟨-, -, inner⟩, routines, own⟩
    exact ⟨routines, own, inner⟩
  · rintro ⟨routines, own, inner⟩
    exact ⟨first, ⟨second, third, inner⟩, routines, own⟩

namespace Defines
variable {d : Defines} {name : String} {entries : List (String × String)}

theorem add?_eq_none {value : String} : d.add? name value = none ↔ name ∈ d.names := by
  unfold add?
  split <;> simp_all

theorem extend_granted : (∃ e, d.extend entries = .ok e) ↔ (d.names ++ entries.map (·.1)).Nodup := by
  constructor
  · intro ⟨e, extended⟩
    have distinct := e.distinct
    rw [extend_eq_ok extended, List.map_append] at distinct
    exact distinct
  · exact exists_extend

theorem repeated_of_extend (stopped : d.extend entries = .error name) :
    FirstRepeated (d.names ++ entries.map (·.1)) name := by
  induction entries generalizing d with
  | nil => cases stopped
  | cons entry rest ih =>
    obtain ⟨first, value⟩ := entry
    unfold extend at stopped
    split at stopped
    · rename_i more added
      have later := ih stopped
      rw [names_of_add? added, List.append_assoc] at later
      exact later
    · rename_i taken
      cases stopped
      exact ⟨d.names, rest.map (·.1), rfl, d.distinct, add?_eq_none.mp taken⟩

theorem extend_eq_error : d.extend entries = .error name ↔
    FirstRepeated (d.names ++ entries.map (·.1)) name := by
  constructor
  · exact repeated_of_extend
  · intro first
    cases extended : d.extend entries with
    | ok e =>
      obtain ⟨before, after, split, -, member⟩ := first
      have distinct := extend_granted.mp ⟨e, extended⟩
      exact absurd (split ▸ distinct) (not_nodup_of_mem member)
    | error other => rw [first.unique (repeated_of_extend extended)]

def firsts : List (String × String) → List (String × String)
  | [] => []
  | entry :: rest => entry :: (firsts rest).filter fun other => other.1 ≠ entry.1

/-- A table with an entry at its end, if the name is free. -/
def offer (d : Defines) (entry : String × String) : Defines := (d.add? entry.1 entry.2).getD d

/-- Of the entries that are offered, a table takes the first ones of the names that it does not have. -/
theorem entries_foldl_offer (d : Defines) (entries : List (String × String)) :
    (entries.foldl offer d).entries = d.entries ++ (firsts entries).filter fun e => e.1 ∉ d.names := by
  induction entries generalizing d with
  | nil => simp [firsts]
  | cons entry rest ih =>
    rw [List.foldl_cons, ih, firsts]
    cases added : d.add? entry.1 entry.2 with
    | none =>
      have taken := add?_eq_none.mp added
      have same : d.offer entry = d := by rw [offer, added, Option.getD_none]
      rw [same, List.filter_cons_of_neg (by simpa using taken), List.filter_filter]
      congr 1
      refine List.filter_congr fun other _ => ?_
      by_cases equal : other.1 = entry.1 <;> simp_all
    | some more =>
      have fresh : entry.1 ∉ d.names := by
        intro taken
        cases (add?_eq_none.mpr taken).symm.trans added
      have grown : d.offer entry = more := by rw [offer, added, Option.getD_some]
      rw [grown, add?_eq_some added, names_of_add? added, List.append_assoc,
        List.filter_cons_of_pos (by simpa using fresh), List.filter_filter]
      congr 1
      refine congrArg (List.cons entry) (List.filter_congr fun other _ => ?_)
      simp [not_or]

end Defines

namespace RoutineTable
variable {t u : RoutineTable}

def names (t : RoutineTable) : List String := t.entries.toList.map (·.1)

theorem sorted_names (t : RoutineTable) : t.names.Pairwise fun a b => Text.bytes a < Text.bytes b :=
  List.pairwise_map.mpr t.sorted_entries

theorem mem_names {name : String} : name ∈ t.names ↔ (t.get? name).isSome := by
  unfold names
  rw [List.mem_map, Option.isSome_iff_exists]
  constructor
  · rintro ⟨⟨name, routine⟩, member, rfl⟩
    exact ⟨routine, mem_entries.mp member⟩
  · rintro ⟨routine, held⟩
    exact ⟨(name, routine), mem_entries.mpr held, rfl⟩

theorem names_congr (same : ∀ name, (t.get? name).isSome = (u.get? name).isSome) : t.names = u.names := by
  have members (name : String) : name ∈ t.names ↔ name ∈ u.names := by
    rw [mem_names, mem_names, same]
  exact eq_of_ascending t.sorted_names u.sorted_names members

theorem names_defines (t : RoutineTable) : t.defines.map (·.1) = t.names.map (routineMark ++ ·) := by
  unfold defines names
  rw [List.map_map, List.map_map]
  rfl

end RoutineTable

namespace Session
variable {s : Session} {own : Defines} {e : LinkError}

/-- The names that a source would have defined, in the order in which they are merged. -/
def namesFor (s : Session) (own : Defines) : List String :=
  s.defines.names ++ (s.routines.defines.map (·.1) ++ own.names)

theorem names_merged (s : Session) (own : Defines) :
    s.defines.names ++ (s.routines.defines ++ own.entries).map (·.1) = s.namesFor own := by
  rw [List.map_append]
  rfl

theorem definesFor_granted : (∃ defines, s.definesFor own = .ok defines) ↔
    Separate s.defines.names (s.routines.defines.map (·.1)) own.names := by
  have globals : s.defines.names.Nodup := s.defines.distinct
  have last : own.names.Nodup := own.distinct
  rw [← nodup_iff_separate globals s.routines.nodup_names_defines last]
  change _ ↔ (s.namesFor own).Nodup
  rw [← names_merged, ← Defines.extend_granted]
  unfold definesFor
  cases s.defines.extend (s.routines.defines ++ own.entries) <;> simp

theorem definesFor_eq_error : s.definesFor own = .error e ↔
    ∃ name, e = .duplicateDefine name ∧ FirstRepeated (s.namesFor own) name := by
  rw [← names_merged]
  simp only [← Defines.extend_eq_error]
  unfold definesFor
  cases s.defines.extend (s.routines.defines ++ own.entries) <;> simp [eq_comm]

end Session

/-! ### The global table -/

def Operation.definition? {σ : Type} : Operation σ → Option (String × String)
  | .define name value => some (name, value)
  | _ => none

namespace LinkM

variable {σ : Type} {asm : Assembler σ} {s t : Linker σ}

theorem upheld_defines (d : Defines) : UpheldThroughout (fun t => t.defines = d) fun _ => True where
  answer t answer same := by
    cases answer with
    | ok assembly => exact same
    | error fault => exact same
  image _ _ same := same
  clean _ _ _ same := same
  size _ _ _ same := same
  unloaded _ _ _ := trivial
  other _ _ := trivial
  registered t u file name address same registered := by
    obtain ⟨-, routines, -, rfl⟩ := Session.register_eq_ok registered
    exact same
  unregistered _ _ _ _ _ _ _ := trivial
  plain _ _ _ _ := trivial
  told _ _ _ _ _ := trivial

theorem defines_define (s : Linker σ) (name value : String) :
    ((onSession (·.define name value) : LinkM σ Unit).finish s).session.defines =
      s.session.defines.offer (name, value) := by
  unfold Defines.offer
  cases added : s.session.defines.add? name value with
  | some defines =>
    have defined : s.session.define name value = .ok { s.session with defines } := by
      unfold Session.define
      rw [added]
    rw [finish_of_ok (onSession_of_ok defined)]
    rfl
  | none =>
    have refused : s.session.define name value = .error (.duplicateDefine name) := by
      unfold Session.define
      rw [added]
    unfold finish
    rw [onSession_of_error refused]
    rfl

theorem defines_action (asm : Assembler σ) (operation : Operation σ) (s : Linker σ) :
    ((operation.action asm).finish s).session.defines =
      operation.definition?.toList.foldl Defines.offer s.session.defines := by
  cases defined : operation.definition? with
  | none =>
    have stays : Stays (fun t => t.defines = s.session.defines) (fun _ => True) (operation.action asm) := by
      refine (upheld_defines _).action (fun _ _ same _ => same) (fun _ _ same _ _ => same) operation ?_
      intro name value same
      subst same
      cases defined
    exact stays.finish rfl
  | some entry =>
    cases operation with
    | define name value =>
      cases defined
      exact defines_define s name value
    | _ => cases defined

theorem defines_run (operations : List (Operation σ)) (s : Linker σ) :
    (Operation.run asm operations s).session.defines =
      (operations.filterMap Operation.definition?).foldl Defines.offer s.session.defines := by
  induction operations generalizing s with
  | nil => rfl
  | cons operation rest ih =>
    have whole : (operation :: rest).filterMap Operation.definition? =
        operation.definition?.toList ++ rest.filterMap Operation.definition? := by
      cases defined : operation.definition? <;> simp [defined]
    rw [whole, List.foldl_append, ← defines_action asm operation s, ← ih]
    rfl

/-- After any operations the global table has what was defined first for each name, in that order. -/
theorem entries_run (operations : List (Operation σ)) (blank : s.session.defines = .empty) :
    (Operation.run asm operations s).session.defines.entries =
      Defines.firsts (operations.filterMap Operation.definition?) := by
  rw [defines_run, Defines.entries_foldl_offer, blank]
  simp [Defines.empty, Defines.names]

/-! ### A patch -/

/-- How a patch ends that has the answer of the assembler. -/
def ended (source : Path) (answer : Except AssemblerFault Assembly) (left : Linker σ) :
    EStateM.Result LinkError (Linker σ) Unit :=
  match answer with
  | .ok _ => .ok () left
  | .error fault => .error (.ofAssembler source fault) left

section Patch
variable {rom : Rom} {own defines : Defines} {name : String} (asm : Assembler σ) (source : Path)

/-- A patch that has its defines calls the assembler, and stops for nothing but its fault. -/
theorem patch_of_defined (loaded : s.session.rom? = some rom)
    (defined : s.session.definesFor own = .ok defines) : ∃ answer t,
      asm.assemble ⟨rom.data, source, defines⟩ s.disk s.assembler = (answer, t.disk, t.assembler) ∧
      patch asm source own s = ended source answer t := by
  obtain ⟨⟨answer, disk, inner⟩, run⟩ :
      ∃ result, asm.assemble ⟨rom.data, source, defines⟩ s.disk s.assembler = result := ⟨_, rfl⟩
  unfold patch
  rw [get_bind, loaded]
  dsimp only
  cases answer with
  | error fault =>
    have assembles : assemble asm rom.data source own s =
        .error (.ofAssembler source fault) { s with disk, assembler := inner } := by
      unfold assemble
      rw [get_bind, defined]
      simp only [run]
      rfl
    exact ⟨.error fault, _, run, bind_of_error assembles⟩
  | ok assembly =>
    have assembles : assemble asm rom.data source own s = .ok assembly.image { s with
        disk, assembler := inner, session := s.session.answered (.ok assembly) } :=
      assemble_eq_ok.mpr ⟨defines, assembly, defined, rfl, run, rfl⟩
    exact ⟨.ok assembly, _, run, bind_of_ok assembles⟩

theorem patch_refused (loaded : s.session.rom? = some rom) :
    (∃ t, patch asm source own s = .error (.duplicateDefine name) t) ↔
      FirstRepeated (s.session.namesFor own) name := by
  constructor
  · rintro ⟨t, stopped⟩
    cases given : s.session.definesFor own with
    | error e =>
      obtain ⟨other, rfl, first⟩ := Session.definesFor_eq_error.mp given
      cases stopped.symm.trans (patch_of_undefined asm loaded given)
      exact first
    | ok defines =>
      obtain ⟨answer, u, -, patched⟩ := patch_of_defined asm source loaded given
      rw [patched] at stopped
      rcases answer with (fault | fault) | assembly <;> cases stopped
  · intro first
    exact ⟨s, patch_of_undefined asm loaded (Session.definesFor_eq_error.mpr ⟨name, rfl, first⟩)⟩

theorem patch_of_clash (loaded : s.session.rom? = some rom)
    (clash : ¬Separate s.session.defines.names (s.session.routines.defines.map (·.1)) own.names) :
    ∃ name, FirstRepeated (s.session.namesFor own) name ∧
      patch asm source own s = .error (.duplicateDefine name) s := by
  cases given : s.session.definesFor own with
  | ok defines => exact absurd (Session.definesFor_granted.mp ⟨defines, given⟩) clash
  | error e =>
    obtain ⟨name, rfl, first⟩ := Session.definesFor_eq_error.mp given
    exact ⟨name, first, patch_of_undefined asm loaded given⟩

theorem patch_traced {s : Linker (σ × List Call)} (loaded : s.session.rom? = some rom)
    (defined : s.session.definesFor own = .ok defines) : ∃ answer,
      let left := (patch asm.traced source own).finish s
      left.assembler.2 = s.assembler.2 ++ [⟨⟨rom.data, source, defines⟩, s.disk, answer⟩] ∧
      patch asm.traced source own s = ended source answer left := by
  obtain ⟨answer, t, run, patched⟩ := patch_of_defined asm.traced source loaded defined
  have reached : (patch asm.traced source own).finish s = t := by
    unfold finish
    rw [patched]
    cases answer <;> rfl
  subst reached
  refine ⟨answer, ?_, patched⟩
  obtain ⟨same, rest⟩ := Prod.mk.inj run
  rw [← same, ← (Prod.mk.inj rest).2]

section Traced
variable {s : Linker (σ × List Call)} {call : Call}

theorem patch_called (loaded : s.session.rom? = some rom) :
    (∃ call, ((patch asm.traced source own).finish s).assembler.2 = s.assembler.2 ++ [call]) ↔
      Separate s.session.defines.names (s.session.routines.defines.map (·.1)) own.names := by
  constructor
  · intro ⟨call, recorded⟩
    by_contra clash
    obtain ⟨name, -, stopped⟩ := patch_of_clash asm.traced source loaded clash
    rw [finish_of_error stopped] at recorded
    exact List.cons_ne_nil _ _ (List.self_eq_append_right.mp recorded)
  · intro separate
    obtain ⟨defines, defined⟩ := Session.definesFor_granted.mpr separate
    obtain ⟨answer, recorded, -⟩ := patch_traced asm source loaded defined
    exact ⟨_, recorded⟩

theorem patch_told (loaded : s.session.rom? = some rom)
    (recorded : ((patch asm.traced source own).finish s).assembler.2 = s.assembler.2 ++ [call]) :
    call.request.image = rom.data ∧ call.request.source = source ∧
      call.request.defines.entries =
        s.session.defines.entries ++ s.session.routines.defines ++ own.entries ∧
      call.request.defines.names.Nodup ∧
      patch asm.traced source own s =
        ended source call.answer ((patch asm.traced source own).finish s) := by
  cases given : s.session.definesFor own with
  | error e =>
    rw [finish_of_error (patch_of_undefined asm.traced loaded given)] at recorded
    exact absurd (List.self_eq_append_right.mp recorded) (List.cons_ne_nil _ _)
  | ok defines =>
    obtain ⟨answer, recorded', patched⟩ := patch_traced asm source loaded given
    cases List.append_cancel_left (recorded.symm.trans recorded')
    exact ⟨rfl, rfl, Session.definesFor_eq_ok given, defines.distinct, patched⟩

end Traced

theorem patch_refused_alike {τ : Type} {other : Assembler τ} {t : Linker τ} {source' : Path} {own' : Defines}
    (loaded : s.session.rom? = some rom) (ready : t.session.rom?.isSome)
    (globals : t.session.defines.names = s.session.defines.names)
    (routines : ∀ name, (t.session.routines.get? name).isSome = (s.session.routines.get? name).isSome)
    (same : own'.names = own.names) :
    (∃ u, patch other source' own' t = .error (.duplicateDefine name) u) ↔
      ∃ u, patch asm source own s = .error (.duplicateDefine name) u := by
  obtain ⟨rom', loaded'⟩ := Option.isSome_iff_exists.mp ready
  have merged : t.session.namesFor own' = s.session.namesFor own := by
    unfold Session.namesFor
    rw [globals, same, RoutineTable.names_defines, RoutineTable.names_defines,
      RoutineTable.names_congr routines]
  rw [patch_refused other source' loaded', patch_refused asm source loaded, merged]

end Patch

/-- A patch of a loaded ROM calls the assembler exactly if the names of the global defines, of those of the
routines and of its own ones are apart from each other. The call has the global defines in the order in which
they were made, then one define for each routine, in the order of the bytes of the routines' names, then its own
in their order, no name twice. Otherwise the patch stops for the first name that comes again in that order, and
nothing is changed. The values have no part in that. -/
theorem patch_merges (asm : Assembler σ) (s : Linker (σ × List Call)) (source : Path) (own : Defines) (rom : Rom)
    (loaded : s.session.rom? = some rom) :
    let globals := s.session.defines
    let patched := patch asm.traced source own s
    let left := (patch asm.traced source own).finish s
    (∀ (begun : Linker (σ × List Call)) operations, begun.session.defines = .empty →
      s = Operation.run asm.traced operations begun →
      globals.entries = Defines.firsts (operations.filterMap Operation.definition?)) ∧
    ∃ routines : List (String × Routine),
      routines.Pairwise (fun r q => Text.bytes r.1 < Text.bytes q.1) ∧
      (∀ name routine, (name, routine) ∈ routines ↔ s.session.routines.get? name = some routine) ∧
      let published := routines.map fun r => ("UberRoutine_" ++ r.1, r.2.address.render)
      let names := published.map (·.1)
      ((∃ call, left.assembler.2 = s.assembler.2 ++ [call]) ↔ Separate globals.names names own.names) ∧
      (∀ call, left.assembler.2 = s.assembler.2 ++ [call] →
        call.request.image = rom.data ∧ call.request.source = source ∧
        call.request.defines.entries = globals.entries ++ published ++ own.entries ∧
        call.request.defines.names.Nodup ∧ patched = ended source call.answer left) ∧
      (¬Separate globals.names names own.names →
        ∃ name, FirstRepeated (globals.names ++ (names ++ own.names)) name ∧
          patched = .error (.duplicateDefine name) s) ∧
      ∀ (other : Assembler (σ × List Call)) (t : Linker (σ × List Call)) (source' : Path) (own' : Defines),
        t.session.rom?.isSome → t.session.defines.names = globals.names →
        (∀ name, (t.session.routines.get? name).isSome = (s.session.routines.get? name).isSome) →
        own'.names = own.names → ∀ name,
        (∃ u, patch other source' own' t = .error (.duplicateDefine name) u) ↔
          ∃ u, patched = .error (.duplicateDefine name) u := by
  intro globals patched left
  refine ⟨fun begun operations blank same => ?_, s.session.routines.entries.toList,
    s.session.routines.sorted_entries, fun name routine => RoutineTable.mem_entries, ?_⟩
  · subst same
    exact entries_run operations blank
  intro published names
  refine ⟨patch_called asm source loaded, fun call recorded => patch_told asm source loaded recorded,
    fun clash => patch_of_clash asm.traced source loaded clash, ?_⟩
  intro other t source' own' ready globals' routines' own'' name
  exact patch_refused_alike asm.traced source loaded ready globals' routines' own''

end LinkM

namespace SmallBuild

def freeram : String × String := ("UberFreeram", "$7F0000")

def routine : String × Routine := ("f", ⟨⟨"level/a.asm"⟩, 0x108000⟩)

def merging : Linker (Unit × List Call) :=
  { start with session := {
    rom? := some ⟨⟨"r.sfc"⟩, .empty, Rom.bankHeader⟩
    defines := ⟨[freeram], List.nodup_singleton _⟩
    routines := ⟨some ["f"], RoutineTable.empty.entries.insert routine.1 routine.2⟩ } }

theorem routines_merging {routines : List (String × Routine)}
    (sorted : routines.Pairwise fun r q => Text.bytes r.1 < Text.bytes q.1)
    (members : ∀ name r, (name, r) ∈ routines ↔ merging.session.routines.get? name = some r) :
    routines = [routine] := by
  refine eq_of_ascending sorted (List.pairwise_singleton _ _) ?_
  rintro ⟨name, r⟩
  have held : merging.session.routines.get? name =
      if routine.1 = name then some routine.2 else RoutineTable.empty.get? name :=
    RoutineTable.get?_insert ⟨some ["f"], RoutineTable.empty.entries⟩ routine.1 name routine.2
  rw [members, held, RoutineTable.get?_empty, List.mem_singleton, Prod.ext_iff]
  split
  · rename_i same
    simp [← same, eq_comm]
  · rename_i different
    simp [Ne.symm different]

end SmallBuild

open SmallBuild in
/-- A source with a define of its own sees three, and one that would define the routine is not assembled. -/
theorem LinkM.patch_merges_three : merging.session.rom?.isSome ∧
    (∃ call, ((patch asm.traced ⟨"b.asm"⟩ ⟨[("InvokeSA1main", "1")], List.nodup_singleton _⟩).finish
        merging).assembler.2 = [call] ∧
      call.request.defines.entries =
        [("UberFreeram", "$7F0000"), ("UberRoutine_f", "$108000"), ("InvokeSA1main", "1")]) ∧
    patch asm.traced ⟨"b.asm"⟩ ⟨[("UberRoutine_f", "1")], List.nodup_singleton _⟩ merging =
      .error (.duplicateDefine "UberRoutine_f") merging := by
  refine ⟨rfl, ?_, ?_⟩
  · obtain ⟨-, routines, sorted, members, called, told, -⟩ := patch_merges asm merging ⟨"b.asm"⟩
      ⟨[("InvokeSA1main", "1")], List.nodup_singleton _⟩ _ rfl
    obtain rfl := routines_merging sorted members
    have separate : Separate ["UberFreeram"] ["UberRoutine_f"] ["InvokeSA1main"] := by
      simp [Separate]
    obtain ⟨call, recorded⟩ := called.mpr separate
    obtain ⟨-, -, entries, -⟩ := told call recorded
    refine ⟨call, recorded, entries.trans ?_⟩
    decide +kernel
  · obtain ⟨-, routines, sorted, members, -, -, clash, -⟩ := patch_merges asm merging ⟨"b.asm"⟩
      ⟨[("UberRoutine_f", "1")], List.nodup_singleton _⟩ _ rfl
    obtain rfl := routines_merging sorted members
    have together : ¬Separate ["UberFreeram"] ["UberRoutine_f"] ["UberRoutine_f"] := by
      simp [Separate]
    obtain ⟨name, first, stopped⟩ := clash together
    have again : FirstRepeated ["UberFreeram", "UberRoutine_f", "UberRoutine_f"] "UberRoutine_f" :=
      ⟨["UberFreeram", "UberRoutine_f"], [], rfl, by decide, by decide⟩
    obtain rfl := FirstRepeated.unique first again
    exact stopped

end RomLinker
