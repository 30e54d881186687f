import RomLinker.Proofs.Settings.Draft

/-!
Which lists are accepted and what they make (`parse_exact`). The run over the statements notes
nothing where every statement is allowed behind the ones in front of it, and then the draft follows
the whole list.
-/
namespace RomLinker.Settings
open Listing

variable {w : Workspace} {d : Disk} {before statements : List Statement} {s : Statement}

/-- No command twice, no line in front of the first header, and items that pass one after another. -/
structure Fine (w : Workspace) (d : Disk) (statements : List Statement) : Prop where
  once : ∀ c, count statements c ≤ 1
  headed : EachAfter (fun before s => s.line?.isSome → ∃ h ∈ before, h.header?.isSome) statements
  items : EachAfter (Accepts w d) (placed statements)

theorem fine_nil : Fine w d [] := ⟨fun _ => Nat.zero_le _, EachAfter.nil, EachAfter.nil⟩

theorem fine_concat : Fine w d (before ++ [s]) ↔ Fine w d before ∧ Allowed w d before s := by
  constructor
  · rintro ⟨once, headed, items⟩
    obtain ⟨headed, last⟩ := EachAfter.concat_iff.mp headed
    have earlier := items
    rw [placed_concat] at earlier
    refine ⟨⟨fun c => ?_, headed, earlier.front⟩, ⟨fun c command => ?_, ?_, items⟩⟩
    · have bound := once c
      rw [count_concat] at bound
      omega
    · have bound := once c
      rw [count_concat, if_pos command] at bound
      omega
    · exact fun line => heading?_isSome.mpr (last line)
  · rintro ⟨fine, allowed⟩
    refine ⟨fun c => ?_, EachAfter.concat_iff.mpr ⟨fine.headed, ?_⟩, allowed.items⟩
    · have bound := fine.once c
      rw [count_concat]
      by_cases command : s.command? = some c
      · have zero := allowed.once c command
        rw [if_pos command]
        omega
      · rw [if_neg command]
        exact bound
    · exact fun line => heading?_isSome.mp (allowed.headed line)

theorem Fine.front {rest : List Statement} (fine : Fine w d (before ++ rest)) : Fine w d before := by
  induction rest using List.reverseRecOn with
  | nil => simpa using fine
  | append_singleton rest s ih =>
    rw [← List.append_assoc] at fine
    exact ih (fine_concat.mp fine).1

theorem Draft.applyAll_cons_eq_nil {draft next : Draft} {rest : List Statement} :
    draft.applyAll w d (s :: rest) = ([], next) ↔
      ∃ mid, draft.apply w d s = (none, mid) ∧ mid.applyAll w d rest = ([], next) := by
  rw [Draft.applyAll]
  rcases draft.apply w d s with ⟨_ | fault, mid⟩
  · simp [Prod.ext_iff]
  · simp

namespace Draft.Follows
variable {draft next : Draft}

theorem applyAll_clean (follows : draft.Follows w d before) (fine : Fine w d before) :
    (∃ next, draft.applyAll w d statements = ([], next)) ↔ Fine w d (before ++ statements) := by
  induction statements generalizing draft before with
  | nil => simpa [Draft.applyAll] using fine
  | cons s rest ih =>
    have whole : before ++ s :: rest = (before ++ [s]) ++ rest := by simp
    rw [whole, Draft.applyAll]
    rcases step : draft.apply w d s with ⟨fault?, mid⟩
    cases fault? with
    | some fault =>
      refine ⟨fun ⟨next, h⟩ => ?_, fun all => ?_⟩
      · cases (Prod.mk.inj h).1
      · have allowed := (fine_concat.mp all.front).2
        obtain ⟨mid', taken⟩ := (follows.apply_clean fine.items).mpr allowed
        cases step.symm.trans taken
    | none =>
      have allowed : Allowed w d before s := (follows.apply_clean fine.items).mp ⟨mid, step⟩
      exact ih (follows.apply_none step) (fine_concat.mpr ⟨fine, allowed⟩)

theorem applyAll_nil (follows : draft.Follows w d before)
    (h : draft.applyAll w d statements = ([], next)) : next.Follows w d (before ++ statements) := by
  induction statements generalizing draft before with
  | nil =>
    cases h
    simpa using follows
  | cons s rest ih =>
    have whole : before ++ s :: rest = (before ++ [s]) ++ rest := by simp
    obtain ⟨mid, step, later⟩ := applyAll_cons_eq_nil.mp h
    rw [whole]
    exact ih (follows.apply_none step) later

theorem missing_eq_nil (follows : draft.Follows w d statements) :
    draft.missing = [] ↔
      (∀ role, 0 < count statements (.file role)) ∧ 0 < count statements .freeram := by
  have roles : (FileRole.all.filter fun role => !draft.files.any (·.1 == role)) = [] ↔
      ∀ role, draft.given (.file role) = true := by
    rw [List.filter_eq_nil_iff]
    have every (role : FileRole) : role ∈ FileRole.all := by cases role <;> decide
    refine ⟨fun none role => ?_, fun all role _ => ?_⟩
    · simpa [Draft.given] using none role (every role)
    · simpa [Draft.given] using all role
  have freeram : (if draft.freeram?.isSome then [] else [Fault.missing "freeram:"]) = [] ↔
      draft.given .freeram = true := by
    unfold Draft.given
    cases draft.freeram? <;> simp
  unfold missing
  rw [List.append_eq_nil_iff, List.map_eq_nil_iff, roles, freeram, follows.given]
  exact and_congr_left' (forall_congr' fun role => follows.given _)

end Draft.Follows

theorem parse_eq_ok {source : String} {settings : Settings} :
    parse source w d = .ok settings ↔
      (Listing.parse source).faults = [] ∧
        ∃ draft, Draft.applyAll w d {} (Listing.parse source).statements = ([], draft) ∧
          draft.missing = [] ∧ settings = draft.toSettings := by
  unfold parse
  rcases run : Draft.applyAll w d {} (Listing.parse source).statements with ⟨rejected, draft⟩
  simp only [run, List.isEmpty_iff, List.append_eq_nil_iff, List.map_eq_nil_iff, Prod.mk.injEq]
  by_cases clean : ((Listing.parse source).faults = [] ∧ rejected = []) ∧ draft.missing = []
  · rw [if_pos clean]
    obtain ⟨⟨readable, none⟩, complete⟩ := clean
    constructor
    · intro h
      exact ⟨readable, draft, ⟨none, rfl⟩, complete, (Except.ok.inj h).symm⟩
    · rintro ⟨-, _, ⟨-, rfl⟩, -, rfl⟩
      rfl
  · rw [if_neg clean]
    refine ⟨fun h => ?_, ?_⟩
    · cases h
    · rintro ⟨readable, _, ⟨none, rfl⟩, complete, -⟩
      exact absurd ⟨⟨readable, none⟩, complete⟩ clean

theorem exists_parse_iff {source : String} :
    (∃ settings, parse source w d = .ok settings) ↔
      (Listing.parse source).faults = [] ∧ Fine w d (Listing.parse source).statements ∧
        (∀ role, 0 < count (Listing.parse source).statements (.file role)) ∧
        0 < count (Listing.parse source).statements .freeram := by
  have start : Draft.Follows w d [] {} := Draft.follows_empty
  constructor
  · rintro ⟨settings, h⟩
    obtain ⟨readable, draft, run, complete, -⟩ := parse_eq_ok.mp h
    have fine := (start.applyAll_clean fine_nil).mp ⟨draft, run⟩
    have follows := start.applyAll_nil run
    exact ⟨readable, fine, follows.missing_eq_nil.mp complete⟩
  · rintro ⟨readable, fine, complete⟩
    obtain ⟨draft, run⟩ := (start.applyAll_clean fine_nil).mpr fine
    have follows := start.applyAll_nil run
    exact ⟨_, parse_eq_ok.mpr ⟨readable, draft, run, follows.missing_eq_nil.mpr complete, rfl⟩⟩

/-- The settings of an accepted list hold what its items say. -/
theorem holds_of_parse {source : String} {settings : Settings}
    (h : parse source w d = .ok settings) :
    Draft.Holds w d (placed (Listing.parse source).statements) { settings with } := by
  obtain ⟨-, draft, run, -, rfl⟩ := parse_eq_ok.mp h
  have follows := Draft.Follows.applyAll_nil Draft.follows_empty run
  exact follows.holds.congr rfl rfl

theorem exists_assignment {items : List Placed} {draft : Draft} (holds : draft.Holds w d items)
    {k : Nat} {r : Resource} (found : draft.resources.get? k = some r) :
    ∃ kind slot, ∃ a ∈ draft.contexts.assignments kind slot, a.resource = k := by
  have bound : k < (items.map Placed.name).eraseDups.length := by
    rw [← holds.mentions.size]
    exact (List.getElem?_eq_some_iff.mp found).1
  have mentioned := List.mem_eraseDups.mp (List.getElem_mem bound)
  obtain ⟨p, member, same⟩ := List.mem_map.mp mentioned
  refine ⟨p.kind, p.slot, ⟨number items p, p.item.bytes⟩, ?_, ?_⟩
  · rw [holds.assigned]
    exact List.mem_map_of_mem (List.mem_filter.mpr ⟨member, by simp⟩)
  · change (items.map Placed.name).eraseDups.idxOf p.name = k
    rw [same]
    exact (nodup_eraseDups _).idxOf_getElem k bound

/-- The resources of a list, by number: its normal paths by first mention. -/
def names (items : List Placed) : List Path := (items.map Placed.name).eraseDups

/-- A list is accepted exactly where each of its lines can be read, every command is there as often
as it has to be, lines of slots stand in sections and every item passes, given the ones in front of
it. An accepted list gives each slot its items, in order, and each resource the number of its first
mention and the directives of its file. -/
theorem parse_exact (source : String) (w : Workspace) (d : Disk) :
    let list := Listing.parse source
    let items := placed list.statements
    ((∃ settings, parse source w d = .ok settings) ↔
      list.faults = [] ∧ (∀ role, count list.statements (.file role) = 1) ∧
        count list.statements .freeram = 1 ∧ count list.statements .verbose ≤ 1 ∧
        count list.statements .rom ≤ 1 ∧
        EachAfter (fun before s => s.line?.isSome → ∃ h ∈ before, h.header?.isSome)
          list.statements ∧
        EachAfter (Accepts w d) items) ∧
    ∀ settings, parse source w d = .ok settings →
      (∀ kind slot, settings.contexts.assignments kind slot =
        (items.filter fun p => p.kind = kind ∧ p.slot = slot).map fun p =>
          ⟨(names items).idxOf p.name, p.item.bytes⟩) ∧
      settings.resources.resources.map (·.file) = names items ∧
      ∀ k r, settings.resources.get? k = some r →
        r.id = k ∧ directivesOf? w d r.file = some r.directives ∧
          ∃ kind slot, ∃ a ∈ settings.contexts.assignments kind slot, a.resource = k := by
  intro list items
  refine ⟨exists_parse_iff.trans ⟨?_, ?_⟩, fun settings h => ?_⟩
  · rintro ⟨readable, fine, roles, freeram⟩
    refine ⟨readable, fun role => ?_, ?_, fine.once _, fine.once _, fine.headed, fine.items⟩
    · exact Nat.le_antisymm (fine.once (.file role)) (roles role)
    · exact Nat.le_antisymm (fine.once .freeram) freeram
  · rintro ⟨readable, roles, freeram, verbose, rom, headed, accepted⟩
    refine ⟨readable, ⟨fun c => ?_, headed, accepted⟩, fun role => ?_, ?_⟩
    · cases c with
      | verbose => exact verbose
      | rom => exact rom
      | file role => exact Nat.le_of_eq (roles role)
      | freeram => exact Nat.le_of_eq freeram
    · exact Nat.le_of_eq (roles role).symm
    · exact Nat.le_of_eq freeram.symm
  · have holds := holds_of_parse h
    refine ⟨holds.assigned, holds.mentions.files, fun k r found => ?_⟩
    have member : r ∈ settings.resources.resources := List.mem_of_getElem? found
    exact ⟨holds.mentions.ids k r found, holds.directives r member, exists_assignment holds found⟩

/-- A short list with one resource in two slots, once with a byte of its own. -/
theorem parse_exact_short :
    let source := "global: g\nstatusbar: s\nmacrolib: m\nfreeram: $7F0000\nlevel:\n5 a.asm 1\n* a.asm\n"
    let file : Location := Location.root.child "level" |>.child "a.asm"
    let d : Disk := Disk.empty.insert (Location.root.child "level") .directory
      |>.insert file (.file ";>bytes 1\n".toUTF8)
    ∃ settings, parse source ⟨⟨""⟩, []⟩ d = .ok settings ∧
      settings.contexts.assignments .level (.index 5) = [⟨0, [1]⟩] ∧
      settings.contexts.assignments .level .aggregate = [⟨0, []⟩] := by
  intro source file d
  have accepted : (parse source ⟨⟨""⟩, []⟩ d).isOk = true := by decide +kernel
  cases result : parse source ⟨⟨""⟩, []⟩ d with
  | error faults =>
    rw [result] at accepted
    cases accepted
  | ok settings =>
    obtain ⟨held, -⟩ := (parse_exact source ⟨⟨""⟩, []⟩ d).2 settings result
    refine ⟨settings, rfl, (held .level (.index 5)).trans ?_, (held .level .aggregate).trans ?_⟩
    · decide +kernel
    · decide +kernel

end RomLinker.Settings
