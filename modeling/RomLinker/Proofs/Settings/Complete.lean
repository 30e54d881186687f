import RomLinker.Proofs.Listing.Spans
import RomLinker.Proofs.Settings.Reports

/-!
What a refused list is refused with. Each statement is answered by those in front of it (`refusal?`), whatever
became of them, and so the report has the faults of the lines, one refusal of each statement that is refused
and each command that is missing, in the order of where they start (`faults_complete`).
-/
namespace RomLinker

/-- A list in the order of a key, where elements with the same key keep their order. -/
structure StablySorted {α : Type} (key : α → Nat) (xs ys : List α) : Prop where
  perm : ys.Perm xs
  ascending : ys.Pairwise fun a b => key a ≤ key b
  stable : ∀ k, ys.filter (key · = k) = xs.filter (key · = k)

theorem stablySorted_mergeSort {α : Type} (key : α → Nat) (xs : List α) :
    StablySorted key xs (xs.mergeSort fun a b => key a ≤ key b) := by
  have trans (a b c : α) (first : decide (key a ≤ key b) = true) (second : decide (key b ≤ key c) = true) :
      decide (key a ≤ key c) = true := by
    rw [decide_eq_true_eq] at *
    omega
  have total (a b : α) : (decide (key a ≤ key b) || decide (key b ≤ key a)) = true := by
    rw [Bool.or_eq_true, decide_eq_true_eq, decide_eq_true_eq]
    omega
  have perm := List.mergeSort_perm xs fun a b => decide (key a ≤ key b)
  refine ⟨perm, ?_, fun k => ?_⟩
  · simpa using List.pairwise_mergeSort trans total xs
  · have level : (xs.filter (key · = k)).Pairwise fun a b => decide (key a ≤ key b) = true := by
      rw [List.pairwise_filter]
      exact List.pairwise_of_forall fun a b first second => by simp_all
    have kept := (List.sublist_mergeSort trans total level List.filter_sublist).filter (key · = k)
    rw [List.filter_filter, List.filter_congr fun a _ => Bool.and_self _] at kept
    exact (kept.eq_of_length (perm.filter _).length_eq.symm).symm

def Listing.Command.keyword : Listing.Command → String
  | .verbose => "verbose:"
  | .rom => "rom:"
  | .file role => role.keyword
  | .freeram => "freeram:"

namespace Settings
open Listing

variable {w : Workspace} {d : Disk} {before statements : List Statement} {s : Statement}

def repeated? (before : List Statement) (s : Statement) : Option Flagged :=
  s.command?.bind fun c => if 0 < count before c then some ⟨.repeated c.keyword, s.span⟩ else none

def headless? (before : List Statement) : Statement → Option Flagged
  | .slot _ slotSpan _ _ => if (heading? before).isNone then some ⟨.noContext, slotSpan⟩ else none
  | _ => none

/-- Why a statement is refused, given the statements in front of it. Of the items of a line that are rejected
the first one counts. -/
def refusal? (w : Workspace) (d : Disk) (before : List Statement) (s : Statement) : Option Flagged :=
  (repeated? before s).or ((headless? before s).or
    (rejections w d (placed before).reverse (placedIn (heading? before) s)).head?)

def refusals (w : Workspace) (d : Disk) (before : List Statement) : List Statement → List Flagged
  | [] => []
  | s :: rest => (refusal? w d before s).toList ++ refusals w d (before ++ [s]) rest

def mandatory : List Command := FileRole.all.map Command.file ++ [.freeram]

/-- The commands that a list lacks, at the end of its source. -/
def absences (source : String) (statements : List Statement) : List Flagged :=
  (mandatory.filter (count statements · = 0)).map fun c =>
    ⟨.missing c.keyword, .point source.utf8ByteSize⟩

/-- A draft that took the statements of a list, whatever it has refused of them. -/
structure Draft.Took (w : Workspace) (d : Disk) (before : List Statement) (draft : Draft) : Prop where
  given : ∀ c, draft.given c = true ↔ 0 < count before c
  heading : draft.heading? = Listing.heading? before
  tracks : draft.Tracks w d (placed before).reverse

namespace Draft
variable {draft : Draft} {c : Command}

theorem took_empty : Draft.Took w d [] {} :=
  ⟨fun c => by cases c <;> simp [given, count], rfl, tracks_empty⟩

theorem apply_command (command : s.command? = some c) :
    draft.apply w d s =
      if draft.given c then (some ⟨.repeated c.keyword, s.span⟩, draft) else (none, draft.take s) := by
  cases s with
  | header kind span | slot slot slotSpan items span => cases command
  | _ =>
    cases command
    rfl

/-- The answer to a statement, and which commands are given behind it. -/
theorem Took.answer (took : draft.Took w d before) (s : Statement) :
    (draft.apply w d s).1 = refusal? w d before s ∧
      ∀ c, (draft.apply w d s).2.given c = (draft.given c || s.command? == some c) := by
  cases command : s.command? with
  | some c =>
    have refused : refusal? w d before s =
        if 0 < count before c then some ⟨.repeated c.keyword, s.span⟩ else none := by
      have headless : headless? before s = none := by cases s <;> first | rfl | cases command
      rw [refusal?, repeated?, command, headless, placedIn_of_bare (line?_of_command command)]
      exact Option.or_none
    rw [refused, apply_command command]
    cases given : draft.given c with
    | true =>
      rw [if_pos ((took.given c).mp given)]
      refine ⟨rfl, fun c' => ?_⟩
      -- the draft is as it was, which had the command already
      by_cases same : c = c'
      · subst same
        simp [given]
      · simp [same]
    | false =>
      have fresh : ¬0 < count before c := fun some => by
        rw [(took.given c).mpr some] at given
        cases given
      rw [if_neg fresh]
      refine ⟨rfl, fun c' => ?_⟩
      change (draft.take s).given c' = _
      rw [given_take command, Option.some_beq_some]
  | none =>
    cases s with
    | header kind span =>
      rw [refusal?, placedIn_of_bare rfl]
      exact ⟨rfl, fun c => by cases c <;> exact (Bool.or_false _).symm⟩
    | slot slot slotSpan items span =>
      unfold Draft.apply refusal? headless?
      rw [← took.heading]
      cases section? : draft.heading? with
      | none => exact ⟨rfl, fun c => (Bool.or_false _).symm⟩
      | some kind =>
        obtain ⟨contexts, resources, run, -⟩ := took.tracks.assignAll kind slot items
        dsimp only
        rw [run]
        exact ⟨rfl, fun c => by cases c <;> exact (Bool.or_false _).symm⟩
    | _ => cases command

theorem Took.apply (took : draft.Took w d before) (s : Statement) :
    (draft.apply w d s).2.Took w d (before ++ [s]) := by
  obtain ⟨-, heading, tracks⟩ := took.tracks.apply s
  refine ⟨fun c => ?_, ?_, ?_⟩
  · rw [(took.answer s).2, Bool.or_eq_true, took.given, count_concat, beq_iff_eq]
    by_cases same : s.command? = some c <;> simp [same]
  · rw [heading, heading?_concat, took.heading]
  · rw [placed_concat, List.reverse_append, ← took.heading]
    exact tracks

theorem Took.applyAll (took : draft.Took w d before) (statements : List Statement) :
    (draft.applyAll w d statements).1 = refusals w d before statements ∧
      (draft.applyAll w d statements).2.Took w d (before ++ statements) := by
  induction statements generalizing draft before with
  | nil => exact ⟨rfl, (List.append_nil before).symm ▸ took⟩
  | cons s rest ih =>
    obtain ⟨later, last⟩ := ih (took.apply s)
    rw [Draft.applyAll, refusals, ← (took.answer s).1, ← later]
    rw [List.append_assoc] at last
    exact ⟨rfl, last⟩

theorem Took.missing (took : draft.Took w d before) :
    draft.missing = (mandatory.filter (count before · = 0)).map fun c => .missing c.keyword := by
  have absent (c : Command) : (count before c = 0) ↔ draft.given c = false := by
    rw [Bool.eq_false_iff, ne_eq, took.given]
    omega
  have files (role : FileRole) :
      (!draft.files.any (·.1 == role)) = decide (count before (.file role) = 0) := by
    have given : draft.files.any (·.1 == role) = draft.given (.file role) := rfl
    rw [given, Bool.eq_iff_iff, decide_eq_true_eq, absent, Bool.not_eq_true']
  rw [Settings.missing, mandatory, List.filter_append, List.map_append, List.filter_map, List.map_map]
  congr 1
  · simp only [files]
    rfl
  · have given : draft.given .freeram = draft.freeram?.isSome := rfl
    cases same : draft.freeram?.isSome <;> simp [absent, given, same, Command.keyword]

end Draft

theorem item_mem_of_placedIn {section? : Option ContextKind} {p : Placed} (member : p ∈ placedIn section? s) :
    p.item ∈ s.items := by
  cases section? with
  | none => cases member
  | some kind =>
    cases s with
    | slot slot slotSpan items span =>
      obtain ⟨item, inside, rfl⟩ := List.mem_map.mp member
      exact inside
    | _ => cases member

theorem span_of_refusal? {f : Flagged} (refused : refusal? w d before s = some f) : f.span ∈ s.spans := by
  rcases Option.or_eq_some_iff.mp refused with again | ⟨-, refused⟩
  · obtain ⟨c, -, again⟩ := Option.bind_eq_some_iff.mp again
    split at again <;> cases again
    exact span_mem_spans s
  · rcases Option.or_eq_some_iff.mp refused with headless | ⟨-, rejected⟩
    · unfold headless? at headless
      split at headless
      · split at headless <;> cases headless
        exact List.mem_cons_of_mem _ List.mem_cons_self
      · cases headless
    · obtain ⟨front, p, back, split, span, -⟩ := exists_of_mem_rejections (List.mem_of_head? rejected)
      have inside : p ∈ placedIn (heading? before) s := by
        rw [split]
        exact List.mem_append_right _ List.mem_cons_self
      rw [span]
      exact item_span_mem_spans (item_mem_of_placedIn inside)

theorem exists_of_mem_refusals {f : Flagged} (member : f ∈ refusals w d before statements) :
    ∃ s ∈ statements, f.span ∈ s.spans := by
  induction statements generalizing before with
  | nil => cases member
  | cons s rest ih =>
    rcases List.mem_append.mp member with here | later
    · exact ⟨s, List.mem_cons_self, span_of_refusal? (Option.mem_toList.mp here)⟩
    · obtain ⟨t, inside, span⟩ := ih later
      exact ⟨t, List.mem_cons_of_mem s inside, span⟩

/-- What is wrong with a list, in no order yet: the faults of its lines, the refusals of its statements and
the commands that it lacks. -/
def wrongs (w : Workspace) (d : Disk) (source : String) : List Flagged :=
  (Listing.parse source).faults.map (fun e => ⟨.malformed e.fault, e.span⟩) ++
    refusals w d [] (Listing.parse source).statements ++ absences source (Listing.parse source).statements

theorem parse_eq_error {source : String} {faults : List Flagged} (failed : parse source w d = .error faults) :
    faults ≠ [] ∧ faults = (wrongs w d source).mergeSort fun a b => a.span.start ≤ b.span.start := by
  obtain ⟨refused, took⟩ := Draft.took_empty.applyAll (w := w) (d := d) (Listing.parse source).statements
  have absent : (Draft.applyAll w d {} (Listing.parse source).statements).2.missing.map
      (fun fault => (⟨fault, .point source.utf8ByteSize⟩ : Flagged)) =
      absences source (Listing.parse source).statements := by
    rw [took.missing, absences, List.map_map]
    rfl
  unfold parse at failed
  dsimp only at failed
  rw [refused, absent] at failed
  split at failed
  · cases failed
  · rename_i some
    cases failed
    refine ⟨fun none => some (List.isEmpty_iff.mpr ?_), rfl⟩
    exact List.length_eq_zero_iff.mp (by rw [← List.length_mergeSort, none, List.length_nil])

theorem within_of_mem_wrongs {source : String} {f : Flagged} (member : f ∈ wrongs w d source) :
    f.span.Within source := by
  rcases List.mem_append.mp member with line | absent
  · rcases List.mem_append.mp line with malformed | refused
    · obtain ⟨e, inside, rfl⟩ := List.mem_map.mp malformed
      exact faults_within inside
    · obtain ⟨s, inside, span⟩ := exists_of_mem_refusals refused
      exact spans_within inside f.span span
  · obtain ⟨c, -, rfl⟩ := List.mem_map.mp absent
    exact within_point source

/-- A list that is refused is refused with all that is wrong with it, in the order of where it starts. That
is every fault of its lines, one fault of each statement that the draft refuses behind those in front of it,
and each command that is missing, at the end of the source. All spans can be cut out of the source. Those of
statements follow each other, have no line feed, and cover those of their items. -/
theorem faults_complete {source : String} {w : Workspace} {d : Disk} {faults : List Flagged}
    (failed : parse source w d = .error faults) :
    let list := (Listing.parse source).statements
    faults ≠ [] ∧ StablySorted (·.span.start) (wrongs w d source) faults ∧
    (∀ before s, ((Draft.applyAll w d {} before).2.apply w d s).1 = refusal? w d before s) ∧
    (∀ f ∈ faults, f.span.Within source) ∧
    (∀ s ∈ list, (∀ span ∈ s.spans, span.Within source) ∧ (∀ item ∈ s.items, item.span.Inside s.span) ∧
      ∀ before behind, source.toList = before ++ '\n' :: behind → ¬ s.span.Has (size before)) ∧
    list.Pairwise fun s t => s.span.stop < t.span.start := by
  intro list
  obtain ⟨some, sorted⟩ := parse_eq_error failed
  have order : StablySorted (·.span.start) (wrongs w d source) faults := by
    rw [sorted]
    exact stablySorted_mergeSort _ _
  refine ⟨some, order, fun before s => ?_, fun f member => ?_, fun s member => ?_, pairwise_statements source⟩
  · exact ((Draft.took_empty.applyAll before).2.answer s).1
  · exact within_of_mem_wrongs (order.perm.mem_iff.mp member)
  · exact ⟨spans_within member, items_within_statement member,
      fun before behind split => feed_outside_statement member split⟩

/-- Of a list with a fault of each kind. -/
theorem faults_complete_four_kinds :
    let source := "5 é.asm\nrom: é\nrom: b\nlevel: now\nglobal: g\nmacrolib: m\nfreeram: $7F0000"
    let w : Workspace := ⟨⟨""⟩, []⟩
    let d : Disk := Disk.empty
    (wrongs w d source).map (·.span) = [⟨31, 34⟩, ⟨0, 1⟩, ⟨17, 23⟩, ⟨73, 73⟩] ∧
      ∃ faults, parse source w d = .error faults ∧
        StablySorted (·.span.start) (wrongs w d source) faults ∧ ∀ f ∈ faults, f.span.Within source := by
  intro source w d
  refine ⟨by decide +kernel, ?_⟩
  cases failed : parse source w d with
  | ok settings =>
    have refused : (parse source w d).isOk = false := by decide +kernel
    rw [failed] at refused
    cases refused
  | error faults =>
    obtain ⟨-, order, -, within, -⟩ := faults_complete failed
    exact ⟨faults, rfl, order, within⟩

end Settings
end RomLinker
