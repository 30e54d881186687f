import RomLinker.Proofs.Settings.Exact
import RomLinker.Proofs.Settings.Rejections

/-!
What a refused list reports of its items. Of each line it reports the first item that is rejected, and no
other (`item_faults_reported`); what it says of a number of bytes is said of the directives that the file
has, or of none (`byte_count_reported`).
-/
namespace RomLinker.Settings
open Listing

variable {w : Workspace} {d : Disk} {earlier : List Placed} {section? : Option ContextKind}
  {statements : List Statement}

def reported (source : String) (w : Workspace) (d : Disk) : List Flagged :=
  match parse source w d with
  | .ok _ => []
  | .error faults => faults

def rejectionsByLine (w : Workspace) (d : Disk) (section? : Option ContextKind) (earlier : List Placed) :
    List Statement → List (List Flagged)
  | [] => []
  | s :: rest =>
    rejections w d earlier (placedIn section? s) ::
      rejectionsByLine w d (s.header?.or section?) ((placedIn section? s).reverse ++ earlier) rest

theorem ofItem_of_mem_rejections {items : List Placed} {f : Flagged}
    (member : f ∈ rejections w d earlier items) : f.fault.ofItem = true := by
  induction items generalizing earlier with
  | nil => cases member
  | cons p rest ih =>
    rcases List.mem_append.mp member with here | later
    · obtain ⟨fault, rejected, rfl⟩ := Option.map_eq_some_iff.mp (Option.mem_toList.mp here)
      exact ofItem_of_rejection? rejected
    · exact ih later

namespace Draft
variable {draft : Draft} {s : Statement}

theorem apply_bare (bare : s.line? = none ∨ draft.heading? = none) :
    (draft.apply w d s).1.toList.filter (·.fault.ofItem) = [] ∧
      (draft.apply w d s).2.heading? = s.header?.or draft.heading? ∧
      (draft.apply w d s).2.contexts = draft.contexts ∧
      (draft.apply w d s).2.resources = draft.resources := by
  cases s with
  | header kind span => exact ⟨rfl, rfl, rfl, rfl⟩
  | slot slot slotSpan items span =>
    have heading : draft.heading? = none := bare.resolve_left (Option.some_ne_none _)
    have refused : draft.apply w d (.slot slot slotSpan items span) = (some ⟨.noContext, slotSpan⟩, draft) := by
      simp only [apply, heading]
    rw [refused]
    exact ⟨rfl, rfl, rfl, rfl⟩
  | _ =>
    simp only [apply]
    split <;> exact ⟨rfl, rfl, rfl, rfl⟩

theorem placedIn_bare (bare : s.line? = none ∨ section? = none) : placedIn section? s = [] := by
  rcases bare with bare | rfl
  · exact placedIn_of_bare bare
  · rfl

theorem Tracks.apply (tracks : draft.Tracks w d earlier) (s : Statement) :
    let line := placedIn draft.heading? s
    (draft.apply w d s).1.toList.filter (·.fault.ofItem) = (rejections w d earlier line).head?.toList ∧
      (draft.apply w d s).2.heading? = s.header?.or draft.heading? ∧
      Draft.Tracks w d (line.reverse ++ earlier) (draft.apply w d s).2 := by
  intro line
  by_cases bare : s.line? = none ∨ draft.heading? = none
  · obtain ⟨none, heading, contexts, resources⟩ := apply_bare (w := w) (d := d) bare
    have nothing : line = [] := placedIn_bare bare
    rw [nothing]
    exact ⟨none, heading, resources ▸ tracks.brings, contexts ▸ tracks.fills⟩
  · cases s with
    | slot slot slotSpan items span =>
      cases section? : draft.heading? with
      | none => exact absurd (Or.inr section?) bare
      | some kind =>
        obtain ⟨contexts, resources, run, tracks⟩ := tracks.assignAll kind slot items
        have placed : line = items.map (⟨kind, slot, ·⟩) := by
          change placedIn draft.heading? _ = _
          rw [section?]
          rfl
        have applied : draft.apply w d (.slot slot slotSpan items span) =
            draft.assignAll w d kind slot items := by
          simp only [Draft.apply, section?]
        rw [applied, run, placed]
        refine ⟨?_, section?, tracks⟩
        cases first : (rejections w d earlier (items.map (⟨kind, slot, ·⟩))).head? with
        | none => rfl
        | some f =>
          have item := ofItem_of_mem_rejections (List.mem_of_head? first)
          simp [item]
    | _ => exact absurd (Or.inl rfl) bare

/-- The faults of items that a run over statements notes: the first of each line. -/
theorem Tracks.applyAll (tracks : draft.Tracks w d earlier) (statements : List Statement) :
    (draft.applyAll w d statements).1.filter (·.fault.ofItem) =
      (rejectionsByLine w d draft.heading? earlier statements).filterMap List.head? := by
  induction statements generalizing draft earlier with
  | nil => rfl
  | cons s rest ih =>
    obtain ⟨here, heading, tracks⟩ := tracks.apply s
    have later := ih tracks
    rw [heading] at later
    rw [Draft.applyAll, rejectionsByLine]
    dsimp only
    rw [List.filter_append, here, later, List.filterMap_cons]
    cases (rejections w d earlier (placedIn draft.heading? s)).head? <;> rfl

end Draft

theorem ofItem_of_mem_missing {settings : Settings} {fault : Fault} (absent : fault ∈ settings.missing) :
    fault.ofItem = false := by
  unfold missing at absent
  rcases List.mem_append.mp absent with file | freeram
  · obtain ⟨role, -, rfl⟩ := List.mem_map.mp file
    rfl
  · split at freeram
    · cases freeram
    · rw [List.mem_singleton.mp freeram]
      rfl

theorem filter_reported (source : String) (w : Workspace) (d : Disk) :
    ((reported source w d).filter (·.fault.ofItem)).Perm
      ((rejectionsByLine w d none [] (Listing.parse source).statements).filterMap List.head?) := by
  have run := Draft.tracks_empty.applyAll (w := w) (d := d) (Listing.parse source).statements
  rcases step : Draft.applyAll w d {} (Listing.parse source).statements with ⟨rejected, draft⟩
  rw [step] at run
  rw [← show rejected.filter (·.fault.ofItem) = _ from run]
  let faults : List Flagged := (Listing.parse source).faults.map (fun f => ⟨.malformed f.fault, f.span⟩) ++
    rejected ++ draft.missing.map fun fault => ⟨fault, .point source.utf8ByteSize⟩
  have malformed : ((Listing.parse source).faults.map fun f : Listing.Flagged Listing.Fault =>
      (⟨.malformed f.fault, f.span⟩ : Flagged)).filter (·.fault.ofItem) = [] := by
    rw [List.filter_eq_nil_iff]
    intro f member
    obtain ⟨g, -, rfl⟩ := List.mem_map.mp member
    exact Bool.false_ne_true
  have missing : (draft.missing.map fun fault => (⟨fault, .point source.utf8ByteSize⟩ : Flagged)).filter
      (·.fault.ofItem) = [] := by
    rw [List.filter_eq_nil_iff]
    intro f member
    obtain ⟨fault, absent, rfl⟩ := List.mem_map.mp member
    simp [ofItem_of_mem_missing absent]
  have whole : faults.filter (·.fault.ofItem) = rejected.filter (·.fault.ofItem) := by
    rw [List.filter_append, List.filter_append, malformed, missing, List.nil_append, List.append_nil]
  have sorted : reported source w d = faults.mergeSort fun a b => a.span.start ≤ b.span.start := by
    unfold reported parse
    simp only [step]
    by_cases clean : faults = []
    · rw [if_pos (List.isEmpty_iff.mpr clean), clean, List.mergeSort_nil]
    · rw [if_neg fun none => clean (List.isEmpty_iff.mp none)]
  rw [sorted, ← whole]
  exact (List.mergeSort_perm _ _).filter _

theorem rejections_append (earlier items others : List Placed) :
    rejections w d earlier (items ++ others) =
      rejections w d earlier items ++ rejections w d (items.reverse ++ earlier) others := by
  induction items generalizing earlier with
  | nil => rfl
  | cons p items ih =>
    rw [List.cons_append, rejections, rejections, ih, List.append_assoc, List.reverse_cons,
      List.append_assoc, List.singleton_append]

theorem flatten_rejectionsByLine (earlier : List Placed) (statements : List Statement) :
    (rejectionsByLine w d section? earlier statements).flatten =
      rejections w d earlier (placedFrom section? statements) := by
  induction statements generalizing section? earlier with
  | nil => rfl
  | cons s rest ih => rw [rejectionsByLine, List.flatten_cons, ih, placedFrom, rejections_append]

theorem exists_of_mem_rejections {items : List Placed} {f : Flagged}
    (member : f ∈ rejections w d earlier items) :
    ∃ before p after, items = before ++ p :: after ∧ f.span = p.item.span ∧
      rejection? w d (before.reverse ++ earlier) p = some f.fault := by
  induction items generalizing earlier with
  | nil => cases member
  | cons p rest ih =>
    rcases List.mem_append.mp member with here | later
    · obtain ⟨fault, rejected, rfl⟩ := Option.map_eq_some_iff.mp (Option.mem_toList.mp here)
      exact ⟨[], p, rest, rfl, rfl, rejected⟩
    · obtain ⟨before, q, after, rfl, span, rejected⟩ := ih later
      refine ⟨p :: before, q, after, rfl, span, ?_⟩
      rw [List.reverse_cons, List.append_assoc, List.singleton_append]
      exact rejected

/-! ### One report for each line -/

section Heads
variable {α : Type} {lines : List (List α)}

theorem filterMap_head?_of_short (short : ∀ line ∈ lines, line.length ≤ 1) :
    lines.filterMap List.head? = lines.flatten := by
  induction lines with
  | nil => rfl
  | cons line lines ih =>
    rw [List.filterMap_cons, List.flatten_cons, ih fun other member => short other (List.mem_cons_of_mem _ member)]
    match line, short line List.mem_cons_self with
    | [], _ => rfl
    | [x], _ => rfl

theorem length_filterMap_head?_le (lines : List (List α)) :
    (lines.filterMap List.head?).length ≤ lines.flatten.length := by
  induction lines with
  | nil => exact Nat.le_refl 0
  | cons line lines ih =>
    cases line with
    | nil => exact ih
    | cons x line =>
      simp only [List.filterMap_cons, List.head?_cons, List.length_cons, List.flatten_cons, List.length_append]
      omega

theorem short_of_length_eq (same : (lines.filterMap List.head?).length = lines.flatten.length) :
    ∀ line ∈ lines, line.length ≤ 1 := by
  induction lines with
  | nil => exact fun line member => absurd member List.not_mem_nil
  | cons line lines ih =>
    have bound := length_filterMap_head?_le lines
    cases line with
    | nil =>
      have rest := ih same
      exact fun other member => (List.mem_cons.mp member).elim (fun here => here ▸ Nat.zero_le 1) (rest other)
    | cons x line =>
      simp only [List.filterMap_cons, List.head?_cons, List.length_cons, List.flatten_cons,
        List.length_append] at same
      have rest := ih (by omega)
      have alone : (x :: line).length ≤ 1 := by
        rw [List.length_cons]
        omega
      exact fun other member => (List.mem_cons.mp member).elim (fun here => here ▸ alone) (rest other)

end Heads

/-- The draft that some items leave, each taken whatever became of those in front of it. -/
def Draft.taking (w : Workspace) (d : Disk) (items : List Placed) : Draft :=
  items.foldl (fun draft q => (draft.assign w d q.kind q.slot q.item).2) {}

theorem Draft.tracks_taking (items : List Placed) :
    (Draft.taking w d items).Tracks w d items.reverse := by
  induction items using List.reverseRecOn with
  | nil => exact Draft.tracks_empty
  | append_singleton items p ih =>
    obtain ⟨contexts, resources, step, tracks⟩ := ih.assign p
    rw [Draft.taking, List.foldl_append, List.foldl_cons, List.foldl_nil, List.reverse_concat]
    change Draft.Tracks w d _ ((Draft.taking w d items).assign w d p.kind p.slot p.item).2
    rw [step]
    exact tracks

/-- Whether a step rejects an item, and why, goes by the items in front of it alone. Of each line a report
has the first rejection, with the span of the item, and of items it has nothing else; so nothing is lost
exactly where no line has two items that are rejected. -/
theorem item_faults_reported (source : String) (w : Workspace) (d : Disk) :
    let list := (Listing.parse source).statements
    let lines := rejectionsByLine w d none [] list
    let told := (reported source w d).filter (·.fault.ofItem)
    (∀ before p, ((Draft.taking w d before).assign w d p.kind p.slot p.item).1 =
      answer (rejection? w d before.reverse p)) ∧
    lines.flatten = rejections w d [] (placed list) ∧
    told.Perm (lines.filterMap List.head?) ∧
    (told.Perm lines.flatten ↔ ∀ line ∈ lines, line.length ≤ 1) := by
  intro list lines told
  have first : told.Perm (lines.filterMap List.head?) := filter_reported source w d
  refine ⟨fun before p => ?_, flatten_rejectionsByLine [] list, first, fun all => ?_, fun short => ?_⟩
  · obtain ⟨contexts, resources, step, -⟩ := (Draft.tracks_taking before).assign p
    rw [step]
  · exact short_of_length_eq (first.symm.trans all).length_eq
  · rw [← filterMap_head?_of_short short]
    exact first

/-- The second one of two files that are not there is rejected, and no report has its place. -/
theorem second_rejection_absorbed :
    let source := "global: g\nstatusbar: s\nmacrolib: m\nfreeram: $7F0000\nlevel:\n5 x.asm y.asm\n"
    let w : Workspace := ⟨⟨""⟩, []⟩
    let d : Disk := Disk.empty
    let first : Placed := ⟨.level, .index 5, ⟨"x.asm", [], ⟨61, 66⟩⟩⟩
    let second : Placed := ⟨.level, .index 5, ⟨"y.asm", [], ⟨67, 72⟩⟩⟩
    placed (Listing.parse source).statements = [first, second] ∧
      ((Draft.taking w d [first]).assign w d second.kind second.slot second.item).1.isOk = false ∧
      ∀ f ∈ reported source w d, f.span ≠ second.item.span := by
  refine ⟨?_, ?_, ?_⟩ <;> decide +kernel

theorem miscounted_of_rejection? {p : Placed} {given expected : Nat}
    (rejected : rejection? w d earlier p = some (.wrongByteCount given expected)) :
    unusable? w d earlier p = none ∧ given = p.item.bytes.length ∧ p.item.bytes ≠ [] ∧
      given ≠ expected ∧ expected = bytesAsked w d p.name := by
  rcases rejection?_cases rejected with (same | ⟨e, same⟩) | ⟨usable, some, wrong, same⟩ | ⟨reason, same⟩
  · cases same
  · cases same
  · cases same
    exact ⟨usable, rfl, some, wrong, rfl⟩
  · cases same

/-- Behind a file that was found and cannot be used there is an item that was rejected for that. -/
theorem exists_unusable {name : Path} {e : LinkError} (found : name ∈ foundNames w d earlier)
    (unread : directivesAt w d name = .error e) :
    ∃ back q front, earlier = back ++ q :: front ∧ q.name = name ∧
      rejection? w d front q = some (.unusable e) := by
  induction earlier with
  | nil => cases found
  | cons q earlier ih =>
    by_cases old : name ∈ foundNames w d earlier
    · obtain ⟨back, q', front, rfl, same, rejected⟩ := ih old
      exact ⟨q :: back, q', front, rfl, same, rejected⟩
    · rw [foundNames_cons] at found
      have new := (List.mem_append.mp found).resolve_left old
      split at new
      · rename_i isFile
        obtain rfl := List.mem_singleton.mp new
        refine ⟨[], q, earlier, rfl, rfl, ?_⟩
        simp [rejection?, flaw?, unusable?, old, isFile, unread]
      · cases new

/-- A report of a wrong number of bytes is about an item with bytes, as many as it says, and their number is
not the other one. That is the number that the directives of the item's file ask for; or else the file has no
directives that can be read, an item in front of it was rejected for that, and the number is 0. -/
theorem byte_count_reported {source : String} {w : Workspace} {d : Disk} {f : Flagged} {given expected : Nat}
    (member : f ∈ reported source w d) (count : f.fault = .wrongByteCount given expected) :
    ∃ before p after, placed (Listing.parse source).statements = before ++ p :: after ∧
      f.span = p.item.span ∧ given = p.item.bytes.length ∧ given ≠ 0 ∧ given ≠ expected ∧
      ((∃ directives, directivesAt w d p.name = .ok directives ∧
          expected = directives.extraBytes.toNat) ∨
        ∃ e front q back, directivesAt w d p.name = .error e ∧ expected = 0 ∧
          before = front ++ q :: back ∧ q.name = p.name ∧
          rejection? w d front.reverse q = some (.unusable e)) := by
  have item : f.fault.ofItem = true := by
    rw [count]
    rfl
  have told := (filter_reported source w d).mem_iff.mp (List.mem_filter.mpr ⟨member, item⟩)
  obtain ⟨line, there, first⟩ := List.mem_filterMap.mp told
  have rejected := List.mem_flatten_of_mem there (List.mem_of_head? first)
  rw [flatten_rejectionsByLine] at rejected
  obtain ⟨before, p, after, split, span, rejected⟩ := exists_of_mem_rejections rejected
  rw [count, List.append_nil] at rejected
  obtain ⟨usable, rfl, some, wrong, rfl⟩ := miscounted_of_rejection? rejected
  refine ⟨before, p, after, split, span, rfl, fun none => some (List.length_eq_zero_iff.mp none), wrong, ?_⟩
  rw [bytesAsked, directivesOf?_eq]
  cases read : directivesAt w d p.name with
  | ok directives => exact Or.inl ⟨directives, rfl, rfl⟩
  | error e =>
    have known : p.name ∈ foundNames w d before.reverse := by
      by_contra new
      rw [unusable?, if_neg new, read] at usable
      split at usable <;> cases usable
    obtain ⟨back, q, front, reversed, same, cause⟩ := exists_unusable known read
    refine Or.inr ⟨e, front.reverse, q, back.reverse, rfl, rfl, ?_, same, ?_⟩
    · rw [← List.reverse_reverse before, reversed]
      simp
    · rw [List.reverse_reverse]
      exact cause

/-- Of a file that asks for two bytes, and is given one. -/
theorem byte_count_reported_two :
    let source := "global: g\nstatusbar: s\nmacrolib: m\nfreeram: $7F0000\nlevel:\n5 a.asm 7\n"
    let w : Workspace := ⟨⟨""⟩, []⟩
    let d : Disk := Disk.empty.insert (Location.root.child "level") .directory
      |>.insert ((Location.root.child "level").child "a.asm") (.file ";>bytes 2\n".toUTF8)
    ∃ f before p after directives, f ∈ reported source w d ∧ f.fault = .wrongByteCount 1 2 ∧
      placed (Listing.parse source).statements = before ++ p :: after ∧ f.span = p.item.span ∧
      directivesAt w d p.name = .ok directives ∧ 2 = directives.extraBytes.toNat := by
  intro source w d
  have there : ((reported source w d).any fun f =>
      match f.fault with
      | .wrongByteCount 1 2 => true
      | _ => false) = true := by decide +kernel
  obtain ⟨f, member, same⟩ := List.any_eq_true.mp there
  split at same
  · rename_i count
    obtain ⟨before, p, after, split, span, -, -, -, ⟨directives, read, asked⟩ | ⟨_, _, _, _, -, none, -⟩⟩ :=
      byte_count_reported member count
    · exact ⟨f, before, p, after, directives, member, count, split, span, read, asked⟩
    · cases none
  · cases same

/-- A file whose directives cannot be read is said to use no byte, although it asks for the one that it is
given. -/
theorem byte_count_of_unread_file :
    let source := "global: g\nstatusbar: s\nmacrolib: m\nfreeram: $7F0000\nlevel:\n0 a.asm 7\n1 a.asm 7\n"
    let w : Workspace := ⟨⟨""⟩, []⟩
    let d : Disk := Disk.empty.insert (Location.root.child "level") .directory
      |>.insert ((Location.root.child "level").child "a.asm") (.file ";>bytes 1\n;>sa1 nope\n".toUTF8)
    let item : Placed := ⟨.level, .index 1, ⟨"a.asm", [7], ⟨71, 78⟩⟩⟩
    item ∈ placed (Listing.parse source).statements ∧ (directivesAt w d item.name).isOk = false ∧
      ∃ f ∈ reported source w d, f.span = item.item.span ∧ f.fault = .wrongByteCount 1 0 := by
  intro source w d item
  refine ⟨by decide +kernel, by decide +kernel, ?_⟩
  have there : (((rejectionsByLine w d none [] (Listing.parse source).statements).filterMap List.head?).any
      fun f => match f.fault with
      | .wrongByteCount 1 0 => decide (f.span = item.item.span)
      | _ => false) = true := by decide +kernel
  obtain ⟨f, member, same⟩ := List.any_eq_true.mp there
  split at same
  · rename_i count
    have told := (filter_reported source w d).mem_iff.mpr member
    exact ⟨f, (List.mem_filter.mp told).1, of_decide_eq_true same, count⟩
  · cases same

end RomLinker.Settings
