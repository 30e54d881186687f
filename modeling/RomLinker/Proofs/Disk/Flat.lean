import Mathlib.Data.List.Basic
import RomLinker.Proofs.ByteOrder
import RomLinker.Proofs.Disk.Trees
import RomLinker.Proofs.Extmod

/-!
The files directly in a directory of the tool. Their listing has each of them once, by its path from the
tool directory, in the order of the bytes of their names (`filesUnder_flat`). How the path of the tool
directory itself is written does not show in it (`Path.below?_join`).
-/
namespace RomLinker

namespace Path
variable {root q : Path} {names : List String}

theorem relative_joinSegments (named : ∀ name ∈ names, Named name) :
    (Path.mk (joinSegments names)).isAbsolute = false := by
  cases names with
  | nil => rfl
  | cons first rest =>
    have plain : ∀ name ∈ first :: rest, Plain name := fun name member => (named name member).plain
    have segments := segments_joinSegments plain (List.cons_ne_nil first rest)
    rw [Bool.eq_false_iff]
    intro absolute
    obtain ⟨s, more, split⟩ := isAbsolute_iff.mp absolute
    rw [segments] at split
    exact ne_empty_of_step (named first List.mem_cons_self).steps.1 (List.cons.inj split).1

theorem leadAndBody_join (filled : root.text ≠ "") (relative : q.isAbsolute = false) :
    ∃ lead body blank, root.leadAndBody = (lead, body ++ blank) ∧
      blank.filterMap componentOfSegment = [] ∧ (root.join q).leadAndBody = (lead, body ++ q.segments) := by
  obtain ⟨base, ends, joined⟩ := segments_join root
  obtain ⟨whole, start⟩ := joined q relative
  obtain ⟨first, rest, rfl⟩ : ∃ first rest, base = first :: rest := by
    refine List.exists_cons_of_ne_nil fun none => filled ?_
    rw [← joinSegments_segments root]
    rcases ends with same | same
    · rw [same, none]
      rfl
    · rw [same, none]
      rfl
  obtain ⟨blank, same, nothing⟩ : ∃ blank, root.segments = first :: (rest ++ blank) ∧
      blank.filterMap componentOfSegment = [] := by
    rcases ends with same | same
    · exact ⟨[], by rw [same, List.append_nil], rfl⟩
    · exact ⟨[""], same, rfl⟩
  unfold leadAndBody
  rw [same, whole, start]
  dsimp only [List.cons_append]
  split
  · exact ⟨[first], rest, blank, rfl, nothing, rfl⟩
  · exact ⟨[], first :: rest, blank, rfl, nothing, rfl⟩

theorem components_of_blank {lead body blank : List String} (parts : root.leadAndBody = (lead, body ++ blank))
    (nothing : blank.filterMap componentOfSegment = []) : root.components =
      lead.map (fun s => if s == "." then .here else .root) ++ body.filterMap componentOfSegment := by
  unfold components
  rw [parts]
  dsimp only
  rw [List.filterMap_append, nothing, List.append_nil]

theorem components_join (filled : root.text ≠ "") (relative : q.isAbsolute = false) :
    (root.join q).components = root.components ++ q.segments.filterMap componentOfSegment := by
  obtain ⟨lead, body, blank, here, nothing, there⟩ := leadAndBody_join filled relative
  rw [components_of_blank here nothing]
  unfold components
  rw [there]
  dsimp only
  rw [List.filterMap_append, List.append_assoc]

theorem exists_component {segment : String} (solid : isVoid segment = false) :
    ∃ step, componentOfSegment segment = some step := by
  unfold componentOfSegment
  rw [solid]
  split
  · contradiction
  · split
    · exact ⟨_, rfl⟩
    · exact ⟨_, rfl⟩

theorem components_ne_nil (filled : root.text ≠ "") : root.components ≠ [] := by
  cases split : root.segments with
  | nil => exact absurd split (by simp [segments, Text.pieces_ne_nil])
  | cons first rest =>
    unfold components leadAndBody
    rw [split]
    dsimp only
    split
    · exact List.cons_ne_nil _ _
    · rename_i other
      rw [Bool.or_eq_true, not_or] at other
      obtain ⟨relative, dot⟩ := other
      have here : first ≠ "" := by
        rintro rfl
        cases rest with
        | nil => exact filled (by rw [← joinSegments_segments root, split]; rfl)
        | cons s rest => exact relative (isAbsolute_iff.mpr ⟨s, rest, split⟩)
      have solid : isVoid first = false := by
        simp only [isVoid, Bool.or_eq_false_iff, beq_eq_false_iff_ne]
        exact ⟨here, fun same => dot (beq_iff_eq.mpr same)⟩
      obtain ⟨step, leads⟩ := exists_component solid
      rw [List.map_nil, List.nil_append, List.filterMap_cons_some leads]
      exact List.cons_ne_nil _ _

/-- Segments are dropped for as many steps as they are, and up to the next step. -/
theorem dropWhile_dropSteps (front rest : List String) :
    (dropSteps (front.filterMap componentOfSegment).length (front ++ rest)).dropWhile isVoid =
      rest.dropWhile isVoid := by
  induction front with
  | nil =>
    rw [List.filterMap_nil, List.length_nil, dropSteps]
    rfl
  | cons s front ih =>
    rw [List.cons_append]
    cases void : isVoid s with
    | true =>
      have nowhere : componentOfSegment s = none := by
        unfold componentOfSegment
        rw [void]
        rfl
      rw [List.filterMap_cons_none nowhere]
      generalize (front.filterMap componentOfSegment).length = n at ih
      cases n with
      | zero =>
        rw [dropSteps] at ih ⊢
        exact (List.dropWhile_cons_of_pos void).trans ih
      | succ n =>
        rw [dropSteps, if_pos void]
        exact ih
    | false =>
      obtain ⟨step, leads⟩ := exists_component void
      rw [List.filterMap_cons_some leads, List.length_cons, dropSteps, void, if_neg Bool.false_ne_true]
      exact ih

theorem dropVoidEnd_concat {front : List String} {last : String} (solid : isVoid last = false) :
    dropVoidEnd (front ++ [last]) = front ++ [last] := by
  have turned : (front ++ [last]).reverse = last :: front.reverse := by simp
  unfold dropVoidEnd
  rw [turned, List.dropWhile_cons_of_neg (by simp [solid]), ← turned, List.reverse_reverse]

theorem dropWhile_concat {front : List String} {last : String} (solid : isVoid last = false) :
    ∃ behind, (front ++ [last]).dropWhile isVoid = behind ++ [last] := by
  induction front with
  | nil => exact ⟨[], List.dropWhile_cons_of_neg (by simp [solid])⟩
  | cons s front ih =>
    cases void : isVoid s with
    | true =>
      rw [List.cons_append, List.dropWhile_cons_of_pos void]
      exact ih
    | false => exact ⟨s :: front, List.dropWhile_cons_of_neg (by simp [void])⟩

section Below
variable {front : List String} {last : String}

theorem below?_blank (relative : q.isAbsolute = false) (ends : q.segments = front ++ [last])
    (named : Named last) : q.below? ⟨""⟩ = some q := by
  obtain ⟨behind, body⟩ : ∃ behind, q.leadAndBody.2 = behind ++ [last] := by
    unfold leadAndBody
    rw [ends]
    cases front with
    | nil =>
      have solid := named.steps.1
      unfold isVoid at solid
      rw [Bool.or_eq_false_iff] at solid
      exact ⟨[], by simp [relative, solid.2]⟩
    | cons first front =>
      dsimp only [List.cons_append]
      split
      · exact ⟨front, rfl⟩
      · exact ⟨first :: front, rfl⟩
  have none : (Path.mk "").components = [] := rfl
  have whole := leadAndBody_append q
  unfold below?
  rw [none]
  dsimp only [List.isPrefixOf, List.length_nil]
  unfold withBody
  rw [relative, body, dropVoidEnd_concat named.steps.1, ← body, whole, joinSegments_segments]
  rfl

/-- A relative path that ends in a name, seen from the directory that it is joined to, is itself without the
segments at its front that lead nowhere. -/
theorem below?_join_of_filled (filled : root.text ≠ "") (relative : q.isAbsolute = false)
    (ends : q.segments = front ++ [last]) (named : Named last) :
    (root.join q).below? root = some ⟨joinSegments (q.segments.dropWhile isVoid)⟩ := by
  obtain ⟨lead, body, blanks, here, nothing, there⟩ := leadAndBody_join filled relative
  have start := components_of_blank here nothing
  have begins : root.components.isPrefixOf (root.join q).components = true := by
    rw [components_join filled relative]
    exact List.isPrefixOf_iff_prefix.mpr (List.prefix_append _ _)
  obtain ⟨n, size⟩ : ∃ n, root.components.length = n + 1 :=
    Nat.exists_eq_add_one_of_ne_zero fun zero =>
      components_ne_nil filled (List.eq_nil_of_length_eq_zero zero)
  -- The steps of the directory are those of its lead and of the body in front of the path.
  have left : (dropSteps (n + 1 - lead.length) (body ++ q.segments)).dropWhile isVoid =
      q.segments.dropWhile isVoid := by
    rw [← size, start, List.length_append, List.length_map, Nat.add_sub_cancel_left]
    exact dropWhile_dropSteps body q.segments
  obtain ⟨behind, kept⟩ : ∃ behind, (front ++ [last]).dropWhile isVoid = behind ++ [last] :=
    dropWhile_concat named.steps.1
  unfold below?
  rw [there, begins, size]
  change some (Path.mk (joinSegments (dropVoidEnd
    ((dropSteps (n + 1 - lead.length) (body ++ q.segments)).dropWhile isVoid)))) = _
  rw [left, ends, kept, dropVoidEnd_concat named.steps.1]

end Below

theorem below?_join (named : ∀ name ∈ names, Named name) (filled : names ≠ []) :
    (root.join ⟨joinSegments names⟩).below? root = some ⟨joinSegments names⟩ := by
  obtain ⟨front, last, split⟩ : ∃ front last, names = front ++ [last] :=
    ⟨_, _, (List.dropLast_append_getLast filled).symm⟩
  have segments : (Path.mk (joinSegments names)).segments = names :=
    segments_joinSegments (fun name member => (named name member).plain) filled
  have relative := relative_joinSegments named
  have ends := named last (split ▸ List.mem_append_right _ List.mem_cons_self)
  by_cases blank : root.text = ""
  · have same : root.join ⟨joinSegments names⟩ = ⟨joinSegments names⟩ := by simp [join, blank]
    rw [same, show root = ⟨""⟩ from congrArg Path.mk blank]
    exact below?_blank relative (segments.trans split) ends
  · rw [below?_join_of_filled blank relative (segments.trans split) ends, segments]
    obtain ⟨first, rest, begins⟩ := List.exists_cons_of_ne_nil filled
    have solid := (named first (begins ▸ List.mem_cons_self)).steps.1
    rw [begins, List.dropWhile_cons_of_neg (by simp [solid])]

theorem join_join {p r : Path} (relative : q.isAbsolute = false) (relative' : r.isAbsolute = false) :
    (p.join q).join r = p.join (q.join r) := by
  by_cases blank : q.text = ""
  · have same : q.join r = r := by simp [join, blank]
    have none : q = ⟨""⟩ := congrArg Path.mk blank
    have void : (Path.mk "").isAbsolute = false := rfl
    rw [same, none]
    by_cases empty : p.text = ""
    · simp [join, empty]
    · by_cases slash : p.text.toList.getLast? = some '/'
      · simp [join, relative', empty, slash, void]
      · simp [join, relative', empty, slash, void]
  · obtain ⟨front, text⟩ := text_join p
    have whole : (p.join q).text = front ++ q.text := text q relative
    have joined : (q.join r).isAbsolute = false := by
      obtain ⟨base, -, behind⟩ := segments_join q
      exact (behind r relative').2.trans relative
    have same : ((p.join q).join r).text = (p.join (q.join r)).text := by
      rw [text (q.join r) joined]
      generalize p.join q = start at whole
      by_cases slash : q.text.toList.getLast? = some '/'
      · simp [join, relative', blank, slash, whole, String.append_assoc]
      · simp [join, relative', blank, slash, whole, String.append_assoc]
    exact congrArg Path.mk same

theorem named_pair {dir name : String} (named : Named dir) (named' : Named name) :
    ∀ s ∈ [dir, name], Named s :=
  List.forall_mem_cons.mpr ⟨named, List.forall_mem_singleton.mpr named'⟩

theorem join_child {dir name : String} (named : Named dir) (named' : Named name) :
    (root.join ⟨dir⟩).join ⟨name⟩ = root.join ⟨joinSegments [dir, name]⟩ := by
  have bare : dir.toList.getLast? ≠ some '/' := fun slash => named.plain (List.mem_of_getLast? slash)
  rw [join_join named.relative named'.relative, join_name (ne_empty_of_step named.steps.1) bare named'.relative]
  rfl

end Path

/-! ### Entries of a directory -/

namespace Location
variable {l m : Location} {name : String}

theorem isPrefixOf?_append (xs rest : List String) : xs.isPrefixOf? (xs ++ rest) = some rest := by
  induction xs with
  | nil => rfl
  | cons x xs ih =>
    have step : (x :: xs).isPrefixOf? (x :: xs ++ rest) =
        if x == x then xs.isPrefixOf? (xs ++ rest) else none := rfl
    rw [step, if_pos (beq_self_eq_true x), ih]

theorem wayTo?_eq_some {way : Way} : l.wayTo? m = some way ↔ m.way = l.way ++ way := by
  constructor
  · exact eq_append_of_isPrefixOf?
  · intro split
    rw [wayTo?, split]
    exact isPrefixOf?_append _ _

theorem way_child : (l.child name).way = l.way ++ [name] := List.reverse_cons

theorem way_down (way : Way) : (l.down way).way = l.way ++ way := by
  induction way generalizing l with
  | nil => exact (List.append_nil l.way).symm
  | cons name way ih =>
    have step : l.down (name :: way) = (l.child name).down way := rfl
    rw [step, ih, way_child, List.append_assoc]
    rfl

theorem way_inj (same : l.way = m.way) : l = m := ext (List.reverse_inj.mp same)

end Location

theorem Way.pairwise_sort (ways : List Way) : (sort ways).Pairwise fun a b => (compare a b).isLE = true := by
  have trans (a b c : Way) (first : (compare a b).isLE = true) (second : (compare b c).isLE = true) :
      (compare a c).isLE = true := Std.TransCmp.isLE_trans first second
  have total (a b : Way) : ((compare a b).isLE || (compare b a).isLE) = true := by
    have turned : compare b a = (compare a b).swap := Std.OrientedCmp.eq_swap
    rw [turned]
    cases compare a b <;> rfl
  exact List.pairwise_mergeSort trans total _

theorem Way.bytes_lt {a b : Way} (before : compare a b = .lt) : a.map Text.bytes < b.map Text.bytes := by
  induction a generalizing b with
  | nil =>
    cases b with
    | nil => cases before
    | cons name b => exact List.nil_lt_cons _ _
  | cons name a ih =>
    cases b with
    | nil => cases before
    | cons other b =>
      have parts : List.compareLex compare (name :: a) (other :: b) = .lt := before
      rw [List.compareLex_cons_cons] at parts
      rw [List.map_cons, List.map_cons, List.cons_lt_cons_iff]
      rcases Ordering.then_eq_lt.mp parts with less | ⟨same, less⟩
      · exact Or.inl (Text.bytes_lt (compareOfLessAndEq_eq_lt.mp less))
      · exact Or.inr ⟨congrArg Text.bytes (Std.LawfulEqCmp.eq_of_compare same), ih less⟩

theorem Way.ascending_sort {ways : List Way} (distinct : ways.Nodup) :
    (sort ways).Pairwise fun a b => a.map Text.bytes < b.map Text.bytes := by
  have kept : (sort ways).Nodup := (List.mergeSort_perm _ _).nodup_iff.mpr distinct
  refine ((pairwise_sort ways).and kept).imp fun {a b} both => ?_
  rcases Ordering.isLE_iff_eq_lt_or_eq_eq.mp both.1 with less | equal
  · exact bytes_lt less
  · exact absurd (Std.LawfulEqCmp.eq_of_compare equal) both.2

namespace Disk
variable {d : Disk} {l : Location} {way : Way}

/-- All names on a disk can stand in a path. A disk has no others. -/
def Proper (d : Disk) : Prop := ∀ l entry, d.lookup l = some entry → l.Proper

def HasFile (d : Disk) (dir : Path) (name : String) : Prop :=
  ∃ l content, d.directory dir = .ok l ∧ d.lookup (l.child name) = some (.file content)

theorem Proper.named {dir : Path} {name : String} (proper : d.Proper) (held : d.HasFile dir name) :
    Path.Named name := by
  obtain ⟨l, content, -, entry⟩ := held
  exact proper _ _ entry name List.mem_cons_self

theorem proper_empty : Disk.empty.Proper := by
  intro m entry there
  unfold lookup Disk.empty at there
  split at there
  · rename_i top
    exact top ▸ nofun
  · rw [Std.ExtTreeMap.getElem?_empty] at there
    cases there

theorem Proper.insert {entry : Entry} (proper : d.Proper) (below : l ≠ .root) (here : l.Proper) :
    (d.insert l entry).Proper := by
  intro m found there
  rw [lookup_insert below] at there
  split at there
  · rename_i same
    exact same ▸ here
  · exact proper m found there

theorem mem_entries {entry : Entry} (below : way ≠ []) :
    (l.down way, entry) ∈ d.entries.toList ↔ d.lookup (l.down way) = some entry := by
  have inner : l.down way ≠ .root := by
    intro top
    have root := Location.way_down (l := l) way
    rw [top] at root
    exact below (List.append_eq_nil_iff.mp root.symm).2
  unfold lookup
  rw [if_neg inner, Std.ExtTreeMap.mem_toList_iff_getElem?_eq_some]

theorem eq_down_of_wayTo? {m : Location} (leads : l.wayTo? m = some way) : m = l.down way := by
  refine Location.way_inj ?_
  rw [Location.wayTo?_eq_some.mp leads, Location.way_down]

theorem mem_filesBelow (below : way ≠ []) :
    way ∈ d.filesBelow l ↔ ∃ content, d.lookup (l.down way) = some (.file content) := by
  unfold filesBelow Way.sort
  rw [List.mem_mergeSort, List.mem_filterMap]
  constructor
  · rintro ⟨⟨m, content | _⟩, member, leads⟩
    · cases eq_down_of_wayTo? leads
      exact ⟨content, (mem_entries below).mp member⟩
    · cases leads
  · rintro ⟨content, entry⟩
    exact ⟨_, (mem_entries below).mpr entry, Location.wayTo?_eq_some.mpr (Location.way_down way)⟩

theorem nodup_of_entries {α : Type} {g : Location × Entry → Option α} (place : α → Location)
    (told : ∀ x a, g x = some a → x.1 = place a) : (d.entries.toList.filterMap g).Nodup := by
  refine List.pairwise_filterMap.mpr ?_
  refine (Std.ExtTreeMap.ordered_keys_toList (t := d.entries)).imp fun {x y} before a found b found' same => ?_
  subst same
  have self : Location.order y.1 y.1 = .eq := order_eq_eq.mpr rfl
  rw [told x a found, ← told y a found', self] at before
  cases before

/-- The ways to the files below a place ascend, and there are no two to one file. -/
theorem ascending_filesBelow (d : Disk) (l : Location) :
    (d.filesBelow l).Pairwise fun a b => a.map Text.bytes < b.map Text.bytes := by
  refine Way.ascending_sort (nodup_of_entries l.down ?_)
  rintro ⟨m, content | _⟩ way leads
  · exact eq_down_of_wayTo? leads
  · cases leads

theorem exists_names (d : Disk) (l : Location) : ∃ names : List String,
    names.Pairwise (fun a b => Text.bytes a < Text.bytes b) ∧
    (∀ name, name ∈ names ↔ ∃ content, d.lookup (l.child name) = some (.file content)) ∧
    (d.filesBelow l).filter (fun way => way.length == 1) = names.map fun name => [name] := by
  obtain ⟨names, split⟩ : ∃ names : List String,
      (d.filesBelow l).filter (fun way => way.length == 1) = names.map fun name => [name] := by
    generalize d.filesBelow l = ways
    induction ways with
    | nil => exact ⟨[], rfl⟩
    | cons way ways ih =>
      obtain ⟨names, split⟩ := ih
      rcases way with _ | ⟨name, _ | ⟨other, way⟩⟩
      · exact ⟨names, split⟩
      · exact ⟨name :: names, congrArg (List.cons [name]) split⟩
      · exact ⟨names, split⟩
  refine ⟨names, ?_, fun name => ?_, split⟩
  · have ascending := (d.ascending_filesBelow l).filter fun way => way.length == 1
    rw [split, List.pairwise_map] at ascending
    refine ascending.imp fun {a b} less => ?_
    rcases List.cons_lt_cons_iff.mp less with before | ⟨-, beyond⟩
    · exact before
    · cases beyond
  · have there := mem_filesBelow (d := d) (l := l) (List.cons_ne_nil name [])
    rw [show l.child name = l.down [name] from rfl, ← there]
    have single : [name] ∈ (d.filesBelow l).filter (fun way => way.length == 1) ↔ [name] ∈ d.filesBelow l := by
      simp
    rw [← single, split]
    simp

/-- The system lets the directory at a path be listed, if there is one. -/
def Lists (d : Disk) (p : Path) : Prop :=
  ∀ l, d.directory p = .ok l → d.obstacles.refused .listDirectory l = none

end Disk

namespace Workspace
variable {w : Workspace} {d : Disk} {dir : String}

theorem textFault?_of_directory {p : Path} {l : Location} (opened : d.directory p = .ok l) :
    Disk.textFault? p = none :=
  (Disk.follow_eq_ok (Disk.directory_eq_ok.mp opened).1).1

theorem unlistable?_flat {start : Path} {l : Location} (opened : d.directory start = .ok l) :
    unlistable? d start l (entered d l false) = (d.obstacles.refused .listDirectory l).map (.walk start) := by
  have fault : d.listingFault? (along start []) (l.down []) = d.obstacles.refused .listDirectory l := by
    show (Disk.textFault? start).or _ = _
    rw [textFault?_of_directory opened]
    rfl
  unfold unlistable? entered
  dsimp only
  rw [if_neg Bool.false_ne_true]
  cases refused : d.obstacles.refused .listDirectory l with
  | none => simp [fault, refused, Way.sort]
  | some e =>
    simp [fault, refused, Way.sort]
    rfl

/-- What lies directly in a directory of the tool is listed once, in the order of the bytes of its name, unless
the system refuses to list the directory. -/
theorem filesUnder_flat (proper : d.Proper) (named : Path.Named dir) : ∃ names : List String,
    names.Pairwise (fun a b => Text.bytes a < Text.bytes b) ∧
    (∀ name, name ∈ names ↔ d.HasFile (w.root.join ⟨dir⟩) name) ∧
    ∀ files, w.filesUnder d ⟨dir⟩ false = .ok files ↔
      d.Lists (w.root.join ⟨dir⟩) ∧ files = names.map fun name => ⟨Path.joinSegments [dir, name]⟩ := by
  unfold filesUnder Disk.Lists
  dsimp only
  cases found : d.directory (w.root.join ⟨dir⟩) with
  | error fault =>
    refine ⟨[], List.Pairwise.nil, fun name => ⟨nofun, ?_⟩, fun files => ?_⟩
    · rintro ⟨l, content, there, -⟩
      cases found.symm.trans there
    · simp [eq_comm]
  | ok l =>
    obtain ⟨names, ascending, members, ways⟩ := d.exists_names l
    have holds (name : String) : name ∈ names ↔ d.HasFile (w.root.join ⟨dir⟩) name := by
      rw [members]
      constructor
      · rintro ⟨content, entry⟩
        exact ⟨l, content, found, entry⟩
      · rintro ⟨m, content, there, entry⟩
        cases found.symm.trans there
        exact ⟨content, entry⟩
    have paths : ∀ name ∈ names, (along (w.root.join ⟨dir⟩) [name]).below? w.root =
        some ⟨Path.joinSegments [dir, name]⟩ := by
      intro name member
      have named' := proper.named ((holds name).mp member)
      have alone : along (w.root.join ⟨dir⟩) [name] = (w.root.join ⟨dir⟩).join ⟨name⟩ := rfl
      rw [alone, Path.join_child named named',
        Path.below?_join (Path.named_pair named named') (List.cons_ne_nil _ _)]
    refine ⟨names, ascending, holds, fun files => ?_⟩
    dsimp only
    rw [unlistable?_flat found]
    have listed : ((d.filesBelow l).filter fun way => way.length == 1).filterMap (fun way =>
        (along (w.root.join ⟨dir⟩) way).below? w.root) = names.map fun name => ⟨Path.joinSegments [dir, name]⟩ := by
      rw [ways, List.filterMap_map]
      exact List.filterMap_eq_map_iff_forall_eq_some.mpr paths
    cases refused : d.obstacles.refused .listDirectory l with
    | some fault => simp [refused]
    | none => simp [listed, refused, eq_comm]

end Workspace
end RomLinker
