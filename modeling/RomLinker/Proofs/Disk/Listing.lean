import RomLinker.Proofs.Disk.Normal
import RomLinker.Proofs.Disk.Walk

/-!
Listings of the directories of a tool. The files that a walk comes past are listed by their paths from the root of
the tool (`Path.exists_below?`), which are compared component by component, as the walk goes (`filesUnder_walk`).
Each directory is opened by its path, and the first one that cannot be listed ends the listing (`StopsAt`).
-/
namespace RomLinker

namespace Path
variable {root dir q : Path} {names : List String}

/-- What paths are compared by: their components, each by its bytes. -/
def key (p : Path) : List (List UInt8) := p.components.map fun c => Text.bytes c.text

theorem filterMap_named (named : ∀ name ∈ names, Named name) :
    names.filterMap componentOfSegment = names.map .name := by
  have texts : (names.map Component.name).map Component.text = names := by
    rw [List.map_map]
    exact List.map_id names
  have kept := filterMap_text (moves_names named)
  rw [texts] at kept
  exact kept

theorem filterMap_dropWhile (segments : List String) :
    (segments.dropWhile isVoid).filterMap componentOfSegment = segments.filterMap componentOfSegment := by
  induction segments with
  | nil => rfl
  | cons s segments ih =>
    cases void : isVoid s with
    | true =>
      have nowhere : componentOfSegment s = none := by simp [componentOfSegment, void]
      rw [List.dropWhile_cons_of_pos void, ih, List.filterMap_cons_none nowhere]
    | false => rw [List.dropWhile_cons_of_neg (by simp [void])]

/-- The steps of a relative path. A dot at its front is one of them. -/
def stepsOf (segments : List String) : List Component :=
  (if segments.head? = some "." then [.here] else []) ++ segments.filterMap componentOfSegment

theorem components_of_relative (relative : q.isAbsolute = false) : q.components = stepsOf q.segments := by
  cases split : q.segments with
  | nil =>
    unfold components leadAndBody
    rw [split]
    rfl
  | cons first rest =>
    by_cases dot : first = "."
    · have parts : q.leadAndBody = (["."], rest) := by simp [leadAndBody, split, dot]
      rw [components, parts, dot]
      rfl
    · have parts : q.leadAndBody = ([], first :: rest) := by simp [leadAndBody, split, dot, relative]
      rw [components, parts]
      simp [stepsOf, dot]

theorem Named.ne_dot {name : String} (named : Named name) : name ≠ "." := by
  rintro rfl
  cases named.step

theorem stepsOf_append (base : List String) (named : ∀ name ∈ names, Named name) :
    stepsOf (base ++ names) = stepsOf base ++ names.map .name := by
  have first : (base ++ names).head? = some "." ↔ base.head? = some "." := by
    cases base with
    | nil =>
      cases names with
      | nil => rfl
      | cons name names => simp [(named name List.mem_cons_self).ne_dot]
    | cons s base => rfl
  unfold stepsOf
  rw [List.filterMap_append, filterMap_named named, List.append_assoc]
  simp only [first]

theorem dropWhile_append_named (base : List String) (named : ∀ name ∈ names, Named name) :
    (base ++ names).dropWhile isVoid = base.dropWhile isVoid ++ names := by
  induction base with
  | nil =>
    cases names with
    | nil => rfl
    | cons name names =>
      have solid := (named name List.mem_cons_self).steps.1
      exact List.dropWhile_cons_of_neg (by simp [solid])
  | cons s base ih =>
    cases void : isVoid s with
    | true =>
      rw [List.cons_append, List.dropWhile_cons_of_pos void, List.dropWhile_cons_of_pos void]
      exact ih
    | false =>
      have solid : ¬isVoid s = true := by simp [void]
      rw [List.cons_append, List.dropWhile_cons_of_neg solid, List.dropWhile_cons_of_neg solid]
      rfl

theorem relative_dropWhile (filled : q.segments.dropWhile isVoid ≠ []) :
    (Path.mk (joinSegments (q.segments.dropWhile isVoid))).segments = q.segments.dropWhile isVoid ∧
      (Path.mk (joinSegments (q.segments.dropWhile isVoid))).isAbsolute = false := by
  have plain : ∀ s ∈ q.segments.dropWhile isVoid, Plain s := fun s member =>
    plain_of_mem_segments ((List.dropWhile_suffix _).subset member)
  have segments := segments_joinSegments plain filled
  refine ⟨segments, ?_⟩
  rw [Bool.eq_false_iff]
  intro absolute
  obtain ⟨s, rest, split⟩ := isAbsolute_iff.mp absolute
  have solid := List.head?_dropWhile_not isVoid q.segments
  rw [← segments, split] at solid
  cases solid

/-- Below a directory of the tool each way leads along a path that can be seen from the root. What the paths
have in common is the way to the directory. -/
theorem exists_below? (root : Path) (relative : dir.isAbsolute = false) :
    ∃ steps : List Component, ∀ way : Way, (∀ name ∈ way, Named name) → way ≠ [] →
      ∃ p, ((root.join dir).join ⟨joinSegments way⟩).below? root = some p ∧ p.isAbsolute = false ∧
        p.components = steps ++ way.map .name ∧
        (root.join p).SameRoute ((root.join dir).join ⟨joinSegments way⟩) := by
  obtain ⟨base, -, joined⟩ := segments_join dir
  have seen (way : Way) (named : ∀ name ∈ way, Named name) (filled : way ≠ []) :
      ∃ q front last, (root.join dir).join ⟨joinSegments way⟩ = root.join q ∧ q.isAbsolute = false ∧
        q.segments = base ++ way ∧ q.segments = front ++ [last] ∧ Named last := by
    have relative' := relative_joinSegments named
    obtain ⟨split, kind⟩ := joined _ relative'
    rw [segments_joinSegments (fun name member => (named name member).plain) filled] at split
    obtain ⟨front, last, ends⟩ : ∃ front last, way = front ++ [last] :=
      ⟨_, _, (List.dropLast_append_getLast filled).symm⟩
    refine ⟨dir.join ⟨joinSegments way⟩, base ++ front, last, join_join relative relative',
      kind.trans relative, split, ?_, ?_⟩
    · rw [split, ends, List.append_assoc]
    · exact named last (ends ▸ List.mem_append_right _ List.mem_cons_self)
  -- below a blank root the path stays as it is, and else it loses the void segments in front
  by_cases blank : root.text = ""
  · have none : root = ⟨""⟩ := congrArg Path.mk blank
    refine ⟨stepsOf base, fun way named filled => ?_⟩
    obtain ⟨q, front, last, whole, relative', split, ends, named'⟩ := seen way named filled
    have same : root.join q = q := by simp [join, blank]
    rw [whole, same]
    refine ⟨q, ?_, relative', ?_, ?_⟩
    · rw [none]
      exact below?_blank relative' ends named'
    · rw [components_of_relative relative', split, stepsOf_append base named]
    · rw [same]
      rfl
  · refine ⟨stepsOf (base.dropWhile isVoid), fun way named filled => ?_⟩
    obtain ⟨q, front, last, whole, relative', split, ends, named'⟩ := seen way named filled
    have kept : q.segments.dropWhile isVoid = base.dropWhile isVoid ++ way := by
      rw [split, dropWhile_append_named base named]
    have some : q.segments.dropWhile isVoid ≠ [] := by
      rw [kept]
      exact fun none => filled (List.append_eq_nil_iff.mp none).2
    obtain ⟨segments, relative''⟩ := relative_dropWhile some
    rw [whole]
    refine ⟨_, below?_join_of_filled blank relative' ends named', relative'', ?_, ?_⟩
    · rw [components_of_relative relative'', segments, kept, stepsOf_append _ named]
    · unfold SameRoute
      rw [components_join blank relative'', components_join blank relative', segments, filterMap_dropWhile]

end Path

/-! ### Listings -/

namespace Workspace
variable {w : Workspace} {d : Disk} {l : Location} {dir : Path} {deep : Bool} {n : Nat}

theorem along_of_ne_nil {start : Path} {way : Way} (below : way ≠ []) :
    along start way = start.join ⟨Path.joinSegments way⟩ := by
  obtain ⟨name, rest, rfl⟩ := List.exists_cons_of_ne_nil below
  rfl

theorem filesUnder_of_closed (closed : ∀ l, d.directory (w.root.join dir) ≠ .ok l) : w.filesUnder d dir deep = .ok [] := by
  unfold filesUnder
  dsimp only
  cases found : d.directory (w.root.join dir) with
  | error fault => rfl
  | ok l => exact absurd found (closed l)

/-- A listing ends at the first directory that it comes past and cannot list. -/
structure StopsAt (d : Disk) (start : Path) (l : Location) (visits : List Way) (way : Way)
    (fault : DiskFault) : Prop where
  directory : d.lookup (l.down way) = some .directory
  fault : d.listingFault? (along start way) (l.down way) = some fault
  first : ∃ before after, visits = before ++ way :: after ∧ ∀ other ∈ before,
    d.lookup (l.down other) = some .directory → d.listingFault? (along start other) (l.down other) = none

def Clear (d : Disk) (start : Path) (l : Location) (visits : List Way) : Prop :=
  ∀ way ∈ visits, d.lookup (l.down way) = some .directory →
    d.listingFault? (along start way) (l.down way) = none

section Opened
variable (tree : d.Tree) (opened : d.directory (w.root.join dir) = .ok l)
  (bound : ∀ way, (d.lookup (l.down way)).isSome → way.length ≤ n)
include opened

theorem filesUnder_of_stop {e : LinkError}
    (stops : unlistable? d (w.root.join dir) l (entered d l deep) = some e) : w.filesUnder d dir deep = .error e := by
  unfold filesUnder
  dsimp only
  rw [opened]
  dsimp only
  rw [stops]

theorem filesUnder_of_clear {shown : Way → Path}
    (clear : unlistable? d (w.root.join dir) l (entered d l deep) = none)
    (shows : ∀ way ∈ d.filesBelow l, (along (w.root.join dir) way).below? w.root = some (shown way)) :
    w.filesUnder d dir deep = .ok (((d.filesBelow l).filter fun way => deep || way.length == 1).map shown) := by
  unfold filesUnder
  dsimp only
  rw [opened]
  dsimp only
  rw [clear]
  refine congrArg Except.ok (List.filterMap_eq_map_iff_forall_eq_some.mpr fun way member => ?_)
  exact shows way (List.mem_filter.mp member).1

include tree bound in
/-- A listing goes to its end, or it stops at one of the directories that it comes past. -/
theorem filesUnder_cases {shown : Way → Path}
    (shows : ∀ way ∈ d.filesBelow l, (along (w.root.join dir) way).below? w.root = some (shown way)) (deep : Bool) :
    (Clear d (w.root.join dir) l ([] :: if deep then d.walk n l else []) ∧
      w.filesUnder d dir deep = .ok (((d.filesBelow l).filter fun way => deep || way.length == 1).map shown)) ∨
    ∃ way fault, StopsAt d (w.root.join dir) l ([] :: if deep then d.walk n l else []) way fault ∧
      w.filesUnder d dir deep = .error (.walk (along (w.root.join dir) way) fault) := by
  have there := (Disk.find?_of_directory opened).2
  have stop := Disk.unlistable?_eq_walk tree there bound (w.root.join dir) deep
  cases stops : unlistable? d (w.root.join dir) l (entered d l deep) with
  | none =>
    refine Or.inl ⟨fun way member directory => ?_, filesUnder_of_clear opened stops shows⟩
    rw [stops] at stop
    have here := List.findSome?_eq_none_iff.mp stop.symm way member
    simpa [directory] using here
  | some e =>
    rw [stops] at stop
    obtain ⟨before, way, after, split, here, earlier⟩ := List.findSome?_eq_some_iff.mp stop.symm
    by_cases directory : d.lookup (l.down way) = some .directory
    · rw [if_pos directory] at here
      obtain ⟨fault, faulty, rfl⟩ := Option.map_eq_some_iff.mp here
      refine Or.inr ⟨way, fault, ⟨directory, faulty, before, after, split, ?_⟩, filesUnder_of_stop opened stops⟩
      intro other member directory'
      simpa [directory'] using earlier other member
    · rw [if_neg directory] at here
      cases here

include tree bound in
theorem mem_files {way : Way} :
    way ∈ (d.walk n l).filter (d.holdsFile l) ↔ ∃ content, d.lookup (l.down way) = some (.file content) := by
  rw [List.mem_filter, Disk.mem_walk tree.nested, Disk.holdsFile_iff]
  constructor
  · exact fun held => held.2
  · rintro ⟨content, file⟩
    have below : way ≠ [] := by
      rintro rfl
      cases (Disk.find?_of_directory opened).2.symm.trans file
    have some : (d.lookup (l.down way)).isSome := by rw [file]; rfl
    exact ⟨⟨below, bound way some, some⟩, content, file⟩

include tree in
/-- The files below a directory of the tool have paths that are seen from its root, and these are compared as the
ways to the files are. -/
theorem exists_shown (relative : dir.isAbsolute = false) :
    ∃ (steps : List Path.Component) (shown : Way → Path), ∀ way ∈ d.filesBelow l,
      (along (w.root.join dir) way).below? w.root = some (shown way) ∧
      (shown way).isAbsolute = false ∧ (shown way).components = steps ++ way.map .name ∧
      (w.root.join (shown way)).SameRoute (along (w.root.join dir) way) := by
  obtain ⟨steps, seen⟩ := Path.exists_below? w.root relative
  have choices (way : Way) : ∃ p, way ∈ d.filesBelow l →
      (along (w.root.join dir) way).below? w.root = some p ∧ p.isAbsolute = false ∧
      p.components = steps ++ way.map .name ∧
      (w.root.join p).SameRoute (along (w.root.join dir) way) := by
    by_cases member : way ∈ d.filesBelow l
    · have below : way ≠ [] := by
        rintro rfl
        exact Disk.nil_notMem_filesBelow tree.top (Disk.find?_of_directory opened).2 member
      obtain ⟨content, file⟩ := (Disk.mem_filesBelow below).mp member
      have named : ∀ name ∈ way, Path.Named name := by
        intro name inside
        have part : name ∈ (l.down way).way := by
          rw [Location.way_down]
          exact List.mem_append_right _ inside
        exact tree.proper _ _ file name (List.mem_reverse.mp part)
      obtain ⟨p, parts⟩ := seen way named below
      rw [along_of_ne_nil below]
      exact ⟨p, fun _ => parts⟩
    · exact ⟨⟨""⟩, fun inside => absurd inside member⟩
  choose shown shows using choices
  exact ⟨steps, shown, shows⟩

end Opened

theorem ascending_shown {steps : List Path.Component} {shown : Way → Path}
    (shows : ∀ way ∈ d.filesBelow l, (shown way).components = steps ++ way.map .name) :
    ((d.filesBelow l).map shown).Pairwise fun p q => p.key < q.key := by
  have key (way : Way) (member : way ∈ d.filesBelow l) :
      (shown way).key = (steps.map fun c => Text.bytes c.text) ++ way.map Text.bytes := by
    unfold Path.key
    rw [shows way member, List.map_append, List.map_map]
    rfl
  rw [List.pairwise_map]
  refine (d.ascending_filesBelow l).imp_of_mem fun {a b} first second before => ?_
  rw [key a first, key b second]
  exact List.append_left_lt before

/-- The listing of a directory of the tool. What cannot be opened as a directory, as what is missing or a file,
holds no files. Otherwise a walk, depth first and names in order, comes past the files at any depth. Each is
listed by a relative path that takes the root of the tool to it, and the listed paths ascend strictly in the bytes
of their components. The flat listing is of those one step away, and the deep listing is of all. But if there is a
directory that cannot be listed among those that a listing enters, where it starts or, for the deep one, below,
the listing fails with the path of the first one. -/
theorem filesUnder_walk (w : Workspace) {d : Disk} {dir : Path} (tree : d.Tree) (relative : dir.isAbsolute = false) :
    let start := w.root.join dir
    (d.find? start ≠ some .directory → ∀ l, d.directory start ≠ .ok l) ∧
    ((∀ l, d.directory start ≠ .ok l) → ∀ deep, w.filesUnder d dir deep = .ok []) ∧
    ∀ l, d.directory start = .ok l → ∃ (walk : List Way) (shown : Way → Path),
      (∃ n, ∀ m, n ≤ m → d.walk m l = walk) ∧
      let files := walk.filter (d.holdsFile l)
      (∀ way, way ∈ files ↔ ∃ content, d.lookup (l.down way) = some (.file content)) ∧
      (∀ way ∈ files, (shown way).isAbsolute = false ∧ (w.root.join (shown way)).SameRoute (along start way)) ∧
      (files.map shown).Pairwise (fun p q => p.key < q.key) ∧
      (Clear d start l [[]] ∧
          w.filesUnder d dir false = .ok ((files.filter fun way => way.length == 1).map shown) ∨
        ∃ way fault, StopsAt d start l [[]] way fault ∧
          w.filesUnder d dir false = .error (.walk (along start way) fault)) ∧
      (Clear d start l ([] :: walk) ∧ w.filesUnder d dir true = .ok (files.map shown) ∨
        ∃ way fault, StopsAt d start l ([] :: walk) way fault ∧
          w.filesUnder d dir true = .error (.walk (along start way) fault)) := by
  intro start
  refine ⟨fun other l opened => other (Disk.find?_of_directory opened).1, fun closed deep =>
    filesUnder_of_closed closed, fun l opened => ?_⟩
  obtain ⟨steps, shown, shows⟩ := exists_shown tree opened relative
  obtain ⟨n, bound⟩ := d.exists_depth l
  have files := Disk.filesBelow_eq_walk tree (Disk.find?_of_directory opened).2 bound
  have lists := filesUnder_cases tree opened bound fun way member => (shows way member).1
  refine ⟨d.walk n l, shown, ⟨n, fun m deeper => Disk.walk_of_le tree bound deeper⟩, ?_⟩
  rw [← files]
  refine ⟨fun way => ?_, fun way member => ?_, ?_, ?_, ?_⟩
  · rw [files]
    exact mem_files tree opened bound
  · obtain ⟨-, relative', -, route⟩ := shows way member
    exact ⟨relative', route⟩
  · exact ascending_shown fun way member => (shows way member).2.2.1
  · simpa using lists false
  · simpa using lists true

end Workspace

/-! ### Small trees and deep ones -/

namespace SmallTree

def library : Location := Location.root.child "library"

def directory : Location := library.child "a"

/-- A directory whose file and whose subdirectory share a stem, and a file in the latter. -/
def disk : Disk :=
  Disk.empty.insert library .directory |>.insert (library.child "a.asm") (.file "".toUTF8)
    |>.insert directory .directory |>.insert (directory.child "x") (.file "".toUTF8)

theorem named_library : Path.Named "library" := ⟨by decide, by decide⟩

theorem named_a : Path.Named "a" := ⟨by decide, by decide⟩

theorem tree_disk : disk.Tree where
  proper := by
    have named : Path.Named "a.asm" ∧ Path.Named "x" := ⟨⟨by decide, by decide⟩, by decide, by decide⟩
    have outer : library.Proper := List.forall_mem_singleton.mpr named_library
    have inner : directory.Proper := List.forall_mem_cons.mpr ⟨named_a, outer⟩
    exact (((Disk.proper_empty.insert Location.child_ne_root outer).insert Location.child_ne_root
      (List.forall_mem_cons.mpr ⟨named.1, outer⟩)).insert Location.child_ne_root inner).insert
      Location.child_ne_root (List.forall_mem_cons.mpr ⟨named.2, inner⟩)
  nested := by
    unfold disk
    refine (((Disk.nested_empty.insert Location.child_ne_root ?_ ?_).insert Location.child_ne_root
      ?_ ?_).insert Location.child_ne_root ?_ ?_).insert Location.child_ne_root ?_ ?_
    all_goals decide +kernel
  top := by decide +kernel

end SmallTree

namespace DeepTree
open SmallTree

def place (k : Nat) : Location := library.down (List.replicate k "a")

/-- Directories in each other, some steps deep below the library. -/
def disk : Nat → Disk
  | 0 => Disk.empty.insert (place 0) .directory
  | n + 1 => (disk n).insert (place (n + 1)) .directory

theorem place_succ (k : Nat) : place (k + 1) = (place k).child "a" := by
  unfold place Location.down
  rw [List.replicate_succ', List.foldl_append]
  rfl

theorem place_ne_root (k : Nat) : place k ≠ .root := by
  cases k with
  | zero => exact Location.child_ne_root
  | succ k => exact place_succ k ▸ Location.child_ne_root

theorem proper_place (k : Nat) : (place k).Proper := by
  induction k with
  | zero => exact List.forall_mem_singleton.mpr named_library
  | succ k ih => exact place_succ k ▸ List.forall_mem_cons.mpr ⟨named_a, ih⟩

theorem depth_place (k : Nat) : (place k).depth = k + 1 := by
  induction k with
  | zero => rfl
  | succ k ih =>
    rw [place_succ, ← ih]
    rfl

theorem lookup_place {k n : Nat} (within : k ≤ n) : (disk n).lookup (place k) = some .directory := by
  induction n with
  | zero =>
    rw [Nat.le_zero.mp within, disk, Disk.lookup_insert (place_ne_root 0), if_pos rfl]
  | succ n ih =>
    rw [disk, Disk.lookup_insert (place_ne_root _)]
    split
    · rfl
    · rename_i other
      exact ih (Nat.le_of_lt_succ (Nat.lt_of_le_of_ne within fun same => other (same ▸ rfl)))

theorem eq_place_of_lookup {n : Nat} {m : Location} (there : (disk n).lookup m ≠ none) :
    m = .root ∨ ∃ k ≤ n, m = place k := by
  induction n with
  | zero =>
    rw [disk, Disk.lookup_insert (place_ne_root 0)] at there
    by_cases here : m = place 0
    · exact Or.inr ⟨0, Nat.le_refl 0, here⟩
    · rw [if_neg here] at there
      unfold Disk.lookup Disk.empty at there
      by_cases root : m = .root
      · exact Or.inl root
      · rw [if_neg root, Std.ExtTreeMap.getElem?_empty] at there
        exact absurd rfl there
  | succ n ih =>
    rw [disk, Disk.lookup_insert (place_ne_root _)] at there
    by_cases here : m = place (n + 1)
    · exact Or.inr ⟨n + 1, Nat.le_refl _, here⟩
    · rw [if_neg here] at there
      obtain root | ⟨k, within, same⟩ := ih there
      · exact Or.inl root
      · exact Or.inr ⟨k, Nat.le_succ_of_le within, same⟩

theorem free_place (n : Nat) : (disk n).lookup (place (n + 1)) = none := by
  by_contra there
  obtain root | ⟨k, within, same⟩ := eq_place_of_lookup there
  · exact place_ne_root _ root
  · have depth := congrArg Location.depth same
    rw [depth_place, depth_place] at depth
    omega

theorem top_disk (n : Nat) : (disk n).entries[Location.root]? = none := by
  induction n with
  | zero => decide +kernel
  | succ n ih =>
    show ((disk n).entries.insert (place (n + 1)) .directory)[Location.root]? = none
    rw [Std.ExtTreeMap.getElem?_insert, if_neg, ih]
    exact fun same => place_ne_root _ (Std.LawfulEqCmp.eq_of_compare same)

theorem tree_disk (n : Nat) : (disk n).Tree := by
  have proper : (disk n).Proper ∧ (disk n).Nested := by
    induction n with
    | zero =>
      refine ⟨Disk.proper_empty.insert (place_ne_root 0) (proper_place 0),
        Disk.nested_empty.insert (place_ne_root 0) ?_ ?_⟩
      · decide +kernel
      · decide +kernel
    | succ n ih =>
      refine ⟨ih.1.insert (place_ne_root _) (proper_place _), ih.2.insert (place_ne_root _) (free_place n) ?_⟩
      rw [place_succ, Location.parent_child]
      exact lookup_place (Nat.le_refl n)
  exact ⟨proper.1, proper.2, top_disk n⟩

/-! What is below the library has its path, of two bytes more for each step. -/

theorem joinSegments_front (s t : String) (rest : List String) :
    Path.joinSegments (s :: t :: rest) = Path.joinSegments ((s ++ "/" ++ t) :: rest) := by
  cases rest with
  | nil => simp [Path.joinSegments]
  | cons u rest => simp [Path.joinSegments, String.append_assoc]

theorem size_joinSegments (s : String) (k : Nat) :
    (Path.joinSegments (s :: List.replicate k "a")).utf8ByteSize = s.utf8ByteSize + 2 * k := by
  induction k generalizing s with
  | zero => simp [Path.joinSegments]
  | succ k ih =>
    have two : "/".utf8ByteSize = 1 ∧ "a".utf8ByteSize = 1 := ⟨rfl, rfl⟩
    rw [List.replicate_succ, joinSegments_front, ih, String.utf8ByteSize_append, String.utf8ByteSize_append,
      two.1, two.2]
    omega

def trail (k : Nat) : Path := Workspace.along ⟨"library"⟩ (List.replicate k "a")

theorem text_trail (k : Nat) : (trail k).text = Path.joinSegments ("library" :: List.replicate k "a") := by
  cases k with
  | zero => rfl
  | succ k =>
    have named : ∀ name ∈ List.replicate (k + 1) "a", Path.Named name := by
      intro name member
      rw [List.eq_of_mem_replicate member]
      exact named_a
    unfold trail
    rw [Workspace.along_of_ne_nil (by simp), Path.join_name (by decide) (by decide) (Path.relative_joinSegments named),
      List.replicate_succ]
    exact String.intercalate_cons_cons.symm

theorem nul_notMem_trail (k : Nat) : '\x00' ∉ (trail k).text.toList := by
  intro nul
  rw [text_trail] at nul
  obtain slash | ⟨s, member, inside⟩ := Path.mem_joinSegments nul
  · cases slash
  · simp only [List.mem_cons, List.mem_replicate] at member
    obtain rfl | ⟨-, rfl⟩ := member
    · exact absurd inside (by decide)
    · exact absurd inside (by decide)

theorem textFault?_trail (k : Nat) :
    Disk.textFault? (trail k) = if Disk.pathLimit < 7 + 2 * k then some .nameTooLong else none := by
  have size : (trail k).text.utf8ByteSize = 7 + 2 * k := by
    rw [text_trail, size_joinSegments]
    rfl
  have filled : (trail k).text ≠ "" := by
    intro blank
    have none : "".utf8ByteSize = 0 := rfl
    rw [blank, none] at size
    omega
  simp [Disk.textFault?, nul_notMem_trail k, filled, size]

theorem frame_disk (n : Nat) : (disk n).workingDirectory = .root ∧ (disk n).obstacles = {} := by
  induction n with
  | zero => exact ⟨rfl, rfl⟩
  | succ n ih => exact ih

theorem directory_library (n : Nat) : (disk n).directory ⟨"library"⟩ = .ok library := by
  have down : (disk n).step .root "library" = .ok library :=
    Disk.step_eq_ok.mpr ⟨Disk.entryAt_eq_ok.mpr ⟨rfl, Disk.lookup_root _⟩, rfl⟩
  have located : (disk n).locate ⟨"library"⟩ = .ok library := by
    have fine : Disk.textFault? ⟨"library"⟩ = none := by decide
    have name : (Path.mk "library").segments = ["library"] := rfl
    have relative : (Path.mk "library").isAbsolute = false := by decide
    unfold Disk.locate Disk.follow Disk.origin
    rw [fine, relative, name, (frame_disk n).1]
    show [("library" : String)].foldlM (disk n).step .root = .ok library
    rw [List.foldlM_cons, down]
    rfl
  exact Disk.directory_eq_ok.mpr ⟨located, Disk.entryAt_eq_ok.mpr ⟨by decide, lookup_place (Nat.zero_le n)⟩⟩

theorem length_of_lookup {n : Nat} {way : Way} (there : ((disk n).lookup (library.down way)).isSome) :
    way.length ≤ n ∧ way = List.replicate way.length "a" := by
  obtain root | ⟨k, within, same⟩ := eq_place_of_lookup (Option.isSome_iff_ne_none.mp there)
  · have way := congrArg Location.way root
    rw [Location.way_down] at way
    cases way
  · have ways := congrArg Location.way same
    unfold place at ways
    rw [Location.way_down, Location.way_down] at ways
    have alike := List.append_cancel_left ways
    rw [alike, List.length_replicate]
    exact ⟨within, rfl⟩

theorem filesUnder_library {n : Nat} (short : 7 + 2 * n ≤ Disk.pathLimit)
    (long : Disk.pathLimit < 7 + 2 * (n + 1)) :
    (Workspace.mk ⟨""⟩ []).filesUnder (disk (n + 1)) ⟨"library"⟩ true =
      .error (.walk (trail (n + 1)) .nameTooLong) := by
  let w : Workspace := ⟨⟨""⟩, []⟩
  have start : w.root.join ⟨"library"⟩ = ⟨"library"⟩ := rfl
  have opened : (disk (n + 1)).directory (w.root.join ⟨"library"⟩) = .ok library := directory_library (n + 1)
  have tree := tree_disk (n + 1)
  obtain ⟨_, shown, shows⟩ := Workspace.exists_shown tree opened (by decide)
  have cases := Workspace.filesUnder_cases tree opened (fun way there => (length_of_lookup there).1)
    (fun way member => (shows way member).1) true
  have granted : (disk (n + 1)).obstacles.refused = fun _ _ => none := by rw [(frame_disk _).2]
  have faults (k : Nat) (m : Location) : (disk (n + 1)).listingFault? (trail k) m =
      if Disk.pathLimit < 7 + 2 * k then some .nameTooLong else none := by
    rw [Disk.listingFault?, granted, textFault?_trail, Option.or_none]
  rw [start] at cases
  obtain ⟨clear, -⟩ | ⟨way, fault, stop, listed⟩ := cases
  · -- the deepest directory is in the walk and cannot be listed
    have there : (disk (n + 1)).lookup (place (n + 1)) = some .directory := lookup_place (Nat.le_refl _)
    have walked : List.replicate (n + 1) "a" ∈ (disk (n + 1)).walk (n + 1) library :=
      (Disk.mem_walk tree.nested).mpr ⟨by simp, by simp, Option.isSome_of_eq_some there⟩
    have none := clear _ (List.mem_cons_of_mem [] walked) there
    rw [← trail, faults, if_pos long] at none
    cases none
  · -- the other directories have shorter paths
    obtain ⟨within, same⟩ := length_of_lookup (Option.isSome_of_eq_some stop.directory)
    have here := stop.fault
    rw [same, ← trail, faults] at here
    split at here
    · rename_i longer
      cases here
      have deepest : way.length = n + 1 := by omega
      rw [same, deepest] at listed
      exact listed
    · cases here

end DeepTree

open SmallTree (library) in
open DeepTree in
/-- Below the library a directory can be so deep that its path is too long. The deep listing ends there, though
the directory that it starts in is there. -/
theorem Workspace.filesUnder_stops :
    (disk 2045).Tree ∧ (disk 2045).directory ⟨"library"⟩ = .ok library ∧
    (Workspace.mk ⟨""⟩ []).filesUnder (disk 2045) ⟨"library"⟩ true =
      .error (.walk (trail 2045) .nameTooLong) := by
  have short : 7 + 2 * 2044 ≤ Disk.pathLimit := by decide
  have long : Disk.pathLimit < 7 + 2 * (2044 + 1) := by decide
  exact ⟨tree_disk 2045, directory_library 2045, filesUnder_library short long⟩

open SmallTree in
/-- What is in a directory comes before a file that is named like it with an extension. In the order of the texts
the dot would come first. -/
theorem Workspace.filesUnder_walk_stem :
    let w : Workspace := ⟨⟨""⟩, []⟩
    disk.Tree ∧ disk.directory (w.root.join ⟨"library"⟩) = .ok library ∧
    (∃ (files : List Way) (shown : Way → Path), ["a", "x"] ∈ files ∧ ["a.asm"] ∈ files ∧
      (files.map shown).Pairwise (fun p q => p.key < q.key) ∧
      w.filesUnder disk ⟨"library"⟩ true = .ok (files.map shown)) ∧
    (Path.mk "library/a/x").key < (Path.mk "library/a.asm").key ∧ "library/a.asm" < "library/a/x" := by
  intro w
  have relative : (Path.mk "library").isAbsolute = false := by decide
  have opened : disk.directory (w.root.join ⟨"library"⟩) = .ok library := by decide +kernel
  have below : disk.directoriesBelow library = [["a"]] := by decide +kernel
  have file : disk.lookup (library.down ["a.asm"]) = some (.file "".toUTF8) := by decide +kernel
  have inner : disk.lookup (library.down ["a", "x"]) = some (.file "".toUTF8) := by decide +kernel
  obtain ⟨-, -, lists⟩ := filesUnder_walk w tree_disk relative
  obtain ⟨walk, shown, ⟨n, walked⟩, members, -, ascending, -, deep⟩ := lists library opened
  refine ⟨tree_disk, opened, ⟨_, shown, (members _).mpr ⟨_, inner⟩, (members _).mpr ⟨_, file⟩,
    ascending, ?_⟩, by decide +kernel, by decide +kernel⟩
  obtain ⟨-, deep⟩ | ⟨way, fault, stop, -⟩ := deep
  · exact deep
  · -- both directories that the listing enters can be listed
    have entered : way = [] ∨ way = ["a"] := by
      by_cases here : way = []
      · exact Or.inl here
      · have only := Disk.mem_directoriesBelow.mpr ⟨here, stop.directory⟩
        rw [below, List.mem_singleton] at only
        exact Or.inr only
    have listed : disk.listingFault? (along (w.root.join ⟨"library"⟩) way) (library.down way) = none := by
      obtain rfl | rfl := entered
      · decide +kernel
      · decide +kernel
    cases listed.symm.trans stop.fault

end RomLinker
