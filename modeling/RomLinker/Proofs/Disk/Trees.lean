import RomLinker.Library
import RomLinker.Proofs.Workspace
import Std.Data.ExtTreeMap.Lemmas

/-!
Listings of the tool's directories. A listing depends on the entries of its directory alone
(`filesUnder_congr`), so that the library is listed in the same way before and after a generated source
is written.
-/
namespace RomLinker

namespace Location
variable {l top : Location} {name other : String}

def Within (l top : Location) : Prop := ∃ front, l.names = front ++ top.names

theorem within_self : l.Within l := ⟨[], rfl⟩

theorem Within.child (within : l.Within top) : (l.child name).Within top := by
  obtain ⟨front, split⟩ := within
  exact ⟨name :: front, congrArg (List.cons name) split⟩

theorem Within.ne_root (within : l.Within (top.child name)) : l ≠ .root := by
  rintro rfl
  obtain ⟨front, split⟩ := within
  cases front with
  | nil => cases split
  | cons first front => cases split

theorem Within.unique (within : l.Within (top.child name)) (within' : l.Within (top.child other)) :
    name = other := by
  obtain ⟨front, split⟩ := within
  obtain ⟨front', split'⟩ := within'
  have same : (top.child name).names = (top.child other).names := by
    refine (List.append_inj' (split.symm.trans split') ?_).2
    rfl
  exact (List.cons.inj same).1

theorem eq_append_of_isPrefixOf? {xs ys rest : List String} (h : xs.isPrefixOf? ys = some rest) :
    ys = xs ++ rest := by
  induction xs generalizing ys with
  | nil => exact Option.some.inj h
  | cons x xs ih =>
    cases ys with
    | nil => cases h
    | cons y ys =>
      have step : (x :: xs).isPrefixOf? (y :: ys) = if x == y then xs.isPrefixOf? ys else none := rfl
      rw [step] at h
      split at h
      · rename_i same
        rw [eq_of_beq same, ih h]
        rfl
      · cases h

theorem within_of_wayTo? {way : Way} (h : top.wayTo? l = some way) : l.Within top := by
  have split := congrArg List.reverse (eq_append_of_isPrefixOf? h)
  rw [Location.way, Location.way, List.reverse_append, List.reverse_reverse,
    List.reverse_reverse] at split
  exact ⟨way.reverse, split⟩

end Location

namespace Disk
variable {d e : Disk} {l : Location}

theorem filterMap_entries_congr {α : Type} {g : Location × Entry → Option α}
    (same : ∀ x, (g x).isSome → e.entries[x.1]? = d.entries[x.1]?) :
    e.entries.toList.filterMap g = d.entries.toList.filterMap g := by
  have sorted (f : Disk) : (f.entries.toList.filter fun x => (g x).isSome).Pairwise
      fun x y => Location.order x.1 y.1 = .lt :=
    Std.ExtTreeMap.ordered_keys_toList.filter _
  have nodup (f : Disk) : (f.entries.toList.filter fun x => (g x).isSome).Nodup := by
    refine (sorted f).imp fun {x y} before equal => ?_
    have self : Location.order y.1 y.1 = .eq := order_eq_eq.mpr rfl
    rw [equal, self] at before
    cases before
  have members (x : Location × Entry) : x ∈ e.entries.toList.filter (fun x => (g x).isSome) ↔
      x ∈ d.entries.toList.filter fun x => (g x).isSome := by
    rw [List.mem_filter, List.mem_filter]
    refine and_congr_left fun some => ?_
    rw [Std.ExtTreeMap.mem_toList_iff_getElem?_eq_some, same x some,
      Std.ExtTreeMap.mem_toList_iff_getElem?_eq_some]
  have equal : e.entries.toList.filter (fun x => (g x).isSome) =
      d.entries.toList.filter fun x => (g x).isSome := by
    refine List.Perm.eq_of_pairwise (fun x y _ _ before after => ?_) (sorted e) (sorted d)
      ((List.perm_ext_iff_of_nodup (nodup e) (nodup d)).mpr members)
    have turned : Location.order x.1 y.1 = (Location.order y.1 x.1).swap := Std.OrientedCmp.eq_swap
    rw [turned, after] at before
    cases before
  have restrict (f : Disk) : (f.entries.toList.filter fun x => (g x).isSome).filterMap g =
      f.entries.toList.filterMap g := by
    rw [List.filterMap_filter]
    refine congrArg (List.filterMap · _) (funext fun x => ?_)
    cases g x <;> rfl
  rw [← restrict e, equal, restrict d]

theorem entries_of_lookup (same : e.lookup l = d.lookup l) (below : l ≠ .root) :
    e.entries[l]? = d.entries[l]? := by
  unfold lookup at same
  rw [if_neg below, if_neg below] at same
  exact same

variable {top : Location} {name : String}
  (same : ∀ m, m.Within (top.child name) → e.lookup m = d.lookup m)
include same

theorem filesBelow_congr : e.filesBelow (top.child name) = d.filesBelow (top.child name) := by
  unfold filesBelow
  refine congrArg Way.sort (filterMap_entries_congr fun x listed => ?_)
  have within : x.1.Within (top.child name) := by
    obtain ⟨m, entry | _⟩ := x
    · obtain ⟨way, found⟩ := Option.isSome_iff_exists.mp listed
      exact Location.within_of_wayTo? found
    · cases listed
  exact entries_of_lookup (same x.1 within) within.ne_root

theorem directoriesBelow_congr :
    e.directoriesBelow (top.child name) = d.directoriesBelow (top.child name) := by
  unfold directoriesBelow
  refine filterMap_entries_congr fun x listed => ?_
  have within : x.1.Within (top.child name) := by
    dsimp only at listed
    split at listed
    · rename_i found
      exact Location.within_of_wayTo? found
    · cases listed
  exact entries_of_lookup (same x.1 within) within.ne_root

end Disk

namespace Workspace
variable {w : Workspace} {d e : Disk} {root : Path} {name : String} {l : Location}

theorem place_inTool (named : Path.Named name) :
    d.place (root.join ⟨name⟩) = (toolPlace d root).child name := by
  rw [place_join named.relative, Path.segments_of_plain named.plain, List.foldl_cons, List.foldl_nil,
    Location.move_named named]

theorem ToolDirectory.locate_join {q : Path} (tool : ToolDirectory d root)
    (relative : q.isAbsolute = false) (fine : Disk.textFault? (root.join q) = none) :
    d.locate (root.join q) = q.segments.foldlM d.step (toolPlace d root) := by
  obtain ⟨base, -, joined⟩ := Path.segments_join root
  obtain ⟨whole, start⟩ := joined q relative
  obtain ⟨here, start'⟩ := joined ⟨"."⟩ Path.relative_dot
  rw [Path.segments_dot] at here
  obtain ⟨m, located⟩ := tool
  have walk := (Disk.follow_eq_ok located).2
  rw [here, List.foldlM_append] at walk
  have origin : d.origin (root.join q) = d.origin (root.join ⟨"."⟩) := by
    unfold Disk.origin
    rw [start, start']
  obtain ⟨n, front, -⟩ := Except.bind_eq_ok.mp walk
  have place : n = toolPlace d root := by
    rw [Disk.foldlM_step_eq_ok front, toolPlace, Disk.place, here, List.foldl_append]
    rfl
  subst place
  unfold Disk.locate Disk.follow
  rw [fine]
  dsimp only
  rw [whole, List.foldlM_append, origin, front]
  rfl

theorem ToolDirectory.entry (tool : ToolDirectory d root) :
    d.entryAt (toolPlace d root) = .ok (some .directory) := by
  obtain ⟨m, located⟩ := tool
  have fine := (Disk.follow_eq_ok located).1
  rw [ToolDirectory.locate_join ⟨m, located⟩ Path.relative_dot fine,
    Path.segments_dot, List.foldlM_cons] at located
  obtain ⟨k, step, -⟩ := Except.bind_eq_ok.mp located
  exact (Disk.step_eq_ok.mp step).1

theorem textFault?_shorter {front short long : String} (fine : Disk.textFault? ⟨front ++ long⟩ = none)
    (filled : short ≠ "") (plain : '\x00' ∉ short.toList)
    (size : short.utf8ByteSize ≤ long.utf8ByteSize) : Disk.textFault? ⟨front ++ short⟩ = none := by
  unfold Disk.textFault? at fine ⊢
  simp only [String.toList_append, List.contains_eq_mem, List.mem_append, decide_eq_true_eq,
    String.utf8ByteSize_append] at fine ⊢
  split at fine
  · cases fine
  · rename_i clean
    split at fine
    · cases fine
    · split at fine
      · cases fine
      · rename_i fits
        have longer : front ++ short ≠ "" := by
          intro blank
          exact filled (String.append_eq_empty_iff.mp blank).2
        have bound : ¬Disk.pathLimit < front.utf8ByteSize + short.utf8ByteSize := by omega
        have free : ¬('\x00' ∈ front.toList ∨ '\x00' ∈ short.toList) :=
          fun nul => nul.elim (fun inside => clean (Or.inl inside)) plain
        rw [if_neg free, if_neg longer, if_neg bound]

theorem textFault?_toolDirectory (named : Path.Named name)
    (fine : Disk.textFault? (sourceIn root name) = none) : Disk.textFault? (root.join ⟨"."⟩) = none := by
  obtain ⟨front, text⟩ := Path.text_join root
  have long : sourceIn root name = ⟨front ++ ("asm/work" ++ "/" ++ name)⟩ := by
    rw [sourceIn, generatedSource_eq named, workDirectory, text _ relative_work]
    simp only [String.append_assoc]
  have short : root.join ⟨"."⟩ = ⟨front ++ "."⟩ :=
    congrArg Path.mk (text ⟨"."⟩ Path.relative_dot)
  have size : ("asm/work" ++ "/" ++ name).utf8ByteSize = 9 + name.utf8ByteSize := by
    rw [String.utf8ByteSize_append]
    rfl
  rw [long] at fine
  rw [short]
  refine textFault?_shorter fine (by decide) (by decide) ?_
  rw [size, show ".".utf8ByteSize = 1 from rfl]
  omega

theorem toolDirectory_of_locate (named : Path.Named name)
    (located : d.locate (sourceIn root name) = .ok l) : ToolDirectory d root := by
  obtain ⟨fine, walk⟩ := Disk.follow_eq_ok located
  obtain ⟨base, -, joined⟩ := Path.segments_join root
  obtain ⟨whole, start⟩ := joined ⟨"asm/work"⟩ relative_work
  obtain ⟨here, start'⟩ := joined ⟨"."⟩ Path.relative_dot
  rw [segments_work] at whole
  rw [Path.segments_dot] at here
  have origin : d.origin (sourceIn root name) = d.origin (root.join ⟨"."⟩) := by
    have absolute := isAbsolute_generatedSource named (w := ⟨root, []⟩)
    unfold Disk.origin
    rw [sourceIn, absolute, workDirectory, start, start']
  have split : (sourceIn root name).segments = base ++ ("asm" :: ["work", name]) := by
    rw [sourceIn, segments_generatedSource named, workDirectory, whole, List.append_assoc]
    rfl
  rw [split, origin, List.foldlM_append] at walk
  obtain ⟨n, first, below⟩ := Except.bind_eq_ok.mp walk
  rw [List.foldlM_cons] at below
  obtain ⟨k, next, -⟩ := Except.bind_eq_ok.mp below
  have stays : d.step n "." = .ok (n.move ".") :=
    Disk.step_eq_ok.mpr ⟨(Disk.step_eq_ok.mp next).1, rfl⟩
  refine ⟨n.move ".", ?_⟩
  unfold Disk.locate Disk.follow
  rw [textFault?_toolDirectory named fine]
  dsimp only
  rw [here, List.foldlM_append, first]
  show (["."] : List String).foldlM d.step n = _
  rw [List.foldlM_cons, stays]
  rfl

/-- An entry of the tool directory is found under its name, unless the whole path is at fault. -/
theorem ToolDirectory.locate_eq (tool : ToolDirectory d root) (named : Path.Named name) :
    d.locate (root.join ⟨name⟩) = match Disk.textFault? (root.join ⟨name⟩) with
      | some fault => .error fault
      | none => .ok ((toolPlace d root).child name) := by
  cases fine : Disk.textFault? (root.join ⟨name⟩) with
  | some fault =>
    unfold Disk.locate Disk.follow
    rw [fine]
  | none =>
    have down : d.step (toolPlace d root) name = .ok ((toolPlace d root).move name) :=
      Disk.step_eq_ok.mpr ⟨tool.entry, rfl⟩
    rw [tool.locate_join named.relative fine, Path.segments_of_plain named.plain, List.foldlM_cons,
      down, Location.move_named named]
    rfl

theorem unlistable?_congr (obstacles : e.obstacles = d.obstacles) :
    unlistable? e = unlistable? d := by
  unfold unlistable? Disk.listingFault?
  rw [obstacles]

/-- A listing depends on the entries of its directory alone, and on what the system refuses. -/
theorem filesUnder_congr (tool : ToolDirectory d w.root) (tool' : ToolDirectory e w.root)
    (cwd : e.workingDirectory = d.workingDirectory) (obstacles : e.obstacles = d.obstacles) (named : Path.Named name)
    (same : ∀ m, m.Within ((toolPlace d w.root).child name) → e.lookup m = d.lookup m) (deep : Bool) :
    w.filesUnder e ⟨name⟩ deep = w.filesUnder d ⟨name⟩ deep := by
  have located : e.locate (w.root.join ⟨name⟩) = d.locate (w.root.join ⟨name⟩) := by
    rw [tool.locate_eq named, tool'.locate_eq named, toolPlace_congr cwd]
  have entry : e.entryAt ((toolPlace d w.root).child name) =
      d.entryAt ((toolPlace d w.root).child name) := by
    unfold Disk.entryAt
    rw [same _ Location.within_self]
  have directory : e.directory (w.root.join ⟨name⟩) = d.directory (w.root.join ⟨name⟩) := by
    unfold Disk.directory
    rw [located]
    cases found : d.locate (w.root.join ⟨name⟩) with
    | error fault => rfl
    | ok l =>
      rw [Disk.locate_eq_place found, place_inTool named]
      show e.step _ "." = d.step _ "."
      unfold Disk.step
      rw [entry]
  unfold filesUnder entered
  dsimp only
  rw [directory, unlistable?_congr obstacles]
  cases found : d.directory (w.root.join ⟨name⟩) with
  | error fault => rfl
  | ok l =>
    have place : l = (toolPlace d w.root).child name := by
      rw [Disk.locate_eq_place (Disk.directory_eq_ok.mp found).1, place_inTool named]
    dsimp only
    rw [place, Disk.filesBelow_congr same, Disk.directoriesBelow_congr same]

end Workspace

/-- The files of the library on a disk. There are none if one of them has no proper name. -/
def Library.listed (root : Path) (d : Disk) : List LibraryFile :=
  (discover ⟨root, []⟩ d).toOption.getD []

end RomLinker
