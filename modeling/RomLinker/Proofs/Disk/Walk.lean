import RomLinker.Proofs.Disk.Flat
import RomLinker.Proofs.Disk.Nested

/-!
Walks through a tree of files, depth first and with the names of each directory in order. A walk comes past
everything that is as deep as it goes (`mem_walk`), and it goes in the order of components (`ascending_walk`), both
by induction on its depth. What is listed below a place is what a walk comes past, in the same order
(`filesBelow_eq_walk`, `unlistable?_eq_walk`).
-/
namespace RomLinker
namespace Disk
variable {d : Disk} {l : Location} {way : Way} {name : String} {n : Nat}

/-- A tree of files: its names can stand in paths, all of it lies in directories, and the root is there without
an entry. -/
structure Tree (d : Disk) : Prop where
  proper : d.Proper
  nested : d.Nested
  top : d.entries[Location.root]? = none

/-- The ways to all that is at most some steps below a place, depth first and names in order. What is in a
directory comes right behind it. -/
def walk (d : Disk) : Nat → Location → List Way
  | 0, _ => []
  | n + 1, l => (d.names l).flatMap fun name =>
    ([] :: if d.lookup (l.child name) = some .directory then d.walk n (l.child name) else []).map (name :: ·)

theorem place_of_name {x : Location × Entry}
    (found : (match x.1.names with
      | name :: above => if above = l.names then some name else none
      | [] => none) = some name) : x.1 = l.child name := by
  split at found
  · rename_i first above split
    split at found
    · rename_i same
      cases found
      exact Location.ext (split.trans (congrArg (List.cons name) same))
    · cases found
  · cases found

theorem mem_names : name ∈ d.names l ↔ (d.lookup (l.child name)).isSome := by
  have listed (entry : Entry) : (l.child name, entry) ∈ d.entries.toList ↔ d.lookup (l.child name) = some entry :=
    mem_entries (List.cons_ne_nil name [])
  unfold names
  rw [List.mem_mergeSort, List.mem_filterMap, Option.isSome_iff_exists]
  constructor
  · rintro ⟨⟨m, entry⟩, member, found⟩
    have place : m = l.child name := place_of_name (x := (m, entry)) found
    subst place
    exact ⟨entry, (listed entry).mp member⟩
  · rintro ⟨entry, there⟩
    refine ⟨_, (listed entry).mpr there, ?_⟩
    exact if_pos rfl

theorem ascending_names (d : Disk) (l : Location) :
    (d.names l).Pairwise fun a b => Text.bytes a < Text.bytes b := by
  have trans (a b c : String) (first : decide (a ≤ b) = true) (second : decide (b ≤ c) = true) :
      decide (a ≤ c) = true :=
    decide_eq_true (String.le_trans (of_decide_eq_true first) (of_decide_eq_true second))
  have total (a b : String) : (decide (a ≤ b) || decide (b ≤ a)) = true := by
    simpa using String.le_total a b
  have distinct : (d.names l).Nodup := by
    unfold names
    refine (List.mergeSort_perm _ _).nodup_iff.mpr (nodup_of_entries l.child fun x name found => ?_)
    exact place_of_name found
  have sorted : (d.names l).Pairwise fun a b => decide (a ≤ b) = true := by
    unfold names
    exact List.pairwise_mergeSort trans total _
  refine (sorted.and distinct).imp fun {a b} both => ?_
  exact Text.bytes_lt (Std.lt_of_le_of_ne (of_decide_eq_true both.1) both.2)

theorem Nested.directory_of_down (nested : d.Nested) (below : way ≠ []) (there : d.lookup (l.down way) ≠ none) :
    d.lookup l = some .directory := by
  induction way generalizing l with
  | nil => exact absurd rfl below
  | cons name way ih =>
    have child : d.lookup (l.child name) ≠ none := by
      by_cases last : way = []
      · subst last
        exact there
      · rw [ih last there]
        exact Option.some_ne_none _
    have parent := nested (l.child name) child
    rw [Location.parent_child] at parent
    exact parent

theorem mem_walk (nested : d.Nested) :
    way ∈ d.walk n l ↔ way ≠ [] ∧ way.length ≤ n ∧ (d.lookup (l.down way)).isSome := by
  induction n generalizing l way with
  | zero =>
    constructor
    · exact nofun
    · rintro ⟨below, short, -⟩
      exact absurd (List.length_eq_zero_iff.mp (Nat.le_zero.mp short)) below
  | succ n ih =>
    rw [walk, List.mem_flatMap]
    constructor
    · rintro ⟨name, listed, member⟩
      obtain ⟨rest, inner, rfl⟩ := List.mem_map.mp member
      refine ⟨List.cons_ne_nil name rest, ?_⟩
      rcases List.mem_cons.mp inner with rfl | behind
      · exact ⟨Nat.succ_le_succ (Nat.zero_le n), mem_names.mp listed⟩
      · split at behind
        · obtain ⟨-, short, there⟩ := ih.mp behind
          exact ⟨Nat.succ_le_succ short, there⟩
        · cases behind
    · rintro ⟨below, short, there⟩
      obtain ⟨name, rest, rfl⟩ := List.exists_cons_of_ne_nil below
      by_cases last : rest = []
      · subst last
        exact ⟨name, mem_names.mpr there, List.mem_cons_self⟩
      · have directory : d.lookup (l.child name) = some .directory :=
          nested.directory_of_down last (Option.isSome_iff_ne_none.mp there)
        have listed : name ∈ d.names l := mem_names.mpr (directory ▸ rfl)
        refine ⟨name, listed, List.mem_map_of_mem (List.mem_cons_of_mem _ ?_)⟩
        rw [if_pos directory]
        exact ih.mpr ⟨last, Nat.le_of_succ_le_succ short, there⟩

theorem ne_nil_of_mem_walk (member : way ∈ d.walk n l) : way ≠ [] := by
  cases n with
  | zero => cases member
  | succ n =>
    obtain ⟨name, -, member⟩ := List.mem_flatMap.mp member
    obtain ⟨rest, -, rfl⟩ := List.mem_map.mp member
    exact List.cons_ne_nil name rest

/-- A walk goes through a tree in the order of components. -/
theorem ascending_walk (d : Disk) (n : Nat) (l : Location) :
    (d.walk n l).Pairwise fun a b => a.map Text.bytes < b.map Text.bytes := by
  induction n generalizing l with
  | zero => exact List.Pairwise.nil
  | succ n ih =>
    rw [walk, List.pairwise_flatMap]
    constructor
    · intro name _
      have inner : ([] :: if d.lookup (l.child name) = some .directory then d.walk n (l.child name) else []).Pairwise
          fun a b => a.map Text.bytes < b.map Text.bytes := by
        split
        · refine List.pairwise_cons.mpr ⟨fun way member => ?_, ih (l.child name)⟩
          obtain ⟨first, rest, rfl⟩ := List.exists_cons_of_ne_nil (ne_nil_of_mem_walk member)
          exact List.nil_lt_cons _ _
        · exact List.pairwise_singleton _ _
      refine List.pairwise_map.mpr (inner.imp fun {a b} before => ?_)
      exact List.cons_lt_cons_iff.mpr (Or.inr ⟨rfl, before⟩)
    · refine (d.ascending_names l).imp fun {a b} before x first y second => ?_
      obtain ⟨rest, -, rfl⟩ := List.mem_map.mp first
      obtain ⟨rest', -, rfl⟩ := List.mem_map.mp second
      exact List.cons_lt_cons_iff.mpr (Or.inl before)

theorem exists_depth (d : Disk) (l : Location) :
    ∃ n, ∀ way, (d.lookup (l.down way)).isSome → way.length ≤ n := by
  obtain ⟨n, bound⟩ : ∃ n, ∀ x ∈ d.entries.toList, x.1.way.length ≤ n := by
    induction d.entries.toList with
    | nil => exact ⟨0, nofun⟩
    | cons x rest ih =>
      obtain ⟨n, bound⟩ := ih
      refine ⟨max x.1.way.length n, fun y member => ?_⟩
      rcases List.mem_cons.mp member with rfl | behind
      · exact Nat.le_max_left _ _
      · exact Nat.le_trans (bound y behind) (Nat.le_max_right _ _)
  refine ⟨n, fun way there => ?_⟩
  by_cases below : way = []
  · rw [below]
    exact Nat.zero_le n
  · obtain ⟨entry, found⟩ := Option.isSome_iff_exists.mp there
    have deep := bound _ ((mem_entries below).mpr found)
    rw [Location.way_down, List.length_append] at deep
    omega

def holdsFile (d : Disk) (l : Location) (way : Way) : Bool :=
  match d.lookup (l.down way) with
  | some (.file _) => true
  | _ => false

theorem holdsFile_iff : d.holdsFile l way = true ↔ ∃ content, d.lookup (l.down way) = some (.file content) := by
  unfold holdsFile
  split
  · rename_i content found
    exact ⟨fun _ => ⟨content, found⟩, fun _ => rfl⟩
  · rename_i other
    constructor
    · exact nofun
    · rintro ⟨content, found⟩
      exact absurd found (other content)

theorem find?_of_directory {p : Path} (opened : d.directory p = .ok l) :
    d.find? p = some .directory ∧ d.lookup l = some .directory := by
  obtain ⟨located, entry⟩ := directory_eq_ok.mp opened
  have here : d.lookup l = some .directory := (entryAt_eq_ok.mp entry).2
  unfold find?
  rw [located]
  exact ⟨here, here⟩

theorem nil_notMem_filesBelow (top : d.entries[Location.root]? = none) (there : d.lookup l = some .directory) :
    [] ∉ d.filesBelow l := by
  intro member
  unfold filesBelow Way.sort at member
  rw [List.mem_mergeSort, List.mem_filterMap] at member
  obtain ⟨⟨m, content | _⟩, member, leads⟩ := member
  · cases eq_down_of_wayTo? leads
    have entry : d.entries[l]? = some (.file content) := Std.ExtTreeMap.mem_toList_iff_getElem?_eq_some.mp member
    unfold lookup at there
    split at there
    · rename_i root
      rw [root, top] at entry
      cases entry
    · cases entry.symm.trans there
  · cases leads

theorem mem_directoriesBelow :
    way ∈ d.directoriesBelow l ↔ way ≠ [] ∧ d.lookup (l.down way) = some .directory := by
  unfold directoriesBelow
  rw [List.mem_filterMap]
  constructor
  · rintro ⟨⟨m, entry⟩, member, leads⟩
    dsimp only at leads
    split at leads
    · rename_i name names found
      cases leads
      cases eq_down_of_wayTo? found
      exact ⟨List.cons_ne_nil name names, (mem_entries (List.cons_ne_nil name names)).mp member⟩
    · cases leads
  · rintro ⟨below, entry⟩
    obtain ⟨name, names, rfl⟩ := List.exists_cons_of_ne_nil below
    have leads : l.wayTo? (l.down (name :: names)) = some (name :: names) :=
      Location.wayTo?_eq_some.mpr (Location.way_down _)
    refine ⟨_, (mem_entries below).mpr entry, ?_⟩
    dsimp only
    rw [leads]

theorem nodup_directoriesBelow (d : Disk) (l : Location) : (d.directoriesBelow l).Nodup := by
  refine nodup_of_entries l.down ?_
  rintro ⟨m, entry⟩ way found
  dsimp only at found
  split at found
  · rename_i leads
    cases found
    exact eq_down_of_wayTo? leads
  · cases found

theorem ascending_visits (d : Disk) (n : Nat) (l : Location) (deep : Bool) :
    ([] :: if deep then d.walk n l else []).Pairwise fun a b => a.map Text.bytes < b.map Text.bytes := by
  cases deep with
  | false => exact List.pairwise_singleton _ _
  | true =>
    refine List.pairwise_cons.mpr ⟨fun way member => ?_, ascending_walk d n l⟩
    obtain ⟨name, rest, rfl⟩ := List.exists_cons_of_ne_nil (ne_nil_of_mem_walk member)
    exact List.nil_lt_cons _ _

theorem nodup_entered (d : Disk) (l : Location) (deep : Bool) : (Workspace.entered d l deep).Nodup := by
  unfold Workspace.entered
  cases deep with
  | false => exact List.nodup_singleton _
  | true => exact List.nodup_cons.mpr ⟨fun member => (mem_directoriesBelow.mp member).1 rfl, nodup_directoriesBelow d l⟩

section Walk
variable (tree : d.Tree) (there : d.lookup l = some .directory)
  (bound : ∀ way, (d.lookup (l.down way)).isSome → way.length ≤ n)
include tree bound

theorem walk_of_le {m : Nat} (deeper : n ≤ m) : d.walk m l = d.walk n l := by
  refine eq_of_ascending (d.ascending_walk m l) (d.ascending_walk n l) fun way => ?_
  rw [mem_walk tree.nested, mem_walk tree.nested]
  constructor
  · rintro ⟨below, -, found⟩
    exact ⟨below, bound way found, found⟩
  · rintro ⟨below, short, found⟩
    exact ⟨below, Nat.le_trans short deeper, found⟩

include there in
theorem filesBelow_eq_walk : d.filesBelow l = (d.walk n l).filter (d.holdsFile l) := by
  refine eq_of_ascending (d.ascending_filesBelow l) ((d.ascending_walk n l).filter _) fun way => ?_
  rw [List.mem_filter, mem_walk tree.nested, holdsFile_iff]
  cases way with
  | nil => simp [nil_notMem_filesBelow tree.top there]
  | cons name way =>
    rw [mem_filesBelow (List.cons_ne_nil name way)]
    constructor
    · rintro ⟨content, found⟩
      have some : (d.lookup (l.down (name :: way))).isSome := by rw [found]; rfl
      exact ⟨⟨List.cons_ne_nil name way, bound _ some, some⟩, content, found⟩
    · exact fun held => held.2

omit tree bound in
theorem findSome?_filter {α β : Type} {p : α → Bool} {f g : α → Option β}
    (same : ∀ x, g x = if p x then f x else none) (xs : List α) : (xs.filter p).findSome? f = xs.findSome? g := by
  induction xs with
  | nil => rfl
  | cons x xs ih =>
    cases kept : p x with
    | true =>
      have here : g x = f x := by rw [same, if_pos kept]
      rw [List.filter_cons_of_pos kept, List.findSome?_cons, List.findSome?_cons, here, ih]
    | false =>
      have here : g x = none := by simp [same, kept]
      rw [List.filter_cons_of_neg (by simp [kept]), List.findSome?_cons, here, ih]

include there in
theorem mem_entered (deep : Bool) : way ∈ Workspace.entered d l deep ↔
    (way ∈ [] :: if deep then d.walk n l else []) ∧ d.lookup (l.down way) = some .directory := by
  have here : d.lookup (l.down []) = some .directory := there
  unfold Workspace.entered
  rw [List.mem_cons, List.mem_cons]
  by_cases start : way = []
  · subst start
    simp [here]
  · cases deep with
    | false => simp [start]
    | true =>
      simp only [start, false_or, if_true, mem_directoriesBelow, mem_walk tree.nested]
      constructor
      · rintro ⟨-, directory⟩
        have some : (d.lookup (l.down way)).isSome := by rw [directory]; rfl
        exact ⟨⟨start, bound way some, some⟩, directory⟩
      · rintro ⟨-, directory⟩
        exact ⟨start, directory⟩

include there in
/-- The directory that ends a listing is the first one that it comes past and cannot list. -/
theorem unlistable?_eq_walk (start : Path) (deep : Bool) :
    Workspace.unlistable? d start l (Workspace.entered d l deep) =
    ([] :: if deep then d.walk n l else []).findSome? fun way =>
      if d.lookup (l.down way) = some .directory then
        (d.listingFault? (Workspace.along start way) (l.down way)).map (.walk (Workspace.along start way))
      else none := by
  let fault? (way : Way) : Option DiskFault := d.listingFault? (Workspace.along start way) (l.down way)
  let faulty (way : Way) : Bool := decide (d.lookup (l.down way) = some .directory) && (fault? way).isSome
  have same : Way.sort ((Workspace.entered d l deep).filter fun way => (fault? way).isSome) =
      ([] :: if deep then d.walk n l else []).filter faulty := by
    refine eq_of_ascending (Way.ascending_sort ((nodup_entered d l deep).filter _))
      ((ascending_visits d n l deep).filter _) fun way => ?_
    unfold Way.sort
    rw [List.mem_mergeSort, List.mem_filter, List.mem_filter, mem_entered tree there bound deep,
      Bool.and_eq_true, decide_eq_true_eq, and_assoc]
  unfold Workspace.unlistable?
  dsimp only
  rw [same]
  refine findSome?_filter (fun way => ?_) _
  by_cases directory : d.lookup (l.down way) = some .directory
  · cases fault : d.listingFault? (Workspace.along start way) (l.down way) <;> simp [faulty, fault?, directory, fault]
  · simp [faulty, directory]

end Walk

end Disk
end RomLinker
