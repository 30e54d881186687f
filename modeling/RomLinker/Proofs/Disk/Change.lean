import RomLinker.Proofs.Disk.Place

/-!
What the operations of a disk change. A file that is written, added to or replaced changes one place
(`Writes`), also where the system breaks it off (`store_eq_error`), and one that is removed leaves its
place free (`Removable`, `Cleared`). None of them takes a directory away.
-/
namespace RomLinker.Disk
variable {d e f : Disk} {l m : Location} {p : Path}

theorem order_eq_eq : l.order m = .eq ↔ l = m := Std.LawfulEqCmp.compare_eq_iff_eq

/-- A change of one entry, which is not the root's, as it is seen from any place. -/
theorem lookup_of_changed {changed : Option Entry} (below : l ≠ .root)
    (entries : e.entries[m]? = if l.order m = .eq then changed else d.entries[m]?) :
    e.lookup m = if m = l then changed else d.lookup m := by
  unfold lookup
  simp only [entries, order_eq_eq]
  by_cases root : m = .root
  · have apart : ¬m = l := fun same => below (same.symm.trans root)
    rw [if_pos root, if_neg apart, if_pos root]
  · rw [if_neg root, if_neg root]
    by_cases same : l = m
    · rw [if_pos same, if_pos same.symm]
    · rw [if_neg same, if_neg (Ne.symm same)]

theorem lookup_obstructed (d : Disk) (obstacles : Obstacles) (l : Location) :
    { d with obstacles }.lookup l = d.lookup l := rfl

theorem lookup_insert {entry : Entry} (below : l ≠ .root) :
    (d.insert l entry).lookup m = if m = l then some entry else d.lookup m :=
  lookup_of_changed below Std.ExtTreeMap.getElem?_insert

def erase (d : Disk) (l : Location) : Disk := { d with entries := d.entries.erase l }

theorem lookup_erase (below : l ≠ .root) :
    (d.erase l).lookup m = if m = l then none else d.lookup m :=
  lookup_of_changed below Std.ExtTreeMap.getElem?_erase

theorem ne_root_of_lookup {found : Option Entry} (entry : d.lookup l = found)
    (file : found ≠ some .directory) : l ≠ .root := by
  rintro rfl
  exact file (entry.symm.trans (lookup_root d))

theorem read_eq_ok {content : ByteArray} :
    d.read p = .ok content ↔ ∃ l, d.locate p = .ok l ∧ d.entryAt l = .ok (some (.file content)) := by
  unfold read
  cases located : d.locate p with
  | error fault => simp [bind, Except.bind]
  | ok l =>
    cases entry : d.entryAt l with
    | error fault => simp [entry, bind, Except.bind]
    | ok found =>
      rcases found with _ | _ | _
      · simp [entry, bind, Except.bind]
      · simp [entry, bind, Except.bind]
      · simp [entry, bind, Except.bind]

theorem KeepsDirectories.read_of_lookup {old content : ByteArray} (keeps : d.KeepsDirectories e)
    (cwd : e.workingDirectory = d.workingDirectory) (h : d.read p = .ok old)
    (entry : e.lookup (d.place p) = some (.file content)) : e.read p = .ok content := by
  obtain ⟨l, located, found⟩ := read_eq_ok.mp h
  rw [← locate_eq_place located] at entry
  exact read_eq_ok.mpr ⟨l, keeps.follow cwd located,
    entryAt_eq_ok.mpr ⟨(entryAt_eq_ok.mp found).1, entry⟩⟩

theorem KeepsDirectories.read {content : ByteArray} (keeps : d.KeepsDirectories e)
    (cwd : e.workingDirectory = d.workingDirectory)
    (same : e.lookup (d.place p) = d.lookup (d.place p)) (h : d.read p = .ok content) :
    e.read p = .ok content := by
  obtain ⟨l, located, entry⟩ := read_eq_ok.mp h
  refine keeps.read_of_lookup cwd h ?_
  rw [same, ← locate_eq_place located]
  exact (entryAt_eq_ok.mp entry).2

/-! ### Writing -/

theorem locate_of_target (target : d.target p = .ok (l, false)) : d.locate p = .ok l := by
  obtain ⟨walk, bare⟩ := target_eq_ok.mp target
  have whole : p.named = p.segments := by
    obtain ⟨slashes, split, -⟩ := Path.segments_eq_named p
    have size := congrArg List.length split
    rw [List.length_append] at size
    have none : slashes.length = 0 := by
      have longer := of_decide_eq_false bare.symm
      omega
    rw [split, List.eq_nil_of_length_eq_zero none, List.append_nil]
  rw [whole] at walk
  exact walk

def FileAt (d : Disk) (p : Path) (l : Location) : Prop :=
  d.target p = .ok (l, false) ∧ ∃ content, d.entryAt l = .ok (some (.file content))

/-- A file at the place of a path, where no directory is. -/
structure Writes (p : Path) (l : Location) (content : ByteArray) (d e : Disk) : Prop where
  target : d.target p = .ok (l, false)
  entry : ∃ found, d.entryAt l = .ok found ∧ found ≠ some .directory
  result : e = d.insert l (.file content)

namespace Writes
variable {content : ByteArray}

theorem place (writes : Writes p l content d e) : l = d.place p := target_eq_place writes.target

theorem ne_root (writes : Writes p l content d e) : l ≠ .root := by
  obtain ⟨found, entry, file⟩ := writes.entry
  exact ne_root_of_lookup (entryAt_eq_ok.mp entry).2 file

theorem lookup (writes : Writes p l content d e) :
    e.lookup m = if m = l then some (.file content) else d.lookup m := by
  rw [writes.result, lookup_insert writes.ne_root]

theorem directory (writes : Writes p l content d e) (there : e.lookup m = some .directory) :
    d.lookup m = some .directory := by
  rw [writes.lookup] at there
  split at there
  · cases there
  · exact there

theorem cwd (writes : Writes p l content d e) : e.workingDirectory = d.workingDirectory := by
  rw [writes.result]
  rfl

theorem obstacles (writes : Writes p l content d e) : e.obstacles = d.obstacles := by
  rw [writes.result]
  rfl

theorem keeps (writes : Writes p l content d e) : d.KeepsDirectories e := by
  intro m directory
  obtain ⟨found, entry, file⟩ := writes.entry
  have apart : m ≠ l := by
    rintro rfl
    exact file ((entryAt_eq_ok.mp entry).2.symm.trans directory)
  rw [writes.lookup, if_neg apart]
  exact directory

theorem entryAt (writes : Writes p l content d e) : e.entryAt l = .ok (some (.file content)) := by
  obtain ⟨found, entry, -⟩ := writes.entry
  exact entryAt_eq_ok.mpr ⟨(entryAt_eq_ok.mp entry).1, by rw [writes.lookup, if_pos rfl]⟩

theorem fileAt (writes : Writes p l content d e) : e.FileAt p l :=
  ⟨writes.keeps.target writes.cwd writes.target, content, writes.entryAt⟩

theorem read (writes : Writes p l content d e) : e.read p = .ok content :=
  read_eq_ok.mpr ⟨l, locate_of_target (writes.keeps.target writes.cwd writes.target), writes.entryAt⟩

end Writes

theorem grant_eq_ok {access : Access} :
    d.grant access l = .ok m ↔ d.obstacles.refused access l = none ∧ m = l := by
  unfold grant
  cases d.obstacles.refused access l with
  | some fault => simp
  | none => simp [eq_comm]

theorem openPlace_eq_ok : d.openPlace p = .ok l ↔ d.target p = .ok (l, false) ∧
    (∃ found, d.entryAt l = .ok found ∧ found ≠ some .directory) ∧
    d.obstacles.refused .writeFile l = none := by
  unfold openPlace
  rw [Except.bind_eq_ok]
  constructor
  · rintro ⟨⟨m, slash⟩, target, h⟩
    cases slash with
    | true => cases h
    | false =>
      obtain ⟨found, entry, h⟩ := Except.bind_eq_ok.mp h
      rcases found with _ | _ | _
      · obtain ⟨granted, rfl⟩ := grant_eq_ok.mp h
        exact ⟨target, ⟨none, entry, nofun⟩, granted⟩
      · obtain ⟨granted, rfl⟩ := grant_eq_ok.mp h
        exact ⟨target, ⟨_, entry, nofun⟩, granted⟩
      · cases h
  · rintro ⟨target, ⟨found, entry, file⟩, granted⟩
    refine ⟨(l, false), target, Except.bind_eq_ok.mpr ⟨found, entry, ?_⟩⟩
    rcases found with _ | _ | _
    · exact grant_eq_ok.mpr ⟨granted, rfl⟩
    · exact grant_eq_ok.mpr ⟨granted, rfl⟩
    · exact absurd rfl file

section Opened
variable {before content : ByteArray} (opened : d.openPlace p = .ok l)
include opened

theorem put_eq_ok (h : d.put l before content = (.ok (), e)) : Writes p l (before ++ content) d e := by
  obtain ⟨target, entry, -⟩ := openPlace_eq_ok.mp opened
  unfold put at h
  split at h
  · cases h
  · exact ⟨target, entry, (congrArg Prod.snd h).symm⟩

theorem put_eq_error {fault : DiskFault} (h : d.put l before content = (.error fault, e)) :
    ∃ count, d.obstacles.brokenOff d.entries l content = some (count, fault) ∧
      Writes p l (before ++ content.extract 0 count) d e := by
  obtain ⟨target, entry, -⟩ := openPlace_eq_ok.mp opened
  unfold put at h
  split at h
  · rename_i count other broken
    cases h
    exact ⟨count, broken, target, entry, rfl⟩
  · cases h

end Opened

theorem store_eq_ok {content : ByteArray} (h : d.store p content = (.ok (), e)) :
    ∃ l, Writes p l content d e := by
  unfold store at h
  split at h
  · cases h
  · rename_i l opened
    have writes := put_eq_ok opened h
    rw [ByteArray.empty_append] at writes
    exact ⟨l, writes⟩

/-- Where the system breaks a write off, the file holds the bytes up to there. -/
structure BreaksOff (p : Path) (l : Location) (content : ByteArray) (count : Nat) (fault : DiskFault)
    (d e : Disk) : Prop where
  broken : d.obstacles.brokenOff d.entries l content = some (count, fault)
  writes : Writes p l (content.extract 0 count) d e

/-- A write that stops has changed nothing, or it was broken off. -/
theorem store_eq_error {content : ByteArray} {fault : DiskFault} (h : d.store p content = (.error fault, e)) :
    e = d ∨ ∃ l count, BreaksOff p l content count fault d e := by
  unfold store at h
  split at h
  · exact Or.inl (congrArg Prod.snd h).symm
  · rename_i l opened
    obtain ⟨count, broken, writes⟩ := put_eq_error opened h
    rw [ByteArray.empty_append] at writes
    exact Or.inr ⟨l, count, broken, writes⟩

theorem append_changes (d : Disk) (p : Path) (content : ByteArray) :
    (d.append p content).2 = d ∨ ∃ l whole, Writes p l whole d (d.append p content).2 := by
  unfold append
  split
  · exact Or.inl rfl
  · rename_i l opened
    have puts (before : ByteArray) : ∃ whole, Writes p l whole d (d.put l before content).2 := by
      rcases result : d.put l before content with ⟨fault | ⟨⟩, e⟩
      · obtain ⟨count, -, writes⟩ := put_eq_error opened result
        exact ⟨_, writes⟩
      · exact ⟨_, put_eq_ok opened result⟩
    split
    · exact Or.inr ⟨l, puts _⟩
    · exact Or.inr ⟨l, puts _⟩

theorem replace_eq_ok {content : ByteArray} (h : d.replace p content = .ok e) :
    ∃ l, Writes p l content d e := by
  unfold replace at h
  obtain ⟨⟨l, slash⟩, target, h⟩ := Except.bind_eq_ok.mp h
  obtain ⟨found, entry, h⟩ := Except.bind_eq_ok.mp h
  cases slash with
  | true => cases h
  | false =>
    simp only [Bool.false_eq_true, if_false] at h
    split at h
    · cases h
    · rename_i file
      obtain ⟨m, granted, made⟩ := Except.bind_eq_ok.mp h
      obtain ⟨-, rfl⟩ := grant_eq_ok.mp granted
      exact ⟨m, target, ⟨found, entry, file⟩, (Except.ok.inj made).symm⟩

/-! ### Removing -/

def Removable (d : Disk) (p : Path) (l : Location) : Prop :=
  d.FileAt p l ∧ d.obstacles.refused .removeFile l = none

theorem Removable.remove (removable : d.Removable p l) : d.remove p = .ok (d.erase l) := by
  obtain ⟨⟨target, content, entry⟩, granted⟩ := removable
  refine Except.bind_eq_ok.mpr ⟨(l, false), target, Except.bind_eq_ok.mpr ⟨_, entry, ?_⟩⟩
  exact Except.bind_eq_ok.mpr ⟨l, grant_eq_ok.mpr ⟨granted, rfl⟩, rfl⟩

theorem remove_eq_ok (h : d.remove p = .ok e) : ∃ l, d.Removable p l ∧ e = d.erase l := by
  unfold remove at h
  obtain ⟨⟨l, slash⟩, target, h⟩ := Except.bind_eq_ok.mp h
  obtain ⟨found, entry, h⟩ := Except.bind_eq_ok.mp h
  rcases found with _ | content | _
  · cases h
  · cases slash with
    | true => cases h
    | false =>
      obtain ⟨m, granted, made⟩ := Except.bind_eq_ok.mp h
      obtain ⟨granted, rfl⟩ := grant_eq_ok.mp granted
      exact ⟨m, ⟨⟨target, content, entry⟩, granted⟩, (Except.ok.inj made).symm⟩
  · cases h

theorem FileAt.unique (file : d.FileAt p l) (file' : d.FileAt p m) : l = m := by
  have same := file.1.symm.trans file'.1
  exact congrArg Prod.fst (Except.ok.inj same)

theorem FileAt.ne_root (file : d.FileAt p l) : l ≠ .root := by
  obtain ⟨-, content, entry⟩ := file
  exact ne_root_of_lookup (entryAt_eq_ok.mp entry).2 nofun

theorem FileAt.persists (file : d.FileAt p l) (keeps : d.KeepsDirectories e)
    (cwd : e.workingDirectory = d.workingDirectory) (same : e.lookup l = d.lookup l) : e.FileAt p l := by
  obtain ⟨target, content, entry⟩ := file
  obtain ⟨short, found⟩ := entryAt_eq_ok.mp entry
  exact ⟨keeps.target cwd target, content, entryAt_eq_ok.mpr ⟨short, same.trans found⟩⟩

theorem Removable.persists (removable : d.Removable p l) (keeps : d.KeepsDirectories e)
    (cwd : e.workingDirectory = d.workingDirectory) (obstacles : e.obstacles = d.obstacles)
    (same : e.lookup l = d.lookup l) : e.Removable p l :=
  ⟨removable.1.persists keeps cwd same, by rw [obstacles]; exact removable.2⟩

/-- Some files were removed, as far as they could be, and nothing else was touched. -/
structure Cleared (done : List Path) (d e : Disk) : Prop where
  cwd : e.workingDirectory = d.workingDirectory
  obstacles : e.obstacles = d.obstacles
  entry : ∀ l, (e.lookup l = none ∧ ∃ p ∈ done, d.Removable p l) ∨
    (e.lookup l = d.lookup l ∧ ∀ p ∈ done, ¬d.Removable p l)

namespace Cleared
variable {done more : List Path}

theorem refl (d : Disk) : Cleared [] d d := ⟨rfl, rfl, fun _ => Or.inr ⟨rfl, nofun⟩⟩

theorem keeps (cleared : Cleared done d e) : d.KeepsDirectories e := by
  intro l directory
  rcases cleared.entry l with ⟨-, p, -, ⟨-, content, entry⟩, -⟩ | ⟨same, -⟩
  · cases (entryAt_eq_ok.mp entry).2.symm.trans directory
  · exact same.trans directory

theorem keeps_back (cleared : Cleared done d e) : e.KeepsDirectories d := by
  intro l directory
  rcases cleared.entry l with ⟨free, -⟩ | ⟨same, -⟩
  · cases free.symm.trans directory
  · exact same.symm.trans directory

theorem removable_iff (cleared : Cleared done d e) :
    e.Removable p l ↔ d.Removable p l ∧ ∀ q ∈ done, ¬d.Removable q l := by
  rcases cleared.entry l with ⟨free, q, member, gone⟩ | ⟨same, others⟩
  · refine ⟨fun ⟨⟨_, content, entry⟩, _⟩ => ?_, fun ⟨_, others⟩ => absurd gone (others q member)⟩
    cases free.symm.trans (entryAt_eq_ok.mp entry).2
  · refine ⟨fun removable => ⟨?_, others⟩, fun ⟨removable, _⟩ => ?_⟩
    · exact removable.persists cleared.keeps_back cleared.cwd.symm cleared.obstacles.symm same.symm
    · exact removable.persists cleared.keeps cleared.cwd cleared.obstacles same

theorem trans (cleared : Cleared done d e) (later : Cleared more e f) : Cleared (done ++ more) d f := by
  refine ⟨later.cwd.trans cleared.cwd, later.obstacles.trans cleared.obstacles, fun l => ?_⟩
  rcases later.entry l with ⟨free, p, member, gone⟩ | ⟨same, kept⟩
  · exact Or.inl ⟨free, p, List.mem_append_right _ member, (cleared.removable_iff.mp gone).1⟩
  · rcases cleared.entry l with ⟨free, q, member, gone⟩ | ⟨same', kept'⟩
    · exact Or.inl ⟨same.trans free, q, List.mem_append_left _ member, gone⟩
    · refine Or.inr ⟨same.trans same', fun p member gone => ?_⟩
      -- what was not removed the first time can still be removed, and so is not among the later ones
      rcases List.mem_append.mp member with old | new
      · exact kept' p old gone
      · exact kept p new (cleared.removable_iff.mpr ⟨gone, kept'⟩)

theorem of_removed (h : d.remove p = .ok e) : Cleared [p] d e := by
  obtain ⟨l, removable, rfl⟩ := remove_eq_ok h
  refine ⟨rfl, rfl, fun m => ?_⟩
  rw [lookup_erase removable.1.ne_root]
  by_cases here : m = l
  · subst here
    exact Or.inl ⟨if_pos rfl, p, List.mem_singleton_self p, removable⟩
  · refine Or.inr ⟨if_neg here, fun q member gone => ?_⟩
    rw [List.mem_singleton.mp member] at gone
    exact here (gone.1.unique removable.1)

theorem of_not_removed {fault : DiskFault} (h : d.remove p = .error fault) : Cleared [p] d d := by
  refine ⟨rfl, rfl, fun l => Or.inr ⟨rfl, fun q member gone => ?_⟩⟩
  rw [List.mem_singleton.mp member] at gone
  cases h.symm.trans gone.remove

end Cleared
end RomLinker.Disk
