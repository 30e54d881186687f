import RomLinker.Disk
import RomLinker.Proofs.Outcome
import RomLinker.Proofs.Path

/-!
Places by the words of a path. `Disk.place` follows segments without looking at the entries on the
way, and what `follow` finds is always that place (`follow_eq_ok`). A way that can be followed can be
followed as long as no directory on it is taken away.
-/
namespace RomLinker

namespace Location

def move (l : Location) (segment : String) : Location :=
  if Path.isVoid segment then l else if segment == ".." then l.parent else l.child segment

/-- All names on the way from the root can stand in a path. -/
def Proper (l : Location) : Prop := ∀ name ∈ l.names, Path.Named name

def Inside (l top : Location) : Prop := ∃ front, front ≠ [] ∧ l.names = front ++ top.names

variable {l m top : Location} {name : String}

theorem move_of_void {segment : String} (void : Path.isVoid segment = true) : l.move segment = l :=
  if_pos void

theorem move_named (named : Path.Named name) : l.move name = l.child name := by
  obtain ⟨void, up⟩ := named.steps
  simp [move, void, up]

theorem inside_child : (l.child name).Inside top ↔ l = top ∨ l.Inside top := by
  constructor
  · rintro ⟨front, some, split⟩
    obtain ⟨first, front, rfl⟩ := List.exists_cons_of_ne_nil some
    have rest : l.names = front ++ top.names := (List.cons.inj split).2
    by_cases none : front = []
    · subst none
      exact Or.inl (ext rest)
    · exact Or.inr ⟨front, none, rest⟩
  · rintro (rfl | ⟨front, -, split⟩)
    · exact ⟨[name], List.cons_ne_nil _ _, rfl⟩
    · exact ⟨name :: front, List.cons_ne_nil _ _, congrArg (List.cons name) split⟩

theorem Inside.of_parent (h : l.parent.Inside top) : l.Inside top := by
  obtain ⟨front, some, split⟩ := h
  obtain ⟨first, front, rfl⟩ := List.exists_cons_of_ne_nil some
  have tail : l.names.tail = (first :: front) ++ top.names := split
  cases names : l.names with
  | nil =>
    rw [names] at tail
    cases tail
  | cons last above =>
    rw [names] at tail
    refine ⟨last :: first :: front, List.cons_ne_nil _ _, ?_⟩
    rw [names]
    exact congrArg (List.cons last) tail

theorem not_inside_of_le (short : l.names.length ≤ m.names.length) : ¬l.Inside m := by
  rintro ⟨front, filled, split⟩
  have size := congrArg List.length split
  have long := List.length_pos_iff.mpr filled
  rw [List.length_append] at size
  omega

theorem not_inside_self : ¬l.Inside l := not_inside_of_le (Nat.le_refl _)

theorem not_inside_child : ¬l.Inside (l.child name) := not_inside_of_le (Nat.le_succ _)

theorem size_le_foldl_move {segments : List String} (down : ".." ∉ segments) :
    l.names.length ≤ (segments.foldl move l).names.length := by
  induction segments generalizing l with
  | nil => exact Nat.le_refl _
  | cons s rest ih =>
    simp only [List.mem_cons, not_or] at down
    have step : l.names.length ≤ (l.move s).names.length := by
      unfold move
      split
      · exact Nat.le_refl _
      · rw [if_neg (by simpa using Ne.symm down.1)]
        exact Nat.le_succ _
    exact Nat.le_trans step (ih down.2)

theorem child_inj {other : String} (same : l.child name = m.child other) : l = m ∧ name = other := by
  have names : name :: l.names = other :: m.names := congrArg Location.names same
  obtain ⟨rfl, rest⟩ := List.cons.inj names
  exact ⟨ext rest, rfl⟩

theorem child_ne_root : l.child name ≠ root := by
  intro same
  cases congrArg Location.names same

end Location

namespace Disk
variable {d e : Disk} {l m : Location} {p : Path} {segments : List String}

theorem lookup_root (d : Disk) : d.lookup .root = some .directory := if_pos rfl

theorem entryAt_eq_ok {found : Option Entry} :
    d.entryAt l = .ok found ↔
      l.names.head?.any (nameLimit < ·.utf8ByteSize) = false ∧ d.lookup l = found := by
  unfold entryAt
  split
  · rename_i long
    simp [long]
  · rename_i short
    simp [short]

theorem step_eq_ok {segment : String} :
    d.step l segment = .ok m ↔ d.entryAt l = .ok (some .directory) ∧ m = l.move segment := by
  unfold step
  cases entry : d.entryAt l with
  | error fault => simp [bind, Except.bind]
  | ok found =>
    rcases found with _ | _ | _
    · simp [bind, Except.bind]
    · simp [bind, Except.bind]
    · simp only [bind, Except.bind, pure, Except.pure, Except.ok.injEq, true_and]
      exact eq_comm

theorem foldlM_step_eq_ok (h : segments.foldlM d.step l = .ok m) :
    m = segments.foldl Location.move l := by
  induction segments generalizing l with
  | nil => exact (Except.ok.inj h).symm
  | cons segment rest ih =>
    rw [List.foldlM_cons] at h
    obtain ⟨next, step, below⟩ := Except.bind_eq_ok.mp h
    rw [List.foldl_cons, ← (step_eq_ok.mp step).2]
    exact ih below

/-- Directories of one disk are directories of the other one. -/
def KeepsDirectories (d e : Disk) : Prop :=
  ∀ l, d.lookup l = some .directory → e.lookup l = some .directory

theorem KeepsDirectories.foldlM_step (keeps : d.KeepsDirectories e)
    (h : segments.foldlM d.step l = .ok m) : segments.foldlM e.step l = .ok m := by
  induction segments generalizing l with
  | nil => exact h
  | cons segment rest ih =>
    rw [List.foldlM_cons] at h ⊢
    obtain ⟨next, step, below⟩ := Except.bind_eq_ok.mp h
    obtain ⟨entry, rfl⟩ := step_eq_ok.mp step
    obtain ⟨short, found⟩ := entryAt_eq_ok.mp entry
    have again : e.step l segment = .ok (l.move segment) :=
      step_eq_ok.mpr ⟨entryAt_eq_ok.mpr ⟨short, keeps l found⟩, rfl⟩
    exact Except.bind_eq_ok.mpr ⟨_, again, ih below⟩

def place (d : Disk) (p : Path) : Location := p.segments.foldl Location.move (d.origin p)

theorem origin_congr (same : e.workingDirectory = d.workingDirectory) (p : Path) :
    e.origin p = d.origin p := by
  unfold origin
  rw [same]

theorem place_congr (same : e.workingDirectory = d.workingDirectory) (p : Path) :
    e.place p = d.place p := by
  unfold place
  rw [origin_congr same]

theorem foldl_move_named (p : Path) (l : Location) :
    p.named.foldl Location.move l = p.segments.foldl Location.move l := by
  obtain ⟨slashes, split, blank⟩ := Path.segments_eq_named p
  rw [split, List.foldl_append]
  generalize p.named.foldl Location.move l = m
  clear split
  induction slashes with
  | nil => rfl
  | cons s rest ih =>
    obtain ⟨rfl, rest_blank⟩ := List.forall_mem_cons.mp blank
    exact ih rest_blank

theorem follow_eq_ok (h : d.follow p segments = .ok l) :
    textFault? p = none ∧ segments.foldlM d.step (d.origin p) = .ok l := by
  unfold follow at h
  split at h
  · cases h
  · rename_i fine
    exact ⟨fine, h⟩

theorem locate_eq_place (h : d.locate p = .ok l) : l = d.place p :=
  foldlM_step_eq_ok (follow_eq_ok h).2

theorem directory_eq_ok :
    d.directory p = .ok l ↔ d.locate p = .ok l ∧ d.entryAt l = .ok (some .directory) := by
  unfold directory
  rw [Except.bind_eq_ok]
  constructor
  · rintro ⟨m, located, step⟩
    obtain ⟨entry, here⟩ := step_eq_ok.mp step
    rw [Location.move_of_void (by decide)] at here
    subst here
    exact ⟨located, entry⟩
  · rintro ⟨located, entry⟩
    exact ⟨l, located, step_eq_ok.mpr ⟨entry, (Location.move_of_void (by decide)).symm⟩⟩

theorem KeepsDirectories.follow (keeps : d.KeepsDirectories e)
    (same : e.workingDirectory = d.workingDirectory) (h : d.follow p segments = .ok l) :
    e.follow p segments = .ok l := by
  obtain ⟨fine, walk⟩ := follow_eq_ok h
  unfold Disk.follow
  rw [fine, origin_congr same]
  exact keeps.foldlM_step walk

theorem target_eq_ok {slash : Bool} :
    d.target p = .ok (l, slash) ↔
      d.follow p p.named = .ok l ∧ slash = decide (p.named.length < p.segments.length) := by
  unfold target
  cases d.follow p p.named with
  | error fault => simp [bind, Except.bind]
  | ok found =>
    simp only [bind, Except.bind, pure, Except.pure, Except.ok.injEq, Prod.mk.injEq]
    exact and_congr_right' eq_comm

theorem target_eq_place {slash : Bool} (h : d.target p = .ok (l, slash)) : l = d.place p := by
  have walk := (follow_eq_ok (target_eq_ok.mp h).1).2
  rw [foldlM_step_eq_ok walk, foldl_move_named]
  rfl

theorem KeepsDirectories.target {slash : Bool} (keeps : d.KeepsDirectories e)
    (same : e.workingDirectory = d.workingDirectory) (h : d.target p = .ok (l, slash)) :
    e.target p = .ok (l, slash) := by
  obtain ⟨walk, slashed⟩ := target_eq_ok.mp h
  exact target_eq_ok.mpr ⟨keeps.follow same walk, slashed⟩

/-! ### Canonical paths -/

theorem proper_move {segment : String} (proper : l.Proper) (plain : Path.Plain segment) :
    (l.move segment).Proper := by
  unfold Location.move
  split
  · exact proper
  · rename_i solid
    split
    · exact fun name member => proper name (List.mem_of_mem_tail member)
    · rename_i down
      refine List.forall_mem_cons.mpr ⟨⟨plain, ?_⟩, proper⟩
      simp [Path.isName, bne, solid, down]

theorem proper_place (proper : d.workingDirectory.Proper) (p : Path) : (d.place p).Proper := by
  have start : (d.origin p).Proper := by
    unfold origin
    split
    · exact fun name member => absurd member List.not_mem_nil
    · exact proper
  have plain (s : String) (member : s ∈ p.segments) := Path.plain_of_mem_segments member
  unfold place
  generalize d.origin p = l at start
  generalize p.segments = segments at plain
  induction segments generalizing l with
  | nil => exact start
  | cons s rest ih =>
    obtain ⟨head, tail⟩ := List.forall_mem_cons.mp plain
    exact ih (l.move s) (proper_move start head) tail

theorem canonicalPlace_eq_ok (h : d.canonicalPlace l segments = .ok m) :
    m = segments.foldl Location.move l := by
  induction segments generalizing l with
  | nil => exact (Except.ok.inj h).symm
  | cons segment rest ih =>
    unfold canonicalPlace at h
    obtain ⟨next, step, below⟩ := Except.bind_eq_ok.mp h
    split at below
    · cases below
    · rw [List.foldl_cons, ← (step_eq_ok.mp step).2]
      exact ih below

theorem canonical?_eq_some {c : Path} (h : d.canonical? p = some c) :
    c = ⟨"/" ++ Path.joinSegments (d.place p).way⟩ := by
  unfold canonical? at h
  split at h
  · cases h
  · split at h
    · rename_i l found
      obtain ⟨entry, -, rfl⟩ := Option.map_eq_some_iff.mp h
      rw [canonicalPlace_eq_ok found]
      rfl
    · cases h

theorem foldl_move_way (proper : l.Proper) : l.way.foldl Location.move .root = l := by
  obtain ⟨names, depth, rfl⟩ := l
  unfold Location.way
  induction names with
  | nil => rfl
  | cons name names ih =>
    obtain ⟨head, tail⟩ := List.forall_mem_cons.mp proper
    rw [List.reverse_cons, List.foldl_append]
    have above := ih tail
    simp only at above ⊢
    rw [above, List.foldl_cons, List.foldl_nil, Location.move_named head]
    rfl

theorem place_canonical (proper : l.Proper) :
    d.place ⟨"/" ++ Path.joinSegments l.way⟩ = l := by
  have start : d.origin ⟨"/" ++ Path.joinSegments l.way⟩ = .root := by
    refine if_pos ?_
    simp [Path.isAbsolute]
  have slash : "/" ++ Path.joinSegments l.way = "" ++ "/" ++ Path.joinSegments l.way := by simp
  rw [place, start, slash, Path.segments_slash]
  by_cases top : l.way = []
  · rw [top, Path.segments_empty, ← foldl_move_way proper, top]
    rfl
  · have steps : (Path.mk (Path.joinSegments l.way)).segments = l.way := by
      refine Path.segments_joinSegments (fun s member => ?_) top
      exact (proper s (List.mem_reverse.mp member)).plain
    rw [steps, Path.segments_empty]
    exact foldl_move_way proper

end Disk
end RomLinker
