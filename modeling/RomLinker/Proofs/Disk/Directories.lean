import RomLinker.Proofs.Disk.Change

/-!
Making directories. Whatever comes of it, the only change is that free places on the way become
directories (`makeDirectories_makes`).
-/
namespace RomLinker.Disk
variable {d e f : Disk} {l m : Location} {p : Path} {segments : List String}

/-- Free places of some kind become directories, and nothing else changes. -/
structure Makes (kind : Location → Prop) (d e : Disk) : Prop where
  cwd : e.workingDirectory = d.workingDirectory
  obstacles : e.obstacles = d.obstacles
  entry : ∀ l, e.lookup l = d.lookup l ∨
    (kind l ∧ d.lookup l = none ∧ e.lookup l = some .directory)

namespace Makes
variable {kind other : Location → Prop}

theorem refl (kind : Location → Prop) (d : Disk) : Makes kind d d := ⟨rfl, rfl, fun _ => Or.inl rfl⟩

theorem trans (first : Makes kind d e) (second : Makes kind e f) : Makes kind d f := by
  refine ⟨second.cwd.trans first.cwd, second.obstacles.trans first.obstacles, fun l => ?_⟩
  rcases second.entry l with same | ⟨here, free, made⟩
  · rw [same]
    exact first.entry l
  · rcases first.entry l with same | ⟨-, -, old⟩
    · exact Or.inr ⟨here, same ▸ free, made⟩
    · cases free.symm.trans old

theorem mono (makes : Makes kind d e) (wider : ∀ l, kind l → other l) : Makes other d e :=
  ⟨makes.cwd, makes.obstacles, fun l => (makes.entry l).imp_right fun ⟨here, rest⟩ => ⟨wider l here, rest⟩⟩

theorem keeps (makes : Makes kind d e) : d.KeepsDirectories e := by
  intro l directory
  rcases makes.entry l with same | ⟨-, free, -⟩
  · exact same.trans directory
  · cases free.symm.trans directory

end Makes

/-- A place that a part of a way leads to. -/
def OnWay (l : Location) (segments : List String) (m : Location) : Prop :=
  ∃ front, front <+: segments ∧ m = front.foldl Location.move l

theorem ensureDirectory_eq_ok (h : d.ensureDirectory l segments = .ok (m, e)) :
    m = segments.foldl Location.move l ∧ Makes (· = m) d e := by
  unfold ensureDirectory at h
  obtain ⟨n, walk, h⟩ := Except.bind_eq_ok.mp h
  obtain ⟨found, entry, h⟩ := Except.bind_eq_ok.mp h
  have place := foldlM_step_eq_ok walk
  rcases found with _ | _ | _
  · have free := (entryAt_eq_ok.mp entry).2
    have below : n ≠ .root := ne_root_of_lookup free nofun
    obtain ⟨k, granted, made⟩ := Except.bind_eq_ok.mp h
    obtain ⟨-, rfl⟩ := grant_eq_ok.mp granted
    cases made
    refine ⟨place, rfl, rfl, fun k => ?_⟩
    rw [lookup_insert below]
    by_cases here : k = m
    · subst here
      exact Or.inr ⟨rfl, free, if_pos rfl⟩
    · exact Or.inl (if_neg here)
  · cases h
  · cases h
    exact ⟨place, Makes.refl _ _⟩

theorem ensureEach_makes (d : Disk) (l : Location) (segments : List String) :
    Makes (OnWay l segments) d (d.ensureEach l segments).2 ∧
      ∀ m, (d.ensureEach l segments).1 = .ok m → m = segments.foldl Location.move l := by
  induction segments generalizing d l with
  | nil => exact ⟨Makes.refl _ _, fun m h => (Except.ok.inj h).symm⟩
  | cons segment rest ih =>
    rw [ensureEach]
    rcases first : d.ensureDirectory l [segment] with fault | ⟨n, e⟩
    · exact ⟨Makes.refl _ _, nofun⟩
    · obtain ⟨place, makes⟩ := ensureDirectory_eq_ok first
      obtain ⟨later, last⟩ := ih e n
      have here : n = l.move segment := place
      refine ⟨(makes.mono fun k same => ?_).trans (later.mono fun k onWay => ?_), fun m h => ?_⟩
      · exact ⟨[segment], ⟨rest, rfl⟩, same.trans here⟩
      · obtain ⟨front, ⟨back, split⟩, same⟩ := onWay
        refine ⟨segment :: front, ⟨back, by rw [List.cons_append, split]⟩, ?_⟩
        rw [same, here]
        rfl
      · rw [last m h, here]
        rfl

theorem ensureWay_makes (d : Disk) (l : Location) (way : List String) :
    Makes (OnWay l way) d (d.ensureWay l way).2 := by
  have whole : OnWay l way (way.foldl Location.move l) := ⟨way, List.prefix_rfl, rfl⟩
  unfold ensureWay
  split
  · rename_i m e made
    obtain ⟨place, makes⟩ := ensureDirectory_eq_ok made
    refine makes.mono fun k same => ?_
    rw [same, place]
    exact whole
  · have front : (way.reverse.dropWhile Path.isVoid).tail.reverse <+: way := by
      rw [← List.reverse_suffix, List.reverse_reverse]
      exact (List.tail_suffix _).trans (List.dropWhile_suffix _)
    generalize (way.reverse.dropWhile Path.isVoid).tail.reverse = above at front
    obtain ⟨makes, last⟩ := ensureEach_makes d l above
    have upper : Makes (OnWay l way) d (d.ensureEach l above).2 :=
      makes.mono fun k ⟨front', part, same⟩ => ⟨front', part.trans front, same⟩
    rcases each : d.ensureEach l above with ⟨fault | n, e⟩
    · rw [each] at upper
      simp only [each]
      exact upper
    · rw [each] at upper last
      simp only [each]
      rcases made : e.ensureDirectory n (way.drop above.length) with fault | ⟨m, f⟩
      · exact upper
      · obtain ⟨place, lower⟩ := ensureDirectory_eq_ok made
        refine upper.trans (lower.mono fun k same => ?_)
        obtain ⟨back, rfl⟩ := front
        rw [List.drop_left, last n rfl, ← List.foldl_append] at place
        rw [same, place]
        exact whole
  · exact Makes.refl _ _

/-- Free places on the way of the path become directories, and nothing else changes. -/
theorem makeDirectories_makes (d : Disk) (p : Path) :
    Makes (OnWay (d.origin p) p.named) d (d.makeDirectories p).2 := by
  unfold makeDirectories
  split
  · exact Makes.refl _ _
  · split
    · exact Makes.refl _ _
    · exact ensureWay_makes d (d.origin p) p.named

theorem lookup_of_walk {front : List String} (front_of : front <+: segments)
    (shorter : front ≠ segments) (walk : segments.foldlM d.step l = .ok m) :
    d.lookup (front.foldl Location.move l) = some .directory := by
  obtain ⟨back, rfl⟩ := front_of
  cases back with
  | nil => exact absurd (List.append_nil front).symm shorter
  | cons segment rest =>
    rw [List.foldlM_append] at walk
    obtain ⟨n, first, walk⟩ := Except.bind_eq_ok.mp walk
    rw [List.foldlM_cons] at walk
    obtain ⟨k, next, -⟩ := Except.bind_eq_ok.mp walk
    rw [← foldlM_step_eq_ok first]
    exact (entryAt_eq_ok.mp (step_eq_ok.mp next).1).2

end RomLinker.Disk
