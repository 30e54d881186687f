import RomLinker.Proofs.Disk.Change
import RomLinker.Proofs.Extmod

/-!
Files beside each other. Where all entries lie in directories, a file is what the last name of its path says
(`name_of_locate`), and with one name that leads somewhere, every other name beside it does
(`locate_beside`).
-/
namespace RomLinker.Disk

variable {d : Disk} {l m : Location} {p q : Path} {front : List String} {s t : String}

/-- All that is on the disk lies in a directory. -/
def Nested (d : Disk) : Prop := ∀ l, d.lookup l ≠ none → d.lookup l.parent = some .directory

theorem nested_empty : Disk.empty.Nested := by
  intro m there
  by_cases root : m = .root
  · rw [root]
    exact lookup_root _
  · unfold lookup Disk.empty at there
    rw [if_neg root, Std.ExtTreeMap.getElem?_empty] at there
    exact absurd rfl there

theorem Nested.insert {entry : Entry} (nested : d.Nested) (below : l ≠ .root) (free : d.lookup l = none)
    (parent : d.lookup l.parent = some .directory) : (d.insert l entry).Nested := by
  intro m there
  have apart {k : Location} (directory : d.lookup k = some .directory) :
      (d.insert l entry).lookup k = some .directory := by
    rw [lookup_insert below, if_neg]
    · exact directory
    · rintro rfl
      cases free.symm.trans directory
  rw [lookup_insert below] at there
  by_cases here : m = l
  · rw [here]
    exact apart parent
  · rw [if_neg here] at there
    exact apart (nested m there)

theorem foldlM_step_concat {k : Location} :
    (front ++ [s]).foldlM d.step l = .ok k ↔
      ∃ m, front.foldlM d.step l = .ok m ∧ d.entryAt m = .ok (some .directory) ∧ k = m.move s := by
  rw [List.foldlM_append]
  cases front.foldlM d.step l with
  | error fault => simp [bind, Except.bind]
  | ok m =>
    simp only [bind, Except.bind, List.foldlM_cons, List.foldlM_nil, Except.ok.injEq, exists_eq_left']
    rw [← step_eq_ok]
    cases d.step m s <;> simp [pure, Except.pure]

theorem locate_concat (split : p.segments = front ++ [s]) :
    d.locate p = .ok l ↔ textFault? p = none ∧
      ∃ m, front.foldlM d.step (d.origin p) = .ok m ∧ d.entryAt m = .ok (some .directory) ∧ l = m.move s := by
  unfold locate follow
  rw [split, ← foldlM_step_concat]
  cases textFault? p <;> simp

theorem exists_concat (p : Path) : ∃ front s, p.segments = front ++ [s] := by
  rcases List.eq_nil_or_concat p.segments with none | ⟨front, s, split⟩
  · exact absurd (List.map_eq_nil_iff.mp none) (Text.pieces_ne_nil _ _)
  · exact ⟨front, s, split.trans List.concat_eq_append⟩

theorem name_of_locate (nested : d.Nested) (split : p.segments = front ++ [s])
    (located : d.locate p = .ok l) (file : d.lookup l ≠ some .directory) : Path.isName s = true := by
  obtain ⟨-, m, -, entry, rfl⟩ := (locate_concat split).mp located
  have directory := (entryAt_eq_ok.mp entry).2
  unfold Path.isName
  rw [Bool.and_eq_true]
  constructor
  · cases void : Path.isVoid s with
    | false => rfl
    | true =>
      rw [Location.move_of_void void] at file
      exact absurd directory file
  · by_cases up : s = ".."
    · have parent : m.move s = m.parent := by rw [up]; rfl
      rw [parent] at file
      exact absurd (nested m (by rw [directory]; exact nofun)) file
    · simp [up]

theorem named_of_locate (located : d.locate p = .ok l) (file : d.lookup l ≠ some .directory) :
    p.named = p.segments := by
  obtain ⟨slashes, split, blank⟩ := Path.segments_eq_named p
  rcases List.eq_nil_or_concat slashes with rfl | ⟨rest, s, rfl⟩
  · exact (split.trans (List.append_nil _)).symm
  · rw [List.concat_eq_append] at split blank
    rw [← List.append_assoc] at split
    obtain ⟨-, m, -, entry, rfl⟩ := (locate_concat split).mp located
    rw [blank s (by simp)] at file
    exact absurd (entryAt_eq_ok.mp entry).2 file

theorem locate_beside (split : p.segments = front ++ [s]) (split' : q.segments = front ++ [t])
    (filled : s ≠ "") (filled' : t ≠ "") (located : d.locate p = .ok l) (fine : textFault? q = none) :
    ∃ m, d.lookup m = some .directory ∧ l = m.move s ∧ d.locate q = .ok (m.move t) := by
  have start : d.origin q = d.origin p := by
    unfold origin
    rw [Path.isAbsolute_congr split' split filled' filled]
  obtain ⟨-, m, walk, entry, rfl⟩ := (locate_concat split).mp located
  refine ⟨m, (entryAt_eq_ok.mp entry).2, rfl, (locate_concat split').mpr ⟨fine, m, ?_, entry, rfl⟩⟩
  rw [start]
  exact walk

def contentOf : Option Entry → ByteArray
  | some (.file content) => content
  | some .directory | none => .empty

theorem openPlace_of_locate {found : Option Entry} (located : d.locate p = .ok l)
    (entry : d.entryAt l = .ok found) (file : found ≠ some .directory)
    (granted : d.obstacles.refused .writeFile l = none) : d.openPlace p = .ok l := by
  have here := (entryAt_eq_ok.mp entry).2
  have whole : p.named = p.segments := named_of_locate located (here ▸ file)
  refine openPlace_eq_ok.mpr ⟨target_eq_ok.mpr ⟨?_, by simp [whole]⟩, ⟨found, entry, file⟩, granted⟩
  rw [whole]
  exact located

/-- What is added to a file comes behind what is in it, up to where the system breaks off. -/
theorem append_of_openPlace {content : ByteArray} (opened : d.openPlace p = .ok l) :
    d.append p content = d.put l (contentOf (d.lookup l)) content := by
  unfold append
  rw [opened]
  dsimp only
  cases d.lookup l with
  | none => rfl
  | some found => cases found <;> rfl

end RomLinker.Disk
