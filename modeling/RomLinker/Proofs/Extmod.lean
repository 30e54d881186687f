import RomLinker.Build
import RomLinker.Proofs.Disk.Change

/-!
Where the file beside a ROM lies. Another extension changes the last step of a path at most, so that
the file with it is below a directory only if the ROM is (`inside_of_withExtension`).
-/
namespace RomLinker

namespace Text

theorem pieces_append (cut : Char → Bool) (xs ys : List Char) :
    ∃ a b b' c, pieces cut (xs ++ ys) = a ++ (b ++ b') :: c ∧ pieces cut xs = a ++ [b] ∧
      pieces cut ys = b' :: c := by
  induction xs with
  | nil =>
    obtain ⟨b', c, split⟩ := List.exists_cons_of_ne_nil (pieces_ne_nil cut ys)
    exact ⟨[], [], b', c, split, rfl, split⟩
  | cons x xs ih =>
    obtain ⟨a, b, b', c, whole, front, back⟩ := ih
    by_cases here : cut x
    · refine ⟨[] :: a, b, b', c, ?_, ?_, back⟩
      · rw [List.cons_append, pieces_cons, whole]
        simp [addToPieces, here]
      · rw [pieces_cons, front]
        simp [addToPieces, here]
    · cases a with
      | nil =>
        refine ⟨[], x :: b, b', c, ?_, ?_, back⟩
        · rw [List.cons_append, pieces_cons, whole]
          simp [addToPieces, here]
        · rw [pieces_cons, front]
          simp [addToPieces, here]
      | cons p a =>
        refine ⟨(x :: p) :: a, b, b', c, ?_, ?_, back⟩
        · rw [List.cons_append, pieces_cons, whole]
          simp [addToPieces, here]
        · rw [pieces_cons, front]
          simp [addToPieces, here]

theorem cutAt?_eq_some {cut : Char → Bool} {cs a b : List Char} (h : cutAt? cut cs = some (a, b)) :
    ∃ c, cut c = true ∧ cs = a ++ c :: b := by
  induction cs generalizing a with
  | nil => cases h
  | cons x cs ih =>
    unfold cutAt? at h
    split at h
    · rename_i here
      cases h
      exact ⟨x, here, rfl⟩
    · obtain ⟨⟨a', b'⟩, rest, same⟩ := Option.map_eq_some_iff.mp h
      cases same
      obtain ⟨c, here, split⟩ := ih rest
      exact ⟨c, here, congrArg (List.cons x) split⟩

end Text

namespace Path
variable {p q : Path} {above voids : List String} {last : String}

theorem lastStep?_eq_some (h : p.lastStep? = some (above, last)) :
    ∃ voids, p.segments = p.leadAndBody.1 ++ above ++ last :: voids ∧
      (∀ v ∈ voids, isVoid v = true) ∧ isVoid last = false := by
  unfold lastStep? at h
  split at h
  · cases h
  · rename_i step front found
    cases h
    have split := List.takeWhile_append_dropWhile (p := isVoid) (l := p.leadAndBody.2.reverse)
    have body : p.leadAndBody.2 =
        front.reverse ++ last :: (p.leadAndBody.2.reverse.takeWhile isVoid).reverse := by
      rw [found] at split
      have turned := congrArg List.reverse split
      rw [List.reverse_reverse, List.reverse_append, List.reverse_cons, List.append_assoc] at turned
      exact turned.symm
    refine ⟨(p.leadAndBody.2.reverse.takeWhile isVoid).reverse, ?_, fun v member => ?_, ?_⟩
    · rw [List.append_assoc, ← body, leadAndBody_append]
    · have all := List.all_takeWhile (p := isVoid) (l := p.leadAndBody.2.reverse)
      exact List.all_eq_true.mp all v (List.mem_reverse.mp member)
    · have stop := List.head?_dropWhile_not isVoid p.leadAndBody.2.reverse
      rw [found] at stop
      simpa using stop

theorem ne_up_of_fileName? {name : String} (h : p.fileName? = some name) :
    ∃ above, p.lastStep? = some (above, name) ∧ (name == "..") = false := by
  unfold fileName? at h
  split at h
  · rename_i above last found
    split at h
    · cases h
    · rename_i other
      cases h
      exact ⟨above, found, by simpa using other⟩
  · cases h

/-! ### Places -/

theorem isAbsolute_iff : p.isAbsolute = true ↔ ∃ s rest, p.segments = "" :: s :: rest := by
  unfold isAbsolute segments
  cases text : p.text.toList with
  | nil => simp [Text.pieces]
  | cons c cs =>
    obtain ⟨q, qs, split⟩ := List.exists_cons_of_ne_nil (Text.pieces_ne_nil (· == '/') cs)
    rw [Text.pieces_cons_of_eq split]
    by_cases slash : c = '/'
    · subst slash
      simp
    · simp [slash]

theorem isAbsolute_congr {lead xs ys : List String} {x y : String}
    (left : p.segments = lead ++ x :: xs) (right : q.segments = lead ++ y :: ys) (hx : x ≠ "")
    (hy : y ≠ "") : p.isAbsolute = q.isAbsolute := by
  rw [Bool.eq_iff_iff, isAbsolute_iff, isAbsolute_iff, left, right]
  cases lead with
  | nil => simp [hx, hy]
  | cons first lead => cases lead <;> simp

theorem ne_empty_of_step {s : String} (step : isVoid s = false) : s ≠ "" := by
  rintro rfl
  cases step

end Path

namespace Disk
variable {d : Disk} {p q : Path} {top l : Location} {lead voids : List String} {s : String}

theorem foldl_move_voids (all : ∀ v ∈ voids, Path.isVoid v = true) (l : Location) :
    voids.foldl Location.move l = l := by
  induction voids with
  | nil => rfl
  | cons v voids ih =>
    obtain ⟨first, rest⟩ := List.forall_mem_cons.mp all
    rw [List.foldl_cons, Location.move_of_void first]
    exact ih rest

theorem place_eq_move (split : p.segments = lead ++ s :: voids)
    (all : ∀ v ∈ voids, Path.isVoid v = true) :
    d.place p = (lead.foldl Location.move (d.origin p)).move s := by
  rw [place, split, List.foldl_append, List.foldl_cons, foldl_move_voids all]

theorem inside_move {other : String} (step : Path.isVoid s = false) (down : (s == "..") = false)
    (step' : Path.isVoid other = false) (inside : (l.move other).Inside top) :
    (l.move s).Inside top := by
  have named : l.move s = l.child s := by simp [Location.move, step, down]
  rw [named, Location.inside_child]
  unfold Location.move at inside
  rw [step', if_neg Bool.false_ne_true] at inside
  split at inside
  · exact Or.inr inside.of_parent
  · exact Location.inside_child.mp inside

end Disk

namespace Path
variable {p : Path} {name stem extension : String}

theorem splitExtension_some (h : splitExtension name = (stem, some extension)) :
    name.toList = stem.toList ++ '.' :: extension.toList ∧ stem.toList ≠ [] := by
  unfold splitExtension at h
  split at h
  · rename_i tail front cut
    split at h
    · cases (Prod.mk.inj h).2
    · rename_i filled
      cases h
      obtain ⟨c, dot, split⟩ := Text.cutAt?_eq_some cut
      have turned := congrArg List.reverse split
      rw [List.reverse_reverse, List.reverse_append, List.reverse_cons, List.append_assoc,
        eq_of_beq dot] at turned
      refine ⟨?_, ?_⟩
      · simpa using turned
      · simpa using filled
  · cases (Prod.mk.inj h).2

theorem splitExtension_stem (name : String) :
    ∃ rest, name.toList = (splitExtension name).1.toList ++ rest := by
  rcases h : splitExtension name with ⟨stem, _ | extension⟩
  · unfold splitExtension at h
    split at h
    · split at h
      · cases h
        exact ⟨[], (List.append_nil _).symm⟩
      · cases (Prod.mk.inj h).2
    · cases h
      exact ⟨[], (List.append_nil _).symm⟩
  · obtain ⟨split, -⟩ := splitExtension_some h
    exact ⟨_, split⟩

theorem joinSegments_concat (xs : List String) (s t : String) :
    joinSegments (xs ++ [s]) ++ t = joinSegments (xs ++ [s ++ t]) := by
  cases xs with
  | nil => simp [joinSegments]
  | cons x xs =>
    have filled : x :: xs ≠ [] := List.cons_ne_nil x xs
    unfold joinSegments
    rw [String.intercalate_append_of_ne_nil filled (List.cons_ne_nil _ _),
      String.intercalate_append_of_ne_nil filled (List.cons_ne_nil _ _), String.intercalate_singleton,
      String.intercalate_singleton, String.append_assoc]

theorem stem?_eq_some (h : p.stem? = some stem) :
    ∃ above last, p.lastStep? = some (above, last) ∧ (last == "..") = false ∧ Plain stem := by
  obtain ⟨name, found, rfl⟩ := Option.map_eq_some_iff.mp h
  obtain ⟨above, step, down⟩ := ne_up_of_fileName? found
  refine ⟨above, name, step, down, fun slash => ?_⟩
  obtain ⟨voids, split, -, -⟩ := lastStep?_eq_some step
  obtain ⟨rest, front⟩ := splitExtension_stem name
  have plain : Plain name := by
    refine plain_of_mem_segments (p := p) ?_
    rw [split]
    exact List.mem_append_right _ List.mem_cons_self
  refine plain ?_
  rw [front]
  exact List.mem_append_left _ slash

theorem segments_rename {above : List String} {last tail : String}
    (found : p.lastStep? = some (above, last)) (plain : Plain stem) (plain' : Plain tail) :
    (Path.mk ((p.withBody (above ++ [stem])).text ++ tail)).segments =
      p.leadAndBody.1 ++ above ++ [stem ++ tail] := by
  obtain ⟨voids, split, -, -⟩ := lastStep?_eq_some found
  have filled : (above ++ [stem]).isEmpty = false := by simp
  rw [withBody, filled, Bool.and_false, if_neg Bool.false_ne_true, ← List.append_assoc,
    joinSegments_concat]
  refine segments_joinSegments (fun s member => ?_) (by simp)
  rcases List.mem_append.mp member with old | new
  · refine plain_of_mem_segments (p := p) ?_
    rw [split]
    exact List.mem_append_left _ old
  · rw [List.mem_singleton.mp new]
    unfold Plain
    rw [String.toList_append, List.mem_append]
    exact fun h => h.elim plain plain'

theorem isVoid_of_length {s : String} (long : 2 ≤ s.toList.length) : isVoid s = false := by
  cases void : isVoid s with
  | false => rfl
  | true =>
    unfold isVoid at void
    rw [Bool.or_eq_true, beq_iff_eq, beq_iff_eq] at void
    rcases void with rfl | rfl
    · simp at long
    · simp at long

theorem isVoid_of_append {s t : List Char} (void : isVoid (String.ofList (s ++ t)) = true) :
    isVoid (String.ofList s) = true := by
  unfold isVoid at void ⊢
  rw [Bool.or_eq_true, beq_iff_eq, beq_iff_eq, ← String.toList_inj, ← String.toList_inj,
    String.toList_ofList] at void
  rw [Bool.or_eq_true, beq_iff_eq, beq_iff_eq, ← String.toList_inj, ← String.toList_inj,
    String.toList_ofList]
  cases s with
  | nil => exact Or.inl rfl
  | cons c s =>
    rcases void with empty | dot
    · cases empty
    · have same : c :: (s ++ t) = ['.'] := dot
      obtain ⟨rfl, none⟩ := List.cons.inj same
      rw [(List.append_eq_nil_iff.mp none).1]
      exact Or.inr rfl

theorem segments_shortened (p : Path) (n : Nat) : ∃ front b b' back,
    p.segments = front ++ String.ofList (b ++ b') :: back ∧
    (Path.mk (String.ofList (p.text.toList.take (p.text.length - n)))).segments =
      front ++ [String.ofList b] ∧
    b'.length ≤ n ∧ ∀ s ∈ back, s.toList.length ≤ n := by
  obtain ⟨a, b, b', c, old, new, rest⟩ := Text.pieces_append (· == '/')
    (p.text.toList.take (p.text.length - n)) (p.text.toList.drop (p.text.length - n))
  have short (piece : List Char) (member : piece ∈ b' :: c) : piece.length ≤ n := by
    rw [← rest] at member
    have bound := (Text.infix_of_mem_pieces member).length_le
    rw [List.length_drop, String.length_toList] at bound
    omega
  rw [List.take_append_drop] at old
  refine ⟨a.map String.ofList, b, b', c.map String.ofList, ?_, ?_, short b' List.mem_cons_self, ?_⟩
  · rw [segments, old, List.map_append, List.map_cons]
  · rw [segments, String.toList_ofList, new, List.map_append, List.map_singleton]
  · intro s member
    obtain ⟨piece, inside, rfl⟩ := List.mem_map.mp member
    rw [String.toList_ofList]
    exact short piece (List.mem_cons_of_mem _ inside)

theorem append_cons_cases {xs ys front back : List String} {x y : String}
    (same : xs ++ x :: ys = front ++ y :: back) :
    (front = xs ∧ y = x) ∨ (∃ middle, front = xs ++ x :: middle ∧ ys = middle ++ y :: back) ∨
      x ∈ back := by
  rcases List.append_eq_append_iff.mp same with ⟨gap, longer, rest⟩ | ⟨gap, longer, rest⟩
  · cases gap with
    | nil =>
      rw [List.append_nil] at longer
      exact Or.inl ⟨longer, (List.cons.inj rest).1.symm⟩
    | cons first middle =>
      obtain ⟨rfl, later⟩ := List.cons.inj rest
      exact Or.inr (Or.inl ⟨middle, longer, later⟩)
  · cases gap with
    | nil =>
      rw [List.append_nil] at longer
      exact Or.inl ⟨longer.symm, (List.cons.inj rest).1⟩
    | cons first middle =>
      obtain ⟨-, later⟩ := List.cons.inj rest
      right
      right
      rw [later]
      exact List.mem_append_right _ List.mem_cons_self

theorem isVoid_of_shortened {middle back : List String} {b b' : List Char}
    (blank : ∀ v ∈ middle ++ String.ofList (b ++ b') :: back, isVoid v = true) :
    ∀ v ∈ middle ++ [String.ofList b], isVoid v = true := by
  intro v member
  rcases List.mem_append.mp member with old | last
  · exact blank v (List.mem_append_left _ old)
  · rw [List.mem_singleton.mp last]
    exact isVoid_of_append (blank _ (List.mem_append_right _ List.mem_cons_self))

/-- Without its extension the last step is shorter, but no step of another kind. -/
theorem segments_dropExtension (p : Path) : p.dropExtension = p ∨
    ∃ lead last short voids voids', p.segments = lead ++ last :: voids ∧
      p.dropExtension.segments = lead ++ short :: voids' ∧ isVoid last = false ∧
      (last == "..") = false ∧ isVoid short = false ∧ (∀ v ∈ voids, isVoid v = true) ∧
      ∀ v ∈ voids', isVoid v = true := by
  unfold dropExtension
  cases found : p.extension? with
  | none => exact Or.inl rfl
  | some extension =>
    refine Or.inr ?_
    obtain ⟨name, named, cut⟩ := Option.bind_eq_some_iff.mp found
    obtain ⟨above, step, down⟩ := ne_up_of_fileName? named
    obtain ⟨voids, split, blank, solid⟩ := lastStep?_eq_some step
    obtain ⟨whole, filled⟩ := splitExtension_some (Prod.ext rfl cut)
    have size := congrArg List.length whole
    have stem_pos := List.length_pos_iff.mpr filled
    have letters : extension.toList.length = extension.length := String.length_toList
    rw [List.length_append, List.length_cons] at size
    obtain ⟨front, b, b', back, old, new, cut_off, short⟩ := p.segments_shortened extension.length
    have within (same : name = String.ofList (b ++ b')) : isVoid (String.ofList b) = false := by
      have parts := congrArg (fun s => s.toList.length) same
      simp only [String.toList_ofList, List.length_append] at parts
      refine isVoid_of_length ?_
      rw [String.toList_ofList]
      omega
    -- The cut is in the last step itself or in a void one behind it, as the extension is too short
    -- for more.
    rw [split] at old
    rcases append_cons_cases old with ⟨lead, same⟩ | ⟨middle, lead, later⟩ | member
    · refine ⟨_, name, _, voids, [], split, ?_, solid, down, within same.symm, blank, List.forall_mem_nil _⟩
      rw [new, lead]
    · rw [later] at blank
      refine ⟨_, name, name, voids, middle ++ [String.ofList b], split, ?_, solid, down, solid, ?_,
        isVoid_of_shortened blank⟩
      · rw [new, lead]
        simp
      · rw [later]
        exact blank
    · have bound := short name member
      omega

end Path

namespace Disk
variable {d : Disk} {top : Location}

theorem inside_of_dropExtension {p : Path} (inside : (d.place p.dropExtension).Inside top) :
    (d.place p).Inside top := by
  rcases Path.segments_dropExtension p with
    same | ⟨lead, last, short, voids, voids', left, right, solid, down, solid', blank, blank'⟩
  · rw [same] at inside
    exact inside
  · have start : d.origin p.dropExtension = d.origin p := by
      unfold origin
      rw [Path.isAbsolute_congr right left (Path.ne_empty_of_step solid')
        (Path.ne_empty_of_step solid)]
    rw [place_eq_move right blank', start] at inside
    rw [place_eq_move left blank]
    exact inside_move solid down solid' inside

/-- The file with another extension is below a directory only where the path is. -/
theorem inside_of_withExtension {p : Path} {extension : String} (plain : Path.Plain extension)
    (long : 2 ≤ extension.toList.length)
    (inside : (d.place (p.withExtension extension)).Inside top) : (d.place p).Inside top := by
  refine inside_of_dropExtension ?_
  unfold Path.withExtension at inside
  dsimp only at inside
  generalize p.dropExtension = bare at inside
  have tail : (if extension == "" then "" else "." ++ extension) = "." ++ extension := by
    refine if_neg fun blank => ?_
    rw [beq_iff_eq.mp blank] at long
    cases long
  rw [tail] at inside
  split at inside
  · rename_i above last stem found named
    obtain ⟨above', last', found', down, plain'⟩ := Path.stem?_eq_some named
    cases found.symm.trans found'
    obtain ⟨voids, split, blank, solid⟩ := Path.lastStep?_eq_some found
    have dotted : Path.Plain ("." ++ extension) := by
      unfold Path.Plain
      rw [String.toList_append, List.mem_append]
      exact fun h => h.elim (by decide) plain
    have solid' : Path.isVoid (stem ++ ("." ++ extension)) = false := by
      refine Path.isVoid_of_length ?_
      simp only [String.toList_append, List.length_append]
      omega
    have renamed := Path.segments_rename found plain' dotted
    have start := Path.isAbsolute_congr renamed split (Path.ne_empty_of_step solid')
      (Path.ne_empty_of_step solid)
    rw [place_eq_move renamed nofun] at inside
    rw [place_eq_move split blank]
    unfold origin at inside ⊢
    rw [start] at inside
    exact inside_move solid down solid' inside
  · exact inside

end Disk

theorem Extmod.mark_changes (d : Disk) (rom : Path) : (Extmod.mark d rom).2 = d ∨
    ∃ l content, Disk.Writes (rom.withExtension "extmod") l content d (Extmod.mark d rom).2 := by
  unfold Extmod.mark
  dsimp only
  split
  · split
    · exact Or.inl rfl
    · exact Disk.append_changes d _ _
  · exact Disk.append_changes d _ _
  · exact Or.inl rfl

end RomLinker
