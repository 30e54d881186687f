import RomLinker.Path
import RomLinker.Workspace

/-!
Paths by their segments. A text and its segments determine each other, so that everything about a
joined path follows from the segments it has.
-/
namespace RomLinker

namespace Text

theorem pieces_cons_of_eq {cut : Char → Bool} {x : Char} {cs p : List Char} {ps : List (List Char)}
    (split : pieces cut cs = p :: ps) :
    pieces cut (x :: cs) = if cut x then [] :: p :: ps else (x :: p) :: ps := by
  rw [pieces_cons, split]
  rfl

theorem intercalate_pieces (c : Char) (cs : List Char) :
    [c].intercalate (pieces (· == c) cs) = cs := by
  induction cs with
  | nil => rfl
  | cons x cs ih =>
    obtain ⟨p, ps, split⟩ := List.exists_cons_of_ne_nil (pieces_ne_nil (· == c) cs)
    rw [pieces_cons_of_eq split]
    rw [split] at ih
    by_cases cut : x = c
    · subst cut
      rw [if_pos (beq_self_eq_true x), List.intercalate_cons_of_ne_nil (List.cons_ne_nil p ps), ih]
      rfl
    · rw [if_neg (by simpa using cut)]
      cases ps with
      | nil => simpa using ih
      | cons q qs =>
        rw [List.intercalate_cons_of_ne_nil (List.cons_ne_nil q qs)] at ih ⊢
        simpa using ih

theorem infix_of_mem_pieces {cut : Char → Bool} {cs p : List Char} (member : p ∈ pieces cut cs) :
    p <:+: cs := by
  suffices whole : ∀ first rest, pieces cut cs = first :: rest → first <+: cs ∧ ∀ p ∈ rest, p <:+: cs by
    obtain ⟨first, rest, split⟩ := List.exists_cons_of_ne_nil (pieces_ne_nil cut cs)
    obtain ⟨front, others⟩ := whole first rest split
    rw [split] at member
    rcases List.mem_cons.mp member with rfl | later
    · exact front.isInfix
    · exact others p later
  clear member
  induction cs with
  | nil =>
    intro first rest split
    cases split
    exact ⟨List.nil_prefix, nofun⟩
  | cons x cs ih =>
    intro first rest split
    obtain ⟨q, qs, below⟩ := List.exists_cons_of_ne_nil (pieces_ne_nil cut cs)
    obtain ⟨front, others⟩ := ih q qs below
    have wider (p : List Char) (inside : p <:+: cs) : p <:+: x :: cs := List.infix_cons inside
    rw [pieces_cons_of_eq below] at split
    split at split
    · cases split
      refine ⟨List.nil_prefix, fun p later => ?_⟩
      rcases List.mem_cons.mp later with rfl | later
      · exact wider p front.isInfix
      · exact wider p (others p later)
    · cases split
      exact ⟨List.cons_prefix_cons.mpr ⟨rfl, front⟩, fun p later => wider p (others p later)⟩

theorem notMem_of_mem_pieces {c : Char} {cs p : List Char} (member : p ∈ pieces (· == c) cs) :
    c ∉ p := by
  induction cs generalizing p with
  | nil =>
    rw [List.mem_singleton.mp member]
    exact List.not_mem_nil
  | cons x cs ih =>
    obtain ⟨q, qs, split⟩ := List.exists_cons_of_ne_nil (pieces_ne_nil (· == c) cs)
    rw [pieces_cons_of_eq split] at member
    rw [split] at ih
    by_cases cut : x = c
    · rw [if_pos (by simpa using cut)] at member
      rcases List.mem_cons.mp member with rfl | rest
      · exact List.not_mem_nil
      · exact ih rest
    · rw [if_neg (by simpa using cut)] at member
      rcases List.mem_cons.mp member with rfl | rest
      · have inside := ih List.mem_cons_self
        simp [inside, Ne.symm cut]
      · exact ih (List.mem_cons_of_mem _ rest)

theorem pieces_slash {c : Char} (a b : List Char) :
    pieces (· == c) (a ++ c :: b) = pieces (· == c) a ++ pieces (· == c) b :=
  @pieces_append_cons (· == c) c (beq_self_eq_true c) a b

theorem pieces_intercalate {c : Char} {ps : List (List Char)} (plain : ∀ p ∈ ps, c ∉ p)
    (filled : ps ≠ []) : pieces (· == c) ([c].intercalate ps) = ps := by
  induction ps with
  | nil => exact absurd rfl filled
  | cons p ps ih =>
    obtain ⟨head, tail⟩ := List.forall_mem_cons.mp plain
    have whole : pieces (· == c) p = [p] := by
      refine pieces_of_none fun x member => ?_
      simp only [beq_eq_false_iff_ne]
      rintro rfl
      exact head member
    cases ps with
    | nil => simpa using whole
    | cons q qs =>
      rw [List.intercalate_cons_of_ne_nil (List.cons_ne_nil q qs), List.append_assoc,
        List.singleton_append, pieces_slash, whole,
        ih tail (List.cons_ne_nil q qs)]
      rfl

end Text

namespace Path

def Plain (segment : String) : Prop := '/' ∉ segment.toList

instance (segment : String) : Decidable (Plain segment) := inferInstanceAs (Decidable (_ ∉ _))

theorem plain_of_mem_segments {p : Path} {s : String} (member : s ∈ p.segments) : Plain s := by
  obtain ⟨piece, cut, rfl⟩ := List.mem_map.mp member
  unfold Plain
  rw [String.toList_ofList]
  exact Text.notMem_of_mem_pieces cut

theorem segments_of_plain {s : String} (plain : Plain s) : (Path.mk s).segments = [s] := by
  have whole : Text.pieces (· == '/') s.toList = [s.toList] := by
    refine Text.pieces_of_none fun c member => ?_
    simp only [beq_eq_false_iff_ne]
    rintro rfl
    exact plain member
  rw [segments, whole]
  simp

theorem segments_empty : (Path.mk "").segments = [""] := rfl

theorem segments_dot : (Path.mk ".").segments = ["."] := rfl

theorem relative_dot : (Path.mk ".").isAbsolute = false := rfl

theorem segments_slash (s t : String) :
    (Path.mk (s ++ "/" ++ t)).segments = (Path.mk s).segments ++ (Path.mk t).segments := by
  have cut : (s ++ "/" ++ t).toList = s.toList ++ '/' :: t.toList := by simp
  simp only [segments, cut, Text.pieces_slash, List.map_append]

theorem joinSegments_segments (p : Path) : joinSegments p.segments = p.text := by
  rw [← String.toList_inj, joinSegments, String.toList_intercalate, segments, List.map_map]
  have same : (String.toList ∘ String.ofList) = id := by
    funext cs
    simp
  rw [same, List.map_id]
  exact Text.intercalate_pieces '/' p.text.toList

theorem segments_joinSegments {xs : List String} (plain : ∀ s ∈ xs, Plain s) (filled : xs ≠ []) :
    (Path.mk (joinSegments xs)).segments = xs := by
  rw [segments, joinSegments, String.toList_intercalate]
  have cut : Text.pieces (· == '/') (['/'].intercalate (xs.map String.toList)) =
      xs.map String.toList := by
    refine Text.pieces_intercalate (fun p member => ?_) (by simpa using filled)
    obtain ⟨s, inside, rfl⟩ := List.mem_map.mp member
    exact plain s inside
  have back : (String.ofList ∘ String.toList) = id := by
    funext s
    simp
  change (Text.pieces (· == '/') (['/'].intercalate (xs.map String.toList))).map String.ofList = xs
  rw [cut, List.map_map, back, List.map_id]

theorem segments_eq_named (p : Path) :
    ∃ slashes, p.segments = p.named ++ slashes ∧ ∀ s ∈ slashes, s = "" := by
  refine ⟨(p.segments.reverse.takeWhile (· == "")).reverse, ?_, fun s member => ?_⟩
  · rw [named, ← List.reverse_append, List.takeWhile_append_dropWhile, List.reverse_reverse]
  · have blank := List.all_takeWhile (p := (· == "")) (l := p.segments.reverse)
    simpa using List.all_eq_true.mp blank s (List.mem_reverse.mp member)

theorem isAbsolute_append {s t : String} (filled : s ≠ "") :
    (Path.mk (s ++ t)).isAbsolute = (Path.mk s).isAbsolute := by
  unfold isAbsolute
  simp only [String.toList_append]
  cases cs : s.toList with
  | nil => exact absurd (String.toList_eq_nil_iff.mp cs) filled
  | cons c cs => rfl

/-- Relative paths joined to one path share what is in front of them: its segments, but for the last one if it
is empty. -/
theorem segments_join (p : Path) :
    ∃ base, (p.segments = base ∨ p.segments = base ++ [""]) ∧ ∀ q : Path, q.isAbsolute = false →
      (p.join q).segments = base ++ q.segments ∧ (p.join q).isAbsolute = p.isAbsolute := by
  obtain ⟨text⟩ := p
  by_cases blank : text = ""
  · subst blank
    refine ⟨[], Or.inr rfl, fun q relative => ?_⟩
    have same : (Path.mk "").join q = q := by simp [join]
    rw [same, relative]
    exact ⟨rfl, rfl⟩
  · by_cases slash : text.toList.getLast? = some '/'
    · obtain ⟨front, split⟩ := List.getLast?_eq_some_iff.mp slash
      have cut (s : String) : text ++ s = String.ofList front ++ "/" ++ s := by
        rw [← String.toList_inj]
        simp [split]
      have whole := segments_slash (String.ofList front) ""
      rw [← cut, String.append_empty] at whole
      refine ⟨(Path.mk (String.ofList front)).segments, Or.inr whole, fun q relative => ?_⟩
      have same : (Path.mk text).join q = ⟨text ++ q.text⟩ := by simp [join, relative, blank, slash]
      rw [same, isAbsolute_append blank, cut, segments_slash]
      exact ⟨rfl, rfl⟩
    · refine ⟨(Path.mk text).segments, Or.inl rfl, fun q relative => ?_⟩
      have same : (Path.mk text).join q = ⟨text ++ "/" ++ q.text⟩ := by
        simp [join, relative, blank, slash]
      rw [same, segments_slash, String.append_assoc, isAbsolute_append blank]
      exact ⟨rfl, rfl⟩

theorem mem_joinSegments {segments : List String} (member : c ∈ (joinSegments segments).toList) :
    c = '/' ∨ ∃ s ∈ segments, c ∈ s.toList := by
  rw [joinSegments, String.toList_intercalate] at member
  induction segments with
  | nil => cases member
  | cons s rest ih =>
    cases rest with
    | nil => exact Or.inr ⟨s, List.mem_cons_self, by simpa using member⟩
    | cons t rest =>
      rw [List.map_cons, List.intercalate_cons_of_ne_nil (by simp), List.mem_append, List.mem_append] at member
      rcases member with (here | slash) | later
      · exact Or.inr ⟨s, List.mem_cons_self, here⟩
      · exact Or.inl (by simpa using slash)
      · rcases ih later with slash | ⟨u, inside, held⟩
        · exact Or.inl slash
        · exact Or.inr ⟨u, List.mem_cons_of_mem s inside, held⟩

theorem join_name {p : Path} {name : String} (filled : p.text ≠ "")
    (bare : p.text.toList.getLast? ≠ some '/') (relative : (Path.mk name).isAbsolute = false) :
    p.join ⟨name⟩ = ⟨p.text ++ "/" ++ name⟩ := by
  simp [join, relative, filled, bare]

theorem text_join (p : Path) : ∃ front, ∀ q : Path, q.isAbsolute = false →
    (p.join q).text = front ++ q.text := by
  by_cases blank : p.text = ""
  · exact ⟨"", fun q relative => by simp [join, blank]⟩
  · by_cases slash : p.text.toList.getLast? = some '/'
    · exact ⟨p.text, fun q relative => by simp [join, relative, blank, slash]⟩
    · exact ⟨p.text ++ "/", fun q relative => by simp [join, relative, blank, slash]⟩

theorem leadAndBody_append (p : Path) : p.leadAndBody.1 ++ p.leadAndBody.2 = p.segments := by
  unfold leadAndBody
  split
  · rename_i none
    rw [none]
    rfl
  · rename_i first rest split
    rw [split]
    split <;> rfl

theorem length_lead_le (p : Path) : p.leadAndBody.1.length ≤ 1 := by
  unfold leadAndBody
  split
  · exact Nat.zero_le _
  · split
    · exact Nat.le_refl _
    · exact Nat.zero_le _

/-- A name that can stand in a path as one step down. -/
structure Named (name : String) : Prop where
  plain : Plain name
  step : isName name = true

theorem Named.steps {name : String} (named : Named name) :
    isVoid name = false ∧ (name == "..") = false := by
  have step := named.step
  unfold isName at step
  simpa using step

theorem Named.relative {name : String} (named : Named name) :
    (Path.mk name).isAbsolute = false := by
  unfold isAbsolute
  cases cs : name.toList with
  | nil => rfl
  | cons c cs' =>
    have other : c ≠ '/' := by
      rintro rfl
      exact named.plain (cs ▸ List.mem_cons_self)
    simpa using other

end Path
end RomLinker
