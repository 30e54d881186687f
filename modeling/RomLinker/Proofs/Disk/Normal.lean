import RomLinker.Path.Normal
import RomLinker.Proofs.Disk.Change
import RomLinker.Proofs.Workspace

/-!
Normal forms of paths, and what they keep. The components of a normal form are the steps that are left
(`components_normal`), and these lead from every place to where all steps lead (`foldl_go_normal`). So two
spellings with one normal form can only be told apart by the directories that they pass through
(`isFile_iff_locate`).
-/
namespace RomLinker

namespace Path

/-- A step to another directory. Behind the lead of a path there are no other steps. -/
def Component.Moves : Component → Prop
  | .root | .here => False
  | .up => True
  | .name s => Named s

/-- What a way comes down to: names, and in front of them the root or steps up. -/
def settled (absolute : Bool) (ups : Nat) (names : List String) : List Component :=
  (if absolute then [.root] else List.replicate ups .up) ++ names.map .name

variable {p : Path} {c : Component} {steps : List Component} {s : String} {absolute : Bool} {ups : Nat}
  {names : List String}

theorem moves_of_segment (plain : Plain s) (step : componentOfSegment s = some c) : c.Moves := by
  unfold componentOfSegment at step
  split at step
  · cases step
  · rename_i solid
    split at step
    · cases step
      exact trivial
    · rename_i down
      cases step
      refine ⟨plain, ?_⟩
      simp [isName, bne, solid, down]

theorem Component.Moves.segment (moves : c.Moves) :
    componentOfSegment c.text = some c ∧ Plain c.text ∧ isVoid c.text = false := by
  cases c with
  | root => exact moves.elim
  | here => exact moves.elim
  | up => decide
  | name s =>
    have named : Named s := moves
    obtain ⟨void, up⟩ := named.steps
    refine ⟨?_, named.plain, void⟩
    simp [componentOfSegment, Component.text, void, up]

theorem segments_of_absolute (absolute : p.isAbsolute = true) : ∃ body, p.segments = "" :: body := by
  unfold isAbsolute at absolute
  cases text : p.text.toList with
  | nil =>
    rw [text] at absolute
    cases absolute
  | cons x cs =>
    rw [text] at absolute
    obtain rfl : x = '/' := by simpa using absolute
    obtain ⟨first, rest, split⟩ := List.exists_cons_of_ne_nil (Text.pieces_ne_nil (· == '/') cs)
    refine ⟨(first :: rest).map String.ofList, ?_⟩
    rw [segments, text, Text.pieces_cons_of_eq split]
    rfl

/-- A path starts at the root, at a dot or with its first step. -/
theorem leadAndBody_cases (p : Path) :
    (∃ body, p.isAbsolute = true ∧ p.segments = "" :: body ∧ p.leadAndBody = ([""], body)) ∨
    (∃ body, p.isAbsolute = false ∧ p.segments = "." :: body ∧ p.leadAndBody = (["."], body)) ∨
    (p.isAbsolute = false ∧ p.leadAndBody = ([], p.segments)) := by
  cases absolute : p.isAbsolute with
  | true =>
    obtain ⟨body, split⟩ := segments_of_absolute absolute
    refine Or.inl ⟨body, rfl, split, ?_⟩
    simp [leadAndBody, split, absolute]
  | false =>
    refine Or.inr ?_
    cases split : p.segments with
    | nil => exact Or.inr ⟨rfl, by simp [leadAndBody, split]⟩
    | cons first rest =>
      by_cases dot : first = "."
      · subst dot
        exact Or.inl ⟨rest, rfl, rfl, by simp [leadAndBody, split]⟩
      · exact Or.inr ⟨rfl, by simp [leadAndBody, split, absolute, dot]⟩

theorem exists_moves (p : Path) : ∃ steps, (∀ c ∈ steps, c.Moves) ∧
    (p.components = .here :: steps ∧ p.isAbsolute = false ∨
      p.components = settled p.isAbsolute 0 [] ++ steps) := by
  have moves : ∀ c ∈ p.leadAndBody.2.filterMap componentOfSegment, c.Moves := by
    intro c member
    obtain ⟨s, inside, step⟩ := List.mem_filterMap.mp member
    have part : s ∈ p.segments := leadAndBody_append p ▸ List.mem_append_right _ inside
    exact moves_of_segment (plain_of_mem_segments part) step
  refine ⟨_, moves, ?_⟩
  unfold components
  rcases leadAndBody_cases p with ⟨body, absolute, -, parts⟩ | ⟨body, relative, -, parts⟩ | ⟨relative, parts⟩
  · rw [parts, absolute]
    exact Or.inr rfl
  · rw [parts]
    exact Or.inl ⟨rfl, relative⟩
  · rw [parts, relative]
    exact Or.inr rfl

/-! ### Components of a normal form -/

theorem exists_follow (absolute : Bool) (ups : Nat) (moves : c.Moves) (named : ∀ s ∈ names, Named s) :
    ∃ ups' names', (∀ s ∈ names', Named s) ∧
      follow (settled absolute ups names).reverse c = (settled absolute ups' names').reverse := by
  cases c with
  | root => exact moves.elim
  | here => exact moves.elim
  | name s =>
    refine ⟨ups, names ++ [s], List.forall_mem_append.mpr ⟨named, List.forall_mem_singleton.mpr moves⟩, ?_⟩
    simp [settled, follow]
  | up =>
    rcases List.eq_nil_or_concat names with rfl | ⟨above, last, rfl⟩
    · -- The root takes the step, and behind steps up it stays.
      cases absolute with
      | true => exact ⟨0, [], List.forall_mem_nil _, rfl⟩
      | false =>
        have way (ups : Nat) : (settled false ups []).reverse = List.replicate ups .up := by simp [settled]
        refine ⟨ups + 1, [], List.forall_mem_nil _, ?_⟩
        rw [way, way]
        cases ups <;> rfl
    · rw [List.concat_eq_append] at named ⊢
      refine ⟨ups, above, fun s member => named s (List.mem_append_left _ member), ?_⟩
      simp [settled, follow]

theorem exists_foldl_follow (absolute : Bool) (ups : Nat) (moves : ∀ c ∈ steps, c.Moves)
    (named : ∀ s ∈ names, Named s) :
    ∃ ups' names', (∀ s ∈ names', Named s) ∧
      steps.foldl follow (settled absolute ups names).reverse = (settled absolute ups' names').reverse := by
  induction steps generalizing ups names with
  | nil => exact ⟨ups, names, named, rfl⟩
  | cons c steps ih =>
    obtain ⟨head, tail⟩ := List.forall_mem_cons.mp moves
    obtain ⟨ups', names', named', followed⟩ := exists_follow absolute ups head named
    rw [List.foldl_cons, followed]
    exact ih ups' tail named'

/-- What is left of a path's steps are names below the root, or below steps up if the path is relative. -/
theorem exists_settled (p : Path) : ∃ ups names, (∀ s ∈ names, Named s) ∧
    normalComponents p.components = settled p.isAbsolute ups names := by
  obtain ⟨steps, moves, whole⟩ := exists_moves p
  obtain ⟨ups, names, named, left⟩ := exists_foldl_follow p.isAbsolute 0 moves (List.forall_mem_nil Named)
  refine ⟨ups, names, named, ?_⟩
  have start : p.components.foldl follow [] = steps.foldl follow (settled p.isAbsolute 0 []).reverse := by
    rcases whole with ⟨dotted, relative⟩ | whole
    · rw [dotted, relative]
      rfl
    · rw [whole, List.foldl_append]
      cases p.isAbsolute <;> rfl
  rw [normalComponents, start, left, List.reverse_reverse]

theorem filterMap_text (moves : ∀ c ∈ steps, c.Moves) :
    (steps.map Component.text).filterMap componentOfSegment = steps := by
  induction steps with
  | nil => rfl
  | cons c steps ih =>
    obtain ⟨head, tail⟩ := List.forall_mem_cons.mp moves
    rw [List.map_cons, List.filterMap_cons_some head.segment.1, ih tail]

theorem segments_moves (moves : ∀ c ∈ steps, c.Moves) (some : steps ≠ []) :
    (Path.mk (joinSegments (steps.map Component.text))).segments = steps.map Component.text := by
  refine segments_joinSegments (fun s member => ?_) (by simpa using some)
  obtain ⟨c, inside, rfl⟩ := List.mem_map.mp member
  exact (moves c inside).segment.2.1

theorem components_moves (moves : ∀ c ∈ steps, c.Moves) :
    (Path.mk (joinSegments (steps.map Component.text))).components = steps := by
  cases steps with
  | nil => rfl
  | cons c rest =>
    have split := segments_moves moves (List.cons_ne_nil c rest)
    generalize Path.mk (joinSegments ((c :: rest).map Component.text)) = p at split
    have solid : c.text ≠ "" ∧ c.text ≠ "." := by
      have void := (moves c List.mem_cons_self).segment.2.2
      unfold isVoid at void
      simpa using void
    have parts : p.leadAndBody = ([], p.segments) := by
      rcases leadAndBody_cases p with ⟨_, -, other, -⟩ | ⟨_, -, other, -⟩ | ⟨-, parts⟩
      · exact absurd (List.cons.inj (split.symm.trans other)).1 solid.1
      · exact absurd (List.cons.inj (split.symm.trans other)).1 solid.2
      · exact parts
    rw [components, parts, split]
    exact filterMap_text moves

theorem components_rooted (moves : ∀ c ∈ steps, c.Moves) :
    (Path.mk ("/" ++ joinSegments (steps.map Component.text))).components = .root :: steps := by
  have absolute : (Path.mk ("/" ++ joinSegments (steps.map Component.text))).isAbsolute = true := by
    simp [isAbsolute]
  have cut : (Path.mk ("/" ++ joinSegments (steps.map Component.text))).segments =
      "" :: (Path.mk (joinSegments (steps.map Component.text))).segments := by
    have whole := segments_slash "" (joinSegments (steps.map Component.text))
    rw [String.empty_append, segments_empty] at whole
    exact whole
  have parts := leadAndBody_cases ⟨"/" ++ joinSegments (steps.map Component.text)⟩
  rw [absolute] at parts
  obtain ⟨body, -, split, parts⟩ | ⟨_, wrong, -⟩ | ⟨wrong, -⟩ := parts
  · obtain ⟨-, rfl⟩ := List.cons.inj (cut.symm.trans split)
    rw [components, parts]
    refine congrArg (List.cons _) ?_
    cases steps with
    | nil => rfl
    | cons c rest =>
      rw [segments_moves moves (List.cons_ne_nil c rest)]
      exact filterMap_text moves
  · cases wrong
  · cases wrong

theorem ofComponents_of_moves (moves : ∀ c ∈ steps, c.Moves) :
    ofComponents steps = ⟨joinSegments (steps.map Component.text)⟩ := by
  cases steps with
  | nil => rfl
  | cons c rest =>
    cases c with
    | root => exact (moves _ List.mem_cons_self).elim
    | _ => rfl

theorem moves_names (named : ∀ s ∈ names, Named s) : ∀ c ∈ names.map Component.name, c.Moves := by
  intro c member
  obtain ⟨s, inside, rfl⟩ := List.mem_map.mp member
  exact named s inside

theorem moves_settled (named : ∀ s ∈ names, Named s) : ∀ c ∈ settled false ups names, c.Moves := by
  intro c member
  rcases List.mem_append.mp member with up | name
  · rw [List.eq_of_mem_replicate up]
    trivial
  · exact moves_names named c name

theorem components_settled (named : ∀ s ∈ names, Named s) :
    (ofComponents (settled absolute ups names)).components = settled absolute ups names := by
  cases absolute with
  | true => exact components_rooted (moves_names named)
  | false =>
    rw [ofComponents_of_moves (moves_settled named)]
    exact components_moves (moves_settled named)

theorem text_ofComponents_settled (named : ∀ s ∈ names, Named s) :
    (ofComponents (settled absolute ups names)).text =
      if absolute then "/" ++ joinSegments names else joinSegments (List.replicate ups ".." ++ names) := by
  have texts : (names.map Component.name).map Component.text = names := by
    rw [List.map_map]
    exact List.map_id names
  cases absolute with
  | true =>
    change "/" ++ joinSegments ((names.map Component.name).map Component.text) = _
    rw [texts, if_pos rfl]
  | false =>
    rw [ofComponents_of_moves (moves_settled named), if_neg Bool.false_ne_true, settled, List.map_append, texts,
      if_neg Bool.false_ne_true, List.map_replicate]
    rfl

theorem components_normal (p : Path) : p.normal.components = normalComponents p.components := by
  obtain ⟨ups, names, named, left⟩ := exists_settled p
  rw [normal, left, components_settled named]

end Path

/-! ### Places -/

namespace Location
open RomLinker.Path

variable {l : Location} {p : Path}

def go (l : Location) : Component → Location
  | .root => .root
  | .here => l
  | .up => l.parent
  | .name s => l.child s

theorem move_of_step {s : String} {c : Component} (step : componentOfSegment s = some c) :
    l.move s = l.go c := by
  unfold componentOfSegment at step
  unfold move
  split at step
  · cases step
  · rename_i solid
    rw [if_neg solid]
    split at step
    · rename_i up
      cases step
      exact if_pos up
    · rename_i down
      cases step
      exact if_neg down

theorem foldl_move (segments : List String) (l : Location) :
    segments.foldl move l = (segments.filterMap componentOfSegment).foldl go l := by
  induction segments generalizing l with
  | nil => rfl
  | cons s rest ih =>
    cases step : componentOfSegment s with
    | none =>
      have void : isVoid s = true := by
        unfold componentOfSegment at step
        split at step
        · assumption
        · split at step <;> cases step
      rw [List.filterMap_cons_none step, List.foldl_cons, move_of_void void]
      exact ih l
    | some c =>
      rw [List.filterMap_cons_some step, List.foldl_cons, List.foldl_cons, move_of_step step]
      exact ih (l.go c)

/-- The steps of a path lead where its segments do. An absolute path does not mind where it starts. -/
theorem foldl_go_components (p : Path) (l : Location) :
    p.components.foldl go l = p.segments.foldl move (if p.isAbsolute then .root else l) := by
  unfold components
  rcases leadAndBody_cases p with
    ⟨body, absolute, split, parts⟩ | ⟨body, relative, split, parts⟩ | ⟨relative, parts⟩
  · rw [parts, split, absolute, if_pos rfl, List.foldl_cons, move_of_void (by decide), foldl_move]
    rfl
  · rw [parts, split, relative, if_neg Bool.false_ne_true, List.foldl_cons, move_of_void (by decide),
      foldl_move]
    rfl
  · rw [parts, relative, if_neg Bool.false_ne_true, foldl_move]
    rfl

theorem foldr_go_follow (way : List Component) (c : Component) (l : Location) :
    (follow way c).foldr (fun c l => l.go c) l = (way.foldr (fun c l => l.go c) l).go c := by
  cases c with
  | up =>
    cases way with
    | nil => rfl
    | cons last before =>
      cases last with
      | name s => exact (parent_child _ s).symm
      | _ => rfl
  | _ => rfl

theorem foldl_go_normal (steps : List Component) (l : Location) :
    (normalComponents steps).foldl go l = steps.foldl go l := by
  have run (steps way : List Component) : (steps.foldl follow way).foldr (fun c l => l.go c) l =
      steps.foldl go (way.foldr (fun c l => l.go c) l) := by
    induction steps generalizing way with
    | nil => rfl
    | cons c steps ih => rw [List.foldl_cons, List.foldl_cons, ih, foldr_go_follow]
  rw [normalComponents, List.foldl_reverse]
  exact run steps []

end Location

namespace Disk
open Workspace
variable {d : Disk} {root p : Path}

theorem place_join_components (d : Disk) (root p : Path) :
    d.place (root.join p) = p.components.foldl Location.go (toolPlace d root) := by
  rw [Location.foldl_go_components]
  cases absolute : p.isAbsolute with
  | true =>
    have alone : root.join p = p := by simp [Path.join, absolute]
    rw [alone, place, origin, absolute]
    rfl
  | false => exact place_join absolute

theorem place_normal (d : Disk) (root p : Path) : d.place (root.join p.normal) = d.place (root.join p) := by
  rw [place_join_components, place_join_components, Path.components_normal, Location.foldl_go_normal]

theorem isFile_iff {p : Path} : d.isFile p = true ↔
    ∃ l content, d.locate p = .ok l ∧ d.lookup l = some (.file content) := by
  unfold isFile find?
  cases d.locate p with
  | error fault => simp
  | ok l =>
    rcases found : d.lookup l with _ | _ | _ <;> simp [found]

/-- Where the normal form of a path names a file, the path as it is written names it if it can be
followed. -/
theorem isFile_iff_locate (file : d.isFile (root.join p.normal) = true) :
    d.isFile (root.join p) = true ↔ ∃ l, d.locate (root.join p) = .ok l := by
  obtain ⟨m, content, there, found⟩ := isFile_iff.mp file
  constructor
  · intro isFile
    obtain ⟨l, -, located, -⟩ := isFile_iff.mp isFile
    exact ⟨l, located⟩
  · rintro ⟨l, located⟩
    refine isFile_iff.mpr ⟨l, content, located, ?_⟩
    rw [locate_eq_place located, ← place_normal, ← locate_eq_place there]
    exact found

end Disk
end RomLinker
