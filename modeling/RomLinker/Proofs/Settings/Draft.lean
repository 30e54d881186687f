import RomLinker.Proofs.Settings.Sections

/-!
How the draft follows the list. Item by item it holds what the items in front of it say
(`Draft.Holds`), and statement by statement it follows the list (`Draft.Follows`). A step notes no
fault where the statement is allowed behind the ones in front of it, and only there.
-/
namespace RomLinker.Settings
open Listing

variable {w : Workspace} {d : Disk} {items : List Placed} {p : Placed}

structure Draft.Holds (w : Workspace) (d : Disk) (items : List Placed) (draft : Draft) : Prop where
  mentions : draft.resources.Mentions (items.map Placed.name)
  directives : ∀ r ∈ draft.resources.resources, directivesOf? w d r.file = some r.directives
  assigned : ∀ kind slot, draft.contexts.assignments kind slot =
    (items.filter fun p => p.kind = kind ∧ p.slot = slot).map fun p => ⟨number items p, p.item.bytes⟩

theorem Draft.holds_empty : Draft.Holds w d [] {} :=
  ⟨ResourceTable.mentions_empty, fun _ member => absurd member List.not_mem_nil,
    fun kind slot => by simp⟩

def newResource (t : ResourceTable) (name : Path) (directives : Directives) : Resource :=
  { id := t.size, file := name, directives }

theorem Draft.resource_cases (w : Workspace) (d : Disk) (draft : Draft) (p : Placed) :
    (∃ r, draft.resources.find? p.file = some r ∧ draft.resource w d p.file = (.ok r, draft)) ∨
    (∃ directives, draft.resources.find? p.file = none ∧ d.isFile (w.path p.file) ∧
      directivesOf? w d p.name = some directives ∧
      draft.resource w d p.file = (.ok (newResource draft.resources p.name directives),
        { draft with resources :=
          ⟨draft.resources.resources ++ [newResource draft.resources p.name directives]⟩ })) ∨
    (draft.resources.find? p.file = none ∧
      (d.isFile (w.path p.file) → directivesOf? w d p.name = none) ∧
      ∃ e next, draft.resource w d p.file = (.error e, next)) := by
  unfold Draft.resource
  cases found : draft.resources.find? p.file with
  | some r => exact Or.inl ⟨r, rfl, rfl⟩
  | none =>
    refine Or.inr ?_
    cases isFile : d.isFile (w.path p.file) with
    | false => exact Or.inr ⟨rfl, fun h => (Bool.false_ne_true h).elim, _, _, rfl⟩
    | true =>
      let r : Resource := { id := draft.resources.size, file := p.name }
      have intern : draft.resources.intern p.file = (r, ⟨draft.resources.resources ++ [r]⟩) := by
        simp only [ResourceTable.intern, found, r, Placed.normal_file]
      simp only [intern, Bool.not_true, Bool.false_eq_true, if_false]
      cases read : r.readDirectives w d with
      | ok q =>
        obtain ⟨directives, known, rfl⟩ := Resource.readDirectives_eq_ok.mp read
        refine Or.inl ⟨directives, trivial, trivial, known, ?_⟩
        simp [ResourceTable.put, newResource, r, ResourceTable.size]
      | error e =>
        refine Or.inr ⟨trivial, fun _ => ?_, _, _, rfl⟩
        cases known : directivesOf? w d p.name with
        | none => rfl
        | some directives =>
          have fine : r.readDirectives w d = .ok { r with directives } :=
            Resource.readDirectives_eq_ok.mpr ⟨directives, known, rfl⟩
          cases read.symm.trans fine

theorem Draft.assign_eq_ok {kind : ContextKind} {slot : SlotKey} {draft next : Draft} {item : Item} :
    draft.assign w d kind slot item = (.ok (), next) ↔
      ∃ r mid contexts, draft.resource w d (Placed.file ⟨kind, slot, item⟩) = (.ok r, mid) ∧
        (item.bytes = [] ∨ item.bytes.length = r.directives.extraBytes.toNat) ∧
        mid.contexts.assign kind slot ⟨r.id, item.bytes⟩ = .ok contexts ∧
        next = { mid with contexts } := by
  unfold Draft.assign
  rw [show (Path.mk kind.directory).join ⟨item.file⟩ = Placed.file ⟨kind, slot, item⟩ from rfl]
  rcases draft.resource w d (Placed.file ⟨kind, slot, item⟩) with ⟨e | r, mid⟩
  · simp
  · have bytes : (!item.bytes.isEmpty && item.bytes.length != r.directives.extraBytes.toNat) = false ↔
        item.bytes = [] ∨ item.bytes.length = r.directives.extraBytes.toNat := by
      cases item.bytes <;> simp
    cases wrong : !item.bytes.isEmpty && item.bytes.length != r.directives.extraBytes.toNat with
    | true =>
      have refused : ¬(item.bytes = [] ∨ item.bytes.length = r.directives.extraBytes.toNat) := by
        rw [← bytes, wrong]
        simp
      simp only [wrong, if_true, Prod.mk.injEq, reduceCtorEq, false_and, Except.ok.injEq, false_iff]
      rintro ⟨_, _, _, ⟨rfl, rfl⟩, given, -⟩
      exact refused given
    | false =>
      have given := bytes.mp wrong
      simp only [wrong, Bool.false_eq_true, if_false, Prod.mk.injEq, Except.ok.injEq]
      cases assigned : mid.contexts.assign kind slot ⟨r.id, item.bytes⟩ with
      | error e =>
        simp only [Prod.mk.injEq, reduceCtorEq, false_and, false_iff]
        rintro ⟨_, _, _, ⟨rfl, rfl⟩, -, taken, -⟩
        cases assigned.symm.trans taken
      | ok contexts =>
        constructor
        · intro h
          exact ⟨r, mid, contexts, ⟨rfl, rfl⟩, given, assigned, (Prod.mk.inj h).2.symm⟩
        · rintro ⟨_, _, _, ⟨rfl, rfl⟩, -, taken, rfl⟩
          cases assigned.symm.trans taken
          rfl

theorem Draft.assignAll_cons_eq_none {kind : ContextKind} {slot : SlotKey} {draft next : Draft}
    {item : Item} {rest : List Item} :
    draft.assignAll w d kind slot (item :: rest) = (none, next) ↔
      ∃ mid, draft.assign w d kind slot item = (.ok (), mid) ∧
        mid.assignAll w d kind slot rest = (none, next) := by
  rw [Draft.assignAll]
  rcases draft.assign w d kind slot item with ⟨e | ⟨⟩, mid⟩ <;> simp [Prod.ext_iff]

namespace Draft.Holds
variable {draft next mid : Draft} {r : Resource}

theorem name_mem : (∃ q ∈ items, q.name = p.name) ↔ p.name ∈ items.map Placed.name := by
  simp only [List.mem_map]

theorem resource_eq_ok (holds : draft.Holds w d items)
    (h : draft.resource w d p.file = (.ok r, mid)) :
    (d.isFile (w.path p.file) ∨ ∃ q ∈ items, q.name = p.name) ∧
    directivesOf? w d p.name = some r.directives ∧ r.id = number (items ++ [p]) p ∧
    ∃ t : ResourceTable, mid = { draft with resources := t } ∧
      t.Mentions ((items ++ [p]).map Placed.name) ∧
      ∀ r ∈ t.resources, directivesOf? w d r.file = some r.directives := by
  rw [List.map_append]
  rcases Draft.resource_cases w d draft p with
    ⟨q, found, result⟩ | ⟨directives, absent, isFile, read, result⟩ | ⟨-, -, e, _, result⟩
  · cases h.symm.trans result
    obtain ⟨same, first, member⟩ := holds.mentions.find?_eq_some found
    rw [Placed.normal_file] at same first
    have known : p.name ∈ items.map Placed.name := by
      rw [← holds.mentions.mem_iff]
      exact ⟨r, member, same⟩
    have read := holds.directives r member
    rw [same] at read
    refine ⟨Or.inr (name_mem.mpr known), read, ?_, draft.resources, rfl, ?_, holds.directives⟩
    · rw [first, number, List.map_append, List.map_singleton, eraseDups_concat_of_mem known]
    · exact holds.mentions.again known
  · cases h.symm.trans result
    have new := holds.mentions.find?_eq_none.mp absent
    rw [Placed.normal_file] at new
    have mentions := holds.mentions.concat (r := newResource draft.resources p.name directives) new rfl
    refine ⟨Or.inl isFile, read, ?_, _, rfl, mentions, ?_⟩
    · rw [number, List.map_append, List.map_singleton, eraseDups_concat_of_notMem new,
        List.idxOf_append, if_neg (fun member => new (List.mem_eraseDups.mp member)),
        List.idxOf_cons_self, Nat.zero_add, ← holds.mentions.size]
      rfl
    · intro q member
      rcases List.mem_append.mp member with old | last
      · exact holds.directives q old
      · rw [List.mem_singleton.mp last]
        exact read
  · cases h.symm.trans result

theorem exists_resource (holds : draft.Holds w d items)
    (isFile : d.isFile (w.path p.file) ∨ ∃ q ∈ items, q.name = p.name) {directives : Directives}
    (read : directivesOf? w d p.name = some directives) :
    ∃ r mid, draft.resource w d p.file = (.ok r, mid) := by
  rcases Draft.resource_cases w d draft p with
    ⟨r, -, result⟩ | ⟨_, -, -, -, result⟩ | ⟨absent, unread, -⟩
  · exact ⟨_, _, result⟩
  · exact ⟨_, _, result⟩
  · have new := holds.mentions.find?_eq_none.mp absent
    rw [Placed.normal_file] at new
    rcases isFile with isFile | known
    · cases read.symm.trans (unread isFile)
    · exact absurd (name_mem.mp known) new

/-- A slot does not hold the resource of an item where no earlier item put it there. -/
theorem fresh_iff (holds : draft.Holds w d items) {kind : ContextKind} {slot : SlotKey} :
    (∀ b ∈ draft.contexts.assignments kind slot, b.resource ≠ number (items ++ [p]) p) ↔
      ∀ q ∈ items, q.kind = kind → q.slot = slot → q.name ≠ p.name := by
  have apart {q : Placed} (member : q ∈ items) :
      number items q ≠ number (items ++ [p]) p ↔ q.name ≠ p.name := by
    rw [← number_concat p member, ne_eq, number_eq_iff (List.mem_append_left _ member)]
  rw [holds.assigned]
  simp only [List.mem_map, List.mem_filter, decide_eq_true_eq]
  constructor
  · intro free q member here there
    exact (apart member).mp (free _ ⟨q, ⟨member, here, there⟩, rfl⟩)
  · rintro free _ ⟨q, ⟨member, here, there⟩, rfl⟩
    exact (apart member).mpr (free q member here there)

/-- An item that a step takes joins the ones that the draft holds. Only its contexts and its resources
change. -/
theorem assign_ok (holds : draft.Holds w d items)
    (h : draft.assign w d p.kind p.slot p.item = (.ok (), next)) :
    Accepts w d items p ∧ next.Holds w d (items ++ [p]) ∧
      ∃ contexts resources, next = { draft with contexts, resources } := by
  obtain ⟨r, mid, contexts, found, bytes, assigned, rfl⟩ := Draft.assign_eq_ok.mp h
  obtain ⟨isFile, read, number_eq, t, rfl, mentions, directives⟩ := holds.resource_eq_ok found
  obtain ⟨fits, free⟩ := Contexts.assign_ok_iff.mp ⟨contexts, assigned⟩
  refine ⟨⟨isFile, ⟨r.directives, read, bytes⟩, fits, ?_⟩, ⟨mentions, directives, ?_⟩, contexts, t, rfl⟩
  · refine holds.fresh_iff.mp ?_
    rw [← number_eq]
    exact free
  · intro kind slot
    rw [Contexts.assignments_assign assigned]
    change draft.contexts.assignments kind slot ++ _ = _
    rw [holds.assigned, List.filter_append, List.map_append]
    have old : (items.filter fun q => q.kind = kind ∧ q.slot = slot).map
        (fun q => Assignment.mk (number items q) q.item.bytes) =
        (items.filter fun q => q.kind = kind ∧ q.slot = slot).map
          fun q => ⟨number (items ++ [p]) q, q.item.bytes⟩ := by
      refine List.map_congr_left fun q member => ?_
      rw [number_concat p (List.mem_of_mem_filter member)]
    rw [old, number_eq]
    by_cases here : kind = p.kind ∧ slot = p.slot
    · rw [if_pos here, List.filter_cons_of_pos (by simp [here.1, here.2])]
      rfl
    · have elsewhere : ¬(p.kind = kind ∧ p.slot = slot) := fun h => here ⟨h.1.symm, h.2.symm⟩
      rw [if_neg here, List.filter_cons_of_neg (by simpa using elsewhere)]
      rfl

theorem exists_assign (holds : draft.Holds w d items) (accepts : Accepts w d items p) :
    ∃ next, draft.assign w d p.kind p.slot p.item = (.ok (), next) := by
  obtain ⟨directives, read, bytes⟩ := accepts.bytes
  obtain ⟨r, mid, found⟩ := holds.exists_resource accepts.file read
  obtain ⟨-, read', number_eq, t, rfl, -⟩ := holds.resource_eq_ok found
  cases read.symm.trans read'
  have free := holds.fresh_iff.mpr accepts.fresh
  rw [← number_eq] at free
  have taken : ∃ contexts, draft.contexts.assign p.kind p.slot ⟨r.id, p.item.bytes⟩ = .ok contexts :=
    Contexts.assign_ok_iff.mpr ⟨accepts.fits, free⟩
  obtain ⟨contexts, assigned⟩ := taken
  exact ⟨_, Draft.assign_eq_ok.mpr ⟨r, _, contexts, found, bytes, assigned, rfl⟩⟩

theorem assignAll_clean (holds : draft.Holds w d items) (kind : ContextKind) (slot : SlotKey)
    (list : List Item) (accepted : EachAfter (Accepts w d) items) :
    (∃ next, draft.assignAll w d kind slot list = (none, next)) ↔
      EachAfter (Accepts w d) (items ++ list.map (⟨kind, slot, ·⟩)) := by
  induction list generalizing draft items with
  | nil => simpa [Draft.assignAll] using accepted
  | cons item list ih =>
    have whole : items ++ (item :: list).map (⟨kind, slot, ·⟩) =
        (items ++ [⟨kind, slot, item⟩]) ++ list.map (⟨kind, slot, ·⟩) := by simp
    rw [whole, Draft.assignAll]
    rcases step : draft.assign w d kind slot item with ⟨e | ⟨⟩, mid⟩
    · simp only [Prod.mk.injEq, reduceCtorEq, false_and, exists_false, false_iff]
      intro all
      obtain ⟨mid', taken⟩ := holds.exists_assign (EachAfter.concat_iff.mp all.front).2
      cases step.symm.trans taken
    · obtain ⟨accepts, next, -⟩ := @assign_ok w d items ⟨kind, slot, item⟩ _ _ holds step
      exact ih next (EachAfter.concat_iff.mpr ⟨accepted, accepts⟩)

theorem assignAll_none (holds : draft.Holds w d items) {kind : ContextKind} {slot : SlotKey}
    {list : List Item} (h : draft.assignAll w d kind slot list = (none, next)) :
    next.Holds w d (items ++ list.map (⟨kind, slot, ·⟩)) ∧
      ∃ contexts resources, next = { draft with contexts, resources } := by
  induction list generalizing draft items with
  | nil =>
    cases h
    exact ⟨by simpa using holds, _, _, rfl⟩
  | cons item list ih =>
    have whole : items ++ (item :: list).map (⟨kind, slot, ·⟩) =
        (items ++ [⟨kind, slot, item⟩]) ++ list.map (⟨kind, slot, ·⟩) := by simp
    obtain ⟨mid, step, later⟩ := assignAll_cons_eq_none.mp h
    obtain ⟨-, holds', contexts, resources, rfl⟩ :=
      @assign_ok w d items ⟨kind, slot, item⟩ _ _ holds step
    obtain ⟨last, contexts', resources', rfl⟩ := ih holds' later
    rw [whole]
    exact ⟨last, contexts', resources', rfl⟩

end Draft.Holds

/-! ### Statements -/

def Draft.given (draft : Draft) : Command → Bool
  | .verbose => draft.verbose?.isSome
  | .rom => draft.romFile?.isSome
  | .file role => draft.files.any (·.1 == role)
  | .freeram => draft.freeram?.isSome

/-- A draft that took the statements of a list. -/
structure Draft.Follows (w : Workspace) (d : Disk) (statements : List Statement) (draft : Draft) :
    Prop where
  given : ∀ c, draft.given c = true ↔ 0 < count statements c
  heading : draft.heading? = Listing.heading? statements
  holds : draft.Holds w d (placed statements)

/-- What a statement needs, given the ones in front of it. -/
structure Allowed (w : Workspace) (d : Disk) (before : List Statement) (s : Statement) : Prop where
  once : ∀ c, s.command? = some c → count before c = 0
  headed : s.line?.isSome → (heading? before).isSome
  items : EachAfter (Accepts w d) (placed (before ++ [s]))

namespace Draft
variable {before : List Statement} {s : Statement} {c : Command} {draft next : Draft}

def take (draft : Draft) : Statement → Draft
  | .verbose on _ => { draft with verbose? := some on }
  | .rom path _ => { draft with romFile? := some ⟨path⟩ }
  | .file role path _ => { draft with files := draft.files ++ [(role, path)] }
  | .freeram address _ => { draft with freeram? := some address }
  | .header .. | .slot .. => draft

/-- A command is refused for one reason, and else taken. -/
theorem apply_of_command (command : s.command? = some c) : ∃ fault, ∀ draft : Draft,
    draft.apply w d s = if draft.given c then (some fault, draft) else (none, draft.take s) := by
  cases s with
  | header kind span | slot slot slotSpan items span => cases command
  | _ =>
    cases command
    exact ⟨_, fun _ => rfl⟩

theorem apply_again (command : s.command? = some c) (given : draft.given c = true) :
    ∃ fault, draft.apply w d s = (some fault, draft) := by
  obtain ⟨fault, applied⟩ := apply_of_command (w := w) (d := d) command
  exact ⟨fault, (applied draft).trans (if_pos given)⟩

theorem apply_fresh (command : s.command? = some c) (fresh : draft.given c = false) :
    draft.apply w d s = (none, draft.take s) := by
  obtain ⟨fault, applied⟩ := apply_of_command (w := w) (d := d) command
  exact (applied draft).trans (if_neg (Bool.eq_false_iff.mp fresh))

theorem given_take (command : s.command? = some c) (c' : Command) :
    (draft.take s).given c' = (draft.given c' || c == c') := by
  cases s with
  | header kind span | slot slot slotSpan items span => cases command
  | file role path span =>
    cases command
    cases c' with
    | file other =>
      have same : (Command.file role == Command.file other) = (role == other) := by
        rw [Bool.eq_iff_iff]
        simp
      simp [given, take, same]
    | _ => simp [given, take]
  | _ =>
    cases command
    cases c' <;> simp [given, take]

theorem apply_first (command : s.command? = some c) (fresh : draft.given c = false) :
    ∃ next, draft.apply w d s = (none, next) ∧
      (∀ c', next.given c' = (draft.given c' || c == c')) ∧ next.heading? = draft.heading? ∧
      next.contexts = draft.contexts ∧ next.resources = draft.resources := by
  refine ⟨draft.take s, apply_fresh command fresh, given_take command, ?_⟩
  cases s <;> exact ⟨rfl, rfl, rfl⟩

theorem Holds.congr (holds : draft.Holds w d items) (contexts : next.contexts = draft.contexts)
    (resources : next.resources = draft.resources) : next.Holds w d items :=
  ⟨resources ▸ holds.mentions, resources ▸ holds.directives, contexts ▸ holds.assigned⟩

theorem follows_empty : Draft.Follows w d [] {} :=
  ⟨fun c => by cases c <;> simp [given, count], rfl, holds_empty⟩

/-! A step is one of three: of a command, of a header, or of a slot with its items. -/

section
variable {slot : SlotKey} {slotSpan span : Span} {list : List Item}

theorem Follows.clean_of_command (follows : draft.Follows w d before)
    (accepted : EachAfter (Accepts w d) (placed before)) (command : s.command? = some c) :
    (∃ next, draft.apply w d s = (none, next)) ↔ Allowed w d before s := by
  have bare : s.line? = none := line?_of_command command
  cases given : draft.given c with
  | true =>
    obtain ⟨fault, refused⟩ := apply_again (w := w) (d := d) command given
    have before_pos := (follows.given c).mp given
    refine ⟨fun ⟨next, h⟩ => ?_, fun allowed => ?_⟩
    · cases refused.symm.trans h
    · have zero := allowed.once c command
      omega
  | false =>
    have zero : ¬0 < count before c := by
      rw [← follows.given, given]
      exact Bool.false_ne_true
    refine ⟨fun _ => ⟨fun c' same => ?_, fun h => ?_, ?_⟩, fun _ => ⟨_, apply_fresh command given⟩⟩
    · cases command.symm.trans same
      omega
    · rw [bare] at h
      cases h
    · rw [placed_concat, placedIn_of_bare bare, List.append_nil]
      exact accepted

theorem Follows.clean_of_slot (follows : draft.Follows w d before)
    (accepted : EachAfter (Accepts w d) (placed before)) :
    (∃ next, draft.apply w d (.slot slot slotSpan list span) = (none, next)) ↔
      Allowed w d before (.slot slot slotSpan list span) := by
  unfold Draft.apply
  rw [follows.heading]
  cases section? : Listing.heading? before with
  | none =>
    refine ⟨fun ⟨next, h⟩ => ?_, fun allowed => ?_⟩
    · cases h
    · have headed := allowed.headed rfl
      rw [section?] at headed
      cases headed
  | some kind =>
    have whole : placed (before ++ [.slot slot slotSpan list span]) =
        placed before ++ list.map (⟨kind, slot, ·⟩) := by
      rw [placed_concat, section?]
      rfl
    refine (follows.holds.assignAll_clean kind slot list accepted).trans ?_
    rw [← whole]
    refine ⟨fun all => ⟨fun c same => ?_, fun _ => ?_, all⟩, fun allowed => allowed.items⟩
    · cases same
    · rw [section?]
      rfl

theorem Follows.apply_clean (follows : draft.Follows w d before)
    (accepted : EachAfter (Accepts w d) (placed before)) :
    (∃ next, draft.apply w d s = (none, next)) ↔ Allowed w d before s := by
  cases command : s.command? with
  | some c => exact follows.clean_of_command accepted command
  | none =>
    cases s with
    | header kind span =>
      refine ⟨fun _ => ⟨fun c same => ?_, fun h => ?_, ?_⟩, fun _ => ⟨_, rfl⟩⟩
      · cases same
      · cases h
      · rw [placed_concat, placedIn_of_bare rfl, List.append_nil]
        exact accepted
    | slot slot slotSpan list span => exact follows.clean_of_slot accepted
    | _ => cases command

theorem Follows.next_of_command (follows : draft.Follows w d before) (command : s.command? = some c)
    (h : draft.apply w d s = (none, next)) : next.Follows w d (before ++ [s]) := by
  cases given : draft.given c with
  | true =>
    obtain ⟨fault, refused⟩ := apply_again (w := w) (d := d) command given
    cases refused.symm.trans h
  | false =>
    obtain ⟨taken, result, marks, heading, contexts, resources⟩ :=
      apply_first (w := w) (d := d) command given
    cases result.symm.trans h
    refine ⟨fun c' => ?_, ?_, ?_⟩
    · have old := follows.given c'
      rw [marks, count_concat, command, Bool.or_eq_true, old, beq_iff_eq]
      by_cases same : c = c' <;> simp [same]
    · rw [heading, heading?_concat, follows.heading, header?_of_command command]
      rfl
    · rw [placed_concat, placedIn_of_bare (line?_of_command command), List.append_nil]
      exact follows.holds.congr contexts resources

theorem count_concat_of_none (command : s.command? = none) (c : Command) :
    count (before ++ [s]) c = count before c := by
  rw [count_concat, command]
  rfl

theorem Follows.next_of_slot (follows : draft.Follows w d before)
    (h : draft.apply w d (.slot slot slotSpan list span) = (none, next)) :
    next.Follows w d (before ++ [.slot slot slotSpan list span]) := by
  unfold Draft.apply at h
  rw [follows.heading] at h
  cases section? : Listing.heading? before with
  | none =>
    rw [section?] at h
    cases h
  | some kind =>
    rw [section?] at h
    obtain ⟨holds, contexts, resources, rfl⟩ := follows.holds.assignAll_none h
    refine ⟨fun c => ?_, ?_, ?_⟩
    · rw [count_concat_of_none rfl, ← follows.given]
      cases c <;> rfl
    · rw [heading?_concat]
      exact follows.heading
    · rw [placed_concat, section?]
      exact holds

theorem Follows.apply_none (follows : draft.Follows w d before)
    (h : draft.apply w d s = (none, next)) : next.Follows w d (before ++ [s]) := by
  cases command : s.command? with
  | some c => exact follows.next_of_command command h
  | none =>
    cases s with
    | header kind span =>
      cases h
      refine ⟨fun c => ?_, ?_, ?_⟩
      · rw [count_concat_of_none command, ← follows.given]
        cases c <;> rfl
      · rw [heading?_concat]
        rfl
      · rw [placed_concat, placedIn_of_bare rfl, List.append_nil]
        exact follows.holds.congr rfl rfl
    | slot slot slotSpan list span => exact follows.next_of_slot h
    | _ => cases command

end

end Draft

end RomLinker.Settings
