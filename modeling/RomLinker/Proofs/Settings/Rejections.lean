import RomLinker.Proofs.Settings.Draft

/-!
Which items of a list are rejected, and why, when they are taken one after the other whatever became of those
in front of them (`rejection?`). A draft answers to each item with just that (`Draft.Tracks.assign`), and of
each line it keeps the first answer (`Draft.Tracks.assignAll`).
-/
namespace RomLinker

def directivesAt (w : Workspace) (d : Disk) (file : Path) : Except LinkError Directives :=
  match d.readText (w.path file) with
  | .error e => .error (.disk (w.path file) e)
  | .ok source =>
    match Directives.parse source with
    | .error e => .error (.authoring file (.directive e))
    | .ok directives => .ok directives

theorem directivesOf?_eq (w : Workspace) (d : Disk) (file : Path) :
    directivesOf? w d file = (directivesAt w d file).toOption := by
  unfold directivesOf? directivesAt
  cases read : d.readText (w.path file) with
  | error e => rfl
  | ok source => cases parsed : Directives.parse source <;> simp [parsed, Except.toOption]

theorem Resource.readDirectives_eq (r : Resource) (w : Workspace) (d : Disk) :
    r.readDirectives w d = (directivesAt w d r.file).map fun directives => { r with directives } := by
  unfold readDirectives directivesAt
  cases read : d.readText (w.path r.file) with
  | error e => simp [read, Except.map]
  | ok source => cases parsed : Directives.parse source <;> simp [read, parsed, Except.map]

/-- How many bytes an assignment of a file is to carry. A file that cannot be used asks for none. -/
def bytesAsked (w : Workspace) (d : Disk) (file : Path) : Nat :=
  ((directivesOf? w d file).getD {}).extraBytes.toNat

namespace Settings
open Listing

variable {w : Workspace} {d : Disk} {earlier : List Placed} {p : Placed}

/-! ### Reasons

The items in front of an item are given with the last one first. -/

/-- The names of the files that were found, each along the way that its item spells. -/
def foundNames (w : Workspace) (d : Disk) (earlier : List Placed) : List Path :=
  ((earlier.filter fun q => d.isFile (w.path q.file)).map Placed.name).reverse

/-- A file that is new has to be there, and to have directives that can be read. A file that was found before
is not looked at again. -/
def unusable? (w : Workspace) (d : Disk) (earlier : List Placed) (p : Placed) : Option Fault :=
  if p.name ∈ foundNames w d earlier then none
  else if d.isFile (w.path p.file) then
    match directivesAt w d p.name with
    | .ok _ => none
    | .error e => some (.unusable e)
  else some (.fileNotFound p.file)

def miscounted? (w : Workspace) (d : Disk) (p : Placed) : Option Fault :=
  if p.item.bytes = [] ∨ p.item.bytes.length = bytesAsked w d p.name then none
  else some (.wrongByteCount p.item.bytes.length (bytesAsked w d p.name))

def misplaced? (p : Placed) : Option Fault :=
  match p.slot with
  | .aggregate => none
  | .index i => if i < p.kind.capacity then none else some (.slot (.outOfRange p.kind i))

/-- What is wrong with an item before its slot is looked into. -/
def flaw? (w : Workspace) (d : Disk) (earlier : List Placed) (p : Placed) : Option Fault :=
  (unusable? w d earlier p).or ((miscounted? w d p).or (misplaced? p))

def Taken (w : Workspace) (d : Disk) (kind : ContextKind) (slot : SlotKey) (name : Path) :
    List Placed → Prop
  | [] => False
  | q :: earlier =>
    (q.kind = kind ∧ q.slot = slot ∧ q.name = name ∧ (flaw? w d earlier q).isNone) ∨
      Taken w d kind slot name earlier

instance instDecidableTaken (kind : ContextKind) (slot : SlotKey) (name : Path) :
    (earlier : List Placed) → Decidable (Taken w d kind slot name earlier)
  | [] => instDecidableFalse
  | q :: earlier =>
    have := instDecidableTaken kind slot name earlier
    inferInstanceAs (Decidable ((q.kind = kind ∧ q.slot = slot ∧ q.name = name ∧ _) ∨ _))

def rejection? (w : Workspace) (d : Disk) (earlier : List Placed) (p : Placed) : Option Fault :=
  (flaw? w d earlier p).or
    (if Taken w d p.kind p.slot p.name earlier then some (.slot (.alreadyAssigned p.kind p.slot)) else none)

def rejections (w : Workspace) (d : Disk) (earlier : List Placed) : List Placed → List Flagged
  | [] => []
  | p :: rest =>
    ((rejection? w d earlier p).map fun fault => ⟨fault, p.item.span⟩).toList ++
      rejections w d (p :: earlier) rest

def Fault.ofItem : Fault → Bool
  | .fileNotFound _ | .unusable _ | .wrongByteCount .. | .slot _ => true
  | .malformed _ | .repeated _ | .noContext | .missing _ => false

theorem misplaced?_eq_none : misplaced? p = none ↔ p.slot.Fits p.kind := by
  unfold misplaced?
  cases p.slot <;> simp [SlotKey.Fits]

theorem flaw?_eq_none : flaw? w d earlier p = none ↔
    unusable? w d earlier p = none ∧ miscounted? w d p = none ∧ p.slot.Fits p.kind := by
  rw [flaw?, Option.or_eq_none_iff, Option.or_eq_none_iff, misplaced?_eq_none]

theorem rejection?_of_flaw? {fault : Fault} (flawed : flaw? w d earlier p = some fault) :
    rejection? w d earlier p = some fault := by
  rw [rejection?, flawed, Option.some_or]

/-- The reasons by what they say: of the file, of the number of bytes, or of the slot. -/
theorem rejection?_cases {fault : Fault} (rejected : rejection? w d earlier p = some fault) :
    (fault = .fileNotFound p.file ∨ ∃ e, fault = .unusable e) ∨
      (unusable? w d earlier p = none ∧ p.item.bytes ≠ [] ∧ p.item.bytes.length ≠ bytesAsked w d p.name ∧
        fault = .wrongByteCount p.item.bytes.length (bytesAsked w d p.name)) ∨
      ∃ reason, fault = .slot reason := by
  rcases Option.or_eq_some_iff.mp rejected with flawed | ⟨-, taken⟩
  · rcases Option.or_eq_some_iff.mp flawed with unusable | ⟨usable, flawed⟩
    · left
      unfold unusable? at unusable
      split at unusable
      · cases unusable
      · split at unusable
        · split at unusable <;> cases unusable
          exact Or.inr ⟨_, rfl⟩
        · cases unusable
          exact Or.inl rfl
    · right
      rcases Option.or_eq_some_iff.mp flawed with miscounted | ⟨-, misplaced⟩
      · unfold miscounted? at miscounted
        split at miscounted
        · cases miscounted
        · rename_i wrong
          cases miscounted
          exact Or.inl ⟨usable, fun none => wrong (Or.inl none), fun same => wrong (Or.inr same), rfl⟩
      · unfold misplaced? at misplaced
        split at misplaced
        · cases misplaced
        · split at misplaced <;> cases misplaced
          exact Or.inr ⟨_, rfl⟩
  · split at taken <;> cases taken
    exact Or.inr (Or.inr ⟨_, rfl⟩)

theorem ofItem_of_rejection? {fault : Fault} (rejected : rejection? w d earlier p = some fault) :
    fault.ofItem = true := by
  rcases rejection?_cases rejected with (rfl | ⟨e, rfl⟩) | ⟨-, -, -, rfl⟩ | ⟨reason, rfl⟩ <;> rfl

theorem foundNames_cons (p : Placed) (earlier : List Placed) : foundNames w d (p :: earlier) =
    foundNames w d earlier ++ if d.isFile (w.path p.file) then [p.name] else [] := by
  unfold foundNames
  cases isFile : d.isFile (w.path p.file) <;> simp [isFile]

theorem found_of_usable (usable : unusable? w d earlier p = none) :
    p.name ∈ foundNames w d (p :: earlier) := by
  rw [foundNames_cons]
  unfold unusable? at usable
  split at usable
  · rename_i known
    exact List.mem_append_left _ known
  · split at usable
    · rename_i isFile
      rw [if_pos isFile]
      exact List.mem_append_right _ List.mem_cons_self
    · cases usable

theorem found_of_taken {kind : ContextKind} {slot : SlotKey} {name : Path}
    (taken : Taken w d kind slot name earlier) : name ∈ foundNames w d earlier := by
  induction earlier with
  | nil => exact taken.elim
  | cons q earlier ih =>
    rcases taken with ⟨-, -, rfl, sound⟩ | taken
    · exact found_of_usable (flaw?_eq_none.mp (Option.isNone_iff_eq_none.mp sound)).1
    · rw [foundNames_cons]
      exact List.mem_append_left _ (ih taken)

def numberIn (names : List Path) (name : Path) : Nat := names.eraseDups.idxOf name

/-- The resources of the files that were found. One that cannot be used has the directives of an empty
file. -/
structure Brings (w : Workspace) (d : Disk) (earlier : List Placed) (t : ResourceTable) : Prop where
  mentions : t.Mentions (foundNames w d earlier)
  directives : ∀ r ∈ t.resources, r.directives = (directivesOf? w d r.file).getD {}

theorem Draft.resource_eq (w : Workspace) (d : Disk) (draft : Draft) (p : Placed) :
    draft.resource w d p.file =
      match draft.resources.find? p.file with
      | some r => (.ok r, draft)
      | none =>
        if d.isFile (w.path p.file) then
          let r := newResource draft.resources p.name ((directivesOf? w d p.name).getD {})
          (match directivesAt w d p.name with
            | .ok _ => .ok r
            | .error e => .error (.unusable e),
            { draft with resources := ⟨draft.resources.resources ++ [r]⟩ })
        else (.error (.fileNotFound p.file), draft) := by
  unfold Draft.resource
  cases found : draft.resources.find? p.file with
  | some r => rfl
  | none =>
    cases isFile : d.isFile (w.path p.file) with
    | false => rfl
    | true =>
      have intern : draft.resources.intern p.file = (newResource draft.resources p.name {},
          ⟨draft.resources.resources ++ [newResource draft.resources p.name {}]⟩) := by
        simp only [ResourceTable.intern, found, Placed.normal_file, newResource]
      have name : (newResource draft.resources p.name {}).file = p.name := rfl
      simp only [intern, Bool.not_true, Bool.false_eq_true, if_false, if_true,
        Resource.readDirectives_eq, name, directivesOf?_eq]
      cases directivesAt w d p.name with
      | error e => rfl
      | ok directives =>
        simp [Except.map, Except.toOption, ResourceTable.put, newResource, ResourceTable.size]

theorem Brings.skip {t : ResourceTable} (brings : Brings w d earlier t)
    (known : p.name ∈ foundNames w d earlier) : Brings w d (p :: earlier) t := by
  refine ⟨?_, brings.directives⟩
  rw [foundNames_cons]
  split
  · exact brings.mentions.again known
  · rw [List.append_nil]
    exact brings.mentions

theorem Brings.grow {t : ResourceTable} (brings : Brings w d earlier t) (new : p.name ∉ foundNames w d earlier)
    (isFile : d.isFile (w.path p.file) = true) : Brings w d (p :: earlier)
      ⟨t.resources ++ [newResource t p.name ((directivesOf? w d p.name).getD {})]⟩ := by
  refine ⟨?_, fun q member => ?_⟩
  · rw [foundNames_cons, isFile]
    exact brings.mentions.concat new rfl
  · rcases List.mem_append.mp member with old | last
    · exact brings.directives q old
    · rw [List.mem_singleton.mp last]
      rfl

theorem numberIn_concat {names : List Path} {name : Path} (new : name ∉ names) :
    numberIn (names ++ [name]) name = names.eraseDups.length := by
  rw [numberIn, eraseDups_concat_of_notMem new, List.idxOf_append,
    if_neg fun old => new (List.mem_eraseDups.mp old), List.idxOf_cons_self, Nat.zero_add]

/-- A file that was found before has its resource. Any other one gets the next number where it is there,
whether or not it can be used. -/
theorem Brings.resource {draft : Draft} (brings : Brings w d earlier draft.resources) (p : Placed) :
    ∃ t, Brings w d (p :: earlier) t ∧
      ((∃ fault, unusable? w d earlier p = some fault ∧
        draft.resource w d p.file = (.error fault, { draft with resources := t })) ∨
      ∃ r, unusable? w d earlier p = none ∧
        draft.resource w d p.file = (.ok r, { draft with resources := t }) ∧
        r.id = numberIn (foundNames w d (p :: earlier)) p.name ∧
        r.directives.extraBytes.toNat = bytesAsked w d p.name) := by
  rw [Draft.resource_eq, foundNames_cons]
  cases found : draft.resources.find? p.file with
  | some r =>
    obtain ⟨same, number, member⟩ := brings.mentions.find?_eq_some found
    rw [Placed.normal_file] at same number
    have known : p.name ∈ foundNames w d earlier := brings.mentions.mem_iff.mp ⟨r, member, same⟩
    refine ⟨draft.resources, brings.skip known, Or.inr ⟨r, if_pos known, rfl, ?_, ?_⟩⟩
    · rw [number, numberIn, idxOf_eraseDups_append known]
    · rw [brings.directives r member, same, bytesAsked]
  | none =>
    have new := brings.mentions.find?_eq_none.mp found
    rw [Placed.normal_file] at new
    cases isFile : d.isFile (w.path p.file) with
    | false =>
      refine ⟨draft.resources, ⟨?_, brings.directives⟩, Or.inl ⟨.fileNotFound p.file, ?_, rfl⟩⟩
      · rw [foundNames_cons, isFile]
        simpa using brings.mentions
      · simp [unusable?, new, isFile]
    | true =>
      refine ⟨_, brings.grow new isFile, ?_⟩
      cases read : directivesAt w d p.name with
      | error e => exact Or.inl ⟨.unusable e, by simp [unusable?, new, isFile, read], rfl⟩
      | ok directives =>
        refine Or.inr ⟨_, by simp [unusable?, new, isFile, read], rfl, ?_, rfl⟩
        rw [if_pos rfl, numberIn_concat new, ← brings.mentions.size]
        rfl

/-- The slots hold what the items have brought to them, by the numbers of the names that were found. -/
structure Fills (w : Workspace) (d : Disk) (names : List Path) (earlier : List Placed) (cs : Contexts) :
    Prop where
  bounded : ∀ kind slot, ∀ a ∈ cs.assignments kind slot, a.resource < names.eraseDups.length
  taken : ∀ kind slot, ∀ name ∈ names,
    (∃ a ∈ cs.assignments kind slot, a.resource = numberIn names name) ↔ Taken w d kind slot name earlier

namespace Fills
variable {names : List Path} {cs next : Contexts}

theorem grow (fills : Fills w d (foundNames w d earlier) earlier cs) (p : Placed) :
    Fills w d (foundNames w d (p :: earlier)) earlier cs := by
  rw [foundNames_cons]
  generalize (if d.isFile (w.path p.file) then [p.name] else []) = more
  refine ⟨fun kind slot a member => ?_, fun kind slot name member => ?_⟩
  · have bound := fills.bounded kind slot a member
    rw [List.eraseDups_append, List.length_append]
    omega
  · by_cases old : name ∈ foundNames w d earlier
    · rw [numberIn, idxOf_eraseDups_append old]
      exact fills.taken kind slot name old
    · refine ⟨fun ⟨a, held, number⟩ => ?_, fun taken => absurd (found_of_taken taken) old⟩
      have bound := fills.bounded kind slot a held
      rw [number, numberIn, List.eraseDups_append, List.idxOf_append,
        if_neg fun known => old (List.mem_eraseDups.mp known)] at bound
      omega

theorem skip (fills : Fills w d names earlier cs)
    (rejected : flaw? w d earlier p ≠ none ∨ Taken w d p.kind p.slot p.name earlier) :
    Fills w d names (p :: earlier) cs := by
  refine ⟨fills.bounded, fun kind slot name member => (fills.taken kind slot name member).trans ?_⟩
  refine ⟨Or.inr, ?_⟩
  rintro (⟨rfl, rfl, rfl, sound⟩ | taken)
  · exact rejected.resolve_left fun flawed => flawed (Option.isNone_iff_eq_none.mp sound)
  · exact taken

theorem skip_of_flaw? (fills : Fills w d names earlier cs) {fault : Fault}
    (flawed : flaw? w d earlier p = some fault) : Fills w d names (p :: earlier) cs :=
  fills.skip (Or.inl (flawed ▸ Option.some_ne_none _))

theorem put (fills : Fills w d names earlier cs) (sound : flaw? w d earlier p = none)
    (known : p.name ∈ names) {bytes : List UInt8}
    (assigned : cs.assign p.kind p.slot ⟨numberIn names p.name, bytes⟩ = .ok next) :
    Fills w d names (p :: earlier) next := by
  refine ⟨fun kind slot a member => ?_, fun kind slot name member => ?_⟩
  · rw [Contexts.assignments_assign assigned] at member
    rcases List.mem_append.mp member with old | new
    · exact fills.bounded kind slot a old
    · split at new
      · rw [List.mem_singleton.mp new]
        exact List.idxOf_lt_length_of_mem (List.mem_eraseDups.mpr known)
      · cases new
  · have same : numberIn names p.name = numberIn names name ↔ p.name = name := idxOf_eraseDups_inj known
    rw [Contexts.assignments_assign assigned]
    simp only [Taken, ← fills.taken kind slot name member, sound, Option.isNone_none, and_true,
      List.mem_append, or_and_right, exists_or]
    rw [or_comm, and_assoc.symm, ← same]
    by_cases here : kind = p.kind ∧ slot = p.slot
    · simp [here]
    · have elsewhere : ¬(p.kind = kind ∧ p.slot = slot) := fun h => here ⟨h.1.symm, h.2.symm⟩
      simp [here, elsewhere]

theorem assign (fills : Fills w d names earlier cs) (known : p.name ∈ names)
    (start : flaw? w d earlier p = misplaced? p) (bytes : List UInt8) :
    (∃ e, cs.assign p.kind p.slot ⟨numberIn names p.name, bytes⟩ = .error e ∧
        rejection? w d earlier p = some (.slot e) ∧ Fills w d names (p :: earlier) cs) ∨
      ∃ next, cs.assign p.kind p.slot ⟨numberIn names p.name, bytes⟩ = .ok next ∧
        rejection? w d earlier p = none ∧ Fills w d names (p :: earlier) next := by
  have held := fills.taken p.kind p.slot p.name known
  rcases cs.assign_cases p.kind p.slot ⟨numberIn names p.name, bytes⟩ with
    ⟨i, slot, outside, assigned⟩ | ⟨fits, there, assigned⟩ | ⟨fits, fresh, next, assigned⟩
  · have far : ¬i < p.kind.capacity := by rwa [slot] at outside
    have misplaced : misplaced? p = some (.slot (.outOfRange p.kind i)) := by
      rw [misplaced?, slot]
      exact if_neg far
    have flawed := start.trans misplaced
    exact Or.inl ⟨_, assigned, rejection?_of_flaw? flawed, fills.skip_of_flaw? flawed⟩
  · have sound : flaw? w d earlier p = none := start.trans (misplaced?_eq_none.mpr fits)
    have taken := held.mp there
    refine Or.inl ⟨_, assigned, ?_, fills.skip (Or.inr taken)⟩
    rw [rejection?, sound, Option.none_or, if_pos taken]
  · have sound : flaw? w d earlier p = none := start.trans (misplaced?_eq_none.mpr fits)
    have free : ¬Taken w d p.kind p.slot p.name earlier := fun taken =>
      have ⟨b, member, same⟩ := held.mpr taken
      fresh b member same
    refine Or.inr ⟨next, assigned, ?_, fills.put sound known assigned⟩
    rw [rejection?, sound, Option.none_or, if_neg free]

end Fills

/-! ### Steps -/

/-- A draft that took the items of a list, however many of them it has rejected. -/
structure Draft.Tracks (w : Workspace) (d : Disk) (earlier : List Placed) (draft : Draft) : Prop where
  brings : Brings w d earlier draft.resources
  fills : Fills w d (foundNames w d earlier) earlier draft.contexts

def answer : Option Fault → Except Fault Unit
  | some fault => .error fault
  | none => .ok ()

namespace Draft
variable {draft : Draft}

theorem tracks_empty : Draft.Tracks w d [] {} := by
  refine ⟨⟨ResourceTable.mentions_empty, fun _ member => absurd member List.not_mem_nil⟩, ?_, ?_⟩
  · intro kind slot a member
    rw [Contexts.assignments_empty] at member
    cases member
  · exact fun kind slot name member => absurd member List.not_mem_nil

theorem Tracks.assign (tracks : draft.Tracks w d earlier) (p : Placed) :
    ∃ contexts resources,
      draft.assign w d p.kind p.slot p.item =
        (answer (rejection? w d earlier p), { draft with contexts, resources }) ∧
      Draft.Tracks w d (p :: earlier) { draft with contexts, resources } := by
  obtain ⟨t, brings, outcome⟩ := tracks.brings.resource p
  have fills := tracks.fills.grow p
  have rejected {fault : Fault} (flawed : flaw? w d earlier p = some fault) :
      rejection? w d earlier p = some fault ∧
        Draft.Tracks w d (p :: earlier) { draft with resources := t } :=
    ⟨rejection?_of_flaw? flawed, brings, fills.skip_of_flaw? flawed⟩
  unfold Draft.assign
  rw [show (Path.mk p.kind.directory).join ⟨p.item.file⟩ = p.file from rfl]
  rcases outcome with ⟨fault, unusable, result⟩ | ⟨r, usable, result, number, asked⟩
  · obtain ⟨rejection, tracks⟩ := rejected (by rw [flaw?, unusable, Option.some_or])
    refine ⟨draft.contexts, t, ?_, tracks⟩
    rw [result, rejection]
    rfl
  simp only [result, asked]
  -- the bytes are counted once the resource is there, and only then the slot is asked
  by_cases counted : p.item.bytes = [] ∨ p.item.bytes.length = bytesAsked w d p.name
  · have fine : (!p.item.bytes.isEmpty && p.item.bytes.length != bytesAsked w d p.name) = false := by
      rcases counted with none | same
      · simp [none]
      · simp [same]
    have free : miscounted? w d p = none := if_pos counted
    have start : flaw? w d earlier p = misplaced? p := by
      rw [flaw?, usable, free, Option.none_or, Option.none_or]
    simp only [fine, Bool.false_eq_true, if_false, number]
    rcases fills.assign (found_of_usable usable) start p.item.bytes with
      ⟨e, assigned, rejection, fills⟩ | ⟨next, assigned, rejection, fills⟩
    · refine ⟨draft.contexts, t, ?_, brings, fills⟩
      rw [assigned, rejection]
      rfl
    · refine ⟨next, t, ?_, brings, fills⟩
      rw [assigned, rejection]
      rfl
  · have wrong : (!p.item.bytes.isEmpty && p.item.bytes.length != bytesAsked w d p.name) = true := by
      simpa using counted
    have miscounted : miscounted? w d p =
        some (.wrongByteCount p.item.bytes.length (bytesAsked w d p.name)) := if_neg counted
    obtain ⟨rejection, tracks⟩ := rejected
      (by rw [flaw?, usable, Option.none_or, miscounted, Option.some_or])
    refine ⟨draft.contexts, t, ?_, tracks⟩
    rw [if_pos wrong, rejection]
    rfl

/-- Of the items of a line the first rejection is kept, and all of them are taken into account. -/
theorem Tracks.assignAll (tracks : draft.Tracks w d earlier) (kind : ContextKind) (slot : SlotKey)
    (items : List Item) :
    let line : List Placed := items.map (⟨kind, slot, ·⟩)
    ∃ contexts resources,
      draft.assignAll w d kind slot items =
        ((rejections w d earlier line).head?, { draft with contexts, resources }) ∧
      Draft.Tracks w d (line.reverse ++ earlier) { draft with contexts, resources } := by
  intro line
  induction items generalizing draft earlier with
  | nil => exact ⟨draft.contexts, draft.resources, rfl, tracks⟩
  | cons item items ih =>
    obtain ⟨contexts, resources, step, tracks⟩ := tracks.assign ⟨kind, slot, item⟩
    obtain ⟨contexts', resources', run, tracks⟩ := ih tracks
    refine ⟨contexts', resources', ?_, ?_⟩
    · rw [Draft.assignAll]
      simp only at step
      rw [step]
      simp only [run]
      change _ = ((rejections w d earlier (⟨kind, slot, item⟩ :: items.map (⟨kind, slot, ·⟩))).head?, _)
      rw [rejections]
      cases rejection? w d earlier ⟨kind, slot, item⟩ <;> rfl
    · have whole : line.reverse ++ earlier =
          (items.map (⟨kind, slot, ·⟩)).reverse ++ (⟨kind, slot, item⟩ :: earlier) := by
        simp [line]
      rw [whole]
      exact tracks

end Draft

end Settings
end RomLinker
