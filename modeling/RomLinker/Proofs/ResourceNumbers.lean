import RomLinker.Proofs.Disk.Resolution
import RomLinker.Proofs.Exports
import RomLinker.Proofs.Resources

/-!
A table of resources in the course of time (`ResourceTable.run_numbered`). Whatever is done with it, its
resources are the files that were taken up, each once. A resource keeps its number and its file, and it
changes only where its own number is named.
-/
namespace RomLinker.ResourceTable

/-- How a resource that has its number is changed: its directives are read from its file or given, or its
addresses are taken from labels. -/
inductive Update
  | read (w : Workspace) (d : Disk)
  | direct (directives : Directives)
  | label (labels : List Label)

/-- The changed resource. Where the file cannot be read, or no label is its entry, there is none. -/
def Update.change? : Update → Resource → Option Resource
  | .read w d, r => (r.readDirectives w d).toOption
  | .direct directives, r => some { r with directives }
  | .label labels, r => r.withLabels? labels

def Update.isLabels : Update → Bool
  | .read .. | .direct _ => false
  | .label _ => true

inductive Operation
  | intern (file : Path)
  | lookup (file : Path)
  | update (id : Nat) (u : Update)

def apply (t : ResourceTable) : Operation → ResourceTable
  | .intern file => (t.intern file).2
  | .lookup _ => t
  | .update id u => ((t.get? id).bind u.change?).elim t t.put

def run (ops : List Operation) : ResourceTable := ops.foldl apply empty

/-- The normal forms of the files that were taken up, with repetitions. -/
def interned (ops : List Operation) : List Path :=
  ops.filterMap fun
    | .intern file => some file.normal
    | .lookup _ | .update .. => none

def added (t : ResourceTable) (file : Path) : Resource :=
  { id := t.size, file := file.normal, directives := {} }

/-- What becomes of a resource. Its directives and its addresses stay unless an update of its number is about
them. -/
structure Kept (later : List Operation) (r q : Resource) : Prop where
  id_eq : q.id = r.id
  file_eq : q.file = r.file
  directives_eq : (∀ u, .update r.id u ∈ later → u.isLabels = true) → q.directives = r.directives
  addresses_eq : (∀ u, .update r.id u ∈ later → u.isLabels = false) →
    (q.entryPoint?, q.nmi?, q.tables) = (r.entryPoint?, r.nmi?, r.tables)

variable {t : ResourceTable} {names : List Path} {file : Path} {r q v : Resource} {u : Update} {id : Nat}
  {op : Operation} {ops later more : List Operation}

theorem intern_known (found : t.find? file = some r) : t.intern file = (r, t) := by
  rw [intern, found]

theorem intern_new (absent : t.find? file = none) :
    t.intern file = (t.added file, ⟨t.resources ++ [t.added file]⟩) := by
  rw [intern, absent]
  rfl

theorem Mentions.intern (mentions : t.Mentions names) (file : Path) :
    (t.intern file).2.Mentions (names ++ [file.normal]) := by
  cases found : t.find? file with
  | some r =>
    obtain ⟨same, -, member⟩ := mentions.find?_eq_some found
    rw [intern_known found]
    exact mentions.again (mentions.mem_iff.mp ⟨r, member, same⟩)
  | none =>
    have named : (t.added file).file = file.normal := by rw [added]
    have new := mentions.find?_eq_none.mp found
    rw [← named] at new ⊢
    rw [intern_new found]
    exact mentions.concat new rfl

theorem get?_intern (found : t.get? id = some r) (file : Path) : (t.intern file).2.get? id = some r := by
  cases known : t.find? file with
  | some q =>
    rw [intern_known known]
    exact found
  | none =>
    have inside : id < t.resources.length := (List.getElem?_eq_some_iff.mp found).1
    rw [intern_new known, get?, List.getElem?_append_left inside]
    exact found

theorem Update.kept (changed : u.change? r = some q) : Kept [.update r.id u] r q := by
  cases u with
  | read w d =>
    cases read : r.readDirectives w d with
    | error e =>
      rw [change?, read] at changed
      cases changed
    | ok v =>
      obtain ⟨directives, -, rfl⟩ := Resource.readDirectives_eq_ok.mp read
      rw [change?, read] at changed
      cases changed
      exact ⟨rfl, rfl, fun other => (nomatch other _ List.mem_cons_self), fun _ => rfl⟩
  | direct directives =>
    cases changed
    exact ⟨rfl, rfl, fun other => (nomatch other _ List.mem_cons_self), fun _ => rfl⟩
  | label labels =>
    obtain ⟨entry, -, rfl⟩ := Resource.withLabels?_eq_some changed
    exact ⟨rfl, rfl, fun _ => rfl, fun other => (nomatch other _ List.mem_cons_self)⟩

theorem apply_update (t : ResourceTable) (id : Nat) (u : Update) :
    t.apply (.update id u) = t ∨
      ∃ r q, t.get? id = some r ∧ u.change? r = some q ∧ t.apply (.update id u) = t.put q := by
  cases found : t.get? id with
  | none => exact Or.inl (by rw [apply, found]; rfl)
  | some r =>
    cases changed : u.change? r with
    | none => exact Or.inl (by rw [apply, found, Option.bind_some, changed]; rfl)
    | some q => exact Or.inr ⟨r, q, rfl, changed, by rw [apply, found, Option.bind_some, changed]; rfl⟩

theorem Kept.refl (later : List Operation) (r : Resource) : Kept later r r :=
  ⟨rfl, rfl, fun _ => rfl, fun _ => rfl⟩

theorem Kept.trans (first : Kept later r q) (second : Kept more q v) : Kept (later ++ more) r v := by
  refine ⟨second.id_eq.trans first.id_eq, second.file_eq.trans first.file_eq, fun other => ?_, fun other => ?_⟩
  · rw [second.directives_eq fun u member => other u (List.mem_append_right _ (first.id_eq ▸ member)),
      first.directives_eq fun u member => other u (List.mem_append_left _ member)]
  · rw [second.addresses_eq fun u member => other u (List.mem_append_right _ (first.id_eq ▸ member)),
      first.addresses_eq fun u member => other u (List.mem_append_left _ member)]

theorem Kept.eq (kept : Kept later r q) (unnamed : ∀ u, .update r.id u ∉ later) : q = r := by
  have directives := kept.directives_eq fun u member => absurd member (unnamed u)
  have addresses := kept.addresses_eq fun u member => absurd member (unnamed u)
  obtain ⟨id, file, own, entryPoint?, nmi?, tables⟩ := q
  cases kept.id_eq
  cases kept.file_eq
  cases directives
  cases addresses
  rfl

theorem interned_append (ops later : List Operation) :
    interned (ops ++ later) = interned ops ++ interned later :=
  List.filterMap_append

theorem Mentions.step (mentions : t.Mentions names) (op : Operation) :
    (t.apply op).Mentions (names ++ interned [op]) := by
  cases op with
  | intern file => exact mentions.intern file
  | lookup file =>
    rw [show interned [.lookup file] = [] from rfl, List.append_nil]
    exact mentions
  | update id u =>
    rw [show interned [.update id u] = [] from rfl, List.append_nil]
    rcases apply_update t id u with same | ⟨r, q, found, changed, put⟩
    · rw [same]
      exact mentions
    · have kept := Update.kept changed
      have place : t.get? q.id = some r := by
        rw [kept.id_eq, mentions.ids id r found]
        exact found
      rw [put]
      exact mentions.put place kept.file_eq

theorem Mentions.kept_step (mentions : t.Mentions names) (found : t.get? id = some r) (op : Operation) :
    ∃ q, (t.apply op).get? id = some q ∧ Kept [op] r q := by
  cases op with
  | intern file => exact ⟨r, get?_intern found file, .refl _ r⟩
  | lookup file => exact ⟨r, found, .refl _ r⟩
  | update id' u =>
    rcases apply_update t id' u with same | ⟨r', q, found', changed, put⟩
    · rw [same]
      exact ⟨r, found, .refl _ r⟩
    · have kept := Update.kept changed
      have number : q.id = id' := kept.id_eq.trans (mentions.ids id' r' found')
      have inside : q.id < t.size := number ▸ (List.getElem?_eq_some_iff.mp found').1
      rw [put, get?_put inside, number]
      by_cases here : id = id'
      · subst here
        cases found.symm.trans found'
        rw [mentions.ids id r found] at kept
        exact ⟨q, if_pos rfl, kept⟩
      · exact ⟨r, (if_neg here).trans found, .refl _ r⟩

theorem Mentions.steps (mentions : t.Mentions names) (ops : List Operation) :
    (ops.foldl apply t).Mentions (names ++ interned ops) := by
  induction ops generalizing t names with
  | nil => exact (List.append_nil names).symm ▸ mentions
  | cons op ops ih =>
    have after := ih (mentions.step op)
    rw [List.append_assoc, ← interned_append] at after
    exact after

theorem Mentions.kept_steps (mentions : t.Mentions names) (found : t.get? id = some r)
    (later : List Operation) : ∃ q, (later.foldl apply t).get? id = some q ∧ Kept later r q := by
  induction later generalizing t names r with
  | nil => exact ⟨r, found, .refl _ r⟩
  | cons op later ih =>
    obtain ⟨q, there, first⟩ := mentions.kept_step found op
    obtain ⟨v, last, second⟩ := ih (mentions.step op) there
    exact ⟨v, last, first.trans second⟩

theorem mentions_run (ops : List Operation) : (run ops).Mentions (interned ops) :=
  mentions_empty.steps ops

theorem normal_of_mem_interned (member : file ∈ interned ops) : file.normal = file := by
  obtain ⟨op, -, taken⟩ := List.mem_filterMap.mp member
  cases op with
  | intern p =>
    rw [← Option.some.inj taken]
    exact Path.normal_normal p
  | lookup p => cases taken
  | update id u => cases taken

/-- For every run from the empty table: the files are the normal forms that were taken up, each once, in the
order of first mention, and each has its own place for a number. A look-up gives the number of the resource
whose file is the normal form that is looked up. A known file is taken up without a change, a new one as the
next resource, with the directives of an empty file. Whatever comes later, a number keeps its file; where no
update names the number it keeps the resource, and a named one changes only in what its updates are about. -/
theorem run_numbered (ops : List Operation) :
    (run ops).resources.map (·.file) = (interned ops).eraseDups ∧
    (run ops).size = (interned ops).eraseDups.length ∧
    (∀ i, i < (run ops).size → ∃ r, (run ops).get? i = some r ∧ r.id = i ∧ r.file.normal = r.file) ∧
    ((run ops).resources.map (·.file)).Nodup ∧
    (∀ p i, ((run ops).find? p).map (·.id) = some i ↔
      ∃ r, (run ops).get? i = some r ∧ r.file = p.normal) ∧
    (∀ p, p.normal ∈ interned ops →
      ∃ r, (run ops).get? r.id = some r ∧ r.file = p.normal ∧ (run ops).intern p = (r, run ops)) ∧
    (∀ p, p.normal ∉ interned ops →
      (run ops).intern p = ((run ops).added p, ⟨(run ops).resources ++ [(run ops).added p]⟩)) ∧
    ∀ later i r, (run ops).get? i = some r →
      ∃ q, (run (ops ++ later)).get? i = some q ∧ Kept later r q ∧ ((∀ u, .update i u ∉ later) → q = r) := by
  have mentions := mentions_run ops
  refine ⟨mentions.files, mentions.size, fun i inside => ?_, mentions.nodup_files, fun p i => ?_,
    fun p known => ?_, fun p new => intern_new (mentions.find?_eq_none.mpr new), fun later i r found => ?_⟩
  · obtain ⟨r, here⟩ : ∃ r, (run ops).get? i = some r := ⟨_, List.getElem?_eq_getElem inside⟩
    have taken : r.file ∈ interned ops := mentions.mem_iff.mp ⟨r, List.mem_of_getElem? here, rfl⟩
    exact ⟨r, here, mentions.ids i r here, normal_of_mem_interned taken⟩
  · rw [Option.map_eq_some_iff]
    constructor
    · rintro ⟨r, found, rfl⟩
      exact ⟨r, mentions.find?_iff.mp found⟩
    · rintro ⟨r, here, same⟩
      have number := mentions.ids i r here
      exact ⟨r, mentions.find?_iff.mpr ⟨number.symm ▸ here, same⟩, number⟩
  · obtain ⟨r, member, same⟩ := mentions.mem_iff.mpr known
    have here := mentions.get?_id member
    exact ⟨r, here, same, intern_known (mentions.find?_iff.mpr ⟨here, same⟩)⟩
  · obtain ⟨q, there, kept⟩ := mentions.kept_steps found later
    refine ⟨q, ?_, kept, fun unnamed => kept.eq fun u => ?_⟩
    · rw [run, List.foldl_append]
      exact there
    · rw [mentions.ids i r found]
      exact unnamed u

example : (run [.intern ⟨"level/a.asm"⟩, .intern ⟨"level/b.asm"⟩, .intern ⟨"level/sub/../a.asm"⟩]).resources.map
    (·.id) = [0, 1] := by decide +kernel

end RomLinker.ResourceTable
