import RomLinker.Proofs.Listing.Local
import RomLinker.Proofs.Listing.Spelling
import RomLinker.Proofs.Settings.Respelling

/-!
Lists with a command in another place. A run over a list is one over its commands beside one over its
sections, and neither sees the other (`Draft.applyAll_commandedBy`). So the line of a command may stand
anywhere, and where it stands shows in the order of the files at most (`parse_moved`).
-/
namespace RomLinker

namespace Listing

theorem settled_shift (k : Nat) (s : Statement) : (s.shift k).settled none = s.settled none := by
  cases s with
  | slot key slotSpan items span =>
    simp only [Statement.shift, Statement.settled, List.map_map]
    rfl
  | _ => rfl

def said (source : String) : List Statement := (parse source).statements.map (Statement.settled none)

theorem said_append {a : String} (ended : Ended a.toList) (b : String) : said (a ++ b) = said a ++ said b := by
  have below : ((parse b).statements.map (Statement.shift a.utf8ByteSize)).map (Statement.settled none) =
      said b := by
    rw [List.map_map]
    exact List.map_congr_left fun s _ => settled_shift _ s
  unfold said
  rw [parse_append ended]
  simp only [Parsed.append, Parsed.shift, List.map_append, below]
  rfl

theorem faults_append {a : String} (ended : Ended a.toList) (b : String) :
    (parse (a ++ b)).faults = [] ↔ (parse a).faults = [] ∧ (parse b).faults = [] := by
  rw [parse_append ended]
  simp only [Parsed.append, Parsed.shift, List.append_eq_nil_iff, List.map_eq_nil_iff]

section Parts
variable {a b c : String} (ended : Ended a.toList) (ended₁ : Ended b.toList) (ended₂ : Ended c.toList)
include ended ended₁ ended₂

theorem said_parts (below : String) : said (a ++ b ++ c ++ below) = said a ++ said b ++ said c ++ said below := by
  rw [String.append_assoc, String.append_assoc, said_append ended, said_append ended₁, said_append ended₂,
    List.append_assoc, List.append_assoc]

theorem faults_parts (below : String) : (parse (a ++ b ++ c ++ below)).faults = [] ↔
    (parse a).faults = [] ∧ (parse b).faults = [] ∧ (parse c).faults = [] ∧ (parse below).faults = [] := by
  rw [String.append_assoc, String.append_assoc, faults_append ended, faults_append ended₁,
    faults_append ended₂]

end Parts

namespace Statement

def verbose? : Statement → Option Bool
  | .verbose on _ => some on
  | _ => none

def romFile? : Statement → Option Path
  | .rom path _ => some ⟨path⟩
  | _ => none

def file? : Statement → Option (FileRole × String)
  | .file role path _ => some (role, path)
  | _ => none

def freeram? : Statement → Option Address
  | .freeram address _ => some address
  | _ => none

end Statement

def commandsOf (xs : List Statement) : List Statement := xs.filter (·.command?.isSome)

def sectionsOf (xs : List Statement) : List Statement := xs.filter (·.command?.isNone)

theorem filterMap_commandsOf (xs : List Statement) :
    (commandsOf xs).filterMap Statement.file? = xs.filterMap Statement.file? := by
  rw [commandsOf, List.filterMap_filter]
  exact congrArg (xs.filterMap ·) (funext fun s => by cases s <;> rfl)

theorem sectionsOf_command {s : Statement} {c : Command} (command : s.command? = some c) :
    sectionsOf [s] = [] := List.filter_cons_of_neg (by simp [command])

theorem filterMap_command {s : Statement} {c : Command} (command : s.command? = some c)
    (other : ∀ role, c ≠ .file role) : [s].filterMap Statement.file? = [] := by
  cases s with
  | file role path span =>
    cases command
    exact absurd rfl (other role)
  | _ => rfl

/-! ### Lines of commands -/

def TokenKind.command? : TokenKind → Option Command
  | .verbose => some .verbose
  | .rom => some .rom
  | .file role => some (.file role)
  | .freeram => some .freeram
  | _ => none

structure CommandLine (c : Command) (line : String) : Prop where
  whole : ∃ text : String, '\n' ∉ text.toList ∧ line = text ++ "\n"
  keyword : ∃ first rest, lexemes line = .token first :: rest ∧ first.kind.command? = some c

theorem CommandLine.ended {c : Command} {line : String} (command : CommandLine c line) : Ended line.toList := by
  obtain ⟨text, -, rfl⟩ := command.whole
  right
  rw [String.toList_append]
  exact List.getLast?_concat

theorem Spells.command? {first : Token} {ts : List Token} {s : Statement} (spells : Spells (first :: ts) s) :
    s.command? = first.kind.command? := by
  cases spells with
  | verbose _ _ _ kind | rom _ _ _ kind | file _ _ _ _ kind | freeram _ _ _ kind | header _ _ kind
  | aggregate _ _ _ _ kind =>
    rw [kind]
    rfl
  | slot _ _ _ _ _ value =>
    rw [value.number]
    rfl

theorem CommandLine.content {c : Command} {text : String} (command : CommandLine c (text ++ "\n"))
    (whole : '\n' ∉ text.toList) : ∃ first below,
      (Line.mk 0 text.toList true).content = .token first :: below ∧ first.kind.command? = some c := by
  let l : Line := ⟨0, text.toList, true⟩
  obtain ⟨first, rest, cut, keyword⟩ := command.keyword
  have lexed : lexemes (text ++ "\n") = l.content ++ .token l.ending ::
      (linesFrom (0 + size text.toList + 1) []).flatMap Line.lexemes := by
    have feed : (text ++ "\n").toList = text.toList ++ '\n' :: [] := String.toList_append
    show (linesFrom 0 (text ++ "\n").toList).flatMap Line.lexemes = _
    rw [feed, linesFrom_append whole, List.flatMap_cons]
    simp [Line.lexemes, l]
  rw [lexed] at cut
  cases content : l.content with
  | nil =>
    rw [content] at cut
    cases cut
    cases keyword
  | cons x below =>
    rw [content] at cut
    cases cut
    exact ⟨first, below, rfl, keyword⟩

theorem CommandLine.said {c : Command} {line : String} (command : CommandLine c line)
    (readable : (parse line).faults = []) : ∃ s, said line = [s] ∧ s.command? = some c := by
  obtain ⟨text, whole, rfl⟩ := command.whole
  let l : Line := ⟨0, text.toList, true⟩
  have parsed : parse (text ++ "\n") = l.parsed := parse_line whole (Or.inr rfl)
  obtain ⟨first, below, content, keyword⟩ := command.content whole
  rw [parsed] at readable
  unfold Listing.said
  rw [parsed]
  unfold Line.parsed at readable ⊢
  cases read : l.statement? with
  | error e =>
    rw [read] at readable
    cases readable
  | ok s? =>
    cases s? with
    | none =>
      cases content.symm.trans ((statement?_eq_none l).mp read)
    | some s =>
      obtain ⟨ts, tokens, spells⟩ := (statement?_eq_some l s).mp read
      have tokens := content.symm.trans tokens
      cases ts with
      | nil => cases tokens
      | cons t ts =>
        cases tokens
        refine ⟨s.settled none, rfl, ?_⟩
        have shape := congrArg (·.1) (Statement.shape_settled none s)
        exact shape.trans (spells.command?.trans keyword)

end Listing

namespace Settings
open Listing

variable {w : Workspace} {d : Disk} {draft other next a b : Draft} {s : Statement}
  {xs ys cs cs' : List Statement}

/-! ### Runs go by what is said -/

theorem Draft.assignAll_unplaced {kind : ContextKind} {slot : SlotKey} {items : List Item} :
    draft.assignAll w d kind slot (items.map (Item.settled none)) = (none, next) ↔
      draft.assignAll w d kind slot items = (none, next) := by
  induction items generalizing draft with
  | nil => rfl
  | cons item items ih =>
    have same : draft.assign w d kind slot (item.settled none) = draft.assign w d kind slot item := rfl
    rw [List.map_cons, Draft.assignAll_cons_eq_none, Draft.assignAll_cons_eq_none, same]
    exact exists_congr fun mid => and_congr_right' ih

theorem Draft.apply_unplaced :
    draft.apply w d (s.settled none) = (none, next) ↔ draft.apply w d s = (none, next) := by
  cases s with
  | header kind span => rfl
  | slot key slotSpan items span =>
    unfold Draft.apply Statement.settled
    cases draft.heading? with
    | none => simp
    | some kind => exact Draft.assignAll_unplaced
  | _ =>
    simp only [Draft.apply, Statement.settled]
    split <;> simp

theorem Draft.applyAll_unplaced :
    draft.applyAll w d (xs.map (Statement.settled none)) = ([], next) ↔
      draft.applyAll w d xs = ([], next) := by
  induction xs generalizing draft with
  | nil => rfl
  | cons s xs ih =>
    rw [List.map_cons, Draft.applyAll_cons_eq_nil, Draft.applyAll_cons_eq_nil]
    exact exists_congr fun mid => and_congr Draft.apply_unplaced ih

theorem parse_eq_ok_said {source : String} {settings : Settings} :
    parse source w d = .ok settings ↔ (Listing.parse source).faults = [] ∧
      ∃ draft, Draft.applyAll w d {} (said source) = ([], draft) ∧ draft.missing = [] ∧
        settings = draft.toSettings := by
  rw [parse_eq_ok]
  refine and_congr_right' (exists_congr fun draft => and_congr_left' ?_)
  exact Draft.applyAll_unplaced.symm

namespace Draft

def commandedBy (draft other : Draft) : Draft :=
  { draft with
    verbose? := other.verbose?
    romFile? := other.romFile?
    files := other.files
    freeram? := other.freeram? }

theorem resource_commandedBy (file : Path) : (draft.commandedBy other).resource w d file =
    ((draft.resource w d file).1, (draft.resource w d file).2.commandedBy other) := by
  have same : (draft.commandedBy other).resources = draft.resources := rfl
  unfold resource
  rw [same]
  cases draft.resources.find? file with
  | some r => rfl
  | none =>
    dsimp only
    split
    · rfl
    · cases (draft.resources.intern file).1.readDirectives w d <;> rfl

theorem assign_commandedBy (kind : ContextKind) (slot : SlotKey) (item : Item) :
    (draft.commandedBy other).assign w d kind slot item =
      ((draft.assign w d kind slot item).1, (draft.assign w d kind slot item).2.commandedBy other) := by
  unfold assign
  rw [resource_commandedBy]
  rcases draft.resource w d ((Path.mk kind.directory).join ⟨item.file⟩) with ⟨e | r, mid⟩
  · rfl
  · have same : (mid.commandedBy other).contexts = mid.contexts := rfl
    dsimp only
    split
    · rfl
    · rw [same]
      cases mid.contexts.assign kind slot ⟨r.id, item.bytes⟩ <;> rfl

theorem assignAll_commandedBy (kind : ContextKind) (slot : SlotKey) (items : List Item) :
    (draft.commandedBy other).assignAll w d kind slot items =
      ((draft.assignAll w d kind slot items).1, (draft.assignAll w d kind slot items).2.commandedBy other) := by
  induction items generalizing draft with
  | nil => rfl
  | cons item items ih =>
    rw [assignAll, assignAll, assign_commandedBy]
    dsimp only
    rw [ih]
    rcases (draft.assign w d kind slot item).1 with fault | ⟨⟩ <;> rfl

/-- A step of a section does not see what commands left. -/
theorem apply_commandedBy_of_bare (bare : s.command? = none) : (draft.commandedBy other).apply w d s =
    ((draft.apply w d s).1, (draft.apply w d s).2.commandedBy other) := by
  cases s with
  | header kind span => rfl
  | slot key slotSpan items span =>
    have same : (draft.commandedBy other).heading? = draft.heading? := rfl
    unfold apply
    rw [same]
    cases draft.heading? with
    | none => rfl
    | some kind => exact assignAll_commandedBy kind key items
  | _ => cases bare

theorem apply_commandedBy_of_command {c : Command} (command : s.command? = some c) :
    (draft.commandedBy other).apply w d s =
      ((other.apply w d s).1, draft.commandedBy (other.apply w d s).2) := by
  obtain ⟨fault, applied⟩ := apply_of_command (w := w) (d := d) command
  have same : (draft.commandedBy other).given c = other.given c := by cases c <;> rfl
  have taken : (draft.commandedBy other).take s = draft.commandedBy (other.take s) := by cases s <;> rfl
  rw [applied, applied, same, taken]
  split <;> rfl

theorem applyAll_commandedBy : (draft.commandedBy other).applyAll w d xs = ([], next) ↔
    ∃ a b, other.applyAll w d (commandsOf xs) = ([], a) ∧ draft.applyAll w d (sectionsOf xs) = ([], b) ∧
      next = b.commandedBy a := by
  -- a command is a step of the first run and leaves the second where it is, and the others the other way round
  induction xs generalizing draft other with
  | nil =>
    constructor
    · intro run
      cases run
      exact ⟨other, draft, rfl, rfl, rfl⟩
    · rintro ⟨a, b, left, right, rfl⟩
      cases left
      cases right
      rfl
  | cons s xs ih =>
    rw [applyAll_cons_eq_nil]
    cases command : s.command? with
    | some c =>
      have front : commandsOf (s :: xs) = s :: commandsOf xs := List.filter_cons_of_pos (by simp [command])
      have rest : sectionsOf (s :: xs) = sectionsOf xs := List.filter_cons_of_neg (by simp [command])
      rw [apply_commandedBy_of_command command, front, rest]
      constructor
      · rintro ⟨mid, step, run⟩
        obtain ⟨clean, rfl⟩ := Prod.mk.inj step
        obtain ⟨a, b, left, right, rfl⟩ := ih.mp run
        exact ⟨a, b, applyAll_cons_eq_nil.mpr ⟨_, Prod.ext clean rfl, left⟩, right, rfl⟩
      · rintro ⟨a, b, left, right, rfl⟩
        obtain ⟨mid, step, left⟩ := applyAll_cons_eq_nil.mp left
        rw [step]
        exact ⟨_, rfl, ih.mpr ⟨a, b, left, right, rfl⟩⟩
    | none =>
      have front : commandsOf (s :: xs) = commandsOf xs := List.filter_cons_of_neg (by simp [command])
      have rest : sectionsOf (s :: xs) = s :: sectionsOf xs := List.filter_cons_of_pos (by simp [command])
      rw [apply_commandedBy_of_bare command, front, rest]
      constructor
      · rintro ⟨mid, step, run⟩
        obtain ⟨clean, rfl⟩ := Prod.mk.inj step
        obtain ⟨a, b, left, right, rfl⟩ := ih.mp run
        exact ⟨a, b, left, applyAll_cons_eq_nil.mpr ⟨_, Prod.ext clean rfl, right⟩, rfl⟩
      · rintro ⟨a, b, left, right, rfl⟩
        obtain ⟨mid, step, right⟩ := applyAll_cons_eq_nil.mp right
        rw [step]
        exact ⟨_, rfl, ih.mpr ⟨a, b, left, right, rfl⟩⟩

/-- What a draft has from the commands of a list. -/
structure Collects (draft : Draft) (cs : List Statement) (next : Draft) : Prop where
  verbose : next.verbose?.toList = draft.verbose?.toList ++ cs.filterMap Statement.verbose?
  rom : next.romFile?.toList = draft.romFile?.toList ++ cs.filterMap Statement.romFile?
  files : next.files = draft.files ++ cs.filterMap Statement.file?
  freeram : next.freeram?.toList = draft.freeram?.toList ++ cs.filterMap Statement.freeram?

theorem Collects.trans (first : draft.Collects cs a) (second : a.Collects cs' next) :
    draft.Collects (cs ++ cs') next where
  verbose := by rw [second.verbose, first.verbose, List.filterMap_append, List.append_assoc]
  rom := by rw [second.rom, first.rom, List.filterMap_append, List.append_assoc]
  files := by rw [second.files, first.files, List.filterMap_append, List.append_assoc]
  freeram := by rw [second.freeram, first.freeram, List.filterMap_append, List.append_assoc]

theorem collects_take {s : Statement} {c : Command} (command : s.command? = some c)
    (fresh : draft.given c = false) : draft.Collects [s] (draft.take s) := by
  cases s with
  | header kind span | slot key slotSpan items span => cases command
  | file role path span => constructor <;> simp [take, Statement.verbose?, Statement.romFile?,
      Statement.file?, Statement.freeram?]
  | _ =>
    cases command
    rw [given, Option.isSome_eq_false_iff, Option.isNone_iff_eq_none] at fresh
    constructor <;> simp [take, fresh, Statement.verbose?, Statement.romFile?, Statement.file?,
      Statement.freeram?]

section Commands
variable (commands : ∀ s ∈ cs, s.command?.isSome = true)
include commands

/-- Commands are taken unless one of them comes twice. -/
theorem exists_applyAll_commands : (∃ a, draft.applyAll w d cs = ([], a)) ↔
    ∀ c, (draft.given c).toNat + count cs c ≤ 1 := by
  -- what the draft has been given counts like one more occurrence
  induction cs generalizing draft with
  | nil => exact ⟨fun _ c => Bool.toNat_le _, fun _ => ⟨draft, rfl⟩⟩
  | cons s cs ih =>
    obtain ⟨first, rest⟩ := List.forall_mem_cons.mp commands
    obtain ⟨c, command⟩ := Option.isSome_iff_exists.mp first
    have more (c' : Command) : count (s :: cs) c' = count cs c' + if c = c' then 1 else 0 := by
      simp [count, List.countP_cons, command]
    simp only [applyAll_cons_eq_nil]
    cases given : draft.given c with
    | true =>
      obtain ⟨fault, refused⟩ := apply_again (w := w) (d := d) command given
      constructor
      · rintro ⟨a, mid, step, -⟩
        cases refused.symm.trans step
      · intro once
        have twice := once c
        rw [given, more, if_pos rfl] at twice
        change 1 + (count cs c + 1) ≤ 1 at twice
        omega
    | false =>
      have taken := apply_fresh (w := w) (d := d) command given
      have run : (∃ a mid, draft.apply w d s = (none, mid) ∧ mid.applyAll w d cs = ([], a)) ↔
          ∃ a, (draft.take s).applyAll w d cs = ([], a) := by
        rw [taken]
        constructor
        · rintro ⟨a, mid, step, run⟩
          cases step
          exact ⟨a, run⟩
        · rintro ⟨a, run⟩
          exact ⟨a, _, rfl, run⟩
      rw [run, ih rest]
      refine forall_congr' fun c' => ?_
      rw [given_take command, more]
      by_cases same : c = c'
      · subst same
        rw [given, beq_self_eq_true, if_pos rfl]
        change 1 + count cs c ≤ 1 ↔ 0 + (count cs c + 1) ≤ 1
        omega
      · rw [beq_false_of_ne same, Bool.or_false, if_neg same]
        rfl

theorem collects_of_applyAll (run : draft.applyAll w d cs = ([], a)) : draft.Collects cs a := by
  induction cs generalizing draft with
  | nil =>
    cases run
    constructor <;> simp
  | cons s cs ih =>
    obtain ⟨first, rest⟩ := List.forall_mem_cons.mp commands
    obtain ⟨c, command⟩ := Option.isSome_iff_exists.mp first
    obtain ⟨mid, step, run⟩ := applyAll_cons_eq_nil.mp run
    cases given : draft.given c with
    | true =>
      obtain ⟨fault, refused⟩ := apply_again (w := w) (d := d) command given
      cases refused.symm.trans step
    | false =>
      cases (apply_fresh command given).symm.trans step
      exact (collects_take command given).trans (ih rest run)

end Commands

theorem toList_inj_of_perm {α : Type} {x y : Option α} (same : x.toList.Perm y.toList) : x = y := by
  cases x <;> cases y <;> simp_all

/-- The order of commands does not matter, but for that of files. -/
theorem Collects.perm (left : Draft.Collects {} cs a) (right : Draft.Collects {} cs' b) (same : cs.Perm cs') :
    b.verbose? = a.verbose? ∧ b.romFile? = a.romFile? ∧ b.freeram? = a.freeram? ∧
      a.files = cs.filterMap Statement.file? ∧ b.files = cs'.filterMap Statement.file? := by
  have verbose : b.verbose?.toList.Perm a.verbose?.toList := by
    rw [left.verbose, right.verbose]
    exact same.symm.filterMap _
  have rom : b.romFile?.toList.Perm a.romFile?.toList := by
    rw [left.rom, right.rom]
    exact same.symm.filterMap _
  have freeram : b.freeram?.toList.Perm a.freeram?.toList := by
    rw [left.freeram, right.freeram]
    exact same.symm.filterMap _
  exact ⟨toList_inj_of_perm verbose, toList_inj_of_perm rom, toList_inj_of_perm freeram, left.files,
    right.files⟩

theorem applyAll_rearranged (commands : (commandsOf xs).Perm (commandsOf ys))
    (sections : sectionsOf xs = sectionsOf ys) (run : Draft.applyAll w d {} xs = ([], a)) :
    ∃ b, Draft.applyAll w d {} ys = ([], b) ∧ a.files = xs.filterMap Statement.file? ∧
      b = { a with files := ys.filterMap Statement.file? } := by
  have all (zs : List Statement) : ∀ s ∈ commandsOf zs, s.command?.isSome = true :=
    fun _ member => (List.mem_filter.mp member).2
  have split (zs : List Statement) (next : Draft) : Draft.applyAll w d {} zs = ([], next) ↔
      ∃ a b, Draft.applyAll w d {} (commandsOf zs) = ([], a) ∧ Draft.applyAll w d {} (sectionsOf zs) = ([], b) ∧
        next = b.commandedBy a := @applyAll_commandedBy w d {} {} next zs
  have once (zs : List Statement) : (∃ a, Draft.applyAll w d {} (commandsOf zs) = ([], a)) ↔
      ∀ k, (Draft.given {} k).toNat + count (commandsOf zs) k ≤ 1 := exists_applyAll_commands (all zs)
  obtain ⟨c, e, left, rest, rfl⟩ := (split xs a).mp run
  obtain ⟨c', right⟩ := (once ys).mpr fun k => by
    have bound := (once xs).mp ⟨c, left⟩ k
    rw [count, commands.countP_eq] at bound
    exact bound
  obtain ⟨verbose, rom, freeram, files, files'⟩ :=
    (collects_of_applyAll (all xs) left).perm (collects_of_applyAll (all ys) right) commands
  rw [filterMap_commandsOf] at files files'
  refine ⟨e.commandedBy c', ?_, files, ?_⟩
  · exact (split ys _).mpr ⟨c', e, right, sections ▸ rest, rfl⟩
  · unfold commandedBy
    rw [verbose, rom, freeram, files']

end Draft

/-! ### Lines in another place -/

/-- Settings that differ in the order of their files at most. -/
structure Reordered (a b : Settings) : Prop where
  same : b = { a with files := b.files }
  files : a.files.Perm b.files

theorem missing_congr {a b : Settings} (files : a.files.Perm b.files) (freeram : b.freeram? = a.freeram?) :
    missing b = missing a := by
  have roles (role : FileRole) : b.files.any (·.1 == role) = a.files.any (·.1 == role) := by
    rw [Bool.eq_iff_iff, List.any_eq_true, List.any_eq_true]
    exact exists_congr fun x => and_congr_left' files.mem_iff.symm
  unfold missing
  simp only [roles, freeram]

/-- Two neighbours in a list change places, one of which has commands only. -/
theorem parse_swapped {above one two below : String} {settings : Settings} (ended : Ended above.toList)
    (ended₁ : Ended one.toList) (ended₂ : Ended two.toList)
    (bare : sectionsOf (said one) = [] ∨ sectionsOf (said two) = [])
    (accepted : parse (above ++ one ++ two ++ below) w d = .ok settings) :
    ∃ swapped, parse (above ++ two ++ one ++ below) w d = .ok swapped ∧ Reordered settings swapped ∧
      settings.files =
        (said above ++ said one ++ said two ++ said below).filterMap Statement.file? ∧
      swapped.files = (said above ++ said two ++ said one ++ said below).filterMap Statement.file? := by
  obtain ⟨clean, draft, run, complete, rfl⟩ := parse_eq_ok_said.mp accepted
  rw [faults_parts ended ended₁ ended₂] at clean
  rw [said_parts ended ended₁ ended₂] at run
  obtain ⟨above', one', two', below'⟩ := clean
  have whole : (said above ++ said one ++ said two ++ said below).Perm
      (said above ++ said two ++ said one ++ said below) := by
    refine List.Perm.append_right _ ?_
    rw [List.append_assoc, List.append_assoc]
    exact List.Perm.append_left _ List.perm_append_comm
  have sections : sectionsOf (said above ++ said one ++ said two ++ said below) =
      sectionsOf (said above ++ said two ++ said one ++ said below) := by
    unfold sectionsOf at bare ⊢
    rcases bare with none | none <;> simp only [List.filter_append, none, List.append_nil]
  obtain ⟨b, run', files, made⟩ := Draft.applyAll_rearranged (whole.filter _) sections run
  have files' : b.files = (said above ++ said two ++ said one ++ said below).filterMap Statement.file? := by
    rw [made]
  have perm : draft.files.Perm b.files := by
    rw [files, files']
    exact whole.filterMap _
  refine ⟨b.toSettings, parse_eq_ok_said.mpr ⟨?_, b, ?_, ?_, rfl⟩, ⟨?_, perm⟩, files, files'⟩
  · exact (faults_parts ended ended₂ ended₁ below).mpr ⟨above', two', one', below'⟩
  · rw [said_parts ended ended₂ ended₁]
    exact run'
  · rw [← complete]
    exact missing_congr perm (by rw [made])
  · rw [files', made]

/-- The line of a command may stand above or below other lines, whatever they say: a list with it in one place
is accepted if the list with it in the other place is, with the same settings. Their files come in another
order at most, and not even that if the command names none of them. -/
theorem parse_moved {c : Command} {above line between below : String} (command : CommandLine c line)
    (ended : Ended above.toList) (ended' : Ended between.toList) (w : Workspace) (d : Disk) :
    (∀ settings, parse (above ++ line ++ between ++ below) w d = .ok settings →
      ∃ moved, parse (above ++ between ++ line ++ below) w d = .ok moved ∧ Reordered settings moved ∧
        ((∀ role, c ≠ .file role) → moved = settings)) ∧
    ∀ settings, parse (above ++ between ++ line ++ below) w d = .ok settings →
      ∃ moved, parse (above ++ line ++ between ++ below) w d = .ok moved ∧ Reordered settings moved ∧
        ((∀ role, c ≠ .file role) → moved = settings) := by
  have whole : Ended line.toList := command.ended
  have same {a b : Settings} (reordered : Reordered a b) (files : b.files = a.files) : b = a := by
    rw [reordered.same, files]
  constructor
  · intro settings accepted
    have clean := (parse_eq_ok_said.mp accepted).1
    obtain ⟨s, one, same'⟩ := command.said ((faults_parts ended whole ended' below).mp clean).2.1
    obtain ⟨moved, accepted', reordered, files, files'⟩ :=
      parse_swapped ended whole ended' (Or.inl (one ▸ sectionsOf_command same')) accepted
    refine ⟨moved, accepted', reordered, fun other => same reordered ?_⟩
    rw [files, files', one]
    simp only [List.filterMap_append, filterMap_command same' other, List.append_nil]
  · intro settings accepted
    have clean := (parse_eq_ok_said.mp accepted).1
    obtain ⟨s, one, same'⟩ := command.said ((faults_parts ended ended' whole below).mp clean).2.2.1
    obtain ⟨moved, accepted', reordered, files, files'⟩ :=
      parse_swapped ended ended' whole (Or.inr (one ▸ sectionsOf_command same')) accepted
    refine ⟨moved, accepted', reordered, fun other => same reordered ?_⟩
    rw [files, files', one]
    simp only [List.filterMap_append, filterMap_command same' other, List.append_nil]

/-- A file that is named above a section instead of in it. -/
theorem parse_moved_macrolib :
    let line := "macrolib: m\n"
    let between := "global: g\nstatusbar: s\nfreeram: $7F0000\nlevel:\n5 a.asm\n"
    let level := Location.root.child "level"
    let d : Disk := Disk.empty.insert level .directory
      |>.insert (level.child "a.asm") (.file ByteArray.empty)
    CommandLine (.file .macrolib) line ∧ Ended between.toList ∧
      ∃ settings moved, parse ("" ++ between ++ line ++ "* a.asm\n") ⟨⟨""⟩, []⟩ d = .ok settings ∧
        parse ("" ++ line ++ between ++ "* a.asm\n") ⟨⟨""⟩, []⟩ d = .ok moved ∧ Reordered settings moved := by
  intro line between level d
  have command : CommandLine (.file .macrolib) line :=
    ⟨⟨"macrolib: m", by decide, rfl⟩, ⟨.file .macrolib, "macrolib:", ⟨0, 9⟩⟩,
      [.token ⟨.word, "m", ⟨10, 11⟩⟩, .token ⟨.newline, "\n", ⟨11, 12⟩⟩], by decide +kernel, rfl⟩
  have ended : Ended between.toList := Or.inr (by decide +kernel)
  have accepted : (parse ("" ++ between ++ line ++ "* a.asm\n") ⟨⟨""⟩, []⟩ d).isOk = true := by decide +kernel
  refine ⟨command, ended, ?_⟩
  cases result : parse ("" ++ between ++ line ++ "* a.asm\n") ⟨⟨""⟩, []⟩ d with
  | error faults =>
    rw [result] at accepted
    cases accepted
  | ok settings =>
    obtain ⟨moved, found, reordered, -⟩ :=
      (parse_moved command (Or.inl rfl) ended ⟨⟨""⟩, []⟩ d).2 settings result
    exact ⟨settings, moved, rfl, found, reordered⟩

end Settings

end RomLinker
