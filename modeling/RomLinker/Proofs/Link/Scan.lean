import Mathlib.Data.List.ReduceOption
import RomLinker.Proofs.Disk.Flat
import RomLinker.Proofs.LibraryNames
import RomLinker.Proofs.Link.Intact
import RomLinker.Proofs.Link.Kept
import RomLinker.Proofs.Marker

/-!
The scan for shared routines. Which names it declares lies in the files of the directory of routines
(`Finds`), and whether it goes through in what the session, the disk and the assembler say to
it, one after the other (`scanRoutines_eq_ok`). Nothing but the declared names and the answer of the assembler
is new in a session after a scan (`scanRoutines_exact`).
-/
namespace RomLinker

open Workspace

/-- Letters, digits and underscores, with no digit in front. -/
def IsLabelName (name : String) : Prop :=
  (∀ c ∈ name.toList, c.isAlpha ∨ c.isDigit ∨ c = '_') ∧ ∃ first ∈ name.toList.head?, first.isDigit = false

theorem isDigit_of_isAlpha {c : Char} (letter : c.isAlpha = true) : c.isDigit = false := by
  rw [Bool.eq_false_iff]
  intro digit
  rw [isAlpha_iff] at letter
  rw [isDigit_iff] at digit
  grind

theorem isIdentifier_iff {name : String} : isIdentifier name = true ↔ IsLabelName name := by
  unfold isIdentifier IsLabelName
  cases name.toList with
  | nil => simp
  | cons first rest =>
    have front : (first.isAlpha || first == '_') = true ↔
        (first.isAlpha ∨ first.isDigit ∨ first = '_') ∧ first.isDigit = false := by
      cases letter : first.isAlpha with
      | true => simp [isDigit_of_isAlpha letter]
      | false =>
        by_cases score : first = '_'
        · subst score
          decide
        · cases first.isDigit <;> simp [score]
    simp only [Bool.and_eq_true, front, List.all_eq_true, List.forall_mem_cons, List.head?_cons,
      Option.mem_def, Option.some.injEq, exists_eq_left']
    grind

namespace Path
variable {name stem : String}

def assemblyStem? (name : String) : Option String :=
  match splitExtension name with
  | (stem, extension) => if extension = some "asm" then some stem else none

theorem assemblyStem?_eq_some : assemblyStem? name = some stem ↔ stem ≠ "" ∧ name = stem ++ ".asm" := by
  unfold assemblyStem?
  constructor
  · intro h
    rcases cut : splitExtension name with ⟨front, extension⟩
    rw [cut] at h
    dsimp only at h
    split at h
    · rename_i asm
      cases h
      subst asm
      obtain ⟨whole, filled⟩ := splitExtension_some cut
      refine ⟨by simpa using filled, ?_⟩
      rw [← String.toList_inj, whole]
      simp
    · cases h
  · rintro ⟨filled, rfl⟩
    have cut : splitExtension (stem ++ ".asm") = (stem, some "asm") := by
      have letters : (stem ++ ".asm").toList.reverse = ['m', 's', 'a'] ++ '.' :: stem.toList.reverse := by simp
      have solid : stem.toList.reverse.isEmpty = false := by simpa using filled
      unfold splitExtension
      rw [letters, Text.cutAt?_append_cons (by decide) (by decide)]
      simp only [solid]
      simp
    rw [cut]
    rfl

end Path

/-- A shared routine has a file of assembly of its own, directly in the directory of routines. -/
def Workspace.HasRoutine (w : Workspace) (d : Disk) (stem : String) : Prop :=
  stem ≠ "" ∧ d.HasFile (w.root.join ⟨"routines"⟩) (stem ++ ".asm")

namespace LinkM

variable {dir name : String} {names stems : List String}

theorem declaredRoutine_child (named : Path.Named dir) (named' : Path.Named name) :
    declaredRoutine ⟨Path.joinSegments [dir, name]⟩ = match Path.assemblyStem? name with
      | none => .ok none
      | some stem => if isIdentifier stem then .ok (some stem) else
          .error (.authoring ⟨Path.joinSegments [dir, name]⟩ .routineFileName) := by
  have segments : (Path.mk (Path.joinSegments [dir, name])).segments = [dir] ++ [name] :=
    Path.segments_joinSegments (fun s member => (Path.named_pair named named' s member).plain)
      (List.cons_ne_nil _ _)
  have file := Path.fileName?_of_segments segments named'.step
  unfold declaredRoutine Path.extension? Path.stem? Path.assemblyStem?
  rw [file]
  dsimp only [Option.bind_some, Option.map_some, Option.getD_some]
  by_cases asm : (Path.splitExtension name).2 = some "asm"
  · rw [if_neg (not_not.mpr asm), if_pos asm]
  · rw [if_pos asm, if_neg asm]

theorem declaredRoutines_cons (file : Path) (files : List Path) :
    declaredRoutines (file :: files) = do
      let found? ← declaredRoutine file
      let others ← declaredRoutines files
      return found?.toList ++ others := by
  unfold declaredRoutines
  rw [List.mapM_cons]
  cases declaredRoutine file with
  | error e => rfl
  | ok found? =>
    cases files.mapM declaredRoutine with
    | error e => rfl
    | ok others => cases found? <;> rfl

theorem declaredRoutines_eq_ok (named : Path.Named dir) (each : ∀ name ∈ names, Path.Named name) :
    declaredRoutines (names.map fun name => ⟨Path.joinSegments [dir, name]⟩) = .ok stems ↔
      (∀ stem ∈ names.filterMap Path.assemblyStem?, isIdentifier stem = true) ∧
        stems = names.filterMap Path.assemblyStem? := by
  induction names generalizing stems with
  | nil =>
    rw [List.map_nil, List.filterMap_nil]
    exact ⟨fun h => ⟨nofun, (Except.ok.inj h).symm⟩, fun h => congrArg Except.ok h.2.symm⟩
  | cons name names ih =>
    obtain ⟨head, tail⟩ := List.forall_mem_cons.mp each
    rw [List.map_cons, declaredRoutines_cons, declaredRoutine_child named head]
    have ih {stems : List String} := @ih stems tail
    generalize declaredRoutines (names.map fun name => ⟨Path.joinSegments [dir, name]⟩) = rest at ih
    cases found : Path.assemblyStem? name with
    | none =>
      rw [List.filterMap_cons_none found, ← ih]
      cases rest <;> rfl
    | some stem =>
      rw [List.filterMap_cons_some found, List.forall_mem_cons]
      dsimp only
      split
      · rename_i good
        have front : (do
            let found? ← (.ok (some stem) : Except LinkError (Option String))
            let others ← rest
            return found?.toList ++ others) = .ok stems ↔ ∃ ys, rest = .ok ys ∧ stems = stem :: ys := by
          cases rest with
          | error e => simp [bind, Except.bind]
          | ok ys => simp [bind, Except.bind, pure, Except.pure, eq_comm]
        rw [front]
        simp [ih, good]
      · rename_i bad
        refine ⟨?_, fun h => absurd h.1.1 bad⟩
        intro h
        cases h

/-- The shared routines of a tool directory, in the order in which they are declared. -/
structure Finds (w : Workspace) (d : Disk) (stems : List String) : Prop where
  ascending : stems.Pairwise fun a b => Text.bytes (a ++ ".asm") < Text.bytes (b ++ ".asm")
  members : ∀ stem, stem ∈ stems ↔ w.HasRoutine d stem
  declares : ∀ names, w.filesUnder d ⟨"routines"⟩ false >>= declaredRoutines = .ok names ↔
    d.Lists (w.root.join ⟨"routines"⟩) ∧ (∀ stem ∈ stems, IsLabelName stem) ∧ names = stems

theorem exists_finds {w : Workspace} {d : Disk} (proper : d.Proper) : ∃ stems, Finds w d stems := by
  have routines : Path.Named "routines" := ⟨by decide, by decide⟩
  obtain ⟨files, ascending, members, listed⟩ := w.filesUnder_flat proper routines
  have each (name : String) (member : name ∈ files) : Path.Named name :=
    proper.named ((members name).mp member)
  refine ⟨files.filterMap Path.assemblyStem?, ?_, fun stem => ?_, fun names => ?_⟩
  · refine List.pairwise_filterMap.mpr (ascending.imp fun {a b} before s stem t stem' => ?_)
    rw [← (Path.assemblyStem?_eq_some.mp stem).2, ← (Path.assemblyStem?_eq_some.mp stem').2]
    exact before
  · rw [List.mem_filterMap]
    constructor
    · rintro ⟨name, member, found⟩
      obtain ⟨filled, rfl⟩ := Path.assemblyStem?_eq_some.mp found
      exact ⟨filled, (members _).mp member⟩
    · rintro ⟨filled, held⟩
      exact ⟨_, (members _).mpr held, Path.assemblyStem?_eq_some.mpr ⟨filled, rfl⟩⟩
  · simp only [← isIdentifier_iff]
    rw [← declaredRoutines_eq_ok routines each, Except.bind_eq_ok]
    constructor
    · rintro ⟨found, there, declares⟩
      obtain ⟨lists, rfl⟩ := (listed found).mp there
      exact ⟨lists, declares⟩
    · rintro ⟨lists, declares⟩
      exact ⟨_, (listed _).mpr ⟨lists, rfl⟩, declares⟩

/-! ### The steps of a scan -/

variable {σ : Type} {asm : Assembler σ} {s t : Linker σ}

theorem definesFor_empty {session : Session} {defines : Defines} :
    session.definesFor .empty = .ok defines ↔
      defines.entries = session.defines.entries ++ session.routines.defines := by
  constructor
  · intro h
    have entries := Session.definesFor_eq_ok h
    rw [Defines.empty, List.append_nil] at entries
    exact entries
  · intro entries
    have distinct : (session.defines.names ++ session.routines.defines.map (·.1)).Nodup := by
      rw [Defines.names, ← List.map_append, ← entries]
      exact defines.distinct
    obtain ⟨extended, h⟩ := Defines.exists_extend distinct
    have same : extended = defines := by
      have grown := (Defines.extend_eq_ok h).trans entries.symm
      cases extended
      cases defines
      cases grown
      rfl
    unfold Session.definesFor
    rw [Defines.empty, List.append_nil, h, same]

theorem scanRoutines_eq_ok {n : Nat} :
    scanRoutines asm s = .ok n t ↔ s.session.routines.wasScanned = false ∧ ∃ rom names,
      s.session.rom? = some rom ∧
      s.workspace.filesUnder s.disk ⟨"routines"⟩ false >>= declaredRoutines = .ok names ∧
      declareRoutines asm rom (s.workspace.fixedSource "routine_scan.asm") names s = .ok n t := by
  unfold scanRoutines
  rw [get_bind]
  dsimp only
  cases s.session.routines.wasScanned with
  | true =>
    constructor
    · intro h
      cases h
    · rintro ⟨scanned, -⟩
      cases scanned
  | false =>
    cases s.session.rom? with
    | none =>
      constructor
      · intro h
        cases h
      · rintro ⟨-, _, _, none, -⟩
        cases none
    | some rom =>
      cases s.workspace.filesUnder s.disk ⟨"routines"⟩ false >>= declaredRoutines with
      | error e =>
        constructor
        · intro h
          cases h
        · rintro ⟨-, _, _, -, failed, -⟩
          cases failed
      | ok names =>
        constructor
        · intro h
          exact ⟨rfl, rom, names, rfl, rfl, h⟩
        · rintro ⟨-, _, _, loaded, listed, h⟩
          cases loaded
          cases listed
          exact h

section Found
variable {n : Nat} {stems : List String} (found : Finds s.workspace s.disk stems)
include found

/-- A scan that finds some routines declares them, if nothing is in its way. -/
theorem scanRoutines_goes_iff : (∃ n t, scanRoutines asm s = .ok n t) ↔
    s.session.routines.declared? = none ∧
    (∀ stem, s.workspace.HasRoutine s.disk stem → IsLabelName stem) ∧
    s.disk.Lists (s.workspace.root.join ⟨"routines"⟩) ∧
    ∃ rom held assembly, ∃ distinct : ((s.session.defines.entries ++ s.session.routines.defines).map
      (·.1)).Nodup, s.session.rom? = some rom ∧
      s.disk.Takes (workDirectory s.workspace.root) (s.workspace.generatedSource "routines.asm")
        (declarations stems) held ∧
      (asm.assemble ⟨rom.data, s.workspace.fixedSource "routine_scan.asm", ⟨_, distinct⟩⟩ held
        s.assembler).1 = .ok assembly := by
  constructor
  · rintro ⟨n, t, h⟩
    obtain ⟨unscanned, rom, names, loaded, listed, h⟩ := scanRoutines_eq_ok.mp h
    obtain ⟨-, -, held, defines, assembly, disk, inner, takes, defined, run, -⟩ := declareRoutines_eq_ok.mp h
    obtain ⟨lists, named, rfl⟩ := (found.declares names).mp listed
    obtain ⟨entries, distinct⟩ := defines
    cases definesFor_empty.mp defined
    exact ⟨Option.isNone_iff_eq_none.mp (Option.isSome_eq_false_iff.mp unscanned),
      fun stem there => named stem ((found.members stem).mpr there), lists, rom, held, assembly, distinct,
      loaded, takes, congrArg Prod.fst run⟩
  · rintro ⟨unscanned, named, lists, rom, held, assembly, distinct, loaded, takes, accepted⟩
    have fresh : s.session.routines.wasScanned = false :=
      Option.isSome_eq_false_iff.mpr (Option.isNone_iff_eq_none.mpr unscanned)
    have listed := (found.declares stems).mpr
      ⟨lists, fun stem member => named stem ((found.members stem).mp member), rfl⟩
    have declares := declareRoutines_eq_ok.mpr ⟨fresh, rfl, held, _, assembly, _, _, takes,
      definesFor_empty.mpr rfl, Prod.ext accepted rfl, rfl⟩
    exact ⟨_, _, scanRoutines_eq_ok.mpr ⟨fresh, rom, stems, loaded, listed, declares⟩⟩

theorem effects_of_scan (h : scanRoutines asm s = .ok n t) :
    n = stems.length ∧
    t.session = { s.session with
      routines := { s.session.routines with declared? := some stems }
      labels := t.session.labels, prints := t.session.prints } ∧
    (∃ rom defines held, s.session.rom? = some rom ∧
      held.read (s.workspace.generatedSource "routines.asm") = .ok (declarations stems).toUTF8 ∧
      (asm.assemble ⟨rom.data, s.workspace.fixedSource "routine_scan.asm", defines⟩ held s.assembler).2 =
        (t.disk, t.assembler)) ∧
    (asm.ReadsOnly → t.disk.read (s.workspace.generatedSource "routines.asm") =
      .ok (declarations stems).toUTF8) := by
  obtain ⟨unscanned, rom, names, loaded, listed, h⟩ := scanRoutines_eq_ok.mp h
  obtain ⟨-, count, held, defines, assembly, disk, inner, takes, -, run, rfl⟩ := declareRoutines_eq_ok.mp h
  obtain ⟨-, -, rfl⟩ := (found.declares names).mp listed
  have written : held.read (s.workspace.generatedSource "routines.asm") = .ok (declarations names).toUTF8 := by
    obtain ⟨made, -, stored⟩ := takes
    obtain ⟨l, writes⟩ := Disk.store_eq_ok stored
    exact writes.read
  refine ⟨count, rfl, ⟨rom, defines, held, loaded, written, congrArg Prod.snd run⟩, fun reads => ?_⟩
  have kept : disk = held := by
    rw [← reads _ held s.assembler, run]
  exact kept ▸ written

end Found

theorem session_of_scan {e : LinkError} (stopped : scanRoutines asm s = .error e t) :
    t.session = s.session := by
  have scans : Yields (· = s.session) (scanRoutines asm) (fun _ => True) fun _ t => t = s.session :=
    yields_scanned
  have left := scans.run s rfl
  rw [stopped] at left
  exact left

end LinkM

namespace SmallBuild

theorem proper_unscanned : unscanned.disk.Proper := by
  let routines := Location.root.child "routines"
  let file := routines.child "f.asm"
  have directory : routines.Proper := List.forall_mem_singleton.mpr ⟨by decide, by decide⟩
  have below : file.Proper := List.forall_mem_cons.mpr ⟨⟨by decide, by decide⟩, directory⟩
  exact (Disk.proper_empty.insert Location.child_ne_root directory).insert Location.child_ne_root below

theorem exists_scanned : ∃ t, LinkM.scanRoutines asm unscanned = .ok 1 t := by
  have ends : LinkM.outcome (LinkM.scanRoutines asm unscanned) = .ok 1 := by decide +kernel
  exact LinkM.exists_of_outcome_ok ends

end SmallBuild

end RomLinker
