import RomLinker.Proofs.Link.Closure
import RomLinker.Proofs.Link.History

/-!
What an operation leaves behind when it stops. Each of the operations that take one step changes the session
last of all, so that a session is whole or not changed at all (`Session.intact_of_stopped`). A patch that has
no ROM or may not have its defines does not come to the assembler, and what stopped a first scan does not
stand in the way of another one. A scan declares what it found exactly if its source is written and assembled
(`declareRoutines_eq_ok`).
-/
namespace RomLinker

open Workspace

def Operation.IsSingle {σ : Type} : Operation σ → Prop
  | .load _ | .adopt .. | .define .. | .patch .. | .scan | .register .. => True
  | _ => False

namespace LinkM

variable {σ : Type} {asm : Assembler σ} {first : Session}

theorem yields_register (file : Path) (name : String) (address : Address) :
    Yields (· = first) (register file name address : LinkM σ Unit) (fun _ => True) fun _ t => t = first := by
  have noted (level : Level) (text : String) :
      Yields (fun _ => True) (note level text : LinkM σ Unit) (fun _ => True) fun _ t => t = first :=
    Yields.modify fun _ _ => trivial
  refine Yields.read fun s same => ?_
  refine Yields.bind (Yields.onSession (fun _ _ _ _ => trivial) fun t _ unchanged _ => unchanged.trans same)
    fun _ => ?_
  split
  · exact noted _ _
  · exact Yields.pure _ fun _ holds => holds

theorem yields_scanned : Yields (· = first) (scanRoutines asm) (fun _ => True) fun _ t => t = first :=
  yields_scanRoutines (fun _ same _ => same) (fun _ same _ => same) (fun _ _ same _ => same)
    (fun _ _ same _ => same) fun _ _ _ _ _ _ => trivial

theorem yields_single {operation : Operation σ} (single : operation.IsSingle) :
    Yields (· = first) (operation.action asm) (fun _ => True) fun _ t => t = first := by
  have loads {action : LinkM σ Unit} (yields : Yields (· = first) action (fun _ => True)
      fun _ t => t = first ∧ True) : Yields (· = first) action (fun _ => True) fun _ t => t = first :=
    yields.mono (fun _ same => same) (fun _ holds => holds) fun _ _ both => both.1
  cases operation with
  | load path => exact loads (yields_load (fun _ _ => trivial) (fun _ _ _ _ => trivial) path)
  | adopt path data => exact loads (yields_adopt (fun _ _ => trivial) (fun _ _ _ _ => trivial) path data)
  | define name value =>
    unfold Operation.action
    exact Yields.onSession (fun _ _ _ _ => trivial) fun _ _ same _ => same
  | patch source own =>
    exact yields_patch source (fun _ same _ => same) (fun _ _ same _ => same) (fun _ _ same _ => same)
      fun _ _ _ _ => trivial
  | scan => exact Yields.bind yields_scanned fun _ => Yields.pure _ fun _ holds => holds
  | register file name address => exact yields_register file name address
  | takePrints | insertLibrary | insert | surround => cases single

section Patch
variable {source : Path} {own : Defines} {s t : Linker σ} {e : LinkError}

theorem patch_of_unloaded (asm : Assembler σ) (none : s.session.rom? = none) :
    patch asm source own s = .error .noRom s := by
  unfold patch
  rw [get_bind, none]
  rfl

theorem patch_of_undefined (asm : Assembler σ) {rom : Rom} (loaded : s.session.rom? = some rom)
    (refused : s.session.definesFor own = .error e) : patch asm source own s = .error e s := by
  have stops : assemble asm rom.data source own s = .error e s := by
    unfold assemble
    rw [get_bind, refused]
    rfl
  unfold patch
  rw [get_bind, loaded]
  exact bind_of_error stops

/-- A patch that is refused before its source is assembled is refused whatever the assembler is, and nothing
at all is changed. -/
theorem patch_of_misplaced (refused : patch asm source own s = .error e t) (misplaced : e.isMisplaced = true)
    (other : Assembler σ) : t = s ∧ patch other source own s = .error e s := by
  cases loaded : s.session.rom? with
  | none =>
    cases refused.symm.trans (patch_of_unloaded asm loaded)
    exact ⟨rfl, patch_of_unloaded other loaded⟩
  | some rom =>
    cases given : s.session.definesFor own with
    | error e' =>
      cases refused.symm.trans (patch_of_undefined asm loaded given)
      exact ⟨rfl, patch_of_undefined other loaded given⟩
    | ok defines =>
      have patches : Yields (· = s.session) (patch asm source own) (fun _ => True)
          fun e _ => e.isMisplaced = false := by
        refine yields_patch source ?_ ?_ (fun _ _ _ inPlace => inPlace) fun _ _ _ _ => trivial
        · rintro _ rfl none
          cases none.symm.trans loaded
        · rintro _ _ rfl failed
          cases failed.symm.trans given
      have cause := patches.run s rfl
      rw [refused] at cause
      cases misplaced.symm.trans cause

end Patch

def declarations (names : List String) : String :=
  String.join (names.map fun name => s!"%UberRoutineDeclare({name})\n")

/-- What may stop a first scan: no ROM is loaded, the files cannot be listed or one of them has no good name,
the declarations cannot be written, or the source that takes them cannot be assembled. -/
inductive ScanFault (asm : Assembler σ) (s : Linker σ) : LinkError → Prop where
  | unloaded (none : s.session.rom? = none) : ScanFault asm s .noRom
  | unlisted {e : LinkError}
      (failed : s.workspace.filesUnder s.disk ⟨"routines"⟩ false >>= declaredRoutines = .error e) :
      ScanFault asm s e
  | unwritten {e : LinkError} {names : List String} {t : Linker σ}
      (listed : s.workspace.filesUnder s.disk ⟨"routines"⟩ false >>= declaredRoutines = .ok names)
      (failed : generate "routines.asm" (declarations names) s = .error e t) : ScanFault asm s e
  | unassembled {e : LinkError} {rom : Rom} {names : List String} {path : Path} {t u : Linker σ}
      (loaded : s.session.rom? = some rom)
      (listed : s.workspace.filesUnder s.disk ⟨"routines"⟩ false >>= declaredRoutines = .ok names)
      (written : generate "routines.asm" (declarations names) s = .ok path t)
      (failed : assemble asm rom.data (s.workspace.fixedSource "routine_scan.asm") .empty t = .error e u) :
      ScanFault asm s e

/-- What a scan leaves that found some names and had its source assembled. -/
def scanned (s : Linker σ) (names : List String) (assembly : Assembly) (disk : Disk) (assembler : σ) :
    Linker σ :=
  { s with
    disk, assembler
    workspace := s.workspace.remember (s.workspace.generatedSource "routines.asm")
    session := { s.session with
      routines := { s.session.routines with declared? := some names }
      labels := assembly.labels, prints := assembly.prints } }

theorem declareRoutines_eq_ok {rom : Rom} {scan : Path} {names : List String} {n : Nat} {s t : Linker σ} :
    declareRoutines asm rom scan names s = .ok n t ↔ s.session.routines.wasScanned = false ∧ n = names.length ∧
      ∃ held defines assembly disk inner,
        s.disk.Takes (workDirectory s.workspace.root) (s.workspace.generatedSource "routines.asm")
          (declarations names) held ∧
        s.session.definesFor .empty = .ok defines ∧
        asm.assemble ⟨rom.data, scan, defines⟩ held s.assembler = (.ok assembly, disk, inner) ∧
        t = scanned s names assembly disk inner := by
  have routines : Path.Named "routines.asm" := named_of_generated (by decide)
  constructor
  · intro h
    obtain ⟨path, u, generated, h⟩ := bind_eq_ok.mp h
    obtain ⟨-, held, takes, rfl⟩ := (generate_eq_ok routines).mp generated
    obtain ⟨image, v, assembled, h⟩ := bind_eq_ok.mp h
    obtain ⟨defines, assembly, defined, -, run, rest⟩ := assemble_eq_ok.mp assembled
    obtain ⟨_, x, declared, h⟩ := bind_eq_ok.mp h
    cases h
    obtain ⟨session, declares, rfl⟩ := onSession_eq_ok declared
    obtain ⟨table, taken, rfl⟩ := declare_eq_ok declares
    rw [rest] at taken
    obtain ⟨unscanned, rfl⟩ := RoutineTable.declare_eq_ok taken
    refine ⟨unscanned, rfl, held, defines, assembly, _, _, takes, defined, run, ?_⟩
    rw [rest]
    rfl
  · rintro ⟨unscanned, rfl, held, defines, assembly, disk, inner, takes, defined, run, rfl⟩
    let written := s.workspace.remember (s.workspace.generatedSource "routines.asm")
    let u : Linker σ := { s with disk := held, workspace := written }
    let v : Linker σ := { u with disk, assembler := inner, session := s.session.answered (.ok assembly) }
    have generated := (generate_eq_ok (t := u) routines).mpr ⟨rfl, held, takes, rfl⟩
    have assembled : assemble asm rom.data scan .empty u = .ok assembly.image v :=
      assemble_eq_ok.mpr ⟨defines, assembly, defined, rfl, run, rfl⟩
    have taken : v.session.routines.declare names = .ok { s.session.routines with declared? := some names } :=
      if_neg (Bool.eq_false_iff.mp unscanned)
    have declares : (do return { v.session with routines := ← v.session.routines.declare names }) =
        .ok (scanned s names assembly disk inner).session := by
      rw [taken]
      rfl
    exact (bind_of_ok generated).trans ((bind_of_ok assembled).trans (bind_of_ok (onSession_of_ok declares)))

theorem declareRoutines_of_assembled {rom : Rom} {scan path : Path} {names : List String} {image : ByteArray}
    {s t u : Linker σ} (unscanned : s.session.routines.wasScanned = false)
    (written : generate "routines.asm" (declarations names) s = .ok path t)
    (assembled : assemble asm rom.data scan .empty t = .ok image u) :
    ∃ v, declareRoutines asm rom scan names s = .ok names.length v ∧
      v.session.routines.wasScanned = true := by
  obtain ⟨-, held, takes, rfl⟩ := (generate_eq_ok (named_of_generated (by decide))).mp written
  obtain ⟨defines, assembly, defined, -, calls⟩ := assemble_eq_ok.mp assembled
  have declares := declareRoutines_eq_ok.mpr
    ⟨unscanned, rfl, held, defines, assembly, _, _, takes, defined, calls.run, rfl⟩
  exact ⟨_, declares, rfl⟩

/-- A first scan declares the routines, unless one of its parts stops. -/
theorem scan_cases (asm : Assembler σ) {s : Linker σ} (unscanned : s.session.routines.wasScanned = false) :
    (∃ n t, scanRoutines asm s = .ok n t ∧ t.session.routines.wasScanned = true) ∨
      ∃ e t, scanRoutines asm s = .error e t ∧ ScanFault asm s e := by
  unfold scanRoutines
  rw [get_bind]
  dsimp only
  rw [unscanned]
  cases loaded : s.session.rom? with
  | none => exact Or.inr ⟨_, _, rfl, .unloaded loaded⟩
  | some rom =>
    cases listed : s.workspace.filesUnder s.disk ⟨"routines"⟩ false >>= declaredRoutines with
    | error e => exact Or.inr ⟨e, s, rfl, .unlisted listed⟩
    | ok names =>
      let scan := s.workspace.fixedSource "routine_scan.asm"
      change (∃ n t, declareRoutines asm rom scan names s = .ok n t ∧ _) ∨
        ∃ e t, declareRoutines asm rom scan names s = .error e t ∧ _
      cases written : generate "routines.asm" (declarations names) s with
      | error e t => exact Or.inr ⟨e, t, bind_of_error written, .unwritten listed written⟩
      | ok path t =>
        cases assembled : assemble asm rom.data scan .empty t with
        | error e u =>
          have stops : declareRoutines asm rom scan names s = .error e u :=
            (bind_of_ok written).trans (bind_of_error assembled)
          exact Or.inr ⟨e, u, stops, .unassembled loaded listed written assembled⟩
        | ok image u =>
          obtain ⟨v, scanned⟩ := declareRoutines_of_assembled unscanned written assembled
          exact Or.inl ⟨_, v, scanned⟩

end LinkM

/-- An operation of a single step that stops leaves the session as it was. A patch that stops for a missing
ROM or a define that is already made leaves everything as it was, and does so whatever the assembler is. After
a first scan that stopped, another one declares the routines unless one of its own parts stops. -/
theorem Session.intact_of_stopped {σ : Type} (asm : Assembler σ) (operation : Operation σ) (s t : Linker σ)
    (e : LinkError) (single : operation.IsSingle) (stopped : operation.action asm s = .error e t) :
    t.session = s.session ∧
    (∀ source own, operation = .patch source own → (e = .noRom ∨ ∃ name, e = .duplicateDefine name) →
      t = s ∧ ∀ other : Assembler σ, operation.action other s = .error e s) ∧
    (operation = .scan → s.session.routines.wasScanned = false →
      ∀ (other : Assembler σ) (u : Linker σ), u.session = t.session →
        (∃ n v, LinkM.scanRoutines other u = .ok n v ∧ v.session.routines.wasScanned = true) ∨
          ∃ fault v, LinkM.scanRoutines other u = .error fault v ∧ LinkM.ScanFault other u fault) := by
  have kept : t.session = s.session := by
    have steps : LinkM.Yields (· = s.session) (operation.action asm) (fun _ => True)
        fun _ t => t = s.session := LinkM.yields_single single
    have left := steps.run s rfl
    rw [stopped] at left
    exact left
  refine ⟨kept, ?_, ?_⟩
  · rintro source own rfl early
    have misplaced : e.isMisplaced = true := by
      rcases early with rfl | ⟨name, rfl⟩
      · rfl
      · rfl
    refine ⟨(LinkM.patch_of_misplaced stopped misplaced asm).1, fun other => ?_⟩
    exact (LinkM.patch_of_misplaced stopped misplaced other).2
  · intro _ unscanned other u same
    refine LinkM.scan_cases other ?_
    rw [same, kept]
    exact unscanned

namespace SmallBuild

def missing : Assembler Unit :=
  ⟨"missing", fun _ disk inner => (.error (.unavailable "not found"), disk, inner)⟩

def unscanned : Linker Unit :=
  let routines := Location.root.child "routines"
  let disk := Disk.empty.insert routines .directory |>.insert (routines.child "f.asm") (.file .empty)
  { Linker.fresh disk root () with session := { rom? := some ⟨⟨"r.sfc"⟩, .empty, Rom.bankHeader⟩ } }

theorem exists_missed : ∃ t, (Operation.action missing .scan) unscanned =
    .error (.assemblerUnavailable "not found") t ∧ ∃ u, LinkM.scanRoutines asm t = .ok 1 u := by
  have stops : LinkM.outcome ((Operation.action missing .scan) unscanned) =
      .error (.assemblerUnavailable "not found") := by decide +kernel
  obtain ⟨t, stopped⟩ := LinkM.exists_of_outcome_error stops
  have left : LinkM.finish (Operation.action missing .scan) unscanned = t := by
    unfold LinkM.finish
    rw [stopped]
  have again : LinkM.outcome (LinkM.scanRoutines asm (LinkM.finish (Operation.action missing .scan) unscanned)) =
      .ok 1 := by decide +kernel
  obtain ⟨u, scanned⟩ := LinkM.exists_of_outcome_ok again
  exact ⟨t, stopped, u, left ▸ scanned⟩

end SmallBuild

open SmallBuild in
/-- A scan without an assembler stops, and another one with an assembler declares the routine. -/
theorem Session.intact_of_stopped_scan : ∃ t u,
    (Operation.action missing .scan) unscanned = .error (.assemblerUnavailable "not found") t ∧
    t.session = unscanned.session ∧ LinkM.scanRoutines asm t = .ok 1 u := by
  obtain ⟨t, stopped, u, scanned⟩ := exists_missed
  have intact := intact_of_stopped missing .scan unscanned t _ trivial stopped
  exact ⟨t, u, stopped, intact.1, scanned⟩

end RomLinker
