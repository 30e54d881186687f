import RomLinker.Proofs.Defines
import RomLinker.Proofs.Link.Prints
import RomLinker.Proofs.Link.Steps

/-!
Why an action stops, and what becomes of the session. `Yields` follows an action by the session alone, with
the cause in sight if it stops. What the single changes of a session keep, whole steps keep as well, and
they stop only for the causes of their parts (`Upheld`).
-/
namespace RomLinker

namespace LinkM

variable {σ α β : Type}

/-- An action takes some sessions to others, and stops for some causes with some others still. -/
structure Yields (before : Session → Prop) (action : LinkM σ α) (after : Session → Prop)
    (stopped : LinkError → Session → Prop) : Prop where
  run : ∀ s, before s.session → match action s with
    | .ok _ t => after t.session
    | .error e t => stopped e t.session

/-- An action keeps a property of the session, whether it stops or not, and stops for some causes only. -/
abbrev Stays (kept : Session → Prop) (cause : LinkError → Prop) (action : LinkM σ α) : Prop :=
  Yields kept action kept fun e s => kept s ∧ cause e

namespace Yields
variable {before before' middle after after' : Session → Prop}
  {stopped stopped' : LinkError → Session → Prop} {action : LinkM σ α} {next : α → LinkM σ β}

theorem bind (first : Yields before action middle stopped)
    (rest : ∀ a, Yields middle (next a) after stopped) :
    Yields before (action >>= next) after stopped := by
  refine ⟨fun s holds => ?_⟩
  have reached := first.run s holds
  cases result : action s with
  | ok a t =>
    rw [bind_of_ok result]
    rw [result] at reached
    exact (rest a).run t reached
  | error e t =>
    rw [bind_of_error result]
    rw [result] at reached
    exact reached

theorem mono (yields : Yields before action after stopped) (stronger : ∀ s, before' s → before s)
    (weaker : ∀ s, after s → after' s) (weaker' : ∀ e s, stopped e s → stopped' e s) :
    Yields before' action after' stopped' := by
  refine ⟨fun s holds => ?_⟩
  have reached := yields.run s (stronger _ holds)
  cases result : action s with
  | ok a t =>
    rw [result] at reached
    exact weaker _ reached
  | error e t =>
    rw [result] at reached
    exact weaker' _ _ reached

/-- Once the state is read, less than all that is known of it may do. -/
theorem of_kept {s : Session} (holds : before s) (yields : Yields before action after stopped) :
    Yields (· = s) action after stopped :=
  yields.mono (fun _ same => same ▸ holds) (fun _ holds => holds) fun _ _ holds => holds

/-- Where it does not matter what is left when the action stops, its cause is all there is to say. -/
theorem blames {kept : Session → Prop} {cause : LinkError → Prop}
    (yields : Yields before action after fun e s => kept s ∧ cause e) :
    Yields before action after fun e _ => cause e :=
  yields.mono (fun _ holds => holds) (fun _ holds => holds) fun _ _ both => both.2

theorem read {f : Linker σ → LinkM σ β}
    (rest : ∀ s, before s.session → Yields (· = s.session) (f s) after stopped) :
    Yields before (MonadState.get >>= f) after stopped :=
  ⟨fun s holds => (rest s holds).run s rfl⟩

theorem pure (a : α) (holds : ∀ s, before s → after s) :
    Yields before (Pure.pure a : LinkM σ α) after stopped := ⟨fun s => holds s.session⟩

theorem throw {e : LinkError} (holds : ∀ s, before s → stopped e s) :
    Yields before (MonadExcept.throw e : LinkM σ α) after stopped := ⟨fun s => holds s.session⟩

theorem throw_bind {e : LinkError} {next : β → LinkM σ α} (holds : ∀ s, before s → stopped e s) :
    Yields before (MonadExcept.throw e >>= next) after stopped := ⟨fun s => holds s.session⟩

theorem modify {change : Linker σ → Linker σ}
    (holds : ∀ s, before s.session → after (change s).session) :
    Yields before (modify change : LinkM σ Unit) after stopped := ⟨holds⟩

theorem onSession {operation : Session → Except LinkError Session}
    (step : ∀ s t, before s → operation s = .ok t → after t)
    (fails : ∀ s e, before s → operation s = .error e → stopped e s) :
    Yields before (onSession operation : LinkM σ Unit) after stopped := by
  refine read fun s holds => ?_
  cases result : operation s.session with
  | ok session => exact modify fun t same => step _ _ holds result
  | error e => exact throw fun t same => same ▸ fails _ _ holds result

end Yields

namespace Stays
variable {kept : Session → Prop} {cause : LinkError → Prop}

theorem pure (a : α) : Stays kept cause (Pure.pure a : LinkM σ α) := Yields.pure a fun _ holds => holds

theorem throw {e : LinkError} (blamed : cause e) :
    Stays kept cause (MonadExcept.throw e : LinkM σ α) := Yields.throw fun _ holds => ⟨holds, blamed⟩

theorem bind {action : LinkM σ α} {next : α → LinkM σ β} (first : Stays kept cause action)
    (rest : ∀ a, Stays kept cause (next a)) : Stays kept cause (action >>= next) :=
  Yields.bind first rest

theorem blames {action : LinkM σ α} (stays : Stays kept cause action) :
    Yields kept action kept fun e _ => cause e := Yields.blames stays

theorem get : Stays kept cause (MonadState.get : LinkM σ (Linker σ)) := ⟨fun _ holds => holds⟩

theorem modify {change : Linker σ → Linker σ} (same : ∀ s, (change s).session = s.session) :
    Stays kept cause (modify change : LinkM σ Unit) := by
  refine Yields.modify fun s holds => ?_
  rw [same]
  exact holds

theorem modifySession {change : Session → Session} (step : ∀ s, kept s → kept (change s)) :
    Stays kept cause (modifySession change : LinkM σ Unit) := Yields.modify fun s => step s.session

end Stays

section Disk
variable {kept : Session → Prop} {cause : LinkError → Prop}

theorem stays_note (level : Level) (text : String) :
    Stays kept cause (note level text : LinkM σ Unit) := Stays.modify fun _ => rfl

theorem stays_noteSizes (sizes : Ledger) : Stays kept cause (Build.noteSizes sizes : LinkM σ Unit) := by
  unfold Build.noteSizes
  refine Stays.bind (stays_note _ _) fun _ => Stays.bind (stays_note _ _) fun _ => ?_
  refine Stays.bind (stays_note _ _) fun _ => Stays.bind (stays_note _ _) fun _ => ?_
  exact stays_note _ _

variable (other : ∀ e : LinkError, e.isMisplaced = false → cause e)
include other

theorem Stays.sequential : Sequential fun _ (action : LinkM σ _) => Stays kept cause action where
  pure := Stays.pure
  bind := Stays.bind
  get := Stays.get
  note := stays_note
  throw e inPlace := Stays.throw (other e inPlace)

theorem stays_onDisk (p : Path) (operation : Disk → Except DiskFault Disk) :
    Stays kept cause (onDisk p operation : LinkM σ Unit) :=
  (Stays.sequential other).onDisk (fun _ => Stays.modify fun _ => rfl) p operation

theorem stays_generate (name contents : String) :
    Stays kept cause (generate name contents : LinkM σ Path) :=
  (Stays.sequential other).generate (fun _ => Stays.modify fun _ => rfl) (fun _ => Stays.modify fun _ => rfl)
    name contents

theorem stays_markRom (rom : Path) : Stays kept cause (Build.markRom rom : LinkM σ Unit) :=
  (Stays.sequential other).markRom (fun _ => Stays.modify fun _ => rfl) rom

end Disk

section Load
variable {kept after : Session → Prop} {cause : LinkError → Prop}
  (other : ∀ e : LinkError, e.isMisplaced = false → cause e)
  (adopts : ∀ s rom, kept s → Rom.headerOf rom.data = .ok rom.header →
    after { s with rom? := some rom })
include other adopts

theorem yields_adopt (path : Path) (data : ByteArray) :
    Yields kept (adopt path data : LinkM σ Unit) after fun e s => kept s ∧ cause e := by
  unfold adopt
  split
  · exact Yields.throw fun _ holds => ⟨holds, other _ rfl⟩
  · rename_i header found
    have taken : Yields kept
        (do
          note .debug (Rom.mk path data header).describe
          modifySession fun s => { s with rom? := some ⟨path, data, header⟩ } : LinkM σ Unit)
        after fun e s => kept s ∧ cause e := by
      refine Yields.bind (stays_note _ _) fun _ => Yields.modify fun s holds => ?_
      exact adopts _ ⟨path, data, header⟩ holds found
    dsimp only
    split
    · exact Yields.bind (stays_note _ _) fun _ => taken
    · exact taken

theorem yields_load (path : Path) :
    Yields kept (load path : LinkM σ Unit) after fun e s => kept s ∧ cause e := by
  unfold load
  refine Yields.bind Stays.get fun s => ?_
  split
  · exact Yields.throw fun _ holds => ⟨holds, other _ rfl⟩
  · exact yields_adopt other adopts path _

end Load

theorem isMisplaced_ofAssembler (source : Path) (fault : AssemblerFault) :
    (LinkError.ofAssembler source fault).isMisplaced = false := by
  cases fault <;> rfl

section Sources
variable {before after : Session → Prop} {stopped : LinkError → Session → Prop} {asm : Assembler σ}
  {own : Defines}

theorem yields_assemble {s : Session} (image : ByteArray) (source : Path)
    (undefined : ∀ e, s.definesFor own = .error e → stopped e s)
    (fails : ∀ e, e.isMisplaced = false → stopped e s) :
    Yields (· = s) (assemble asm image source own) (fun t => ∃ assembly, t = s.answered (.ok assembly))
      stopped := by
  refine Yields.read fun t same => ?_
  cases given : t.session.definesFor own with
  | error e => exact Yields.throw fun u unchanged => (unchanged.trans same) ▸ undefined e (same ▸ given)
  | ok defines =>
    have called (change : Linker σ → Linker σ) (outside : ∀ u, (change u).session = u.session) :
        Yields (· = t.session) (modify change : LinkM σ Unit) (· = s) stopped :=
      Yields.modify fun u unchanged => (outside u).trans (unchanged.trans same)
    refine Yields.bind (called _ fun _ => rfl) fun _ => ?_
    split
    · exact Yields.throw fun u unchanged => unchanged ▸ fails _ (isMisplaced_ofAssembler _ _)
    · rename_i assembly answered
      refine Yields.bind (Yields.modify fun u unchanged => ?_) fun _ => Yields.pure _ fun _ holds => holds
      exact ⟨assembly, congrArg (Session.answered · (.ok assembly)) unchanged⟩

theorem yields_patch (source : Path)
    (unloaded : ∀ s, before s → s.rom? = none → stopped .noRom s)
    (undefined : ∀ s e, before s → s.definesFor own = .error e → stopped e s)
    (fails : ∀ s e, before s → e.isMisplaced = false → stopped e s)
    (patches : ∀ s assembly data, before s → after ((s.answered (.ok assembly)).withData data)) :
    Yields before (patch asm source own) after stopped := by
  refine Yields.read fun s holds => ?_
  split
  · rename_i none
    exact Yields.throw fun t same => same ▸ unloaded _ holds none
  · refine Yields.bind (yields_assemble _ source (fun e => undefined _ e holds) fun e => fails _ e holds)
      fun image => Yields.modify fun t reached => ?_
    obtain ⟨assembly, same⟩ := reached
    rw [same]
    exact patches _ _ _ holds

/-- A scan marks the routines as scanned with its last change, if they were not. -/
theorem yields_scanRoutines
    (again : ∀ s, before s → s.routines.wasScanned → stopped (.outOfOrder .alreadyScanned) s)
    (unloaded : ∀ s, before s → s.rom? = none → stopped .noRom s)
    (undefined : ∀ s e, before s → s.definesFor .empty = .error e → stopped e s)
    (fails : ∀ s e, before s → e.isMisplaced = false → stopped e s)
    (declares : ∀ s assembly names, before s → s.rom?.isSome → s.routines.wasScanned = false →
      after { s.answered (.ok assembly) with routines := { s.routines with declared? := some names } }) :
    Yields before (scanRoutines asm) after stopped := by
  refine Yields.read fun s holds => ?_
  dsimp only
  split
  · rename_i scanned
    exact Yields.throw_bind fun t same => same ▸ again _ holds scanned
  · rename_i unscanned
    split
    · rename_i none
      exact Yields.throw fun t same => same ▸ unloaded _ holds none
    · rename_i rom loaded
      split
      · rename_i e failed
        exact Yields.throw fun t same => same ▸ fails _ _ holds (isMisplaced_declared failed)
      · rename_i names found
        have generates (name contents : String) : Yields (· = s.session)
            (generate name contents : LinkM σ Path) (· = s.session) stopped := by
          have stays : Stays (· = s.session) (fun e => e.isMisplaced = false)
              (generate name contents : LinkM σ Path) := stays_generate (fun _ inPlace => inPlace) name contents
          exact stays.mono (fun _ same => same) (fun _ same => same)
            fun e t both => both.1 ▸ fails _ _ holds both.2
        have declared : Yields (fun t => ∃ assembly, t = s.session.answered (.ok assembly))
            (onSession fun s => do return { s with routines := ← s.routines.declare names } : LinkM σ Unit)
            after stopped := by
          refine Yields.onSession (fun t u reached declared => ?_) fun t e reached failed => ?_
          · obtain ⟨assembly, rfl⟩ := reached
            obtain ⟨routines, marked, rfl⟩ := declare_eq_ok declared
            obtain ⟨-, rfl⟩ := RoutineTable.declare_eq_ok marked
            exact declares _ assembly names holds (by rw [loaded]; rfl) (Bool.eq_false_iff.mpr unscanned)
          · -- nothing is registered in between, so that the routines are still to be scanned
            obtain ⟨assembly, rfl⟩ := reached
            obtain ⟨scanned, -⟩ := RoutineTable.declare_eq_error (declare_eq_error failed)
            exact absurd scanned unscanned
        refine Yields.bind (generates _ _) fun _ => ?_
        refine Yields.bind (yields_assemble _ _ (fun e => undefined _ e holds) fun e => fails _ e holds)
          fun _ => ?_
        exact Yields.bind declared fun _ => Yields.pure _ fun _ holds => holds

end Sources

/-! ### Steps -/

/-- No source with some defines of its own is refused for a define, unless that is a cause to stop for. -/
def Defined (kept : Session → Prop) (cause : LinkError → Prop) (own : Defines) : Prop :=
  ∀ s e, kept s → s.definesFor own = .error e → cause e

/-- The single changes of a session by a source keep a property of it. A step may stop for any cause but a
misplaced one, and for a missing ROM only where the property allows for it. -/
structure Upheld (kept : Session → Prop) (cause : LinkError → Prop) : Prop where
  answer : ∀ s answer, kept s → kept (s.answered answer)
  image : ∀ s data, kept s → kept (s.withData data)
  clean : ∀ s address, address.toNat < Address.limit → kept s → kept (s.addClean address)
  size : ∀ s purpose n, kept s → kept (s.addSize purpose n)
  unloaded : ∀ s, kept s → s.rom? = none → cause .noRom
  other : ∀ e : LinkError, e.isMisplaced = false → cause e

/-- The same of all that a file of the library or a resource does to a session. -/
structure UpheldThroughout (kept : Session → Prop) (cause : LinkError → Prop) : Prop
    extends Upheld kept cause where
  registered : ∀ s t file name address, kept s → s.register file name address = .ok t → kept t
  unregistered : ∀ s e file name address, kept s → s.register file name address = .error e → cause e
  plain : Defined kept cause .empty
  told : ∀ r : Resource, Defined kept cause r.defines

variable {kept : Session → Prop} {cause : LinkError → Prop} {asm : Assembler σ}

namespace Upheld

theorem save (upheld : Upheld kept cause) : Stays kept cause (save : LinkM σ Unit) := by
  refine Yields.read fun s holds => ?_
  have halts {e : LinkError} (blamed : cause e) (t : Session) (same : t = s.session) :
      kept t ∧ cause e := ⟨same ▸ holds, blamed⟩
  split
  · rename_i none
    exact Yields.throw (halts (upheld.unloaded _ holds none))
  · dsimp only
    split
    · exact Yields.throw (halts (upheld.other _ rfl))
    · split
      · exact Yields.throw (halts (upheld.other _ rfl))
      · exact Yields.of_kept holds (stays_onDisk upheld.other _ _)

theorem patch (upheld : Upheld kept cause) {own : Defines} (defined : Defined kept cause own)
    (source : Path) : Stays kept cause (patch asm source own) :=
  yields_patch source (fun s holds none => ⟨holds, upheld.unloaded s holds none⟩)
    (fun s e holds failed => ⟨holds, defined s e holds failed⟩)
    (fun _ e holds inPlace => ⟨holds, upheld.other e inPlace⟩)
    fun _ _ data holds => upheld.image _ data (upheld.answer _ _ holds)

theorem takePrints (upheld : Upheld kept cause) (file : Path) (capture : Bool) :
    Stays kept cause (takePrints file capture : LinkM σ Insertion) := by
  refine (Stays.sequential upheld.other).takePrints (fun address small => ?_) (fun address n small => ?_)
    file capture
  · exact Stays.modifySession fun s => upheld.clean s address small
  · exact Stays.modifySession fun s holds => upheld.size _ .other n (upheld.clean s address small holds)

theorem patchBase (upheld : Upheld kept cause) (plain : Defined kept cause .empty) (name : String) :
    Stays kept cause (Build.patchBase asm name) := by
  unfold Build.patchBase
  refine Stays.bind Stays.get fun s => ?_
  exact Stays.bind (upheld.patch plain _) fun _ => upheld.takePrints _ _

theorem scanRoutines {after : Session → Prop} (upheld : Upheld kept cause)
    (plain : Defined kept cause .empty)
    (again : ∀ s, kept s → s.routines.wasScanned → cause (.outOfOrder .alreadyScanned))
    (declares : ∀ s names, kept s → s.rom?.isSome → s.routines.wasScanned = false →
      after { s with routines := { s.routines with declared? := some names } }) :
    Yields kept (scanRoutines asm) after fun e s => kept s ∧ cause e :=
  yields_scanRoutines (fun s holds scanned => ⟨holds, again s holds scanned⟩)
    (fun s holds none => ⟨holds, upheld.unloaded s holds none⟩)
    (fun s e holds failed => ⟨holds, plain s e holds failed⟩)
    (fun _ e holds inPlace => ⟨holds, upheld.other e inPlace⟩)
    fun s assembly names holds loaded unscanned =>
      declares _ names (upheld.answer s (.ok assembly) holds) loaded unscanned

end Upheld

namespace UpheldThroughout

theorem register (upheld : UpheldThroughout kept cause) (file : Path) (name : String)
    (address : Address) : Stays kept cause (register file name address : LinkM σ Unit) := by
  refine (Stays.sequential upheld.other).register (Yields.onSession (fun s t => ?_) fun s e holds failed => ?_)
  · exact upheld.registered s t file name address
  · exact ⟨holds, upheld.unregistered s e file name address holds failed⟩

theorem filing (upheld : UpheldThroughout kept cause) :
    Filing fun _ (action : LinkM σ _) => Stays kept cause action where
  toSequential := Stays.sequential upheld.other
  routine file l name _ := upheld.register file name l.address
  library _ := Stays.modify fun _ => rfl
  generates name contents _ := stays_generate upheld.other name contents

theorem patchGenerated (upheld : UpheldThroughout kept cause) {own : Defines}
    (defined : Defined kept cause own) (name contents : String) :
    Stays kept cause (patchGenerated asm name contents own) :=
  Stays.bind (stays_generate upheld.other name contents) fun source => upheld.patch defined source

theorem inserting (upheld : UpheldThroughout kept cause) :
    InsertingThroughout asm fun _ (action : LinkM σ _) => Stays kept cause action where
  toFiling := upheld.filing
  file := upheld.patchGenerated upheld.plain "library.asm"
  prints := upheld.takePrints
  size purpose n := Stays.modifySession fun s => upheld.size s purpose n
  resource r := upheld.patchGenerated (upheld.told r) "resource.asm"
  resources _ := Stays.modify fun _ => rfl

end UpheldThroughout

end LinkM
end RomLinker
