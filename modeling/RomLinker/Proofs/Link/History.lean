import Mathlib.Logic.Relation
import RomLinker.Proofs.Defines
import RomLinker.Proofs.Link.Causes

/-!
What holds of a session at any time. The operations of the linker, in any order and whether they stop or
not, change a session by single changes only (`Session.Change`); every one of them leaves a sound session
(`Session.Sound`) that has all that was on record before (`Session.Extends`), and so does a whole run.
-/
namespace RomLinker

def Ledger.of (l : Ledger) : Purpose → Nat
  | .main => l.main
  | .library => l.library
  | .resources => l.resources
  | .other => l.other

theorem Ledger.of_le_add (l : Ledger) (n : Nat) (purpose added : Purpose) :
    l.of purpose ≤ (l.add n added).of purpose := by
  cases added <;> cases purpose <;> simp [Ledger.of, Ledger.add]

namespace Session

inductive Change (s : Session) : Session → Prop where
  | adopt (rom : Rom) (found : Rom.headerOf rom.data = .ok rom.header) :
      Change s { s with rom? := some rom }
  | define {t : Session} {name value : String} (defined : s.define name value = .ok t) : Change s t
  | answer (answer : Except AssemblerFault Assembly) : Change s (s.answered answer)
  | image (data : ByteArray) : Change s (s.withData data)
  | declare (names : List String) (loaded : s.rom?.isSome) (unscanned : s.routines.wasScanned = false) :
      Change s { s with routines := { s.routines with declared? := some names } }
  | register {t : Session} {file : Path} {name : String} {address : Address}
      (registered : s.register file name address = .ok t) : Change s t
  | clean (address : Address) (small : address.toNat < Address.limit) : Change s (s.addClean address)
  | size (purpose : Purpose) (n : Nat) : Change s (s.addSize purpose n)

abbrev Reaches : Session → Session → Prop := Relation.ReflTransGen Change

def header? (s : Session) : Option Header := s.rom?.map (·.header)

/-- What holds of a session at any time. -/
structure Sound (s : Session) : Prop where
  placed : s.romPath?.isSome = s.header?.isSome
  /-- The header is one that was found in a file. -/
  found : ∀ header, s.header? = some header → ∃ data, Rom.headerOf data = .ok header
  scanned : ∀ name, (s.routines.get? name).isSome ∨ s.routines.expects name → s.routines.wasScanned
  loaded : s.routines.wasScanned → s.rom?.isSome
  cleans : ∀ address ∈ s.cleans, address.toNat < Address.limit

structure Extends (s t : Session) : Prop where
  cleans : s.cleans <+: t.cleans
  defines : s.defines.entries <+: t.defines.entries
  routines : ∀ name routine, s.routines.get? name = some routine → t.routines.get? name = some routine
  scanned : ∀ names, s.routines.declared? = some names → t.routines.declared? = some names
  sizes : ∀ purpose, s.ledger.of purpose ≤ t.ledger.of purpose

variable {s t u : Session}

theorem Extends.refl (s : Session) : s.Extends s :=
  ⟨List.prefix_refl _, List.prefix_refl _, fun _ _ held => held, fun _ held => held, fun _ => Nat.le_refl _⟩

theorem Extends.trans (first : s.Extends t) (second : t.Extends u) : s.Extends u where
  cleans := first.cleans.trans second.cleans
  defines := first.defines.trans second.defines
  routines name routine held := second.routines name routine (first.routines name routine held)
  scanned names held := second.scanned names (first.scanned names held)
  sizes purpose := Nat.le_trans (first.sizes purpose) (second.sizes purpose)

theorem Change.extends (change : Change s t) : s.Extends t := by
  have same : s.Extends s := .refl s
  cases change with
  | adopt rom found => exact ⟨same.cleans, same.defines, same.routines, same.scanned, same.sizes⟩
  | define defined =>
    obtain ⟨defines, added, rfl⟩ := define_eq_ok defined
    have grown : s.defines.entries <+: defines.entries := ⟨_, (Defines.add?_eq_some added).symm⟩
    exact ⟨same.cleans, grown, same.routines, same.scanned, same.sizes⟩
  | answer answer =>
    cases answer with
    | ok assembly => exact ⟨same.cleans, same.defines, same.routines, same.scanned, same.sizes⟩
    | error fault => exact same
  | image data => exact ⟨same.cleans, same.defines, same.routines, same.scanned, same.sizes⟩
  | declare names loaded unscanned =>
    refine ⟨same.cleans, same.defines, same.routines, fun names held => ?_, same.sizes⟩
    unfold RoutineTable.wasScanned at unscanned
    rw [held] at unscanned
    cases unscanned
  | register registered =>
    obtain ⟨-, routines, added, rfl⟩ := register_eq_ok registered
    refine ⟨same.cleans, same.defines, fun _ _ held => RoutineTable.get?_add added held, ?_, same.sizes⟩
    exact fun names held => (RoutineTable.declared?_add added).trans held
  | clean address small =>
    exact ⟨List.prefix_append _ _, same.defines, same.routines, same.scanned, same.sizes⟩
  | size purpose n =>
    exact ⟨same.cleans, same.defines, same.routines, same.scanned,
      fun counted => s.ledger.of_le_add n counted purpose⟩

theorem sound_empty : Sound {} where
  placed := rfl
  found header held := by cases held
  scanned name held := by
    rcases held with entry | expected
    · change (RoutineTable.empty.get? name).isSome at entry
      rw [RoutineTable.get?_empty] at entry
      cases entry
    · cases expected
  loaded scanned := by cases scanned
  cleans address member := by cases member

theorem Change.sound (change : Change s t) (sound : s.Sound) : t.Sound := by
  cases change with
  | adopt rom found =>
    refine ⟨rfl, fun header held => ?_, sound.scanned, fun _ => rfl, sound.cleans⟩
    cases held
    exact ⟨rom.data, found⟩
  | define defined =>
    obtain ⟨defines, -, rfl⟩ := define_eq_ok defined
    exact ⟨sound.placed, sound.found, sound.scanned, sound.loaded, sound.cleans⟩
  | answer answer =>
    cases answer with
    | ok assembly => exact ⟨sound.placed, sound.found, sound.scanned, sound.loaded, sound.cleans⟩
    | error fault => exact sound
  | image data =>
    have path : (s.withData data).romPath? = s.romPath? := (LinkM.sameFrame_withData s data).1
    have header : (s.withData data).header? = s.header? := by
      unfold header? withData
      cases s.rom? <;> rfl
    refine ⟨?_, ?_, sound.scanned, fun scanned => ?_, sound.cleans⟩
    · rw [path, header]
      exact sound.placed
    · rw [header]
      exact sound.found
    · have loaded := sound.loaded scanned
      unfold withData
      rw [Option.isSome_map]
      exact loaded
  | declare names loaded unscanned =>
    exact ⟨sound.placed, sound.found, fun _ _ => rfl, fun _ => loaded, sound.cleans⟩
  | register registered =>
    obtain ⟨scanned, routines, added, rfl⟩ := register_eq_ok registered
    refine ⟨sound.placed, sound.found, fun _ _ => ?_, fun _ => sound.loaded scanned, sound.cleans⟩
    exact (RoutineTable.wasScanned_add added).trans scanned
  | clean address small =>
    refine ⟨sound.placed, sound.found, sound.scanned, sound.loaded, fun a member => ?_⟩
    rcases List.mem_append.mp member with old | new
    · exact sound.cleans a old
    · rw [List.mem_singleton.mp new]
      exact small
  | size purpose n => exact ⟨sound.placed, sound.found, sound.scanned, sound.loaded, sound.cleans⟩

theorem Reaches.extends (reaches : Reaches s t) : s.Extends t := by
  induction reaches with
  | refl => exact .refl s
  | tail _ change ih => exact ih.trans change.extends

theorem Reaches.sound (reaches : Reaches s t) (sound : s.Sound) : t.Sound := by
  induction reaches with
  | refl => exact sound
  | tail _ change ih => exact change.sound ih

end Session

/-- What may be asked of a linker that has a session, and what may happen around it. -/
inductive Operation (σ : Type) where
  | load (path : Path)
  | adopt (path : Path) (data : ByteArray)
  | define (name value : String)
  | patch (source : Path) (own : Defines)
  | scan
  | register (file : Path) (name : String) (address : Address)
  | takePrints (file : Path) (capture : Bool)
  | insertLibrary
  | insert (r : Resource) (extraBytes : String)
  /-- All but the session is another from here on. -/
  | surround (around : Linker σ)

namespace Operation

variable {σ : Type}

def action (asm : Assembler σ) : Operation σ → LinkM σ Unit
  | load path => LinkM.load path
  | adopt path data => LinkM.adopt path data
  | define name value => LinkM.onSession (·.define name value)
  | patch source own => LinkM.patch asm source own
  | scan => do let _ ← LinkM.scanRoutines asm
  | register file name address => LinkM.register file name address
  | takePrints file capture => do let _ ← LinkM.takePrints file capture
  | insertLibrary => Library.insertAll asm
  | insert r extraBytes => r.insert asm extraBytes
  | surround around => modify fun s => { around with session := s.session }

/-- Operations one after the other. What one of them did before it stopped stays done. -/
def run (asm : Assembler σ) (operations : List (Operation σ)) (s : Linker σ) : Linker σ :=
  operations.foldl (fun s operation => (operation.action asm).finish s) s

end Operation

namespace LinkM

open Session

variable {σ α : Type} {asm : Assembler σ} {first : Session}

theorem upheld_reaches : UpheldThroughout (Reaches first) fun _ => True where
  answer _ answer reached := reached.tail (.answer answer)
  image _ data reached := reached.tail (.image data)
  clean _ address small reached := reached.tail (.clean address small)
  size _ purpose n reached := reached.tail (.size purpose n)
  unloaded _ _ _ := trivial
  other _ _ := trivial
  registered _ _ _ _ _ reached registered := reached.tail (.register registered)
  unregistered _ _ _ _ _ _ _ := trivial
  plain _ _ _ _ := trivial
  told _ _ _ _ _ := trivial

theorem Yields.finish {action : LinkM σ α} {before kept : Session → Prop} {cause : LinkError → Prop}
    {s : Linker σ} (yields : Yields before action kept fun e s => kept s ∧ cause e)
    (holds : before s.session) : kept (action.finish s).session := by
  have reached := yields.run s holds
  unfold LinkM.finish
  cases result : action s with
  | ok a t =>
    rw [result] at reached
    exact reached
  | error e t =>
    rw [result] at reached
    exact reached.1

/-- What the single changes keep, every operation keeps. Only some operations define a name. -/
theorem UpheldThroughout.action {kept : Session → Prop} (upheld : UpheldThroughout kept fun _ => True)
    (adopted : ∀ s rom, kept s → Rom.headerOf rom.data = .ok rom.header → kept { s with rom? := some rom })
    (declared : ∀ s names, kept s → s.rom?.isSome → s.routines.wasScanned = false →
      kept { s with routines := { s.routines with declared? := some names } })
    (operation : Operation σ)
    (defined : ∀ name value, operation = .define name value →
      ∀ s t, kept s → s.define name value = .ok t → kept t) :
    Stays kept (fun _ => True) (operation.action asm) := by
  cases operation with
  | load path => exact yields_load upheld.other adopted path
  | adopt path data => exact yields_adopt upheld.other adopted path data
  | define name value =>
    unfold Operation.action
    exact Yields.onSession (defined name value rfl) fun _ _ holds _ => ⟨holds, trivial⟩
  | patch source own => exact upheld.patch (fun _ _ _ _ => trivial) source
  | scan =>
    have scans : Stays kept (fun _ => True) (scanRoutines asm) :=
      upheld.scanRoutines upheld.plain (fun _ _ _ => trivial) declared
    exact Stays.bind scans fun _ => Stays.pure _
  | register file name address => exact upheld.register file name address
  | takePrints file capture => exact Stays.bind (upheld.takePrints file capture) fun _ => Stays.pure _
  | insertLibrary => exact upheld.inserting.insertAll
  | insert r extraBytes => exact upheld.inserting.insert r extraBytes
  | surround around => exact Stays.modify fun _ => rfl

theorem stays_action (operation : Operation σ) :
    Stays (Reaches first) (fun _ => True) (operation.action asm) :=
  UpheldThroughout.action upheld_reaches (fun _ rom reached found => reached.tail (.adopt rom found))
    (fun _ names reached loaded unscanned => reached.tail (.declare names loaded unscanned)) operation
    fun _ _ _ _ _ reached defined => reached.tail (.define defined)

theorem reaches_run (operations : List (Operation σ)) (s : Linker σ) :
    s.session.Reaches (Operation.run asm operations s).session := by
  induction operations generalizing s with
  | nil => exact .refl
  | cons operation rest ih =>
    have first : s.session.Reaches ((operation.action asm).finish s).session :=
      (stays_action operation).finish .refl
    exact first.trans (ih _)

end LinkM

/-- After any operations a session is sound, and after any more of them nothing on record is lost. -/
theorem Session.sound_and_extends {σ : Type} (asm : Assembler σ) (d : Disk) (root : Path) (state : σ)
    (operations more : List (Operation σ)) :
    let s := Operation.run asm operations (Linker.fresh d root state)
    s.session.Sound ∧ s.session.Extends (Operation.run asm more s).session := by
  intro s
  have reached : Session.Reaches {} s.session := LinkM.reaches_run operations (Linker.fresh d root state)
  exact ⟨reached.sound Session.sound_empty, (LinkM.reaches_run more s).extends⟩

end RomLinker
