import RomLinker.Proofs.Link.Ensures
import RomLinker.Proofs.Link.Parts

/-!
Quiet actions: those that touch nothing but the log and the session, and of the session neither the
place of the ROM file nor the labels. All that the linker does between two calls of the assembler, but
for the disk and what it files away, is quiet.
-/
namespace RomLinker

def Session.romPath? (s : Session) : Option Path := s.rom?.map (·.path)

namespace LinkM

variable {σ α β : Type}

/-- The part of a state that a quiet action leaves alone. -/
structure Frame (σ : Type) where
  disk : Disk
  workspace : Workspace
  romPath? : Option Path
  labels : List Label
  resources : ResourceTable
  library : List LibraryFile
  assembler : σ

def frame (s : Linker σ) : Frame σ :=
  ⟨s.disk, s.workspace, s.session.romPath?, s.session.labels, s.resources, s.library, s.assembler⟩

def Quiet (action : LinkM σ α) : Prop := ∀ c, Keeps (fun s => frame s = c) action

/-- A quiet action keeps whatever depends on the frame alone. -/
theorem Quiet.keeps {action : LinkM σ α} (quiet : Quiet action) {kept : Linker σ → Prop}
    (depends : ∀ s t, frame t = frame s → kept s → kept t) : Keeps kept action := by
  refine ⟨fun s holds => ?_⟩
  have reached := (quiet (frame s)).run s rfl
  cases result : action s with
  | ok a t =>
    rw [result] at reached
    exact depends s t reached holds
  | error e t =>
    rw [result] at reached
    exact depends s t reached holds

theorem Quiet.leads {action : LinkM σ α} (quiet : Quiet action) {kept : Linker σ → Prop}
    (depends : ∀ s t, frame t = frame s → kept s → kept t) : Leads kept action fun _ => kept :=
  (quiet.keeps depends).leads

namespace Quiet

theorem pure (a : α) : Quiet (Pure.pure a : LinkM σ α) := fun _ => Keeps.pure a

theorem get : Quiet (MonadState.get : LinkM σ (Linker σ)) := fun _ => Keeps.get

theorem bind {action : LinkM σ α} {next : α → LinkM σ β} (first : Quiet action)
    (rest : ∀ a, Quiet (next a)) : Quiet (action >>= next) :=
  fun c => Keeps.bind (first c) fun a => rest a c

theorem modify {change : Linker σ → Linker σ} (same : ∀ s, frame (change s) = frame s) :
    Quiet (modify change : LinkM σ Unit) :=
  fun _ => Keeps.modify fun s holds => (same s).trans holds

theorem forM {xs : List β} {f : β → LinkM σ Unit} (each : ∀ x ∈ xs, Quiet (f x)) :
    Quiet (xs.forM f) :=
  fun c => Keeps.forM fun x member => each x member c

end Quiet

section Log
variable {kept : Linker σ → Prop} (unread : ∀ s log, kept s → kept { s with log := log })
include unread

theorem Keeps.sequential : Sequential fun _ (action : LinkM σ _) => Keeps kept action where
  pure := Keeps.pure
  bind := Keeps.bind
  get := Keeps.get
  note _ _ := Keeps.modify fun s holds => unread s _ holds
  throw e _ := Keeps.throw e

theorem surely_note (level : Level) (text : String) : Surely kept (note level text : LinkM σ Unit) :=
  Ensures.modify fun s holds => unread s _ holds

theorem surely_noteSizes (sizes : Ledger) : Surely kept (Build.noteSizes sizes : LinkM σ Unit) := by
  have noted (level : Level) (text : String) := surely_note unread level text
  unfold Build.noteSizes
  refine Ensures.bind (noted _ _) fun _ => Ensures.bind (noted _ _) fun _ => ?_
  refine Ensures.bind (noted _ _) fun _ => Ensures.bind (noted _ _) fun _ => ?_
  exact noted _ _

end Log

theorem quiet_note (level : Level) (text : String) : Quiet (note level text : LinkM σ Unit) :=
  Quiet.modify fun _ => rfl

def SameFrame (s t : Session) : Prop := t.romPath? = s.romPath? ∧ t.labels = s.labels

theorem frame_session {s : Linker σ} {session : Session} (same : SameFrame s.session session) :
    frame { s with session } = frame s := by
  unfold frame
  rw [same.1, same.2]

theorem quiet_modifySession {change : Session → Session} (same : ∀ s, SameFrame s (change s)) :
    Quiet (modifySession change : LinkM σ Unit) :=
  Quiet.modify fun s => frame_session (same s.session)

theorem quiet_onSession {operation : Session → Except LinkError Session}
    (same : ∀ s t, operation s = .ok t → SameFrame s t) :
    Quiet (onSession operation : LinkM σ Unit) := by
  intro c
  refine Ensures.read fun s holds => ?_
  cases result : operation s.session with
  | error e => exact Ensures.throw fun t same => same ▸ holds
  | ok session =>
    have kept := same _ _ result
    refine Ensures.modify fun t here => ?_
    subst here
    exact (frame_session kept).trans holds

theorem sameFrame_define {s t : Session} {name value : String} (h : s.define name value = .ok t) :
    SameFrame s t := by
  unfold Session.define at h
  split at h
  · cases h
    exact ⟨rfl, rfl⟩
  · cases h

theorem sameFrame_register {s t : Session} {file : Path} {name : String} {address : Address}
    (h : s.register file name address = .ok t) : SameFrame s t := by
  unfold Session.register at h
  split at h
  · cases h
  · split at h
    · cases h
      exact ⟨rfl, rfl⟩
    · cases h

theorem sameFrame_withData (s : Session) (data : ByteArray) : SameFrame s (s.withData data) := by
  unfold SameFrame Session.withData Session.romPath?
  cases s.rom? <;> exact ⟨rfl, rfl⟩

theorem quiet_addDefines (defines : List (String × String)) :
    Quiet (Build.addDefines defines : LinkM σ Unit) :=
  Quiet.forM fun _ _ => quiet_onSession fun _ _ => sameFrame_define

theorem Quiet.sequential : Sequential fun _ (action : LinkM σ _) => Quiet action where
  pure := Quiet.pure
  bind := Quiet.bind
  get := Quiet.get
  note := quiet_note
  throw e _ _ := Keeps.throw e

theorem quiet_register (file : Path) (name : String) (address : Address) :
    Quiet (register file name address : LinkM σ Unit) :=
  Quiet.sequential.register (quiet_onSession fun _ _ => sameFrame_register)

/-- A property that reads neither the log nor what is counted of insertions. -/
structure Indifferent (kept : Linker σ → Prop) : Prop where
  log : ∀ s log, kept s → kept { s with log }
  cleans : ∀ s cleans, kept s → kept { s with session.cleans := cleans }
  ledger : ∀ s ledger, kept s → kept { s with session.ledger := ledger }

namespace Indifferent
variable {kept : Linker σ → Prop} (indifferent : Indifferent kept)
include indifferent

theorem note (level : Level) (text : String) : Keeps kept (note level text : LinkM σ Unit) :=
  Keeps.modify fun s holds => indifferent.log s _ holds

theorem addSize (purpose : Purpose) (n : Nat) :
    Keeps kept (modifySession (·.addSize purpose n) : LinkM σ Unit) :=
  Keeps.modify fun s holds => indifferent.ledger s _ holds

theorem takePrints (file : Path) (capture : Bool) :
    Keeps kept (takePrints file capture : LinkM σ Insertion) := by
  refine (Keeps.sequential indifferent.log).takePrints (fun address _ => ?_) (fun address n _ => ?_) file capture
  · exact Keeps.modify fun s holds => indifferent.cleans s _ holds
  · exact Keeps.modify fun s holds => indifferent.ledger _ (s.session.ledger.add n .other)
      (indifferent.cleans s (s.session.cleans ++ [address]) holds)

end Indifferent

theorem quiet_takePrints (file : Path) (capture : Bool) :
    Quiet (takePrints file capture : LinkM σ Insertion) := by
  intro c
  have indifferent : Indifferent (fun s : Linker σ => frame s = c) :=
    ⟨fun _ _ same => same, fun _ _ same => same, fun _ _ same => same⟩
  exact indifferent.takePrints file capture

theorem quiet_takeRoutine (file : Path) (l : Label) :
    Quiet (Resource.takeRoutine file l : LinkM σ Unit) := by
  unfold Resource.takeRoutine
  split
  · exact quiet_register _ _ _
  · exact Quiet.pure _

end LinkM
end RomLinker
