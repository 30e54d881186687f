import RomLinker.Build

/-!
What an action of the linker brings about. `Ensures` says where an action leads from some states, and
where it leaves off if it stops; an action that `Keeps` a property does so in both cases.
-/
namespace RomLinker

def Linker.fresh {σ : Type} (d : Disk) (root : Path) (state : σ) : Linker σ :=
  { disk := d, workspace := { root }, assembler := state }

namespace LinkM

variable {σ α β : Type}

/-- An action leads from some states to others, and stops in some others still. -/
structure Ensures (before : Linker σ → Prop) (action : LinkM σ α) (after : α → Linker σ → Prop)
    (stopped : Linker σ → Prop) : Prop where
  run : ∀ s, before s → match action s with
    | .ok a t => after a t
    | .error _ t => stopped t

abbrev Keeps (kept : Linker σ → Prop) (action : LinkM σ α) : Prop :=
  Ensures kept action (fun _ => kept) kept

abbrev Surely (kept : Linker σ → Prop) (action : LinkM σ α) : Prop :=
  Ensures kept action (fun _ => kept) fun _ => False

/-- The same where nothing is said of an action that stops. -/
abbrev Leads (before : Linker σ → Prop) (action : LinkM σ α) (after : α → Linker σ → Prop) : Prop :=
  Ensures before action after fun _ => True

theorem bind_of_ok {action : LinkM σ α} {next : α → LinkM σ β} {s t : Linker σ} {a : α}
    (ran : action s = .ok a t) : (action >>= next) s = next a t := by
  show EStateM.bind action next s = next a t
  unfold EStateM.bind
  rw [ran]

theorem bind_of_error {action : LinkM σ α} {next : α → LinkM σ β} {s t : Linker σ} {e : LinkError}
    (stopped : action s = .error e t) : (action >>= next) s = .error e t := by
  show EStateM.bind action next s = .error e t
  unfold EStateM.bind
  rw [stopped]

theorem bind_eq_ok {action : LinkM σ α} {next : α → LinkM σ β} {s t : Linker σ} {b : β} :
    (action >>= next) s = .ok b t ↔ ∃ a u, action s = .ok a u ∧ next a u = .ok b t := by
  cases ran : action s with
  | ok a u =>
    rw [bind_of_ok ran]
    constructor
    · intro h
      exact ⟨a, u, rfl, h⟩
    · rintro ⟨_, _, same, h⟩
      cases same
      exact h
  | error e u =>
    rw [bind_of_error ran]
    simp

theorem get_bind {next : Linker σ → LinkM σ β} {s : Linker σ} :
    (MonadState.get >>= next) s = next s s := rfl

def finish (action : LinkM σ α) (s : Linker σ) : Linker σ :=
  match action s with
  | .ok _ t | .error _ t => t

namespace Ensures
variable {before middle stopped stopped' kept : Linker σ → Prop} {after after' : α → Linker σ → Prop}
  {last : β → Linker σ → Prop} {action : LinkM σ α} {next : α → LinkM σ β}

theorem bind (first : Ensures before action after stopped)
    (rest : ∀ a, Ensures (after a) (next a) last stopped) :
    Ensures before (action >>= next) last stopped := by
  refine ⟨fun s holds => ?_⟩
  have reached := first.run s holds
  cases result : action s with
  | ok a t =>
    rw [bind_of_ok result]
    rw [result] at reached
    exact (rest a).run t reached
  | error e t =>
    rw [bind_of_error result]
    rw [result] at reached
    exact reached

theorem through (after : α → Linker σ → Prop) (first : Ensures before action after stopped)
    (rest : ∀ a, Ensures (after a) (next a) last stopped) :
    Ensures before (action >>= next) last stopped :=
  first.bind rest

theorem mono (ensures : Ensures before action after stopped)
    (weaker : ∀ a s, after a s → after' a s) (weaker' : ∀ s, stopped s → stopped' s) :
    Ensures before action after' stopped' := by
  refine ⟨fun s holds => ?_⟩
  have reached := ensures.run s holds
  cases result : action s with
  | ok a t =>
    rw [result] at reached
    exact weaker a t reached
  | error e t =>
    rw [result] at reached
    exact weaker' t reached

theorem pre (ensures : Ensures middle action after stopped) (stronger : ∀ s, before s → middle s) :
    Ensures before action after stopped :=
  ⟨fun s holds => ensures.run s (stronger s holds)⟩

theorem exists_pre {γ : Type} {of : γ → Linker σ → Prop}
    (each : ∀ c, Ensures (of c) action after stopped) :
    Ensures (fun s => ∃ c, of c s) action after stopped :=
  ⟨fun s ⟨c, holds⟩ => (each c).run s holds⟩

theorem each (rest : ∀ s, before s → Ensures (· = s) action after stopped) :
    Ensures before action after stopped := ⟨fun s holds => (rest s holds).run s rfl⟩

theorem given {fact : Prop} (each : fact → Ensures before action after stopped) :
    Ensures (fun s => fact ∧ before s) action after stopped :=
  ⟨fun s ⟨known, holds⟩ => (each known).run s holds⟩

theorem and {before' : Linker σ → Prop} (first : Ensures before action after stopped)
    (second : Ensures before' action after' stopped') :
    Ensures (fun s => before s ∧ before' s) action (fun a s => after a s ∧ after' a s)
      fun s => stopped s ∧ stopped' s := by
  refine ⟨fun s ⟨holds, holds'⟩ => ?_⟩
  have reached := first.run s holds
  have reached' := second.run s holds'
  cases result : action s with
  | ok a t =>
    rw [result] at reached reached'
    exact ⟨reached, reached'⟩
  | error e t =>
    rw [result] at reached reached'
    exact ⟨reached, reached'⟩

theorem read {f : Linker σ → LinkM σ β}
    (rest : ∀ s, before s → Ensures (· = s) (f s) last stopped) :
    Ensures before (MonadState.get >>= f) last stopped :=
  ⟨fun s holds => (rest s holds).run s rfl⟩

theorem pure {a : α} (holds : ∀ s, before s → after a s) :
    Ensures before (Pure.pure a) after stopped := ⟨holds⟩

theorem throw {e : LinkError} (holds : ∀ s, before s → stopped s) :
    Ensures before (MonadExcept.throw e) after stopped := ⟨holds⟩

theorem throw_bind {e : LinkError} {next : β → LinkM σ α} (holds : ∀ s, before s → stopped s) :
    Ensures before (MonadExcept.throw e >>= next) after stopped := ⟨holds⟩

theorem modify {change : Linker σ → Linker σ} {changed : Unit → Linker σ → Prop}
    (holds : ∀ s, before s → changed () (change s)) :
    Ensures before (modify change) changed stopped := ⟨holds⟩

end Ensures

theorem Surely.keeps {kept : Linker σ → Prop} {action : LinkM σ α} (surely : Surely kept action) :
    Keeps kept action := Ensures.mono surely (fun _ _ holds => holds) fun _ stopped => stopped.elim

theorem Keeps.leads {kept : Linker σ → Prop} {action : LinkM σ α} (keeps : Keeps kept action) :
    Leads kept action fun _ => kept := Ensures.mono keeps (fun _ _ holds => holds) fun _ _ => trivial

theorem Leads.anywhere {before : Linker σ → Prop} {action : LinkM σ α} :
    Leads before action fun _ _ => True := by
  refine ⟨fun s _ => ?_⟩
  cases action s <;> trivial

theorem Keeps.halting {kept stopped : Linker σ → Prop} {action : LinkM σ α}
    (keeps : Keeps kept action) (halts : ∀ s, kept s → stopped s) :
    Ensures kept action (fun _ => kept) stopped := Ensures.mono keeps (fun _ _ holds => holds) halts

namespace Keeps
variable {kept : Linker σ → Prop}

theorem pure (a : α) : Keeps kept (Pure.pure a : LinkM σ α) := ⟨fun _ holds => holds⟩

theorem throw (e : LinkError) : Keeps kept (MonadExcept.throw e : LinkM σ α) := ⟨fun _ holds => holds⟩

theorem bind {action : LinkM σ α} {next : α → LinkM σ β} (first : Keeps kept action)
    (rest : ∀ a, Keeps kept (next a)) : Keeps kept (action >>= next) :=
  Ensures.bind first rest

theorem get : Keeps kept (MonadState.get : LinkM σ (Linker σ)) :=
  ⟨fun _ holds => holds⟩

theorem modify {change : Linker σ → Linker σ} (step : ∀ s, kept s → kept (change s)) :
    Keeps kept (modify change : LinkM σ Unit) := ⟨step⟩

theorem forM {xs : List β} {f : β → LinkM σ Unit} (each : ∀ x ∈ xs, Keeps kept (f x)) :
    Keeps kept (xs.forM f) := by
  induction xs with
  | nil => exact pure ()
  | cons x xs ih =>
    obtain ⟨head, tail⟩ := List.forall_mem_cons.mp each
    exact bind head fun _ => ih tail

end Keeps

theorem finish_andAlways {action : LinkM σ α} {after : LinkM σ Unit} {s : Linker σ} :
    (action.andAlways after).finish s = after.finish (action.finish s) := by
  unfold finish andAlways
  cases action s with
  | ok a t =>
    simp only
    cases after t <;> rfl
  | error e t =>
    simp only
    cases after t <;> rfl

theorem finish_of_ok {action : LinkM σ α} {a : α} {s t : Linker σ} (h : action s = .ok a t) :
    action.finish s = t := by
  unfold finish
  rw [h]

theorem finish_of_error {action : LinkM σ α} {e : LinkError} {s t : Linker σ} (h : action s = .error e t) :
    action.finish s = t := by
  unfold finish
  rw [h]

/-- What stops an action with another one behind it that cannot stop. -/
theorem andAlways_eq_error {action : LinkM σ α} {after : LinkM σ Unit} {s t : Linker σ}
    {e : LinkError} (sure : ∀ s, ∃ t, after s = .ok () t) (h : action.andAlways after s = .error e t) :
    ∃ u, action s = .error e u ∧ after u = .ok () t := by
  unfold andAlways at h
  cases result : action s with
  | ok a u =>
    obtain ⟨v, last⟩ := sure u
    rw [result] at h
    simp only [last] at h
    cases h
  | error e u =>
    obtain ⟨v, last⟩ := sure u
    rw [result] at h
    simp only [last] at h
    cases h
    exact ⟨u, rfl, last⟩

theorem andAlways_eq_ok {action : LinkM σ α} {after : LinkM σ Unit} {a : α} {s t : Linker σ}
    (h : action.andAlways after s = .ok a t) : ∃ u, action s = .ok a u ∧ after u = .ok () t := by
  unfold andAlways at h
  cases result : action s with
  | ok b u =>
    rw [result] at h
    cases last : after u with
    | ok _ v =>
      simp only [last] at h
      cases h
      exact ⟨u, rfl, last⟩
    | error e v =>
      simp only [last] at h
      cases h
  | error e u =>
    rw [result] at h
    cases last : after u <;> simp only [last] at h <;> cases h

theorem Ensures.andAlways {before kept : Linker σ → Prop} {action : LinkM σ α} {after : LinkM σ Unit}
    (ensures : Leads before action fun _ => kept) (keeps : Keeps kept after) :
    Leads before (action.andAlways after) fun _ => kept := by
  refine ⟨fun s holds => ?_⟩
  have reached := ensures.run s holds
  unfold LinkM.andAlways
  cases result : action s with
  | ok a t =>
    rw [result] at reached
    have ended := keeps.run t reached
    dsimp only
    cases last : after t with
    | ok _ u =>
      rw [last] at ended
      exact ended
    | error e u => trivial
  | error e t =>
    dsimp only
    cases after t <;> trivial

theorem Ensures.finish {before kept : Linker σ → Prop} {action : LinkM σ α}
    (ensures : Ensures before action (fun _ => kept) kept) {s : Linker σ} (holds : before s) :
    kept (action.finish s) := by
  have reached := ensures.run s holds
  unfold LinkM.finish
  cases result : action s with
  | ok a t =>
    rw [result] at reached
    exact reached
  | error e t =>
    rw [result] at reached
    exact reached

end LinkM
end RomLinker
