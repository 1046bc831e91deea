import Mathlib.Data.List.Basic

/-!
# Runs of a partial step function

A transition system is given by a step function that takes an action and fails where the action
cannot happen; a run follows a list of actions.
-/

namespace Runs

open List

variable {σ α : Type*} {step : σ → α → Option σ}

/-- The state after a list of actions. -/
def run (step : σ → α → Option σ) (s : σ) (actions : List α) : Option σ := actions.foldlM step s

@[simp] theorem run_nil (s : σ) : run step s [] = some s := rfl

variable {actions : List α} {s : σ}

theorem run_cons {a : α} {s' : σ} :
    run step s (a :: actions) = some s' ↔
      ∃ t, step s a = some t ∧ run step t actions = some s' := by
  simp [run, foldlM_cons, Option.bind_eq_some_iff]

variable {actions more : List α}

theorem run_append {s' : σ} :
    run step s (actions ++ more) = some s' ↔
      ∃ t, run step s actions = some t ∧ run step t more = some s' := by
  simp [run, foldlM_append, Option.bind_eq_some_iff]

variable {s s' : σ}

/-- What every step keeps holds at the end of a run. -/
theorem invariant {P : σ → Prop} (hstep : ∀ s a s', P s → step s a = some s' → P s')
    (hs : P s) (hrun : run step s actions = some s') : P s' := by
  induction actions generalizing s with
  | nil =>
    cases hrun
    exact hs
  | cons a actions ih =>
    obtain ⟨t, ht, hrun⟩ := run_cons.mp hrun
    exact ih (hstep s a t hs ht) hrun

/-- Every action meets a condition on the state in which it is taken. -/
def Guarded (step : σ → α → Option σ) (P : σ → α → Prop) : σ → List α → Prop
  | _, [] => True
  | s, a :: actions => P s a ∧ ∀ s' ∈ step s a, Guarded step P s' actions

variable {P : σ → α → Prop}

theorem guarded_cons {s t : σ} {a : α} (h : step s a = some t) :
    Guarded step P s (a :: actions) ↔ P s a ∧ Guarded step P t actions := by
  simp [Guarded, h]

/-- Whether a run is guarded can be found out by following it. -/
instance Guarded.decidable {P : σ → α → Prop} [∀ s a, Decidable (P s a)] :
    (s : σ) → (actions : List α) → Decidable (Guarded step P s actions)
  | _, [] => .isTrue trivial
  | s, a :: actions =>
    match h : step s a with
    | none => decidable_of_iff (P s a) (by simp [Guarded, h])
    | some t =>
      have : Decidable (Guarded step P t actions) := Guarded.decidable t actions
      decidable_of_iff (P s a ∧ Guarded step P t actions) (guarded_cons h).symm

theorem guarded_append {s t : σ} (h : run step s actions = some t) :
    Guarded step P s (actions ++ more) ↔ Guarded step P s actions ∧ Guarded step P t more := by
  induction actions generalizing s with
  | nil =>
    cases h
    simp [Guarded]
  | cons a actions ih =>
    obtain ⟨u, hu, h⟩ := run_cons.mp h
    rw [cons_append, guarded_cons hu, guarded_cons hu, ih h, and_assoc]

/-- Two conditions together. -/
theorem Guarded.and {P Q : σ → α → Prop} (hP : Guarded step P s actions)
    (hQ : Guarded step Q s actions) : Guarded step (fun s a => P s a ∧ Q s a) s actions := by
  induction actions generalizing s with
  | nil => trivial
  | cons a actions ih => exact ⟨⟨hP.1, hQ.1⟩, fun t ht => ih (hP.2 t ht) (hQ.2 t ht)⟩

/-- Actions that meet a condition in every state. -/
theorem guarded_of_forall (h : ∀ a ∈ actions, ∀ s, P s a) : Guarded step P s actions := by
  induction actions generalizing s with
  | nil => trivial
  | cons a actions ih =>
    exact ⟨h a mem_cons_self s, fun t _ => ih fun b hb => h b (mem_cons_of_mem a hb)⟩

/-- What every step that meets the condition keeps holds at the end of a guarded run. -/
theorem Guarded.invariant {I : σ → Prop} (hstep : ∀ s a s', I s → P s a → step s a = some s' → I s')
    (hguard : Guarded step P s actions) (hs : I s)
    (hrun : run step s actions = some s') : I s' := by
  induction actions generalizing s with
  | nil =>
    cases hrun
    exact hs
  | cons a actions ih =>
    obtain ⟨t, ht, hrun⟩ := run_cons.mp hrun
    exact ih (hguard.2 t ht) (hstep s a t hs hguard.1 ht) hrun

variable {μ : σ → ℕ}

/-- A run is at most as long as a measure that every step lowers. -/
theorem length_add_le {P : σ → Prop} (hstep : ∀ s a s', P s → step s a = some s' → P s')
    (hlt : ∀ s a s', P s → step s a = some s' → μ s' < μ s)
    (hs : P s) (hrun : run step s actions = some s') : actions.length + μ s' ≤ μ s := by
  induction actions generalizing s with
  | nil =>
    cases hrun
    simp
  | cons a actions ih =>
    obtain ⟨t, ht, hrun⟩ := run_cons.mp hrun
    have hrest := ih (hstep s a t hs ht) hrun
    have hhead := hlt s a t hs ht
    rw [length_cons]
    omega

/-- If every step lowers a measure and only states with a property are stuck, a run can go on until
it reaches the property. -/
theorem exists_run {P Q : σ → Prop} (hstep : ∀ s a s', P s → step s a = some s' → P s')
    (hlt : ∀ s a s', P s → step s a = some s' → μ s' < μ s)
    (hprogress : ∀ s, P s → ¬ Q s → ∃ a s', step s a = some s') (hs : P s) :
    ∃ actions s', run step s actions = some s' ∧ Q s' := by
  -- on the measure of the state the run has come to
  induction hμ : μ s using Nat.strongRecOn generalizing s with
  | _ n ih =>
    by_cases hQ : Q s
    · exact ⟨[], s, rfl, hQ⟩
    · obtain ⟨a, t, ht⟩ := hprogress s hs hQ
      obtain ⟨actions, s', hrun, hQ'⟩ := ih (μ t) (hμ ▸ hlt s a t hs ht) (hstep s a t hs ht) rfl
      exact ⟨a :: actions, s', run_cons.mpr ⟨t, ht, hrun⟩, hQ'⟩

end Runs
