import Mathlib

/-!
# Simulations and invariants of runs

Rules for programs that consume their input item by item, and for step relations: a relation
between two states that every step keeps is kept by whole runs.
-/

namespace Simulation

open List

variable {α β ι : Type} {items : List ι} {f : α → ι → Option α} {R : α → β → Prop} {a a' : α}

/-- A fold that may fail, as long as it does not, is followed by a second fold whose steps follow
its steps. -/
theorem foldlM_simulates {g : β → ι → Option β}
    (hstep : ∀ {a a' b i}, R a b → f a i = some a' → ∃ b', g b i = some b' ∧ R a' b') {b : β}
    (hR : R a b) (h : items.foldlM f a = some a') : ∃ b', items.foldlM g b = some b' ∧ R a' b' := by
  induction items generalizing a b with
  | nil =>
    cases h
    exact ⟨b, rfl, hR⟩
  | cons i items ih =>
    rw [foldlM_cons] at h
    obtain ⟨a₁, ha₁, hrest⟩ := Option.bind_eq_some_iff.mp h
    obtain ⟨b₁, hb₁, hR₁⟩ := hstep hR ha₁
    obtain ⟨b', hb', hR'⟩ := ih hR₁ hrest
    refine ⟨b', ?_, hR'⟩
    rw [foldlM_cons, hb₁]
    exact hb'

/-- A fold that may fail, as long as it does not, is followed by a fold that cannot. -/
theorem foldlM_simulates_foldl {g : β → ι → β}
    (hstep : ∀ {a a' b i}, R a b → f a i = some a' → R a' (g b i))
    {b : β} (hR : R a b) (h : items.foldlM f a = some a') : R a' (items.foldl g b) := by
  induction items generalizing a b with
  | nil =>
    cases h
    exact hR
  | cons i items ih =>
    rw [foldlM_cons] at h
    obtain ⟨a₁, ha₁, hrest⟩ := Option.bind_eq_some_iff.mp h
    exact ih (hstep hR ha₁) hrest

end Simulation
