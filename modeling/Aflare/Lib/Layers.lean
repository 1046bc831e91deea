import Mathlib.Data.Finset.Card
import Mathlib.Order.Bounds.Basic

/-!
# Layers of a dependency relation

The layer of a node is the length of the longest chain of dependencies that ends at it. A node is
below a layer when all of its chains are shorter; then each layer is found from the one before by
looking at direct dependencies only.
-/

namespace Layers

variable {α : Type*} {deps : α → Finset α} {k : ℕ} {a : α}

/-- A chain of `l` dependencies ends at a node. -/
inductive ChainTo (deps : α → Finset α) : α → ℕ → Prop
  | nil (a : α) : ChainTo deps a 0
  | cons {a d : α} {l : ℕ} (hd : d ∈ deps a) (h : ChainTo deps d l) : ChainTo deps a (l + 1)

/-- All chains that end at a node are shorter than `k`. -/
def Below (deps : α → Finset α) (k : ℕ) (a : α) : Prop := ∀ l, ChainTo deps a l → l < k

theorem not_below_zero (a : α) : ¬ Below deps 0 a := fun h => Nat.not_lt_zero 0 (h 0 (.nil a))

theorem Below.succ (h : Below deps k a) : Below deps (k + 1) a := fun l hl =>
  Nat.lt_succ_of_lt (h l hl)

theorem below_succ_iff : Below deps (k + 1) a ↔ ∀ d ∈ deps a, Below deps k d := by
  constructor
  · intro h d hd l hl
    exact Nat.lt_of_succ_lt_succ (h (l + 1) (.cons hd hl))
  · intro h l hl
    cases hl with
    | nil => exact Nat.succ_pos k
    | cons hd hl => exact Nat.succ_lt_succ (h _ hd _ hl)

/-- A node that is below the next layer but not below this one has a longest chain of this
length. -/
theorem isGreatest_of_below (h : Below deps (k + 1) a) (hnot : ¬ Below deps k a) :
    IsGreatest {l | ChainTo deps a l} k := by
  unfold Below at hnot
  push Not at hnot
  obtain ⟨l, hl, hle⟩ := hnot
  obtain rfl : l = k := Nat.le_antisymm (Nat.le_of_lt_succ (h l hl)) hle
  exact ⟨hl, fun l' hl' => Nat.le_of_lt_succ (h l' hl')⟩

/-- As long as a node is not below a layer, it or one of its dependencies belongs to it. -/
theorem exists_next {nodes : Finset α} (hclosed : ∀ b ∈ nodes, deps b ⊆ nodes) (ha : a ∈ nodes)
    (hacc : Acc (fun d b => d ∈ deps b) a) (hnot : ¬ Below deps k a) :
    ∃ b ∈ nodes, ¬ Below deps k b ∧ Below deps (k + 1) b := by
  induction hacc with
  | intro a _ ih =>
    by_cases hready : Below deps (k + 1) a
    · exact ⟨a, ha, hnot, hready⟩
    · rw [below_succ_iff] at hready
      push Not at hready
      obtain ⟨d, hd, hdnot⟩ := hready
      exact ih d hd (hclosed a ha hd) hdnot

end Layers
