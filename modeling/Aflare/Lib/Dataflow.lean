import Mathlib.Order.WellFounded

/-!
# Dataflow along a well-founded relation

Nodes whose values are computed from the values of the nodes before them have one solution, whatever
the order in which they are computed.
-/

namespace Dataflow

variable {ι β : Type*} {before : ι → ι → Prop}

/-- A node reads the values of the nodes before it only. -/
def Local (before : ι → ι → Prop) (F : ι → (ι → β) → β) : Prop :=
  ∀ i v v', (∀ k, before k i → v k = v' k) → F i v = F i v'

open Classical in
/-- The values of all nodes. -/
noncomputable def solve [Inhabited β] (hwf : WellFounded before) (F : ι → (ι → β) → β) : ι → β :=
  hwf.fix fun i rec => F i fun k => if h : before k i then rec k h else default

theorem solve_eq [Inhabited β] (hwf : WellFounded before) {F : ι → (ι → β) → β}
    (hF : Local before F) (i : ι) : solve hwf F i = F i (solve hwf F) := by
  unfold solve
  rw [WellFounded.fix_eq]
  apply hF
  intro k hk
  rw [dif_pos hk]

end Dataflow
