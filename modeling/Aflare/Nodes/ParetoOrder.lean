import Aflare.Go.Strings

/-!
# The order of providers by cost and latency

The strategy `pareto` puts the providers for which no other is both cheaper and faster first, and
sorts each of the two groups by cost and then by latency. Costs and latencies are the elements of a
linear order; the standard library's stable sort is `mergeSort`.
-/

namespace Nodes

open Go List

/-- What the order of a provider depends on. -/
structure RankedProvider (κ : Type*) where
  name : Str
  costPer1K : κ
  avgLatencyMs : κ

/-- `provCost`, the entry of a provider in the list that is sorted. -/
structure ProvCost (κ : Type*) where
  idx : ℕ
  cost : κ
  latency : κ
  optimal : Bool

variable {κ : Type*} [LinearOrder κ]

/-- The comparison of `sort.SliceStable`. -/
def ProvCost.less (a b : ProvCost κ) : Bool :=
  if a.optimal ≠ b.optimal then a.optimal
  else if a.cost ≠ b.cost then a.cost < b.cost
  else a.latency < b.latency

theorem ProvCost.not_less_iff (a b : ProvCost κ) : (!b.less a) = true ↔
    toLex (!a.optimal, toLex (a.cost, a.latency)) ≤
      toLex (!b.optimal, toLex (b.cost, b.latency)) := by
  rw [Prod.Lex.toLex_le_toLex, Prod.Lex.toLex_le_toLex]
  by_cases hopt : a.optimal = b.optimal
  · rcases lt_trichotomy a.cost b.cost with hcost | hcost | hcost
    · simp [less, hopt, hcost, hcost.ne', hcost.le]
    · simp [less, hopt, hcost]
    · simp [less, hopt, hcost, hcost.ne, hcost.ne', hcost.not_gt]
  · cases ha : a.optimal <;> cases hb : b.optimal <;> simp_all [less]

variable [Zero κ]

/-- The latency that is predicted for a provider, if it is positive, or else its average. -/
def RankedProvider.latency (stats : Str → Option κ) (p : RankedProvider κ) : κ :=
  match stats p.name with
  | none => p.avgLatencyMs
  | some predicted => if 0 < predicted then predicted else p.avgLatencyMs

section

variable (providers : List (RankedProvider κ)) (stats : Str → Option κ)

/-- The entry of the provider at a position. -/
def provCost (q : RankedProvider κ × ℕ) : ProvCost κ where
  idx := q.2
  cost := q.1.costPer1K
  latency := q.1.latency stats
  optimal := !providers.zipIdx.any fun x =>
    x.2 ≠ q.2 && (x.1.costPer1K < q.1.costPer1K && x.1.latency stats < q.1.latency stats)

def sortByPareto : List (RankedProvider κ) :=
  let costs := providers.zipIdx.map (provCost providers stats)
  (costs.mergeSort fun a b => !b.less a).filterMap fun c => providers[c.idx]?

/-- Another provider is cheaper and faster. -/
def Dominated (p : RankedProvider κ) : Prop :=
  ∃ q ∈ providers, q.costPer1K < p.costPer1K ∧ q.latency stats < p.latency stats

instance : DecidablePred (Dominated providers stats) := fun _ =>
  inferInstanceAs (Decidable (∃ q ∈ providers, _))

/-- The rank of a provider: after those that are not dominated if it is, then by cost and then by
latency. -/
def rank (p : RankedProvider κ) : Bool ×ₗ κ ×ₗ κ :=
  toLex (decide (Dominated providers stats p), toLex (p.costPer1K, p.latency stats))

end

variable {providers : List (RankedProvider κ)} {stats : Str → Option κ}

theorem optimal_provCost {q : RankedProvider κ × ℕ} (hq : q ∈ providers.zipIdx) :
    (!(provCost providers stats q).optimal) = decide (Dominated providers stats q.1) := by
  rw [Bool.eq_iff_iff, decide_eq_true_eq]
  simp only [provCost, Bool.not_not, any_eq_true, Bool.and_eq_true, decide_eq_true_eq]
  constructor
  · rintro ⟨x, hx, -, hlt⟩
    exact ⟨x.1, mem_of_getElem? (mem_zipIdx_iff_getElem?.mp hx), hlt⟩
  · rintro ⟨p, hp, hlt⟩
    obtain ⟨i, hi⟩ := mem_iff_getElem?.mp hp
    refine ⟨(p, i), mem_zipIdx_iff_getElem?.mpr hi, ?_, hlt⟩
    -- the provider itself does not count, but it is not cheaper than itself either
    rintro rfl
    have hself := hi.symm.trans (mem_zipIdx_iff_getElem?.mp hq)
    exact lt_irrefl _ ((Option.some.inj hself) ▸ hlt.1)

variable (providers stats) in
/-- The providers are returned in the order of their ranks, and those of the same rank in their
original order. -/
theorem sortByPareto_sorted :
    ∃ order : List (RankedProvider κ × ℕ), order.Perm providers.zipIdx ∧
      sortByPareto providers stats = order.map Prod.fst ∧
      order.Pairwise fun a b => rank providers stats a.1 ≤ rank providers stats b.1 ∧
        (rank providers stats a.1 = rank providers stats b.1 → a.2 ≤ b.2) := by
  set le : RankedProvider κ × ℕ → RankedProvider κ × ℕ → Bool := fun a b =>
    !(provCost providers stats b).less (provCost providers stats a) with hle
  have hperm := mergeSort_perm providers.zipIdx le
  refine ⟨providers.zipIdx.mergeSort le, hperm, ?_, ?_⟩
  · rw [sortByPareto, ← map_mergeSort (r := le) (f := provCost providers stats) fun _ _ _ _ => rfl,
      filterMap_map, ← filterMap_eq_map]
    exact filterMap_congr fun q hq => mem_zipIdx_iff_getElem?.mp (hperm.mem_iff.mp hq)
  · have htrans : ∀ a b c, le a b = true → le b c = true → le a c = true := by
      simp only [hle, ProvCost.not_less_iff]
      exact fun _ _ _ => le_trans
    have htotal : ∀ a b, (le a b || le b a) = true := by
      simp only [hle, Bool.or_eq_true, ProvCost.not_less_iff]
      exact fun _ _ => le_total _ _
    have hsorted := pairwise_mergeSort (zipIdxLE_trans htrans) (zipIdxLE_total htotal)
      providers.zipIdx.zipIdx
    rw [← mergeSort_zipIdx, pairwise_map]
    refine hsorted.imp_of_mem fun {a b} ha hb h => ?_
    have hentry : ∀ x ∈ providers.zipIdx.zipIdx.mergeSort (zipIdxLE le),
        x.1 ∈ providers.zipIdx ∧ x.1.2 = x.2 := by
      intro x hx
      have hx := mem_zipIdx_iff_getElem?.mp (mem_mergeSort.mp hx)
      refine ⟨mem_of_getElem? hx, ?_⟩
      obtain ⟨p, -, hp⟩ := Option.map_eq_some_iff.mp ((getElem?_zipIdx ..).symm.trans hx)
      rw [← hp]
      exact Nat.zero_add _
    obtain ⟨hmema, hidxa⟩ := hentry a ha
    obtain ⟨hmemb, hidxb⟩ := hentry b hb
    simp only [zipIdxLE, hle] at h
    split_ifs at h with hab hba
    all_goals simp only [ProvCost.not_less_iff, optimal_provCost hmema, optimal_provCost hmemb] at *
    · rw [hidxa, hidxb]
      exact ⟨hab, fun _ => of_decide_eq_true h⟩
    · exact ⟨hab, fun heq => absurd heq.ge hba⟩

end Nodes
