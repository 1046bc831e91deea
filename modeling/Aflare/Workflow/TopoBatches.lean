import Aflare.Lib.Layers
import Aflare.Workflow.DepGraph

/-!
# Accepted dependency graphs and their layers

`buildDepGraph` accepts a step list exactly if its references have targets and its dependencies are
acyclic. `topoBatches` then cuts the steps into layers: a round collects the steps without open
dependencies, marks them and credits their dependents.
-/

namespace Workflow

open Go List Finset

/-! ## Which step lists are accepted -/

section Edges

variable (names : GoMap Str ℕ) (n : ℕ)

/-- A reference that is not blank has the target `d`. -/
def RefersTo (ref : Str) (d : ℕ) : Prop :=
  trimSpace ref ≠ [] ∧ resolveStepRef (trimSpace ref) names n = some d

/-- A reference of the step `i` is blank, or its target is another step. -/
def RefOk (i : ℕ) (ref : Str) : Prop :=
  trimSpace ref ≠ [] → ∃ d, resolveStepRef (trimSpace ref) names n = some d ∧ d ≠ i

variable {names n} {i : ℕ} {name : Str} {g : DepGraph}

theorem mem_deps_addEdge {j d e : ℕ} :
    e ∈ (g.addEdge i d).deps j ↔ e ∈ g.deps j ∨ j = i ∧ e = d := by
  by_cases hj : j = i
  · subst hj
    simp [DepGraph.addEdge, or_comm]
  · simp [DepGraph.addEdge, hj]

theorem mem_dependents_addEdge {j d e : ℕ} :
    j ∈ (g.addEdge i d).dependents e ↔ j ∈ g.dependents e ∨ j = i ∧ e = d := by
  by_cases he : e = d
  · subst he
    simp [DepGraph.addEdge, or_comm]
  · simp [DepGraph.addEdge, he]

/-- The two edge maps are inverse to each other. -/
def Mirrored (g : DepGraph) : Prop := ∀ i d, i ∈ g.dependents d ↔ d ∈ g.deps i

theorem Mirrored.addEdge (h : Mirrored g) (i d : ℕ) : Mirrored (g.addEdge i d) := by
  intro j e
  rw [mem_dependents_addEdge, mem_deps_addEdge, h]

variable (names i name g) in
/-- The references of one step are accepted if all are fine; each becomes an edge. -/
theorem addDependsOn_spec (refs : List Str) :
    match addDependsOn names i name refs g with
    | .ok g' => (∀ ref ∈ refs, RefOk names g.nodeCount i ref) ∧ g'.nodeCount = g.nodeCount ∧
        (Mirrored g → Mirrored g') ∧
        ∀ j e, e ∈ g'.deps j ↔ e ∈ g.deps j ∨ j = i ∧ ∃ ref ∈ refs, RefersTo names g.nodeCount ref e
    | .error _ => ∃ ref ∈ refs, ¬ RefOk names g.nodeCount i ref := by
  induction refs generalizing g with
  | nil => simp [addDependsOn]
  | cons ref rest ih =>
    rw [addDependsOn]
    by_cases hblank : trimSpace ref = []
    · simp only [hblank, if_true]
      have hrest := ih g
      split at hrest
      · simpa [RefOk, RefersTo, hblank] using hrest
      · simpa [RefOk, hblank] using hrest
    · simp only [hblank, if_false]
      cases hres : resolveStepRef (trimSpace ref) names g.nodeCount with
      | none => exact ⟨ref, mem_cons_self, by simp [RefOk, hblank, hres]⟩
      | some d =>
        by_cases hself : d = i
        · simp only [hself, if_true]
          exact ⟨ref, mem_cons_self, by simp [RefOk, hblank, hres, hself]⟩
        · simp only [hself, if_false]
          have hrest := ih (g.addEdge i d)
          split at hrest
          · obtain ⟨hok, hn, hmirrored, hmem⟩ := hrest
            have href : RefOk names g.nodeCount i ref := fun _ => ⟨d, hres, hself⟩
            refine ⟨forall_mem_cons.mpr ⟨href, hok⟩, hn, fun hg => hmirrored (hg.addEdge i d),
              fun j e => ?_⟩
            have htarget : RefersTo names g.nodeCount ref e ↔ e = d := by
              simp [RefersTo, hblank, hres, eq_comm]
            rw [hmem, mem_deps_addEdge, exists_mem_cons_iff, htarget]
            tauto
          · obtain ⟨ref', href', hbad⟩ := hrest
            exact ⟨ref', mem_cons_of_mem _ href', hbad⟩

variable (names g) in
/-- The edges are the resolved references; a reference that is not allowed is an error. -/
theorem addSteps_spec (l : List (WorkflowStep × ℕ)) :
    match addSteps names l g with
    | .ok g' => (∀ s ∈ l, ∀ ref ∈ s.1.dependsOn, RefOk names g.nodeCount s.2 ref) ∧
        g'.nodeCount = g.nodeCount ∧ (Mirrored g → Mirrored g') ∧
        ∀ j e, e ∈ g'.deps j ↔ e ∈ g.deps j ∨
          ∃ s ∈ l, j = s.2 ∧ ∃ ref ∈ s.1.dependsOn, RefersTo names g.nodeCount ref e
    | .error _ => ∃ s ∈ l, ∃ ref ∈ s.1.dependsOn, ¬ RefOk names g.nodeCount s.2 ref := by
  induction l generalizing g with
  | nil => simp [addSteps]
  | cons s rest ih =>
    obtain ⟨step, i⟩ := s
    rw [addSteps]
    have hstep := addDependsOn_spec names i step.name g step.dependsOn
    split at hstep
    · rename_i g₁ hadd
      obtain ⟨hok, hn, hmirrored, hmem⟩ := hstep
      simp only [hadd]
      have hrest := ih g₁
      rw [hn] at hrest
      split at hrest
      · obtain ⟨hok', hn', hmirrored', hmem'⟩ := hrest
        refine ⟨forall_mem_cons.mpr ⟨hok, hok'⟩, hn', fun hg => hmirrored' (hmirrored hg),
          fun j e => ?_⟩
        rw [hmem', hmem, exists_mem_cons_iff, or_assoc]
      · obtain ⟨s, hs, hbad⟩ := hrest
        exact ⟨s, mem_cons_of_mem _ hs, hbad⟩
    · rename_i e hadd
      simp only [hadd]
      exact ⟨(step, i), mem_cons_self, hstep⟩

end Edges

section Acceptance

variable (steps : List WorkflowStep)

/-- The step `i` waits for the step `d`. -/
def DependsOn (d i : ℕ) : Prop :=
  ∃ step, steps[i]? = some step ∧
    ∃ ref ∈ step.dependsOn, RefersTo (nameToIdx steps) steps.length ref d

/-- A way to range over maps of steps: every member comes up, and nothing else. -/
def RangesOver (n : ℕ) (order : ℕ → Finset ℕ → List ℕ) : Prop :=
  ∀ i s, (∀ d ∈ s, d < n) → ∀ d, d ∈ order i s ↔ d ∈ s

def indexOrder (n : ℕ) (_ : ℕ) (s : Finset ℕ) : List ℕ := (List.range n).filter (· ∈ s)

theorem rangesOver_indexOrder (n : ℕ) : RangesOver n (indexOrder n) := by
  intro i s hs d
  simp only [indexOrder, List.mem_filter, List.mem_range, decide_eq_true_eq, and_iff_right_iff_imp]
  exact hs d

/-- `buildDepGraph`, where the cycle search ranges over the dependencies of a step in the given
order. -/
def buildDepGraphIn (order : ℕ → Finset ℕ → List ℕ) : Except DepError DepGraph :=
  match addSteps (nameToIdx steps) steps.zipIdx (DepGraph.empty steps.length) with
  | .error e => .error e
  | .ok g =>
    match DepthFirst.search (fun i => order i (g.deps i)) g.nodeCount (List.range g.nodeCount) with
    | .error cycle => .error (.cycle cycle)
    | .ok _ => .ok g

end Acceptance

section Acceptance

variable {steps : List WorkflowStep} {order : ℕ → Finset ℕ → List ℕ} {g : DepGraph}

/-- The edges of the steps, if no reference is refused, are their dependencies. -/
theorem addSteps_ok (h : addSteps (nameToIdx steps) steps.zipIdx (.empty steps.length) = .ok g) :
    g.EdgesWithin ∧ g.nodeCount = steps.length ∧ ∀ i d, d ∈ g.deps i ↔ DependsOn steps d i := by
  have hspec := addSteps_spec (nameToIdx steps) (.empty steps.length) steps.zipIdx
  rw [h] at hspec
  obtain ⟨-, hn, hmirrored, hmem⟩ := hspec
  have hdeps : ∀ i d, d ∈ g.deps i ↔ DependsOn steps d i := by
    intro i d
    rw [hmem]
    constructor
    · rintro (hd | ⟨s, hs, rfl, hrefs⟩)
      · simp [DepGraph.empty] at hd
      · exact ⟨s.1, mem_zipIdx_iff_getElem?.mp hs, hrefs⟩
    · rintro ⟨step, hstep, hrefs⟩
      exact .inr ⟨(step, i), mem_zipIdx_iff_getElem?.mpr hstep, rfl, hrefs⟩
  refine ⟨⟨hmirrored fun i d => by simp [DepGraph.empty], fun i d hd => ?_⟩, hn, hdeps⟩
  obtain ⟨step, hstep, ref, -, -, hres⟩ := (hdeps i d).mp hd
  rw [hn]
  exact ⟨resolveStepRef_lt (nameToIdx_lt steps) hres, (List.getElem?_eq_some_iff.mp hstep).1⟩

theorem buildDepGraph_eq (steps : List WorkflowStep) :
    buildDepGraph steps = buildDepGraphIn steps (indexOrder steps.length) := by
  unfold buildDepGraph buildDepGraphIn
  cases h : addSteps (nameToIdx steps) steps.zipIdx (.empty steps.length) with
  | error e => rfl
  | ok g =>
    have hn := (addSteps_ok h).2.1
    have hsorted : (fun i => g.sorted (g.deps i)) =
        fun i => indexOrder steps.length i (g.deps i) := by
      funext i
      simp only [DepGraph.sorted, indexOrder, hn]
    simp only [DepGraph.detectCycle, hsorted]
    cases DepthFirst.search (fun i => indexOrder steps.length i (g.deps i)) g.nodeCount
      (List.range g.nodeCount) <;> rfl

theorem wellFormed_of_buildDepGraphIn (horder : RangesOver steps.length order)
    (h : buildDepGraphIn steps order = .ok g) :
    g.WellFormed ∧ g.nodeCount = steps.length ∧ ∀ i d, d ∈ g.deps i ↔ DependsOn steps d i := by
  unfold buildDepGraphIn at h
  cases hadd : addSteps (nameToIdx steps) steps.zipIdx (.empty steps.length) with
  | error e => simp [hadd] at h
  | ok g₁ =>
    simp only [hadd] at h
    obtain ⟨hedges, hn, hmem⟩ := addSteps_ok hadd
    split at h
    · cases h
    · rename_i color hsearch
      obtain rfl := Except.ok.inj h
      exact ⟨⟨hedges, hedges.acc_of_search
        (fun i => horder i _ fun d hd => hn ▸ (hedges.lt i d hd).1) hsearch⟩, hn, hmem⟩

/-- An accepted graph has one node for each step, and is well formed. -/
theorem wellFormed_of_buildDepGraph (h : buildDepGraph steps = .ok g) :
    g.WellFormed ∧ g.nodeCount = steps.length := by
  rw [buildDepGraph_eq] at h
  obtain ⟨hwf, hn, -⟩ := wellFormed_of_buildDepGraphIn (rangesOver_indexOrder _) h
  exact ⟨hwf, hn⟩

theorem isOk_addSteps_iff :
    (∃ g, addSteps (nameToIdx steps) steps.zipIdx (.empty steps.length) = .ok g) ↔
      ∀ (i : ℕ) (step : WorkflowStep), steps[i]? = some step →
        ∀ ref ∈ step.dependsOn, RefOk (nameToIdx steps) steps.length i ref := by
  have hspec := addSteps_spec (nameToIdx steps) (.empty steps.length) steps.zipIdx
  split at hspec
  · rename_i g hadd
    simp only [hadd, Except.ok.injEq, exists_eq', true_iff]
    exact fun i step hstep => hspec.1 (step, i) (mem_zipIdx_iff_getElem?.mpr hstep)
  · rename_i e hadd
    obtain ⟨s, hs, ref, href, hbad⟩ := hspec
    constructor
    · rintro ⟨g, hg⟩
      cases hadd.symm.trans hg
    · intro hall
      exact absurd (hall s.2 s.1 (mem_zipIdx_iff_getElem?.mp hs) ref href) hbad

/-- The step list is accepted if its references have targets and its dependencies are acyclic. -/
theorem isOk_buildDepGraphIn_iff (horder : RangesOver steps.length order) :
    (∃ g, buildDepGraphIn steps order = .ok g) ↔
      (∀ (i : ℕ) (step : WorkflowStep), steps[i]? = some step → ∀ ref ∈ step.dependsOn,
        trimSpace ref ≠ [] → ∃ d, RefersTo (nameToIdx steps) steps.length ref d) ∧
      (∀ i, ¬ DependsOn steps i i) ∧ ∀ i, ¬ Relation.TransGen (DependsOn steps) i i := by
  constructor
  · rintro ⟨g, hg⟩
    obtain ⟨hwf, -, hmem⟩ := wellFormed_of_buildDepGraphIn horder hg
    have hrel : DependsOn steps = fun d i => d ∈ g.deps i := by
      funext d i
      exact propext (hmem i d).symm
    have hcycle : ∀ i, ¬ Relation.TransGen (DependsOn steps) i i := by
      rw [hrel]
      exact (WellFounded.intro hwf.acc).transGen.irrefl.irrefl
    refine ⟨fun i step hstep ref href hblank => ?_, fun i hi => hcycle i (.single hi), hcycle⟩
    have hadded : ∃ g, addSteps (nameToIdx steps) steps.zipIdx (.empty steps.length) = .ok g := by
      unfold buildDepGraphIn at hg
      split at hg
      · cases hg
      · exact ⟨_, ‹_›⟩
    obtain ⟨d, hd, -⟩ := isOk_addSteps_iff.mp hadded i step hstep ref href hblank
    exact ⟨d, hblank, hd⟩
  · rintro ⟨hrefs, hself, hcycle⟩
    have hadded : ∃ g, addSteps (nameToIdx steps) steps.zipIdx (.empty steps.length) = .ok g := by
      apply isOk_addSteps_iff.mpr
      intro i step hstep ref href hblank
      obtain ⟨d, hd⟩ := hrefs i step hstep ref href hblank
      refine ⟨d, hd.2, ?_⟩
      rintro rfl
      exact hself d ⟨step, hstep, ref, href, hd⟩
    obtain ⟨g, hadd⟩ := hadded
    obtain ⟨hedges, hn, hmem⟩ := addSteps_ok hadd
    have hlist : ∀ i d, d ∈ order i (g.deps i) ↔ d ∈ g.deps i := fun i =>
      horder i _ (fun d hd => hn ▸ (hedges.lt i d hd).1)
    refine ⟨g, ?_⟩
    simp only [buildDepGraphIn, hadd]
    cases hsearch : DepthFirst.search (fun i => order i (g.deps i)) g.nodeCount
        (List.range g.nodeCount) with
    | ok color => rfl
    | error cycle =>
      -- the search is deep enough, so what it reports is a cycle of dependencies
      have hclosed : ∀ i ∈ Finset.range g.nodeCount, ∀ d ∈ order i (g.deps i),
          d ∈ Finset.range g.nodeCount := fun i _ d hd =>
        Finset.mem_range.mpr (hedges.lt i d ((hlist i d).mp hd)).1
      obtain ⟨j, hj⟩ := DepthFirst.cycle_of_search hclosed (card_range _).le
        (fun i hi => Finset.mem_range.mpr (List.mem_range.mp hi)) hsearch
      refine absurd ?_ (hcycle j)
      rw [← Relation.transGen_swap]
      exact Relation.TransGen.mono (fun a b hb => (hmem a b).mp ((hlist a b).mp hb)) _ _ hj

end Acceptance

/-! ## Layers -/

namespace DepGraph

variable (g : DepGraph)

/-- The steps without open dependencies that have no batch yet, in index order. -/
def ready (inDegree : ℕ → ℤ) : List ℕ := (List.range g.nodeCount).filter fun i => inDegree i = 0

/-- Mark the steps of a batch. -/
def mark (inDegree : ℕ → ℤ) (batch : List ℕ) : ℕ → ℤ :=
  batch.foldl (fun deg i => Function.update deg i (-1)) inDegree

/-- Take one open dependency from each listed step. -/
def credit (inDegree : ℕ → ℤ) (js : List ℕ) : ℕ → ℤ :=
  js.foldl (fun deg j => Function.update deg j (deg j - 1)) inDegree

/-- The dependents of a batch, as often as they wait for one of its steps. The order in which a map
of dependents is ranged over does not matter: they are only counted. -/
def dependentsOf (batch : List ℕ) : List ℕ := batch.flatMap fun i => g.sorted (g.dependents i)

/-- The loop of `topoBatches`. -/
def topoLoop (g : DepGraph) (inDegree : ℕ → ℤ) (batches : List (List ℕ)) (processed : ℕ) :
    Except Str (List (List ℕ)) :=
  if processed < g.nodeCount then
    let batch := g.ready inDegree
    if batch = [] then
      .error (str "topological sort stalled: unreachable steps remain (possible undetected cycle)")
    else
      topoLoop g (credit (mark inDegree batch) (g.dependentsOf batch)) (batches ++ [batch])
        (processed + batch.length)
  else .ok batches
termination_by g.nodeCount - processed
decreasing_by
  have hpos : 0 < (g.ready inDegree).length := length_pos_iff.mpr ‹_›
  omega

def topoBatches : Except Str (List (List ℕ)) := g.topoLoop (fun i => (g.deps i).card) [] 0

@[simp] theorem credit_apply (deg : ℕ → ℤ) (js : List ℕ) (j : ℕ) :
    credit deg js j = deg j - js.count j := by
  induction js generalizing deg with
  | nil => simp [credit]
  | cons a js ih =>
    rw [credit, foldl_cons, ← credit, ih]
    by_cases ha : a = j
    · subst ha
      simp only [Function.update_self, count_cons_self]
      omega
    · rw [Function.update_of_ne (Ne.symm ha), count_cons_of_ne ha]

@[simp] theorem mark_apply (deg : ℕ → ℤ) (batch : List ℕ) (j : ℕ) :
    mark deg batch j = if j ∈ batch then -1 else deg j := by
  induction batch generalizing deg with
  | nil => simp [mark]
  | cons a batch ih =>
    rw [mark, foldl_cons, ← mark, ih]
    by_cases ha : j = a
    · simp [ha]
    · simp [ha]

/-- A step is credited once for each dependency in the batch. -/
theorem WellFormed.count_dependentsOf {g : DepGraph} (hwf : g.WellFormed) {batch : List ℕ}
    (hnodup : batch.Nodup) (j : ℕ) :
    (g.dependentsOf batch).count j = ((g.deps j).filter (· ∈ batch)).card := by
  induction batch with
  | nil => simp [dependentsOf]
  | cons i batch ih =>
    obtain ⟨hi, hnodup⟩ := nodup_cons.mp hnodup
    have hcons : g.dependentsOf (i :: batch) =
        g.sorted (g.dependents i) ++ g.dependentsOf batch := by
      simp [dependentsOf]
    rw [hcons, count_append, ih hnodup]
    by_cases hdep : i ∈ g.deps j
    · have hj : j ∈ g.sorted (g.dependents i) :=
        mem_sorted.mpr ⟨(hwf.lt j i hdep).2, (hwf.mem_dependents j i).mpr hdep⟩
      have hfilter : (g.deps j).filter (· ∈ i :: batch) =
          insert i ((g.deps j).filter (· ∈ batch)) := by
        ext d
        simp only [Finset.mem_filter, List.mem_cons, Finset.mem_insert]
        constructor
        · tauto
        · rintro (rfl | ⟨hd, hb⟩)
          · exact ⟨hdep, .inl rfl⟩
          · exact ⟨hd, .inr hb⟩
      rw [count_eq_one_of_mem (g.nodup_sorted _) hj, hfilter,
        card_insert_of_notMem (by simp [hi]), Nat.add_comm]
    · have hj : j ∉ g.sorted (g.dependents i) := fun hj =>
        hdep ((hwf.mem_dependents j i).mp (mem_sorted.mp hj).2)
      rw [count_eq_zero_of_not_mem hj, Nat.zero_add]
      congr 1
      ext d
      simp only [Finset.mem_filter, List.mem_cons]
      constructor
      · exact fun ⟨hd, hb⟩ => ⟨hd, .inr hb⟩
      · rintro ⟨hd, rfl | hb⟩
        · exact absurd hd hdep
        · exact ⟨hd, hb⟩

open Layers

open Classical in
/-- After `k` rounds the steps below layer `k` have a batch, their own layer, and the others have
their open dependencies left. -/
structure Layered (g : DepGraph) (inDegree : ℕ → ℤ) (batches : List (List ℕ)) : Prop where
  flatten : batches.flatten.Perm ((List.range g.nodeCount).filter (Below g.deps batches.length))
  layer : ∀ (l : ℕ) batch, batches[l]? = some batch →
    ∀ i ∈ batch, Below g.deps (l + 1) i ∧ ¬ Below g.deps l i
  closed : ∀ i < g.nodeCount, Below g.deps batches.length i → inDegree i < 0
  opened : ∀ i < g.nodeCount, ¬ Below g.deps batches.length i →
    inDegree i = ((g.deps i).filter (¬ Below g.deps batches.length ·)).card


section Rounds

variable {g : DepGraph} {deg : ℕ → ℤ} {batches : List (List ℕ)}

theorem layered_init (g : DepGraph) : g.Layered (fun i => (g.deps i).card) [] where
  flatten := by simp [not_below_zero]
  layer := by simp
  closed i _ h := absurd h (not_below_zero i)
  opened i _ _ := by simp [not_below_zero]

theorem Layered.mem_ready (h : g.Layered deg batches) {i : ℕ} :
    i ∈ g.ready deg ↔ i < g.nodeCount ∧ Below g.deps (batches.length + 1) i ∧
      ¬ Below g.deps batches.length i := by
  classical
  rw [ready, List.mem_filter, List.mem_range, decide_eq_true_eq, and_congr_right_iff]
  intro hi
  by_cases hbelow : Below g.deps batches.length i
  · have hneg := h.closed i hi hbelow
    simp only [hbelow, not_true_eq_false, and_false, iff_false]
    omega
  · rw [h.opened i hi hbelow, below_succ_iff]
    simp [filter_eq_empty_iff, hbelow]

theorem nodup_ready (g : DepGraph) (deg : ℕ → ℤ) : (g.ready deg).Nodup := nodup_range.filter _

open Classical in
/-- The steps of the earlier layers and the ready ones are those below the next layer. -/
theorem Layered.append_ready_perm (h : g.Layered deg batches) :
    (batches.flatten ++ g.ready deg).Perm
      ((List.range g.nodeCount).filter (Below g.deps (batches.length + 1))) := by
  refine (h.flatten.append_right _).trans ?_
  rw [perm_ext_iff_of_nodup _ (nodup_range.filter _)]
  · intro i
    simp only [List.mem_append, List.mem_filter, List.mem_range, decide_eq_true_eq, h.mem_ready]
    constructor
    · rintro (⟨hi, hbelow⟩ | ⟨hi, hbelow, -⟩)
      · exact ⟨hi, hbelow.succ⟩
      · exact ⟨hi, hbelow⟩
    · rintro ⟨hi, hbelow⟩
      by_cases hb : Below g.deps batches.length i
      · exact .inl ⟨hi, hb⟩
      · exact .inr ⟨hi, hbelow, hb⟩
  · refine List.nodup_append.mpr ⟨List.nodup_range.filter _, g.nodup_ready deg, ?_⟩
    rintro i hi j hj rfl
    exact (h.mem_ready.mp hj).2.2 (by simpa using (mem_filter.mp hi).2)

variable (hwf : g.WellFormed) (h : g.Layered deg batches)

include hwf h

open Classical in
theorem Layered.card_open (i : ℕ) :
    ((g.deps i).filter (· ∈ g.ready deg)).card +
        ((g.deps i).filter (¬ Below g.deps (batches.length + 1) ·)).card =
      ((g.deps i).filter (¬ Below g.deps batches.length ·)).card := by
  rw [← Finset.card_union_of_disjoint]
  · congr 1
    ext d
    simp only [Finset.mem_union, Finset.mem_filter, h.mem_ready]
    constructor
    · rintro (⟨hd, -, -, hnot⟩ | ⟨hd, hnot⟩)
      · exact ⟨hd, hnot⟩
      · exact ⟨hd, fun hb => hnot hb.succ⟩
    · rintro ⟨hd, hnot⟩
      by_cases hb : Below g.deps (batches.length + 1) d
      · exact .inl ⟨hd, (hwf.lt i d hd).1, hb, hnot⟩
      · exact .inr ⟨hd, hb⟩
  · rw [Finset.disjoint_filter]
    exact fun d _ hd hnot => hnot (h.mem_ready.mp hd).2.1

/-- One round adds one layer. -/
theorem Layered.round :
    g.Layered (credit (mark deg (g.ready deg)) (g.dependentsOf (g.ready deg)))
      (batches ++ [g.ready deg]) := by
  classical
  have hlen : (batches ++ [g.ready deg]).length = batches.length + 1 := by simp
  refine ⟨?_, ?_, ?_, ?_⟩
  · rw [hlen, flatten_append, flatten_singleton]
    exact h.append_ready_perm
  · intro l batch hl i hi
    rcases Nat.lt_or_ge l batches.length with hlt | hge
    · rw [getElem?_append_left hlt] at hl
      exact h.layer l batch hl i hi
    · rw [getElem?_append_right hge] at hl
      obtain ⟨hzero, rfl⟩ : l - batches.length = 0 ∧ g.ready deg = batch := by
        simpa [getElem?_singleton] using hl
      obtain rfl : l = batches.length := by omega
      exact (h.mem_ready.mp hi).2
  · intro i hi hbelow
    rw [hlen] at hbelow
    rw [credit_apply, mark_apply]
    -- a step of an earlier layer is marked already, the others are marked now
    split
    · omega
    · rename_i hready
      have hold : Below g.deps batches.length i := by
        by_contra hnot
        exact hready (h.mem_ready.mpr ⟨hi, hbelow, hnot⟩)
      have := h.closed i hi hold
      omega
  · intro i hi hnot
    rw [hlen] at hnot ⊢
    have hready : i ∉ g.ready deg := fun hmem => hnot (h.mem_ready.mp hmem).2.1
    rw [credit_apply, mark_apply, if_neg hready, h.opened i hi fun hb => hnot hb.succ,
      hwf.count_dependentsOf (g.nodup_ready deg)]
    have := h.card_open hwf i
    omega

theorem Layered.ready_ne_nil (hleft : batches.flatten.length < g.nodeCount) : g.ready deg ≠ [] := by
  classical
  obtain ⟨i, hi, hnot⟩ : ∃ i < g.nodeCount, ¬ Below g.deps batches.length i := by
    by_contra hall
    push Not at hall
    rw [h.flatten.length_eq, List.filter_eq_self.mpr (by simpa using hall),
      List.length_range] at hleft
    exact Nat.lt_irrefl _ hleft
  have hclosed : ∀ b ∈ Finset.range g.nodeCount, g.deps b ⊆ Finset.range g.nodeCount :=
    fun b _ d hd => Finset.mem_range.mpr (hwf.lt b d hd).1
  obtain ⟨b, hb, hbnot, hbelow⟩ := exists_next hclosed (Finset.mem_range.mpr hi) (hwf.acc i) hnot
  exact List.ne_nil_of_mem (h.mem_ready.mpr ⟨Finset.mem_range.mp hb, hbelow, hbnot⟩)

theorem topoLoop_spec {processed : ℕ} (hproc : processed = batches.flatten.length) :
    ∃ result deg', g.topoLoop deg batches processed = .ok result ∧ g.Layered deg' result ∧
      g.nodeCount ≤ result.flatten.length := by
  fun_induction topoLoop g deg batches processed with
  | case1 deg batches processed hlt batch hnil =>
    exact absurd hnil (h.ready_ne_nil hwf (hproc ▸ hlt))
  | case2 deg batches processed hlt batch hne ih =>
    exact ih (h.round hwf) (by simp [hproc, batch])
  | case3 deg batches processed hdone =>
    exact ⟨batches, deg, rfl, h, by omega⟩

omit hwf h

/-- `topoBatches` does not stall; each step is in one batch, the one of its longest chain. -/
theorem topoBatches_spec (hwf : g.WellFormed) :
    ∃ batches, g.topoBatches = .ok batches ∧ batches.flatten.Perm (List.range g.nodeCount) ∧
      ∀ (k : ℕ) batch, batches[k]? = some batch →
        ∀ i ∈ batch, IsGreatest {l | ChainTo g.deps i l} k := by
  classical
  obtain ⟨batches, deg, hrun, h, hall⟩ := topoLoop_spec hwf (layered_init g) rfl
  refine ⟨batches, hrun, ?_, fun k batch hk i hi => ?_⟩
  · have hsub : ((List.range g.nodeCount).filter (Below g.deps batches.length)).Sublist
        (List.range g.nodeCount) := filter_sublist
    have heq := hsub.eq_of_length_le (by rw [length_range, ← h.flatten.length_eq]; exact hall)
    exact heq ▸ h.flatten
  · obtain ⟨hbelow, hnot⟩ := h.layer k batch hk i hi
    exact isGreatest_of_below hbelow hnot

end Rounds

end DepGraph

/-- A step list is accepted if and only if its references have targets, no step waits for itself and
the dependencies are acyclic, in whatever order the cycle search ranges over them. The edges are
then the dependencies, every step is in exactly one batch, and the batch of a step is the length of
the longest chain of dependencies that ends at it. -/
theorem depGraph_exact (steps : List WorkflowStep) (order : ℕ → Finset ℕ → List ℕ)
    (horder : RangesOver steps.length order) :
    ((∃ g, buildDepGraphIn steps order = .ok g) ↔
      (∀ (i : ℕ) (step : WorkflowStep), steps[i]? = some step → ∀ ref ∈ step.dependsOn,
        trimSpace ref ≠ [] → ∃ d, RefersTo (nameToIdx steps) steps.length ref d) ∧
      (∀ i, ¬ DependsOn steps i i) ∧ ∀ i, ¬ Relation.TransGen (DependsOn steps) i i) ∧
    ∀ g, buildDepGraphIn steps order = .ok g →
      (∀ i d, d ∈ g.deps i ↔ DependsOn steps d i) ∧
      ∃ batches, g.topoBatches = .ok batches ∧ batches.flatten.Perm (List.range steps.length) ∧
        ∀ (k : ℕ) batch, batches[k]? = some batch →
          ∀ i ∈ batch, IsGreatest {l | Layers.ChainTo g.deps i l} k := by
  refine ⟨isOk_buildDepGraphIn_iff horder, fun g hg => ?_⟩
  obtain ⟨hwf, hn, hmem⟩ := wellFormed_of_buildDepGraphIn horder hg
  exact ⟨hmem, hn ▸ DepGraph.topoBatches_spec hwf⟩

/-- Two steps, the second of which refers to the first by name and by number. -/
def pairSteps : List WorkflowStep :=
  [{ name := str "a", node := [] },
   { name := str "b", node := [], dependsOn := [str " a ", str "1", str ""] }]

theorem depGraph_exact_pairSteps :
    RangesOver 2 (indexOrder 2) ∧ ∃ g, buildDepGraphIn pairSteps (indexOrder 2) = .ok g ∧
      ∃ batches, g.topoBatches = .ok batches ∧ batches.flatten.Perm (List.range 2) := by
  have hok : (buildDepGraphIn pairSteps (indexOrder 2)).isOk = true := by decide
  cases hg : buildDepGraphIn pairSteps (indexOrder 2) with
  | error e => simp [hg, Except.isOk, Except.toBool] at hok
  | ok g =>
    have hspec := depGraph_exact pairSteps (indexOrder 2) (rangesOver_indexOrder 2)
    obtain ⟨-, batches, hrun, hperm, -⟩ := hspec.2 g hg
    exact ⟨rangesOver_indexOrder 2, g, rfl, batches, hrun, hperm⟩

end Workflow
