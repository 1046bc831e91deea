import Aflare.Workflow.Dag

/-!
# Scheduling of dependency graphs

Which steps the scheduler dispatches, and when. A step enters the ready queue when the last of its
dependencies is resumed, written back or processed; from then on it is either queued or dispatched.
-/

namespace Workflow

open List Function Finset

/-! ## The ready queue -/

/-- The dispatched and the queued steps are distinct steps that were not resumed. -/
structure Queued (n : ℕ) (R : Finset ℕ) (seq queue : List ℕ) : Prop where
  nodup : (seq ++ queue).Nodup
  within : ∀ i ∈ seq ++ queue, i < n ∧ i ∉ R

/-- The counts of the open dependencies, where `D` is the set of steps that are done, and `R` the
set of resumed ones. A step that was not resumed is dispatched or queued exactly if no dependency
is open. -/
structure Counted (g : DepGraph) (R D : Finset ℕ) (pending : ℕ → ℤ) (seq queue : List ℕ) :
    Prop where
  counts : ∀ d < g.nodeCount, d ∉ R → pending d = (g.deps d \ D).card
  resumed : ∀ d ∈ R, pending d ≤ 0
  ready : ∀ d < g.nodeCount, d ∉ R → (pending d = 0 ↔ d ∈ seq ++ queue)

variable {ds : List ℕ}

/-- Each dependent is counted down once, and queued when it reaches zero. -/
theorem foldl_credit (hds : ds.Nodup) (pending : ℕ → ℤ) (queue : List ℕ) :
    ds.foldl credit (pending, queue) =
      (fun d => if d ∈ ds then pending d - 1 else pending d,
        queue ++ ds.filter fun d => pending d = 1) := by
  induction ds generalizing pending queue with
  | nil => simp
  | cons d ds ih =>
    obtain ⟨hd, hds⟩ := nodup_cons.mp hds
    rw [foldl_cons, credit, ih hds]
    have hfilter : ds.filter (fun e => Function.update pending d (pending d - 1) e = 1) =
        ds.filter fun e => pending e = 1 := by
      apply List.filter_congr
      intro e he
      have hne : e ≠ d := fun h => hd (h ▸ he)
      simp [hne]
    have hzero : pending d - 1 = 0 ↔ pending d = 1 := by omega
    apply Prod.ext
    · funext e
      by_cases he : e = d
      · simp [he, hd]
      · simp [he]
    · simp only [hfilter, hzero]
      by_cases hone : pending d = 1
      · simp [hone]
      · simp [hone]

variable {g : DepGraph} {R D : Finset ℕ} {pending : ℕ → ℤ} {seq queue : List ℕ} {idx : ℕ}

/-- The step `idx` is done: its dependents that were not resumed are credited. -/
theorem Counted.credit (h : Counted g R D pending seq queue) (hq : Queued g.nodeCount R seq queue)
    (hidx : idx ∉ D) (hds : ds.Nodup) (hsub : ∀ d ∈ ds, d < g.nodeCount ∧ idx ∈ g.deps d)
    (hall : ∀ d < g.nodeCount, d ∉ R → idx ∈ g.deps d → d ∈ ds) :
    Counted g R (insert idx D) (ds.foldl credit (pending, queue)).1 seq
        (ds.foldl credit (pending, queue)).2 ∧
      Queued g.nodeCount R seq (ds.foldl credit (pending, queue)).2 := by
  rw [foldl_credit hds]
  have hopen : ∀ d ∈ ds, idx ∈ g.deps d \ D := fun d hd => mem_sdiff.mpr ⟨(hsub d hd).2, hidx⟩
  -- a credited step that was not resumed loses exactly the dependency `idx`
  have hcard : ∀ d < g.nodeCount, d ∉ R → (if d ∈ ds then pending d - 1 else pending d) =
      ((g.deps d \ insert idx D).card : ℤ) := by
    intro d hd hR
    rw [h.counts d hd hR, sdiff_insert]
    by_cases hmem : d ∈ ds
    · rw [if_pos hmem, card_erase_of_mem (hopen d hmem)]
      have hpos := card_pos.mpr ⟨idx, hopen d hmem⟩
      omega
    · have hnot : idx ∉ g.deps d \ D := fun hin =>
        hmem (hall d hd hR (mem_sdiff.mp hin).1)
      rw [if_neg hmem, erase_eq_of_notMem hnot]
  -- a resumed step has no open dependency, so that crediting it never brings it into the queue
  have hfresh : ∀ d ∈ ds.filter (fun d => pending d = 1), d < g.nodeCount ∧ d ∉ R ∧
      d ∉ seq ++ queue := by
    intro d hd
    obtain ⟨hmem, hone⟩ := mem_filter.mp hd
    have hone : pending d = 1 := by simpa using hone
    have hR : d ∉ R := fun hR => by have := h.resumed d hR; omega
    refine ⟨(hsub d hmem).1, hR, fun hin => ?_⟩
    have := (h.ready d (hsub d hmem).1 hR).mpr hin
    omega
  refine ⟨⟨hcard, ?_, ?_⟩, ⟨?_, ?_⟩⟩
  · intro d hd
    have := h.resumed d hd
    dsimp only
    split <;> omega
  · intro d hd hR
    rw [← append_assoc, mem_append, ← h.ready d hd hR, mem_filter]
    have hnn : 0 ≤ pending d := by rw [h.counts d hd hR]; omega
    dsimp only
    by_cases hmem : d ∈ ds
    · -- the dependency that is credited was open before
      have hpos : pending d ≠ 0 := by
        rw [h.counts d hd hR]
        have := card_pos.mpr ⟨idx, hopen d hmem⟩
        omega
      rw [if_pos hmem]
      simp only [hmem, hpos, false_or, true_and, decide_eq_true_eq]
      omega
    · simp [hmem]
  · rw [← append_assoc]
    refine List.Nodup.append hq.nodup (hds.filter _) ?_
    exact fun d hd hnew => (hfresh d hnew).2.2 hd
  · intro d hd
    rw [← append_assoc, mem_append] at hd
    rcases hd with hd | hd
    · exact hq.within d hd
    · exact ⟨(hfresh d hd).1, (hfresh d hd).2.1⟩

variable {i : ℕ}

theorem Counted.deps_subset (h : Counted g R D pending seq queue)
    (hq : Queued g.nodeCount R seq queue) (hi : i ∈ seq ++ queue) : g.deps i ⊆ D := by
  obtain ⟨hn, hR⟩ := hq.within i hi
  have hzero := (h.ready i hn hR).mpr hi
  rw [h.counts i hn hR] at hzero
  exact sdiff_eq_empty_iff_subset.mp (card_eq_zero.mp (by omega))

variable {queue' : List ℕ}

theorem Counted.perm (h : Counted g R D pending seq queue)
    (hperm : queue'.Perm queue) : Counted g R D pending seq queue' :=
  { h with ready d hd hR := (h.ready d hd hR).trans (hperm.append_left seq).mem_iff.symm }

theorem Queued.perm {n : ℕ} (h : Queued n R seq queue)
    (hperm : queue'.Perm queue) : Queued n R seq queue' where
  nodup := ((hperm.append_left seq).nodup_iff).mpr h.nodup
  within i hi := h.within i ((hperm.append_left seq).mem_iff.mp hi)

theorem Queued.notMem_seq {n : ℕ} (h : Queued n R seq queue) (hi : i ∈ queue) : i ∉ seq :=
  fun hseq => disjoint_of_nodup_append h.nodup hseq hi

/-! ## The workers -/

/-- The dispatched steps that are not processed each have no worker, a running worker, or a result
that has arrived. -/
structure Workers (pos : ℕ) (seq : List ℕ) (prepared : ℕ → Option PreparedStep)
    (results : ℕ → Option ExecResult) (inFlight : List ℕ) (finalized : Finset ℕ) : Prop where
  pos_le : pos ≤ seq.length
  prepared_isSome : ∀ i ∈ seq, (prepared i).isSome
  flight_nodup : inFlight.Nodup
  flight_mem : ∀ i ∈ inFlight, i ∈ seq.drop pos
  flight_worker : ∀ i ∈ inFlight, ∀ ps ∈ prepared i, ps.hasWorker = true
  flight_finalized : ∀ i ∈ inFlight, i ∉ finalized
  results_mem : ∀ i, (results i).isSome → i ∈ seq.drop pos
  results_flight : ∀ i, (results i).isSome → i ∉ inFlight
  available : ∀ i ∈ seq.drop pos, ∀ ps ∈ prepared i, ps.hasWorker = true →
    (results i).isSome ∨ i ∈ inFlight
  finalized_mem : ∀ i ∈ finalized, i ∈ seq

variable {ps : PreparedStep} {res : ExecResult}

namespace Workers

variable {pos : ℕ} {prepared : ℕ → Option PreparedStep} {results : ℕ → Option ExecResult}
  {inFlight : List ℕ} {finalized : Finset ℕ}

private theorem drop_snoc (h : pos ≤ seq.length) (idx : ℕ) :
    (seq ++ [idx]).drop pos = seq.drop pos ++ [idx] := drop_append_of_le_length h

variable (h : Workers pos seq prepared results inFlight finalized)

include h

/-- A step is dispatched, with or without a worker. -/
theorem dispatch (hidx : idx ∉ seq) {flight : List ℕ}
    (hflight : flight = if ps.hasWorker then inFlight ++ [idx] else inFlight) :
    Workers pos (seq ++ [idx]) (Function.update prepared idx (some ps)) results flight
      finalized := by
  have hne : ∀ i ∈ seq, i ≠ idx := fun i hi heq => hidx (heq ▸ hi)
  have hdrop : ∀ i ∈ seq.drop pos, i ≠ idx := fun i hi => hne i (mem_of_mem_drop hi)
  have hmem : ∀ i, i ∈ flight ↔ i ∈ inFlight ∨ i = idx ∧ ps.hasWorker = true := by
    intro i
    subst hflight
    split <;> simp [*]
  constructor
  · exact h.pos_le.trans (by simp)
  · intro i hi
    by_cases heq : i = idx
    · simp [heq]
    · simpa [heq] using h.prepared_isSome i (by simpa [heq] using hi)
  · subst hflight
    split
    · exact h.flight_nodup.append (nodup_singleton idx) fun i hi hidx =>
        hdrop i (h.flight_mem i hi) (List.mem_singleton.mp hidx)
    · exact h.flight_nodup
  · intro i hi
    rw [drop_snoc h.pos_le]
    rcases (hmem i).mp hi with hi | ⟨rfl, -⟩
    · exact mem_append_left _ (h.flight_mem i hi)
    · exact mem_append_right _ mem_cons_self
  · intro i hi qs hqs
    rcases (hmem i).mp hi with hi | ⟨rfl, hworker⟩
    · rw [update_of_ne (hdrop i (h.flight_mem i hi))] at hqs
      exact h.flight_worker i hi qs hqs
    · rw [update_self] at hqs
      exact Option.some.inj hqs ▸ hworker
  · intro i hi hfin
    rcases (hmem i).mp hi with hi | ⟨rfl, -⟩
    · exact h.flight_finalized i hi hfin
    · exact hidx (h.finalized_mem i hfin)
  · intro i hi
    rw [drop_snoc h.pos_le]
    exact mem_append_left _ (h.results_mem i hi)
  · intro i hi hflight
    rcases (hmem i).mp hflight with hflight | ⟨heq, -⟩
    · exact h.results_flight i hi hflight
    · exact hdrop i (h.results_mem i hi) heq
  · intro i hi qs hqs hworker
    rw [drop_snoc h.pos_le, List.mem_append, List.mem_singleton] at hi
    rw [hmem]
    by_cases heq : i = idx
    · rw [heq, update_self] at hqs
      exact .inr (.inr ⟨heq, Option.some.inj hqs ▸ hworker⟩)
    · rw [update_of_ne heq] at hqs
      exact (h.available i (hi.resolve_right heq) qs hqs hworker).imp_right .inl
  · exact fun i hi => mem_append_left _ (h.finalized_mem i hi)

theorem finalize (hidx : idx ∈ seq) (hflight : idx ∉ inFlight) :
    Workers pos seq prepared results inFlight (insert idx finalized) := by
  refine { h with flight_finalized := ?_, finalized_mem := (forall_mem_insert _ _ _).mpr ?_ }
  · intro i hi hfin
    rcases mem_insert.mp hfin with rfl | hfin
    · exact hflight hi
    · exact h.flight_finalized i hi hfin
  · exact ⟨hidx, h.finalized_mem⟩

/-- The result of a running worker arrives. -/
theorem receive (hidx : res.idx ∈ inFlight) :
    Workers pos seq prepared (Function.update results res.idx (some res))
      (inFlight.erase res.idx) finalized :=
  { h with
    flight_nodup := h.flight_nodup.erase _
    flight_mem i hi := h.flight_mem i (mem_of_mem_erase hi)
    flight_worker i hi := h.flight_worker i (mem_of_mem_erase hi)
    flight_finalized i hi := h.flight_finalized i (mem_of_mem_erase hi)
    results_mem i hi := by
      by_cases heq : i = res.idx
      · exact heq ▸ h.flight_mem _ hidx
      · exact h.results_mem i (by simpa [heq] using hi)
    results_flight i hi hflight := by
      by_cases heq : i = res.idx
      · exact h.flight_nodup.not_mem_erase (heq ▸ hflight)
      · exact h.results_flight i (by simpa [heq] using hi) (mem_of_mem_erase hflight)
    available i hi ps hps hworker := by
      by_cases heq : i = res.idx
      · exact .inl (by simp [heq])
      · have := h.available i hi ps hps hworker
        exact this.imp (by simp [heq]) (mem_erase_of_ne heq).mpr }

/-- The next result is processed. -/
theorem process (hseq : seq.Nodup) (hidx : seq[pos]? = some idx) (hflight : idx ∉ inFlight) :
    Workers (pos + 1) seq prepared (Function.update results idx none) inFlight finalized := by
  have hlt : pos < seq.length := (List.getElem?_eq_some_iff.mp hidx).1
  have hdrop : seq.drop pos = idx :: seq.drop (pos + 1) := by
    rw [List.drop_eq_getElem_cons hlt, (List.getElem?_eq_some_iff.mp hidx).2]
  have hmem : ∀ i ∈ seq.drop pos, i ≠ idx → i ∈ seq.drop (pos + 1) := by
    intro i hi hne
    rw [hdrop] at hi
    exact (mem_cons.mp hi).resolve_left hne
  refine { h with
    pos_le := hlt, flight_mem := ?_, results_mem := ?_, results_flight := ?_, available := ?_ }
  · exact fun i hi => hmem i (h.flight_mem i hi) fun heq => hflight (heq ▸ hi)
  · exact (forall_update_iff results fun i r => r.isSome → i ∈ seq.drop (pos + 1)).mpr
      ⟨by simp, fun i hne hi => hmem i (h.results_mem i hi) hne⟩
  · exact (forall_update_iff results fun i r => r.isSome → i ∉ inFlight).mpr
      ⟨by simp, fun i _ => h.results_flight i⟩
  · intro i hi ps hps hworker
    have hne : i ≠ idx := by
      rintro rfl
      have hnodup : (seq.drop pos).Nodup := hseq.sublist (drop_sublist pos seq)
      rw [hdrop] at hnodup
      exact (nodup_cons.mp hnodup).1 hi
    rw [update_of_ne hne]
    exact h.available i (hdrop ▸ mem_cons_of_mem _ hi) ps hps hworker

omit h

end Workers

/-! ## The invariant -/

variable {P : Finset ℕ}

theorem Counted.propagate (hg : g.EdgesWithin) (h : Counted g R (R ∪ P) pending seq queue)
    (hq : Queued g.nodeCount R seq queue) (hR : idx ∉ R) (hP : idx ∉ P) :
    let ready := (g.sorted (g.dependents idx)).foldl Workflow.credit (pending, queue)
    Counted g R (R ∪ insert idx P) ready.1 seq ready.2 ∧ Queued g.nodeCount R seq ready.2 := by
  rw [union_insert]
  apply h.credit hq (by simp [hR, hP]) (g.nodup_sorted _)
  · intro d hd
    obtain ⟨hn, hd⟩ := DepGraph.mem_sorted.mp hd
    exact ⟨hn, (hg.mem_dependents d idx).mp hd⟩
  · intro d hn _ hd
    exact DepGraph.mem_sorted.mpr ⟨hn, (hg.mem_dependents d idx).mpr hd⟩

variable {a : Action}

namespace Sched

variable {c : DAGConfig} {s s' : Sched}

/-- The steps whose dependents are credited, as long as nothing aborts. -/
def propagated (s : Sched) : Finset ℕ := s.finalized ∪ s.processed.toFinset

/-- The invariant of the scheduler apart from its place in the loop, where the dependents of the
steps of `P` are credited. -/
structure Core (c : DAGConfig) (P : Finset ℕ) (s : Sched) : Prop where
  queued : Queued c.graph.nodeCount s.resumed s.dispatchSeq s.readyQueue
  counted : s.aborted = false →
    Counted c.graph s.resumed (s.resumed ∪ P) s.pending s.dispatchSeq s.readyQueue
  workers : Workers s.processPos s.dispatchSeq s.prepared s.results s.inFlight s.finalized
  aborted_queue : s.aborted = true → s.readyQueue = []

structure Inv (c : DAGConfig) (s : Sched) : Prop extends Core c s.propagated s where
  unprocessed : s.phase = .await ∨ s.phase = .process → s.processPos < s.dispatchSeq.length
  available : s.phase = .process → s.nextAvailable = true
  done : s.phase = .done →
    s.processPos = s.dispatchSeq.length ∧ (s.readyQueue = [] ∨ s.shutdown = true)

theorem Core.inv (h : Core c P s) (hP : s.propagated = P)
    (hphase : s.phase = .top ∨ s.phase = .dispatch) : Inv c s := by
  subst hP
  refine ⟨h, ?_, ?_, ?_⟩
  all_goals
    intro hp
    rcases hphase with hphase | hphase <;> simp [hphase] at hp

theorem Core.nodup_dispatchSeq (h : Core c P s) : s.dispatchSeq.Nodup :=
  (nodup_append.mp h.queued.nodup).1

theorem Core.not_resumed (h : Core c P s) (hi : i ∈ s.dispatchSeq) : i ∉ s.resumed :=
  (h.queued.within i (mem_append_left _ hi)).2

theorem Core.propagateDeps (hg : c.graph.EdgesWithin) (h : Core c P s)
    (hab : s.aborted = false) (hidx : idx ∈ s.dispatchSeq) (hfresh : idx ∉ P) :
    Core c (insert idx P) (s.propagateDeps c idx) := by
  obtain ⟨hcounted, hqueued⟩ := (h.counted hab).propagate hg h.queued (h.not_resumed hidx) hfresh
  refine ⟨hqueued, fun _ => hcounted, h.workers, ?_⟩
  intro hab'
  exact absurd (show s.aborted = true from hab') (by simp [hab])

theorem Core.finalize (hg : c.graph.EdgesWithin) (h : Core c P s) (hab : s.aborted = false)
    (hidx : idx ∈ s.dispatchSeq) (hflight : idx ∉ s.inFlight) (hfresh : idx ∉ P) (output : Go.Str) :
    Core c (insert idx P) (s.finalize c idx output) := by
  have hwritten : Core c P { s.writeBack c idx output with
      finalized := insert idx s.finalized
      completedOK := insert idx s.completedOK } :=
    { h with workers := h.workers.finalize hidx hflight }
  exact hwritten.propagateDeps hg hab hidx hfresh

theorem propagated_finalize (s : Sched) (idx : ℕ) (output : Go.Str) :
    (s.finalize c idx output).propagated = insert idx s.propagated :=
  insert_union _ _ _

theorem Inv.withPhase (h : s.Inv c) {phase : Phase}
    (hunprocessed : phase = .await ∨ phase = .process → s.processPos < s.dispatchSeq.length)
    (havailable : phase = .process → s.nextAvailable = true)
    (hdone : phase = .done →
      s.processPos = s.dispatchSeq.length ∧ (s.readyQueue = [] ∨ s.shutdown = true)) :
    Inv c { s with phase := phase } :=
  ⟨{ h with }, hunprocessed, havailable, hdone⟩

theorem Inv.afterDispatch (h : s.Inv c)
    (hstop : s.readyQueue = [] ∨ s.shutdown = true) : Inv c s.afterDispatch := by
  have hpos := h.workers.pos_le
  unfold Sched.afterDispatch
  split
  · exact h.withPhase (by simp) (by simp) fun _ => ⟨by omega, hstop⟩
  · exact h.withPhase (fun _ => by omega) (by simp) (by simp)

variable {rest : List ℕ}

/-- How a round of `dispatchReady` ends: the step fails, is skipped or gets a worker. -/
theorem dispatchOne_cases (s : Sched) (idx : ℕ) (rest : List ℕ) :
    let ps := prepareDAGStep c idx s.resolver s.engine
    (ps.evalErr.isSome = true ∧ s.dispatchOne c idx rest = s.enter idx rest ps) ∨
    (ps.evalErr = none ∧ ps.skipped = true ∧
      s.dispatchOne c idx rest = (s.enter idx rest ps).finalize c idx []) ∨
    (ps.hasWorker = true ∧
      s.dispatchOne c idx rest = { s.enter idx rest ps with inFlight := s.inFlight ++ [idx] }) := by
  intro ps
  unfold Sched.dispatchOne
  dsimp only
  split
  · exact .inl ⟨‹_›, rfl⟩
  · rename_i herr
    have herr : ps.evalErr = none := by simpa using herr
    split
    · exact .inr (.inl ⟨herr, ‹_›, rfl⟩)
    · rename_i hskip
      exact .inr (.inr ⟨by simpa [PreparedStep.hasWorker, herr] using hskip, rfl⟩)

/-- A result that arrives is written back at once, unless it is an error or the run has
aborted. -/
theorem receive_cases (s : Sched) (res : ExecResult) :
    (res.err = none ∧ s.aborted = false ∧
      s.receive c res = (s.keep res).finalize c res.idx res.output) ∨
    ((res.err = none → s.aborted = true) ∧ s.receive c res = s.keep res) := by
  have hkeep : (s.keep res).aborted = s.aborted := rfl
  unfold Sched.receive
  cases herr : res.err with
  | some err => simp
  | none =>
    cases hab : s.aborted with
    | true | false => simp [hkeep, hab]

private theorem Core.enter (h : Core c P s) (hab : s.aborted = false)
    (hqueue : s.readyQueue = idx :: rest) {inFlight : List ℕ}
    (hworkers : Workers s.processPos (s.dispatchSeq ++ [idx])
      (Function.update s.prepared idx (some ps)) s.results inFlight s.finalized) :
    Core c P { s.enter idx rest ps with inFlight := inFlight } := by
  have happend : s.dispatchSeq ++ s.readyQueue = s.dispatchSeq ++ [idx] ++ rest := by
    rw [hqueue, append_assoc, singleton_append]
  refine ⟨⟨happend ▸ h.queued.nodup, fun i hi => h.queued.within i (happend ▸ hi)⟩, ?_, hworkers,
    ?_⟩
  · intro _
    have hcounted := h.counted hab
    exact ⟨hcounted.counts, hcounted.resumed, fun d hd hR => happend ▸ hcounted.ready d hd hR⟩
  · intro hab'
    exact absurd (show s.aborted = true from hab') (by simp [hab])

/-- A dispatched step gets a worker, is skipped or cannot be prepared. -/
theorem Inv.dispatchOne (hg : c.graph.EdgesWithin) (h : s.Inv c) (hphase : s.phase = .dispatch)
    (hab : s.aborted = false) (hqueue : s.readyQueue = idx :: rest) :
    Inv c (s.dispatchOne c idx rest) := by
  have hidx : idx ∉ s.dispatchSeq := h.queued.notMem_seq (hqueue ▸ mem_cons_self)
  have hprocessed : s.finalized ∪ ((s.dispatchSeq ++ [idx]).take s.processPos).toFinset =
      s.propagated := by
    rw [take_append_of_le_length h.workers.pos_le]
    rfl
  have hcases := dispatchOne_cases (c := c) s idx rest
  set ps := prepareDAGStep c idx s.resolver s.engine
  have hcore (flight : List ℕ)
      (hflight : flight = if ps.hasWorker then s.inFlight ++ [idx] else s.inFlight) :=
    h.toCore.enter hab hqueue (h.workers.dispatch hidx hflight)
  rcases hcases with ⟨herr, heq⟩ | ⟨-, hskip, heq⟩ | ⟨hbusy, heq⟩ <;> rw [heq]
  · have hidle : ps.hasWorker = false := by
      obtain ⟨err, herr⟩ := Option.isSome_iff_exists.mp herr
      simp [PreparedStep.hasWorker, herr]
    exact (hcore s.inFlight (by rw [hidle]; rfl)).inv hprocessed (.inr hphase)
  · have hidle : ps.hasWorker = false := by simp [PreparedStep.hasWorker, hskip]
    -- only dispatched steps are credited
    have hfresh : idx ∉ s.propagated := by
      intro hmem
      rcases mem_union.mp hmem with hmem | hmem
      · exact hidx (h.workers.finalized_mem idx hmem)
      · exact hidx (mem_of_mem_take (mem_toFinset.mp hmem))
    have hflight : idx ∉ s.inFlight := fun hi =>
      hidx (mem_of_mem_drop (h.workers.flight_mem idx hi))
    have hdone := (hcore s.inFlight (by rw [hidle]; rfl)).finalize hg hab
      (List.mem_append_right _ (List.mem_singleton.mpr rfl)) hflight hfresh []
    refine hdone.inv ?_ (.inr hphase)
    rw [propagated_finalize]
    exact congrArg (insert idx) hprocessed
  · exact (hcore _ (if_pos hbusy).symm).inv hprocessed (.inr hphase)

/-- A step that is not processed is credited exactly if its result was written back on arrival. -/
theorem Core.mem_propagated (h : Core c P s) (hi : i ∈ s.dispatchSeq.drop s.processPos) :
    i ∈ s.propagated ↔ i ∈ s.finalized := by
  have hnodup := h.nodup_dispatchSeq
  rw [← take_append_drop s.processPos s.dispatchSeq] at hnodup
  rw [propagated, mem_union, mem_toFinset]
  exact or_iff_left fun hmem => disjoint_of_nodup_append hnodup hmem hi

theorem Inv.receive (hg : c.graph.EdgesWithin) (h : s.Inv c)
    (hidx : res.idx ∈ s.inFlight) : Inv c (s.receive c res) := by
  have hdrop := h.workers.flight_mem _ hidx
  have hcore : Core c s.propagated (s.keep res) := { h with workers := h.workers.receive hidx }
  rcases receive_cases (c := c) s res with ⟨-, hab, heq⟩ | ⟨-, heq⟩ <;> rw [heq]
  · have hfresh : res.idx ∉ s.propagated := fun hmem =>
      h.workers.flight_finalized _ hidx ((h.mem_propagated hdrop).mp hmem)
    have hdone := hcore.finalize hg hab (mem_of_mem_drop hdrop)
      h.workers.flight_nodup.not_mem_erase hfresh res.output
    exact hdone.inv (propagated_finalize _ _ _) (.inl rfl)
  · exact hcore.inv rfl (.inl rfl)

theorem Core.propagateOnce (hg : c.graph.EdgesWithin) (h : Core c P s)
    (hab : s.aborted = false) (hidx : idx ∈ s.dispatchSeq)
    (hiff : idx ∈ s.finalized ↔ idx ∈ P) : Core c (insert idx P) (s.propagateOnce c idx) := by
  unfold Sched.propagateOnce
  split
  · rename_i hfin
    rwa [insert_eq_of_mem (hiff.mp hfin)]
  · rename_i hfin
    exact h.propagateDeps hg hab hidx fun hP => hfin (hiff.mpr hP)

theorem propagateOnce_eq (s : Sched) (idx : ℕ) :
    ∃ pending queue,
      s.propagateOnce c idx = { s with pending := pending, readyQueue := queue } := by
  unfold Sched.propagateOnce
  split
  · exact ⟨s.pending, s.readyQueue, rfl⟩
  · exact ⟨_, _, rfl⟩

/-- Completing a step changes only the completed steps and the checkpoints. -/
theorem complete_eq (s : Sched) (idx : ℕ) (o : Outcome) (disk : Option Go.Time) :
    ∃ completedOK checkpoints, s.complete c idx o disk =
        { s with completedOK := completedOK, checkpoints := checkpoints } ∧
      completedOK ⊆ insert idx s.completedOK ∧ s.checkpoints <+: checkpoints := by
  unfold Sched.complete
  split
  · unfold Sched.saveCheckpointState
    split
    · exact ⟨_, _, rfl, Finset.Subset.refl _, prefix_rfl⟩
    · split
      · exact ⟨_, _, rfl, Finset.Subset.refl _, prefix_rfl⟩
      · exact ⟨_, _, rfl, Finset.Subset.refl _, prefix_append _ _⟩
  · exact ⟨_, _, rfl, subset_insert _ _, prefix_rfl⟩

theorem settle_cases (s : Sched) (idx : ℕ) (o : Outcome) (disk : Option Go.Time) :
    (s.aborted = false ∧ o.abortErr.isSome = true ∧ s.settle c idx o disk = s.abort o.abortErr) ∨
    (s.aborted = true ∧ s.settle c idx o disk = s) ∨
    (s.aborted = false ∧ o.abortErr = none ∧
      s.settle c idx o disk = (s.propagateOnce c idx).complete c idx o disk) := by
  unfold Sched.settle
  cases hab : s.aborted with
  | true => simp
  | false =>
    cases herr : o.abortErr with
    | none | some err => simp

/-- The end of `processNextResult`, by the state before the result is recorded. -/
theorem processStep_cases (s : Sched) (disk : Option Go.Time) (idx : ℕ) (ps : PreparedStep) :
    let o := s.outcome c idx ps
    (s.aborted = false ∧ o.abortErr.isSome = true ∧
      s.processStep c disk idx ps = (s.recordResult c idx ps o).abort o.abortErr) ∨
    (s.aborted = true ∧ s.processStep c disk idx ps = s.recordResult c idx ps o) ∨
    (s.aborted = false ∧ o.abortErr = none ∧ s.processStep c disk idx ps =
      ((s.recordResult c idx ps o).propagateOnce c idx).complete c idx o disk) :=
  settle_cases (s.recordResult c idx ps _) idx _ disk

/-- What it changes: the queue, the completed steps, the checkpoints and the verdict. -/
theorem settle_eq (s : Sched) (idx : ℕ) (o : Outcome) (disk : Option Go.Time) :
    ∃ pending queue completed checkpoints, s.settle c idx o disk =
        { s with
          pending := pending, readyQueue := queue, completedOK := completed,
          checkpoints := checkpoints, firstAbortErr := s.firstAbortErr.or o.abortErr } ∧
      completed ⊆ insert idx s.completedOK ∧ s.checkpoints <+: checkpoints := by
  rcases settle_cases (c := c) s idx o disk with ⟨hab, -, heq⟩ | ⟨hab, heq⟩ | ⟨hab, hgo, heq⟩
  · have hnone : s.firstAbortErr = none := by simpa [aborted] using hab
    rw [heq, hnone, Option.none_or]
    exact ⟨s.pending, [], _, _, rfl, subset_insert _ _, prefix_rfl⟩
  · obtain ⟨err, herr⟩ := Option.isSome_iff_exists.mp hab
    rw [heq, herr, Option.some_or, ← herr]
    exact ⟨s.pending, s.readyQueue, _, _, rfl, subset_insert _ _, prefix_rfl⟩
  · obtain ⟨pending, queue, hcredit⟩ := propagateOnce_eq (c := c) s idx
    obtain ⟨completed, checkpoints, hcomplete, hsub, hbefore⟩ := complete_eq (c := c)
      { s with pending := pending, readyQueue := queue } idx o disk
    rw [heq, hcredit, hcomplete, hgo, Option.or_none]
    exact ⟨pending, queue, completed, checkpoints, rfl, hsub, hbefore⟩

theorem processStep_eq (s : Sched) (disk : Option Go.Time) (idx : ℕ) (ps : PreparedStep) :
    ∃ pending queue completed checkpoints, s.processStep c disk idx ps =
        { s.recordResult c idx ps (s.outcome c idx ps) with
          pending := pending, readyQueue := queue, completedOK := completed,
          checkpoints := checkpoints
          firstAbortErr := s.firstAbortErr.or (s.outcome c idx ps).abortErr } ∧
      completed ⊆ insert idx s.completedOK ∧ s.checkpoints <+: checkpoints :=
  settle_eq (s.recordResult c idx ps _) idx _ disk

theorem Core.settle (hg : c.graph.EdgesWithin) (h : Core c P s)
    (hidx : idx ∈ s.dispatchSeq) (hiff : idx ∈ s.finalized ↔ idx ∈ P) (o : Outcome)
    (disk : Option Go.Time) : Core c (insert idx P) (s.settle c idx o disk) := by
  rcases settle_cases (c := c) s idx o disk with ⟨-, herr, heq⟩ | ⟨hab, heq⟩ | ⟨hab, -, heq⟩
  · rw [heq]
    refine ⟨⟨?_, ?_⟩, ?_, h.workers, fun _ => rfl⟩
    · simpa [Sched.abort] using h.nodup_dispatchSeq
    · intro i hi
      exact h.queued.within i (mem_append_left _ (by simpa [Sched.abort] using hi))
    · intro hab
      exact absurd (show o.abortErr.isSome = false from hab) (by simp [herr])
  · rw [heq]
    refine ⟨h.queued, ?_, h.workers, h.aborted_queue⟩
    intro hab'
    exact absurd hab' (by simp [hab])
  · have hcore := h.propagateOnce hg hab hidx hiff
    obtain ⟨completed, checkpoints, hcomplete, -⟩ :=
      complete_eq (c := c) (s.propagateOnce c idx) idx o disk
    rw [heq, hcomplete]
    exact { hcore with }

/-- Two states agree on how far the run has come. -/
structure SameProgress (s s' : Sched) : Prop where
  phase : s'.phase = s.phase
  dispatchSeq : s'.dispatchSeq = s.dispatchSeq
  processPos : s'.processPos = s.processPos
  finalized : s'.finalized = s.finalized
  inFlight : s'.inFlight = s.inFlight
  shutdown : s'.shutdown = s.shutdown
  resumed : s'.resumed = s.resumed

theorem sameProgress_processStep (s : Sched) (disk : Option Go.Time) (idx : ℕ) (ps : PreparedStep) :
    SameProgress (s.recordResult c idx ps (s.outcome c idx ps)) (s.processStep c disk idx ps) := by
  obtain ⟨pending, queue, completed, checkpoints, heq, -⟩ := processStep_eq (c := c) s disk idx ps
  rw [heq]
  exact ⟨rfl, rfl, rfl, rfl, rfl, rfl, rfl⟩

theorem processed_succ {pos : ℕ} {seq : List ℕ} (hidx : seq[pos]? = some idx) :
    (seq.take (pos + 1)).toFinset = insert idx (seq.take pos).toFinset := by
  rw [take_add_one, hidx]
  ext i
  simp

/-- If the step that is processed has a worker, its result has arrived. -/
theorem Turn.arrived (hturn : s.Turn idx ps) (h : s.Inv c) (hworker : ps.hasWorker = true) :
    (s.results idx).isSome = true := by
  simpa only [nextAvailable, hturn.next, hturn.prepared, hworker, Bool.not_true, Bool.false_or]
    using h.available hturn.phase

theorem Turn.notMem_inFlight (hturn : s.Turn idx ps) (h : s.Inv c) : idx ∉ s.inFlight := by
  intro hflight
  have hworker := h.workers.flight_worker idx hflight ps hturn.prepared
  exact h.workers.results_flight idx (hturn.arrived h hworker) hflight

/-- The result in turn completes its step or aborts the run. -/
theorem Inv.processStep (hg : c.graph.EdgesWithin) (h : s.Inv c) (hturn : s.Turn idx ps)
    (disk : Option Go.Time) : Inv c (s.processStep c disk idx ps) := by
  have hlt := h.unprocessed (.inr hturn.phase)
  have hmem : idx ∈ s.dispatchSeq := mem_of_getElem? hturn.next
  have hdrop : idx ∈ s.dispatchSeq.drop s.processPos := by
    rw [List.drop_eq_getElem_cons hlt, (List.getElem?_eq_some_iff.mp hturn.next).2]
    exact List.mem_cons_self
  have hworkers := h.workers.process h.nodup_dispatchSeq hturn.next (hturn.notMem_inFlight h)
  have hrecorded : Core c s.propagated (s.recordResult c idx ps (s.outcome c idx ps)) :=
    ⟨h.queued, h.counted, hworkers, h.aborted_queue⟩
  have hsettled : Core c (insert idx s.propagated) (s.processStep c disk idx ps) :=
    hrecorded.settle hg hmem (h.mem_propagated hdrop).symm _ disk
  have hsame := sameProgress_processStep (c := c) s disk idx ps
  refine hsettled.inv ?_ (.inl hsame.phase)
  rw [propagated, processed, hsame.finalized, hsame.dispatchSeq, hsame.processPos]
  change s.finalized ∪ (s.dispatchSeq.take (s.processPos + 1)).toFinset = _
  rw [processed_succ hturn.next, union_insert]
  rfl

/-- Every move keeps the invariant. -/
theorem Inv.move (hg : c.graph.EdgesWithin) (h : s.Inv c) (hmove : Move c s a s') : Inv c s' := by
  have hpos := h.workers.pos_le
  cases hmove with
  | signal =>
    refine { h with done := ?_ }
    exact fun hp => ⟨(h.done hp).1, .inr rfl⟩
  | round => exact h.withPhase (by simp) (by simp) (by simp)
  | finish _ hend hqueue =>
    exact h.withPhase (by simp) (by simp) fun _ => ⟨by omega, .inl hqueue⟩
  | dispatch hphase hqueue hab => exact h.dispatchOne hg hphase hab hqueue
  | dispatched _ hstop =>
    -- an aborted run has no queue
    apply h.afterDispatch
    rcases hstop with hqueue | hab | hflag
    · exact .inl hqueue
    · exact .inl (h.aborted_queue hab)
    · exact .inr hflag
  | receive _ hidx => exact h.receive hg hidx
  | arrived hphase havail =>
    exact h.withPhase (fun _ => h.unprocessed (.inl hphase)) (fun _ => havail) (by simp)
  | process hturn => exact h.processStep hg hturn _

/-! ## Progress -/

/-- The number of moves that the place in the loop allows before something is done. -/
def phaseRank : Phase → ℕ
  | .top => 3
  | .dispatch => 2
  | .await => 1
  | .process => 0
  | .done => 0

/-- A measure of what is left to do: every step is to be dispatched, received and processed. -/
def work (c : DAGConfig) (s : Sched) : ℕ :=
  4 * (3 * (c.graph.nodeCount - s.dispatchSeq.length) + s.inFlight.length +
    (s.dispatchSeq.length - s.processPos)) + phaseRank s.phase + if s.shutdown then 0 else 1

theorem Core.length_le (h : Core c P s) :
    (s.dispatchSeq ++ s.readyQueue).length ≤ c.graph.nodeCount := by
  have hsub : s.dispatchSeq ++ s.readyQueue ⊆ List.range c.graph.nodeCount := fun i hi =>
    List.mem_range.mpr (h.queued.within i hi).1
  simpa using (h.queued.nodup.subperm hsub).length_le

theorem dispatchOne_progress (s : Sched) (idx : ℕ) (rest : List ℕ) :
    (s.dispatchOne c idx rest).phase = s.phase ∧
      (s.dispatchOne c idx rest).dispatchSeq = s.dispatchSeq ++ [idx] ∧
      (s.dispatchOne c idx rest).processPos = s.processPos ∧
      (s.dispatchOne c idx rest).shutdown = s.shutdown ∧
      (s.dispatchOne c idx rest).inFlight.length ≤ s.inFlight.length + 1 ∧
      (s.dispatchOne c idx rest).resumed = s.resumed := by
  rcases dispatchOne_cases (c := c) s idx rest with ⟨-, heq⟩ | ⟨-, -, heq⟩ | ⟨-, heq⟩ <;> rw [heq]
  · exact ⟨rfl, rfl, rfl, rfl, Nat.le_succ _, rfl⟩
  · exact ⟨rfl, rfl, rfl, rfl, Nat.le_succ _, rfl⟩
  · exact ⟨rfl, rfl, rfl, rfl, by simp, rfl⟩

theorem receive_progress (s : Sched) (res : ExecResult) :
    (s.receive c res).phase = .top ∧ (s.receive c res).dispatchSeq = s.dispatchSeq ∧
      (s.receive c res).processPos = s.processPos ∧
      (s.receive c res).shutdown = s.shutdown ∧
      (s.receive c res).inFlight = s.inFlight.erase res.idx ∧
      (s.receive c res).resumed = s.resumed := by
  rcases receive_cases (c := c) s res with ⟨-, -, heq⟩ | ⟨-, heq⟩ <;> rw [heq]
  · exact ⟨rfl, rfl, rfl, rfl, rfl, rfl⟩
  · exact ⟨rfl, rfl, rfl, rfl, rfl, rfl⟩

theorem processStep_progress (s : Sched) (disk : Option Go.Time) (idx : ℕ) (ps : PreparedStep) :
    (s.processStep c disk idx ps).phase = .top ∧
      (s.processStep c disk idx ps).dispatchSeq = s.dispatchSeq ∧
      (s.processStep c disk idx ps).processPos = s.processPos + 1 ∧
      (s.processStep c disk idx ps).shutdown = s.shutdown ∧
      (s.processStep c disk idx ps).inFlight = s.inFlight := by
  have h := sameProgress_processStep (c := c) s disk idx ps
  exact ⟨h.phase, h.dispatchSeq, h.processPos, h.shutdown, h.inFlight⟩

/-- Every move leaves less to do. -/
theorem Inv.work_lt (h : s.Inv c) (hmove : Move c s a s') : s'.work c < s.work c := by
  have hpos := h.workers.pos_le
  cases hmove with
  | signal hflag => simp [work, hflag]
  | round hphase | finish hphase => simp [work, hphase, phaseRank]
  | @dispatch idx rest disk hphase hqueue =>
    obtain ⟨hphase', hseq, hpos', hflag, hflight, -⟩ := dispatchOne_progress (c := c) s idx rest
    have hlen := h.length_le
    rw [hqueue, length_append, length_cons] at hlen
    simp only [work, hphase', hseq, hpos', hflag, length_append, length_singleton]
    omega
  | dispatched hphase =>
    have hrank : phaseRank s.afterDispatch.phase < phaseRank s.phase := by
      simp only [Sched.afterDispatch, hphase]
      split <;> simp [phaseRank]
    exact Nat.add_lt_add_right (Nat.add_lt_add_left hrank _) _
  | @receive res hwait hidx =>
    obtain ⟨hphase', hseq, hpos', hflag, hflight, -⟩ := receive_progress (c := c) s res
    have hlen := length_erase_of_mem hidx
    have hmem := length_pos_of_mem hidx
    simp only [work, hphase', hseq, hpos', hflag, hflight, hwait.1, phaseRank, hlen]
    omega
  | arrived hphase => simp [work, hphase, phaseRank]
  | @process idx ps disk hturn =>
    obtain ⟨hphase', hseq, hpos', hflag, hflight⟩ := processStep_progress (c := c) s disk idx ps
    have hlt := h.unprocessed (.inr hturn.phase)
    simp only [work, hphase', hseq, hpos', hflag, hflight, hturn.phase, phaseRank]
    omega

theorem Inv.want_inFlight (h : s.Inv c) (hwait : s.Waiting) :
    ∃ want, s.dispatchSeq[s.processPos]? = some want ∧ want ∈ s.inFlight := by
  obtain ⟨hphase, havail⟩ := hwait
  have hlt := h.unprocessed (.inl hphase)
  have hidx : s.dispatchSeq[s.processPos]? = some (s.dispatchSeq.get ⟨s.processPos, hlt⟩) :=
    getElem?_eq_getElem hlt
  set want := s.dispatchSeq.get ⟨s.processPos, hlt⟩
  have hdrop : want ∈ s.dispatchSeq.drop s.processPos := by
    rw [drop_eq_getElem_cons hlt]
    exact mem_cons_self
  obtain ⟨ps, hps⟩ := Option.isSome_iff_exists.mp
    (h.workers.prepared_isSome want (mem_of_mem_drop hdrop))
  simp only [nextAvailable, hidx, hps, Bool.or_eq_false_iff, Bool.not_eq_false'] at havail
  refine ⟨want, hidx, ?_⟩
  exact (h.workers.available want hdrop ps hps havail.1).resolve_left (by simp [havail.2])

/-- A scheduler that has not ended can go on, if its workers do. -/
theorem Inv.progress (h : s.Inv c) (hphase : s.phase ≠ .done) :
    ∃ a s', a ≠ .signalShutdown ∧ s.step c a = some s' := by
  cases hp : s.phase with
  | top =>
    refine ⟨.tick none, ?_⟩
    simp only [ne_eq, reduceCtorEq, not_false_eq_true, true_and, Sched.step, tick, hp]
    split
    · exact ⟨_, rfl⟩
    · exact ⟨_, rfl⟩
  | dispatch =>
    refine ⟨.tick none, ?_⟩
    simp only [ne_eq, reduceCtorEq, not_false_eq_true, true_and, Sched.step, tick, hp]
    split
    · exact ⟨_, rfl⟩
    · split
      · exact ⟨_, rfl⟩
      · exact ⟨_, rfl⟩
  | await =>
    by_cases havail : s.nextAvailable = true
    · refine ⟨.tick none, { s with phase := .process }, by simp, ?_⟩
      simp only [Sched.step, tick, hp, havail, if_true]
    · have hwait : s.Waiting := ⟨hp, by simpa using havail⟩
      obtain ⟨want, -, hflight⟩ := h.want_inFlight hwait
      exact ⟨.receive ⟨want, [], none⟩, _, by simp, if_pos ⟨hwait, hflight⟩⟩
  | process =>
    have hlt := h.unprocessed (.inr hp)
    have hidx := getElem?_eq_getElem hlt
    obtain ⟨ps, hps⟩ := Option.isSome_iff_exists.mp
      (h.workers.prepared_isSome _ (getElem_mem hlt))
    exact ⟨.tick none, _, by simp, by simp only [Sched.step, tick, hp, hidx, hps]; rfl⟩
  | done => exact absurd hp hphase

/-- A run that ends without abort and with no step waiting has processed every step that was not
resumed. -/
theorem Inv.completed_of_queue_nil (hg : c.graph.WellFormed) (h : s.Inv c)
    (hphase : s.phase = .done) (hab : s.aborted = false) (hqueue : s.readyQueue = []) :
    s.processed = s.dispatchSeq ∧ ∀ i < c.graph.nodeCount, i ∉ s.resumed → i ∈ s.dispatchSeq := by
  obtain ⟨hpos, -⟩ := h.done hphase
  have hprocessed : s.processed = s.dispatchSeq := by rw [processed, hpos, take_length]
  refine ⟨hprocessed, ?_⟩
  intro i
  -- a step whose dependencies are all dispatched or resumed has none that is open
  induction hg.acc i with
  | intro i _ ih =>
    intro hi hR
    have hcounted := h.counted hab
    have hsub : c.graph.deps i \ (s.resumed ∪ s.propagated) = ∅ := by
      rw [sdiff_eq_empty_iff_subset]
      intro d hd
      by_cases hdR : d ∈ s.resumed
      · exact mem_union_left _ hdR
      · have hseq := ih d hd (hg.lt i d hd).1 hdR
        apply Finset.mem_union_right
        apply Finset.mem_union_right
        rwa [hprocessed, mem_toFinset]
    have hready := (hcounted.ready i hi hR).mp (by rw [hcounted.counts i hi hR, hsub]; rfl)
    simpa [hqueue] using hready

theorem Inv.completed (hg : c.graph.WellFormed) (h : s.Inv c) (hphase : s.phase = .done)
    (hab : s.aborted = false) (hflag : s.shutdown = false) :
    s.processed = s.dispatchSeq ∧ ∀ i < c.graph.nodeCount, i ∉ s.resumed → i ∈ s.dispatchSeq :=
  h.completed_of_queue_nil hg hphase hab ((h.done hphase).2.resolve_right (by simp [hflag]))

end Sched

/-! ## The initial state -/

/-- Crediting the dependents of a list of resumed steps. -/
theorem counted_foldl_resumed (hg : g.EdgesWithin) {L : List ℕ} (hL : L.Nodup) (hD : ∀ i ∈ L, i ∉ D)
    (h : Counted g R D pending seq queue) (hq : Queued g.nodeCount R seq queue) :
    let ready := (L.flatMap fun idx => (g.sorted (g.dependents idx)).filter (· ∉ R)).foldl credit
      (pending, queue)
    Counted g R (D ∪ L.toFinset) ready.1 seq ready.2 ∧ Queued g.nodeCount R seq ready.2 := by
  induction L generalizing D pending queue with
  | nil => simpa using ⟨h, hq⟩
  | cons idx L ih =>
    obtain ⟨hidx, hL⟩ := nodup_cons.mp hL
    have hds : ((g.sorted (g.dependents idx)).filter (· ∉ R)).Nodup := (g.nodup_sorted _).filter _
    obtain ⟨hcounted, hqueued⟩ := h.credit hq (hD idx mem_cons_self) hds
      (by
        intro d hd
        obtain ⟨hn, hd⟩ := DepGraph.mem_sorted.mp (mem_filter.mp hd).1
        exact ⟨hn, (hg.mem_dependents d idx).mp hd⟩)
      (by
        intro d hn hR hd
        refine mem_filter.mpr ⟨?_, by simpa using hR⟩
        exact DepGraph.mem_sorted.mpr ⟨hn, (hg.mem_dependents d idx).mpr hd⟩)
    have hnotMem : ∀ i ∈ L, i ∉ insert idx D := by
      intro i hi hmem
      rcases mem_insert.mp hmem with rfl | hmem
      · exact hidx hi
      · exact hD i (mem_cons_of_mem _ hi) hmem
    have hrest := ih hL hnotMem hcounted hqueued
    rw [flatMap_cons, foldl_append, toFinset_cons]
    rwa [insert_union, ← union_insert] at hrest

namespace Sched

variable {c : DAGConfig} {s : Sched}

theorem workers_new {prepared : ℕ → Option PreparedStep} :
    Workers 0 [] prepared (fun _ => none) [] ∅ where
  pos_le := le_rfl
  prepared_isSome := by simp
  flight_nodup := nodup_nil
  flight_mem := by simp
  flight_worker := by simp
  flight_finalized := by simp
  results_mem := by simp
  results_flight := by simp
  available := by simp
  finalized_mem := by simp

theorem core_newDAGScheduler (c : DAGConfig) : Core c ∅ (newDAGScheduler c) := by
  refine ⟨⟨nodup_range.filter _, ?_⟩, fun _ => ⟨?_, by simp [newDAGScheduler], ?_⟩,
    workers_new, by simp [newDAGScheduler, aborted]⟩
  · intro i hi
    have := mem_filter.mp hi
    exact ⟨by simpa using this.1, by simp [newDAGScheduler]⟩
  · intro d _ _
    simp [newDAGScheduler]
  · intro d hd _
    simp [newDAGScheduler, hd]

/-- Resuming steps of a fresh scheduler. -/
theorem core_applyResumed (hg : c.graph.EdgesWithin) (h : Core c ∅ s)
    (hseq : s.dispatchSeq = []) (hresumed : s.resumed = ∅) (hab : s.aborted = false)
    {R : Finset ℕ} (hR : ∀ i ∈ R, i < c.graph.nodeCount) : Core c ∅ (s.applyResumed c R) := by
  unfold applyResumed
  by_cases hempty : R = ∅
  · rw [if_pos hempty, hempty]
    refine ⟨?_, ?_, h.workers, h.aborted_queue⟩
    · exact hresumed ▸ h.queued
    · exact hresumed ▸ h.counted
  rw [if_neg hempty]
  dsimp only
  have hcounted := h.counted hab
  rw [hresumed, hseq, union_empty] at hcounted
  have hqueued := h.queued
  rw [hresumed, hseq] at hqueued
  -- the counts before the dependents of the resumed steps are credited
  have hkept : Queued c.graph.nodeCount R [] (s.readyQueue.filter (· ∉ R)) := by
    refine ⟨hqueued.nodup.filter _, ?_⟩
    intro i hi
    obtain ⟨hi, hiR⟩ := mem_filter.mp hi
    exact ⟨(hqueued.within i hi).1, by simpa using hiR⟩
  have hzeroed : Counted c.graph R ∅ (fun i => if i ∈ R then 0 else s.pending i) []
      (s.readyQueue.filter (· ∉ R)) := by
    refine ⟨?_, ?_, ?_⟩
    · intro d hd hdR
      simpa [hdR] using hcounted.counts d hd (by simp)
    · intro d hdR
      simp [hdR]
    · intro d hd hdR
      simpa [hdR] using hcounted.ready d hd (by simp)
  obtain ⟨hfinal, hfinalq⟩ := counted_foldl_resumed hg (L := c.graph.sorted R)
    (c.graph.nodup_sorted R) (by simp) hzeroed hkept
  have hset : (∅ : Finset ℕ) ∪ (c.graph.sorted R).toFinset = R ∪ ∅ := by
    ext i
    simp only [empty_union, mem_toFinset, DepGraph.mem_sorted, union_empty, and_iff_right_iff_imp]
    exact hR i
  rw [hset] at hfinal
  refine ⟨?_, fun _ => ?_, h.workers, ?_⟩
  · change Queued _ R s.dispatchSeq _
    rw [hseq]
    exact hfinalq.perm (perm_insertionSort _ _)
  · change Counted _ R (R ∪ ∅) _ s.dispatchSeq _
    rw [hseq]
    exact hfinal.perm (perm_insertionSort _ _)
  · intro hab'
    exact absurd (show s.aborted = true from hab') (by simp [hab])

theorem applyResumed_eq (s : Sched) (R : Finset ℕ) : ∃ pending queue, s.applyResumed c R =
    { s with resumed := R, pending := pending, readyQueue := queue } := by
  unfold applyResumed
  split
  · exact ⟨s.pending, s.readyQueue, rfl⟩
  · exact ⟨_, _, rfl⟩

theorem foldl_writeBack_eq (c : DAGConfig) (s : Sched) (entries : List (ℕ × Go.Str)) :
    ∃ engine resolver, entries.foldl (fun s e => s.writeBack c e.1 e.2) s =
      { s with engine := engine, resolver := resolver } := by
  induction entries generalizing s with
  | nil => exact ⟨s.engine, s.resolver, rfl⟩
  | cons e entries ih =>
    obtain ⟨engine, resolver, h⟩ := ih (s.writeBack c e.1 e.2)
    exact ⟨engine, resolver, h⟩

end Sched

variable {c : DAGConfig}

theorem restoredEntries_lt {state : WorkflowState} {e : ℕ × Go.Str}
    (he : e ∈ restoredEntries c state) : e.1 < c.wf.steps.length := by
  obtain ⟨e', he', rfl⟩ := mem_map.mp he
  have := (mem_filter.mp he').2
  simp only [decide_eq_true_eq] at this
  dsimp only
  omega

def restoredSteps (c : DAGConfig) (state : WorkflowState) : Finset ℕ :=
  ((restoredEntries c state).map Prod.fst).toFinset

theorem resumeFrom_eq (c : DAGConfig) (s : Sched) (state : WorkflowState) :
    ∃ engine resolver lastOutput allResults, resumeFrom c s state =
      { Sched.applyResumed c { s with engine := engine, resolver := resolver }
          (restoredSteps c state) with
        lastOutput := lastOutput
        allResults := allResults } := by
  obtain ⟨engine, resolver, hfold⟩ := Sched.foldl_writeBack_eq c s (restoredEntries c state)
  unfold resumeFrom
  dsimp only
  rw [hfold]
  exact ⟨_, _, _, _, rfl⟩

theorem inv_resumeFrom (hg : c.graph.EdgesWithin) (hn : c.graph.nodeCount = c.wf.steps.length)
    (state : WorkflowState) : Sched.Inv c (resumeFrom c (newDAGScheduler c) state) := by
  obtain ⟨engine, resolver, lastOutput, allResults, heq⟩ :=
    resumeFrom_eq c (newDAGScheduler c) state
  rw [heq]
  have hnew := Sched.core_newDAGScheduler c
  have hcore : Sched.Core c ∅ { newDAGScheduler c with engine := engine, resolver := resolver } :=
    { hnew with }
  have hR : ∀ i ∈ restoredSteps c state, i < c.graph.nodeCount := by
    intro i hi
    obtain ⟨e, he, rfl⟩ := mem_map.mp (mem_toFinset.mp hi)
    rw [hn]
    exact restoredEntries_lt he
  have happlied := Sched.core_applyResumed hg hcore rfl rfl rfl hR
  obtain ⟨pending, queue, happly⟩ := Sched.applyResumed_eq (c := c)
    { newDAGScheduler c with engine := engine, resolver := resolver } (restoredSteps c state)
  rw [happly] at happlied ⊢
  exact Sched.Core.inv { happlied with } rfl (.inl rfl)

theorem inv_startDAG (hg : c.graph.EdgesWithin) (hn : c.graph.nodeCount = c.wf.steps.length)
    (loaded : Option WorkflowState) : Sched.Inv c (startDAG c loaded) := by
  have hnew : Sched.Inv c (newDAGScheduler c) :=
    (Sched.core_newDAGScheduler c).inv (by rfl) (.inl rfl)
  unfold startDAG
  split
  · exact hnew
  · split
    · exact inv_resumeFrom hg hn _
    · exact hnew

/-! ## Every run -/

namespace Sched

variable {c : DAGConfig} {s s' : Sched}

theorem Move.resumed (hmove : Move c s a s') : s'.resumed = s.resumed := by
  cases hmove with
  | dispatch => exact (dispatchOne_progress _ _ _).2.2.2.2.2
  | receive => exact (receive_progress _ _).2.2.2.2.2
  | process => exact (sameProgress_processStep _ _ _ _).resumed
  | _ => rfl

theorem Move.dispatchSeq (hmove : Move c s a s') :
    s'.dispatchSeq = s.dispatchSeq ∨ ∃ idx rest, s.readyQueue = idx :: rest ∧
      s.aborted = false ∧ s'.dispatchSeq = s.dispatchSeq ++ [idx] := by
  cases hmove with
  | @dispatch idx rest _ _ hqueue hab =>
    exact .inr ⟨idx, rest, hqueue, hab, (dispatchOne_progress s idx rest).2.1⟩
  | receive => exact .inl (receive_progress _ _).2.1
  | process => exact .inl (processStep_progress _ _ _ _).2.1
  | _ => exact .inl rfl

theorem Move.aborted (hmove : Move c s a s') (hab : s.aborted = true) : s'.aborted = true := by
  cases hmove with
  | dispatch _ _ hab' =>
    rw [hab] at hab'
    cases hab'
  | @receive res =>
    rcases receive_cases (c := c) s res with ⟨-, -, heq⟩ | ⟨-, heq⟩ <;> rw [heq] <;> exact hab
  | @process idx ps disk =>
    rcases processStep_cases (c := c) s disk idx ps with ⟨-, herr, heq⟩ | ⟨-, heq⟩ | ⟨hab', -⟩
    · rw [heq]
      exact herr
    · rw [heq]
      exact hab
    · simp [hab] at hab'
  | _ => exact hab

/-- How the scheduler behaves in a state of a run. -/
structure Scheduled (c : DAGConfig) (s : Sched) : Prop where
  /-- No step is dispatched twice. -/
  dispatched_once : s.dispatchSeq.Nodup
  /-- Only steps that were not resumed are dispatched. -/
  dispatched_fresh : ∀ i ∈ s.dispatchSeq, i < c.graph.nodeCount ∧ i ∉ s.resumed
  /-- A step is dispatched only when each of its dependencies is resumed, written back or
  processed. -/
  deps_done : ∀ a s', s.step c a = some s' → ∀ i ∈ s'.dispatchSeq, i ∉ s.dispatchSeq →
    ∀ d ∈ c.graph.deps i, d ∈ s.resumed ∨ d ∈ s.finalized ∨ d ∈ s.processed
  /-- Nothing is awaited without a running worker. -/
  worker_awaited : s.Waiting → s.inFlight ≠ []
  /-- A run that has not ended can go on. -/
  goes_on : s.phase ≠ .done → ∃ a s', a ≠ .signalShutdown ∧ s.step c a = some s'
  /-- A run that ends without abort and shutdown has dispatched every step that was not resumed,
  and processed what it dispatched. -/
  ends_complete : s.phase = .done → s.aborted = false → s.shutdown = false →
    s.processed = s.dispatchSeq ∧ ∀ i < c.graph.nodeCount, i ∉ s.resumed → i ∈ s.dispatchSeq
  /-- After an abort nothing is dispatched. -/
  abort_final : s.aborted = true → ∀ a s', s.step c a = some s' →
    s'.dispatchSeq = s.dispatchSeq ∧ s'.aborted = true

theorem Inv.scheduled (hg : c.graph.WellFormed) (h : s.Inv c) : Scheduled c s where
  dispatched_once := h.nodup_dispatchSeq
  dispatched_fresh i hi := h.queued.within i (mem_append_left _ hi)
  deps_done a s' hstep i hi hnew d hd := by
    rcases (move_of_step c hstep).dispatchSeq with hseq | ⟨idx, rest, hqueue, hab, hseq⟩
    · exact absurd (hseq ▸ hi) hnew
    · have hidx : i = idx := by
        rw [hseq, List.mem_append, List.mem_singleton] at hi
        exact hi.resolve_left hnew
      have hmem : i ∈ s.dispatchSeq ++ s.readyQueue := by simp [hqueue, hidx]
      have hsub := (h.counted hab).deps_subset h.queued hmem hd
      simpa [propagated, or_assoc] using hsub
  worker_awaited hwait hempty := by
    obtain ⟨want, -, hflight⟩ := h.want_inFlight hwait
    rw [hempty] at hflight
    cases hflight
  goes_on := h.progress
  ends_complete := h.completed hg
  abort_final hab a s' hstep := by
    have hmove := move_of_step c hstep
    refine ⟨?_, hmove.aborted hab⟩
    rcases hmove.dispatchSeq with hseq | ⟨idx, rest, -, hab', -⟩
    · exact hseq
    · rw [hab] at hab'
      cases hab'

end Sched

/-- A run starts with a new scheduler, apart from what is resumed. -/
theorem startDAG_eq (c : DAGConfig) (loaded : Option WorkflowState) :
    ∃ engine resolver resumed pending queue lastOutput allResults, startDAG c loaded =
      { newDAGScheduler c with
        engine := engine, resolver := resolver, resumed := resumed, pending := pending,
        readyQueue := queue, lastOutput := lastOutput, allResults := allResults } := by
  unfold startDAG
  split
  · exact ⟨_, _, _, _, _, _, _, rfl⟩
  · rename_i state
    split
    · obtain ⟨engine, resolver, lastOutput, allResults, heq⟩ :=
        resumeFrom_eq c (newDAGScheduler c) state
      obtain ⟨pending, queue, happly⟩ := Sched.applyResumed_eq (c := c)
        { newDAGScheduler c with engine := engine, resolver := resolver } (restoredSteps c state)
      rw [heq, happly]
      exact ⟨_, _, _, _, _, _, _, rfl⟩
    · exact ⟨_, _, _, _, _, _, _, rfl⟩

theorem startDAG_idle (c : DAGConfig) (loaded : Option WorkflowState) :
    (startDAG c loaded).dispatchSeq = [] ∧ (startDAG c loaded).inFlight = [] ∧
      (startDAG c loaded).phase = .top := by
  obtain ⟨engine, resolver, resumed, pending, queue, lastOutput, allResults, heq⟩ :=
    startDAG_eq c loaded
  rw [heq]
  exact ⟨rfl, rfl, rfl⟩

/-- Every run over an accepted graph, fresh or resumed: the scheduler behaves as described in every
state, keeps the set of resumed steps, and ends after a bounded number of actions. -/
theorem dag_scheduled {c : DAGConfig} (hgraph : buildDepGraph c.wf.steps = .ok c.graph)
    (loaded : Option WorkflowState) {actions : List Action} {s : Sched}
    (hrun : (startDAG c loaded).run c actions = some s) :
    s.Scheduled c ∧ s.resumed = (startDAG c loaded).resumed ∧
      actions.length ≤ 12 * c.wf.steps.length + 4 := by
  obtain ⟨hg, hn⟩ := wellFormed_of_buildDepGraph hgraph
  have hstart := inv_startDAG hg.toEdgesWithin hn loaded
  have hkeeps : ∀ s a s', Sched.Inv c s → s.step c a = some s' → Sched.Inv c s' :=
    fun s a s' h hstep => h.move hg.toEdgesWithin (Sched.move_of_step c hstep)
  have hinv : Sched.Inv c s := Runs.invariant hkeeps hstart hrun
  have hresumed : s.resumed = (startDAG c loaded).resumed :=
    Runs.invariant (P := fun t => t.resumed = (startDAG c loaded).resumed)
      (fun t a t' ht hstep => (Sched.move_of_step c hstep).resumed.trans ht) rfl hrun
  have hbound := Runs.length_add_le hkeeps
    (fun t a t' ht hstep => ht.work_lt (Sched.move_of_step c hstep)) hstart hrun
  refine ⟨hinv.scheduled hg, hresumed, ?_⟩
  obtain ⟨hseq, hflight, hphase⟩ := startDAG_idle c loaded
  have hwork : (startDAG c loaded).work c ≤ 12 * c.wf.steps.length + 4 := by
    simp only [Sched.work, hseq, hflight, hphase, Sched.phaseRank, length_nil, hn]
    split <;> omega
  omega

def sampleConfig (world : World) (steps : List WorkflowStep) (output : Go.Str) : DAGConfig where
  world := world
  wf := ⟨Go.str "sample", ∅, steps, output⟩
  graph := (buildDepGraph steps).toOption.getD (DepGraph.empty 0)
  initialInput := []
  statePath := Go.str "state.json"

theorem buildDepGraph_sampleConfig {world : World} {steps : List WorkflowStep}
    {output : Go.Str} (h : (buildDepGraph steps).toOption.isSome = true) :
    buildDepGraph (sampleConfig world steps output).wf.steps =
      .ok (sampleConfig world steps output).graph := by
  change buildDepGraph steps = .ok ((buildDepGraph steps).toOption.getD _)
  cases hg : buildDepGraph steps with
  | error e => simp [hg, Except.toOption] at h
  | ok g => rfl

/-- Two independent steps, and a third that waits for the second. -/
def forkSteps : List WorkflowStep :=
  [{ node := Go.str "a" }, { node := Go.str "b" },
    { node := Go.str "c", dependsOn := [Go.str "2"] }]

/-- The second step finishes while the first one runs, and the third is dispatched. -/
def forkActions : List Action :=
  [.tick none, .tick none, .tick none, .tick none, .receive ⟨1, Go.str "x", none⟩, .tick none]

theorem dag_scheduled_fork :
    ∃ s, (startDAG (sampleConfig echoWorld forkSteps []) none).run
        (sampleConfig echoWorld forkSteps []) forkActions = some s ∧
      s.Scheduled (sampleConfig echoWorld forkSteps []) := by
  obtain ⟨s, hs⟩ : ∃ s, (startDAG (sampleConfig echoWorld forkSteps []) none).run
      (sampleConfig echoWorld forkSteps []) forkActions = some s :=
    Option.isSome_iff_exists.mp (by decide)
  exact ⟨s, hs, (dag_scheduled (buildDepGraph_sampleConfig (by decide)) none hs).1⟩

/-- The third step is dispatched while the second, on which it depends, is not processed. -/
theorem not_dispatched_after_processed :
    ¬ ∀ (c : DAGConfig) (loaded : Option WorkflowState) (actions : List Action) (s : Sched),
      buildDepGraph c.wf.steps = .ok c.graph → (startDAG c loaded).run c actions = some s →
        ∀ a s', s.step c a = some s' → ∀ i ∈ s'.dispatchSeq, i ∉ s.dispatchSeq →
          ∀ d ∈ c.graph.deps i, d ∈ s.resumed ∨ d ∈ s.processed := by
  intro h
  obtain ⟨s, hs, hseq, hresumed, hprocessed, s', hs', hseq'⟩ :
      ∃ s ∈ (startDAG (sampleConfig echoWorld forkSteps []) none).run
        (sampleConfig echoWorld forkSteps []) forkActions,
        2 ∉ s.dispatchSeq ∧ 1 ∉ s.resumed ∧ 1 ∉ s.processed ∧
          ∃ s' ∈ s.step (sampleConfig echoWorld forkSteps []) (.tick none), 2 ∈ s'.dispatchSeq := by
    decide
  have hdep : 1 ∈ (sampleConfig echoWorld forkSteps []).graph.deps 2 := by decide
  rcases h _ none forkActions s (buildDepGraph_sampleConfig (by decide)) hs
    (.tick none) s' hs' 2 hseq' hseq 1 hdep with hd | hd
  · exact hresumed hd
  · exact hprocessed hd

end Workflow
