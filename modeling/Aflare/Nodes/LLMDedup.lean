import Aflare.Go.Strings
import Aflare.Lib.Runs

/-!
# Deduplicated calls of a provider

Identical requests that come while one of them is under way wait for its result. The request is made
by the caller that came first, under the context of this caller; all who wait get the result, and a
caller whose own context is cancelled stops waiting.

A flight is one such request. While it is running its function has not returned; when it has, the
result is handed out and the next caller starts a new flight.
-/

namespace Nodes

open Go Runs List Function

/-! ## One call of the provider -/

/-- Why a reply did not come or could not be read. -/
inductive Cause
  | cancelled
  | other (text : Str)
  deriving DecidableEq

/-- What becomes of a request to the provider. -/
inductive Reply
  | invalidRequest
  | unreachable (cause : Cause)
  | status (code : ℕ) (message : Str)
  | unreadable (cause : Cause)
  | noChoices
  | content (text : Str)
  deriving DecidableEq

/-- The reply did not come because the context was cancelled. -/
def Reply.IsCancelled (reply : Reply) : Prop :=
  reply = .unreachable .cancelled ∨ reply = .unreadable .cancelled
  deriving Decidable

inductive LLMError
  | createRequest
  | callProvider (cause : Cause)
  | apiError (code : ℕ) (message : Str)
  | badStatus (code : ℕ)
  | parseResponse (cause : Cause)
  | noChoices
  | context
  deriving DecidableEq

/-- `llmUpstreamResult`, without usage and telemetry. -/
structure LLMUpstreamResult where
  content : Str
  err : Option LLMError
  statusCode : ℕ
  deriving DecidableEq

def doUpstreamCall : Reply → LLMUpstreamResult
  | .invalidRequest => ⟨[], some .createRequest, 0⟩
  | .unreachable cause => ⟨[], some (.callProvider cause), 0⟩
  | .status code message =>
    if message ≠ [] then ⟨[], some (.apiError code message), code⟩
    else ⟨[], some (.badStatus code), code⟩
  | .unreadable cause => ⟨[], some (.parseResponse cause), 200⟩
  | .noChoices => ⟨[], some .noChoices, 200⟩
  | .content text => ⟨text, none, 200⟩

/-- The result of a caller that stops waiting. -/
def contextResult : LLMUpstreamResult := ⟨[], some .context, 0⟩

/-- The result is an error of a cancelled context. -/
def LLMUpstreamResult.IsCancelled (r : LLMUpstreamResult) : Prop :=
  r.err = some .context ∨ r.err = some (.callProvider .cancelled) ∨
    r.err = some (.parseResponse .cancelled)
  deriving Decidable

theorem isCancelled_doUpstreamCall {reply : Reply} :
    (doUpstreamCall reply).IsCancelled ↔ reply.IsCancelled := by
  cases reply with
  | status code message =>
    by_cases h : message = [] <;>
      simp [doUpstreamCall, LLMUpstreamResult.IsCancelled, Reply.IsCancelled, h]
  | _ => simp [doUpstreamCall, LLMUpstreamResult.IsCancelled, Reply.IsCancelled]

/-! ## Flights -/

/-- Where a caller is in `doUpstreamCallDeduped`. -/
inductive CallerStage
  | idle
  | waiting (flight : ℕ)
  | returned (result : LLMUpstreamResult)
  deriving DecidableEq

/-- A flight with the caller under whose context it runs, and its result when its function has
returned. -/
structure Flight (ι : Type) where
  leader : ι
  result : Option LLMUpstreamResult

/-- The callers with one key: where they are and whose contexts are cancelled, the results that were
handed out, and the flight that new callers join. The number of this flight is that of the results.
-/
structure FlightGroup (ι : Type) where
  stage : ι → CallerStage
  cancelled : ι → Bool
  results : List LLMUpstreamResult
  current : Option (Flight ι)

inductive GroupAction (ι : Type)
  | call (i : ι)
  | cancel (i : ι)
  | finish (reply : Reply)
  | publish
  | receive (i : ι)
  | giveUp (i : ι)

namespace FlightGroup

variable {ι : Type} [DecidableEq ι]

def new : FlightGroup ι := ⟨fun _ => .idle, fun _ => false, [], none⟩

def step (σ : FlightGroup ι) : GroupAction ι → Option (FlightGroup ι)
  -- `DoChan`: join the flight under way, or start one under the context of the caller
  | .call i =>
    if σ.stage i = .idle then
      some { σ with
        stage := Function.update σ.stage i (.waiting σ.results.length)
        current := some (σ.current.getD ⟨i, none⟩) }
    else none
  | .cancel i => some { σ with cancelled := Function.update σ.cancelled i true }
  -- the function returns; it fails by a cancellation only if its context is cancelled
  | .finish reply =>
    match σ.current with
    | some ⟨leader, none⟩ =>
      if reply.IsCancelled → σ.cancelled leader = true then
        some { σ with current := some ⟨leader, some (doUpstreamCall reply)⟩ }
      else none
    | _ => none
  -- the key is given free and the result handed out
  | .publish =>
    match σ.current with
    | some ⟨_, some r⟩ => some { σ with results := σ.results ++ [r], current := none }
    | _ => none
  | .receive i =>
    match σ.stage i with
    | .waiting f => σ.results[f]?.map fun r =>
        { σ with stage := Function.update σ.stage i (.returned r) }
    | _ => none
  | .giveUp i =>
    match σ.stage i with
    | .waiting _ =>
      if σ.cancelled i then
        some { σ with stage := Function.update σ.stage i (.returned contextResult) }
      else none
    | _ => none

/-! ## Cancelled leaders -/

/-- The condition on the runs: when the leader of the flight under way is cancelled, so are all
others who wait for it; and a caller that joins a flight whose leader is cancelled is cancelled
itself. -/
def AloneWhenCancelled (σ : FlightGroup ι) : GroupAction ι → Prop
  | .call i => ∀ fl ∈ σ.current, σ.cancelled fl.leader = true → σ.cancelled i = true
  | .cancel i => ∀ fl ∈ σ.current, fl.leader = i →
      ∀ j ≠ i, σ.stage j = .waiting σ.results.length → σ.cancelled j = true
  | _ => True

instance [Fintype ι] (σ : FlightGroup ι) : DecidablePred (AloneWhenCancelled σ)
  | .call _ => inferInstanceAs (Decidable (∀ fl ∈ σ.current, _ → _))
  | .cancel _ => inferInstanceAs (Decidable (∀ fl ∈ σ.current, _ → ∀ _, _))
  | .finish _ => .isTrue trivial
  | .publish => .isTrue trivial
  | .receive _ => .isTrue trivial
  | .giveUp _ => .isTrue trivial

/-- Who waits for a flight that may fail or has failed by a cancellation is cancelled, and so is who
returned a cancellation error. -/
structure Inv (σ : FlightGroup ι) : Prop where
  waiting : ∀ i f, σ.stage i = .waiting f →
    f < σ.results.length ∨ f = σ.results.length ∧ σ.current ≠ none
  flight : ∀ leader r, σ.current = some ⟨leader, some r⟩ → r.IsCancelled → σ.cancelled leader = true
  joined : ∀ fl, σ.current = some fl → σ.cancelled fl.leader = true →
    ∀ i, σ.stage i = .waiting σ.results.length → σ.cancelled i = true
  handed : ∀ f r, σ.results[f]? = some r → r.IsCancelled →
    ∀ i, σ.stage i = .waiting f → σ.cancelled i = true
  returned : ∀ i r, σ.stage i = .returned r → r.IsCancelled → σ.cancelled i = true

namespace Inv

variable {σ σ' : FlightGroup ι} {i : ι} {a : GroupAction ι}

omit [DecidableEq ι] in
theorem new : Inv (new : FlightGroup ι) where
  waiting := fun _ _ h => by cases h
  flight := fun _ _ h => by cases h
  joined := fun _ h => by cases h
  handed := fun _ _ h => by cases h
  returned := fun _ _ h => by cases h

theorem setReturned (h : Inv σ) {r : LLMUpstreamResult}
    (hr : r.IsCancelled → σ.cancelled i = true) :
    Inv { σ with stage := update σ.stage i (.returned r) } := by
  have hstage : ∀ j f, update σ.stage i (.returned r) j = .waiting f →
      σ.stage j = .waiting f := by
    intro j f hj
    by_cases hji : j = i
    · subst hji
      simp at hj
    · rwa [update_of_ne hji] at hj
  refine ⟨fun j f hj => h.waiting j f (hstage j f hj), h.flight,
    fun fl hfl hleader j hj => h.joined fl hfl hleader j (hstage j _ hj),
    fun f r' hr' hcancelled j hj => h.handed f r' hr' hcancelled j (hstage j f hj),
    fun j r' hj hcancelled => ?_⟩
  by_cases hji : j = i
  · subst hji
    obtain rfl : r = r' := by simpa using hj
    exact hr hcancelled
  · simp only [update_of_ne hji] at hj
    exact h.returned j r' hj hcancelled

/-- A caller that finds no flight starts one. -/
theorem call (h : Inv σ) (halone : AloneWhenCancelled σ (.call i)) :
    Inv { σ with
      stage := update σ.stage i (.waiting σ.results.length)
      current := some (σ.current.getD ⟨i, none⟩) } := by
  have hother : ∀ {j}, j ≠ i →
      update σ.stage i (.waiting σ.results.length) j = σ.stage j :=
    fun hji => update_of_ne hji ..
  refine ⟨fun j f hj => ?_, fun leader r hfl hr => ?_, fun fl hfl hleader j hj => ?_,
    fun f r hr hcancelled j hj => ?_, fun j r hj hcancelled => ?_⟩
  · by_cases hji : j = i
    · subst hji
      obtain rfl : σ.results.length = f := by simpa using hj
      exact .inr ⟨rfl, by simp⟩
    · simp only [hother hji] at hj
      exact (h.waiting j f hj).imp_right fun hlast => ⟨hlast.1, by simp⟩
  · cases hcurrent : σ.current with
    | some fl =>
      rw [hcurrent] at hfl
      exact h.flight leader r (hcurrent.trans hfl) hr
    | none =>
      rw [hcurrent] at hfl
      cases hfl
  · cases hcurrent : σ.current with
    | some fl' =>
      obtain rfl : fl' = fl := by simpa [hcurrent] using hfl
      by_cases hji : j = i
      · subst hji
        exact halone fl' hcurrent hleader
      · simp only [hother hji] at hj
        exact h.joined fl' hcurrent hleader j hj
    | none =>
      -- nobody else waits for the flight that the caller starts
      obtain rfl : ⟨i, none⟩ = fl := by simpa [hcurrent] using hfl
      by_cases hji : j = i
      · rwa [hji]
      · simp only [hother hji] at hj
        rcases h.waiting j _ hj with hlt | ⟨-, hne⟩
        · exact absurd hlt (lt_irrefl _)
        · exact absurd hcurrent hne
  · by_cases hji : j = i
    · subst hji
      obtain rfl : σ.results.length = f := by simpa using hj
      simp at hr
    · simp only [hother hji] at hj
      exact h.handed f r hr hcancelled j hj
  · by_cases hji : j = i
    · subst hji
      simp at hj
    · simp only [hother hji] at hj
      exact h.returned j r hj hcancelled

theorem cancel (h : Inv σ) (halone : AloneWhenCancelled σ (.cancel i)) :
    Inv { σ with cancelled := update σ.cancelled i true } := by
  -- a caller that was cancelled still is
  have hkeep : ∀ j, σ.cancelled j = true → update σ.cancelled i true j = true := by
    intro j hj
    by_cases hji : j = i
    · rw [hji, update_self]
    · rwa [update_of_ne hji]
  refine ⟨h.waiting, fun leader r hfl hr => hkeep _ (h.flight leader r hfl hr),
    fun fl hfl hleader j hj => ?_,
    fun f r hr hcancelled j hj => hkeep j (h.handed f r hr hcancelled j hj),
    fun j r hj hcancelled => hkeep j (h.returned j r hj hcancelled)⟩
  by_cases hji : j = i
  · simp [hji]
  · by_cases hfi : fl.leader = i
    · exact hkeep j (halone fl hfl hfi j hji hj)
    · simp only [update_of_ne hfi] at hleader
      exact hkeep j (h.joined fl hfl hleader j hj)

omit [DecidableEq ι] in
theorem publish (h : Inv σ) {leader : ι} {r : LLMUpstreamResult}
    (hcurrent : σ.current = some ⟨leader, some r⟩) :
    Inv { σ with results := σ.results ++ [r], current := none } := by
  refine ⟨fun j f hj => ?_, fun _ _ hfl => (by cases hfl), fun _ hfl => (by cases hfl),
    fun f r' hr' hcancelled j hj => ?_, h.returned⟩
  · simp only [length_append, length_singleton]
    have hle := h.waiting j f hj
    omega
  · rcases lt_or_ge f σ.results.length with hlt | hge
    · rw [getElem?_append_left hlt] at hr'
      exact h.handed f r' hr' hcancelled j hj
    · -- the new result is that of the flight for which the caller waits
      obtain ⟨rfl, rfl⟩ : f = σ.results.length ∧ r = r' := by
        rw [getElem?_append_right hge, getElem?_singleton] at hr'
        split at hr'
        · exact ⟨by omega, Option.some.inj hr'⟩
        · cases hr'
      exact h.joined _ hcurrent (h.flight leader r hcurrent hcancelled) j hj

/-- Every step keeps the invariant if who is cancelled is alone in its flight. -/
theorem step (h : Inv σ) (halone : AloneWhenCancelled σ a)
    (hstep : FlightGroup.step σ a = some σ') :
    Inv σ' := by
  cases a with
  | call i =>
    obtain ⟨hidle, rfl⟩ := Option.ite_some_none_eq_some.mp hstep
    exact h.call halone
  | cancel i =>
    cases hstep
    exact h.cancel halone
  | finish reply =>
    simp only [FlightGroup.step] at hstep
    split at hstep
    · rename_i leader hcurrent
      obtain ⟨hreply, rfl⟩ := Option.ite_some_none_eq_some.mp hstep
      refine ⟨fun j f hj => (h.waiting j f hj).imp_right fun hlast => ⟨hlast.1, by simp⟩,
        fun leader' r hfl hr => ?_, fun fl hfl hleader j hj => ?_, h.handed, h.returned⟩
      · obtain ⟨rfl, rfl⟩ : leader = leader' ∧ doUpstreamCall reply = r := by simpa using hfl
        exact hreply (isCancelled_doUpstreamCall.mp hr)
      · cases hfl
        exact h.joined _ hcurrent hleader j hj
    · cases hstep
  | publish =>
    simp only [FlightGroup.step] at hstep
    split at hstep
    · rename_i hcurrent
      cases hstep
      exact h.publish hcurrent
    · cases hstep
  | receive i =>
    simp only [FlightGroup.step] at hstep
    split at hstep
    · rename_i f hstage
      obtain ⟨r, hr, rfl⟩ := Option.map_eq_some_iff.mp hstep
      exact h.setReturned fun hcancelled => h.handed f r hr hcancelled i hstage
    · cases hstep
  | giveUp i =>
    simp only [FlightGroup.step] at hstep
    split at hstep
    · split at hstep
      · rename_i hcancelled
        cases hstep
        exact h.setReturned fun _ => hcancelled
      · cases hstep
    · cases hstep

end Inv

theorem exists_giveUp {σ : FlightGroup ι} {i : ι} {f : ℕ} (hwaiting : σ.stage i = .waiting f)
    (hcancelled : σ.cancelled i = true) :
    ∃ σ', step σ (.giveUp i) = some σ' ∧ σ'.stage i = .returned contextResult := by
  refine ⟨{ σ with stage := update σ.stage i (.returned contextResult) }, ?_, ?_⟩
  · simp [step, hwaiting, hcancelled]
  · simp

end FlightGroup

open FlightGroup

/-- In a run in which cancelled leaders are alone, a caller gets a cancellation error only if its
own context is cancelled; and in every run a caller whose context is cancelled can return at once.
-/
theorem cancellation_isolated {ι : Type} [DecidableEq ι] {actions : List (GroupAction ι)}
    {σ : FlightGroup ι} (hrun : run step (new : FlightGroup ι) actions = some σ) :
    (Guarded step AloneWhenCancelled (new : FlightGroup ι) actions →
      ∀ i r, σ.stage i = .returned r → r.IsCancelled → σ.cancelled i = true) ∧
    ∀ i f, σ.stage i = .waiting f → σ.cancelled i = true →
      ∃ σ', step σ (.giveUp i) = some σ' ∧ σ'.stage i = .returned contextResult := by
  refine ⟨fun halone => ?_, fun i f => exists_giveUp⟩
  have hinv : Inv σ := halone.invariant (fun _ _ _ h => h.step) Inv.new hrun
  exact hinv.returned

/-- A follower is cancelled, and the leader gets its answer. -/
theorem cancellation_isolated_follower : ∃ σ : FlightGroup Bool,
    run step new [.call false, .call true, .cancel true, .giveUp true,
      .finish (.content (str "ok")), .publish, .receive false] = some σ ∧
      σ.stage false = .returned ⟨str "ok", none, 200⟩ ∧ σ.stage true = .returned contextResult ∧
      (∀ i r, σ.stage i = .returned r → r.IsCancelled → σ.cancelled i = true) := by
  obtain ⟨σ, hrun, hleader, hfollower⟩ : ∃ σ : FlightGroup Bool,
      run step new [.call false, .call true, .cancel true, .giveUp true,
        .finish (.content (str "ok")), .publish, .receive false] = some σ ∧
        σ.stage false = .returned ⟨str "ok", none, 200⟩ ∧
        σ.stage true = .returned contextResult :=
    ⟨_, rfl, rfl, rfl⟩
  exact ⟨σ, hrun, hleader, hfollower, (cancellation_isolated hrun).1 (by decide)⟩

/-- The leader is cancelled, and a follower that is not gets the error. -/
theorem not_cancellation_isolated :
    (run step new [.call false, .call true, .cancel false, .finish (.unreachable .cancelled),
        .publish, .receive true]).map
      (fun σ : FlightGroup Bool => (σ.stage true, σ.cancelled true)) =
        some (.returned ⟨[], some (.callProvider .cancelled), 0⟩, false) := by
  decide

end Nodes
