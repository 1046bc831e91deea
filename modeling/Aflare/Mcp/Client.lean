import Aflare.Lib.Runs
import Mathlib.Data.Fintype.Basic
import Mathlib.Logic.Function.Basic

/-!
# The MCP client

A call of the client registers a channel under the id of its request, posts the request and waits
for a response on its channel, for thirty seconds at most; then it removes the entry of its id. A
response is looked up by its id and put into the channel that is found, or thrown away if there is
none or the channel is full. The requests of `ListTools` and those of `CallTool` each have one id
for all calls.

The calls are interleaved in any way, and the server answers in any order. With the streamable
transport the response to a call is looked up by the goroutine of this call before it waits; these
runs are among those of the model.
-/

namespace Mcp

open Runs Function Option

/-- The requests that are answered. -/
inductive Method
  | initializeCall
  | listTools
  | callTool
  deriving DecidableEq

/-- The id of a request: a constant in `initialize`, `ListTools` and `CallTool`. -/
def Method.requestId : Method → ℤ
  | .initializeCall => 1
  | .listTools => 2
  | .callTool => 3

/-- Where a call is in `sendRequest`. What it returns is the call whose response it got, if any. -/
inductive Stage (ι : Type)
  | idle
  | posting
  | waiting
  | returning (result : Option ι)
  | done (result : Option ι)
  deriving DecidableEq

/-- Where the response to a call is: not sent, on its way, on its way to a channel that was found,
put into a channel, or thrown away. -/
inductive Answer (ι : Type)
  | unsent
  | sent
  | found (channel : ι)
  | delivered
  | dropped
  deriving DecidableEq

/-- What a look into the table makes of a response. -/
def Answer.ofLookup {ι : Type} : Option ι → Answer ι
  | none => .dropped
  | some channel => .found channel

/-- A call with its channel, which holds at most one response. -/
structure Call (ι : Type) where
  method : Method
  stage : Stage ι
  posted : Bool
  channel : Option ι
  answer : Answer ι

namespace Call

variable {ι : Type} (c : Call ι)

/-- The entry of the call is in the table, as far as the call is concerned. -/
def InProgress : Prop :=
  match c.stage with
  | .posting => True
  | .waiting => True
  | .returning _ => True
  | .idle => False
  | .done _ => False

/-- The call has not returned yet. -/
def Expecting : Prop :=
  match c.stage with
  | .posting => True
  | .waiting => True
  | _ => False

/-- The call whose response was returned. -/
def result : Option ι :=
  match c.stage with
  | .returning r => r
  | .done r => r
  | _ => none

instance : Decidable c.InProgress :=
  match h : c.stage with
  | .posting | .waiting | .returning _ => .isTrue (by simp [InProgress, h])
  | .idle | .done _ => .isFalse (by simp [InProgress, h])

instance : Decidable c.Expecting :=
  match h : c.stage with
  | .posting | .waiting => .isTrue (by simp [Expecting, h])
  | .returning _ | .idle | .done _ => .isFalse (by simp [Expecting, h])

end Call

/-- The client: the table of channels by request id, the calls, and the calls that were expecting a
response when it was thrown away or given to another call. A response that is still in its channel
when the time of the call is up has come too late, and does not count as lost. -/
structure Client (ι : Type) where
  pending : ℤ → Option ι
  call : ι → Call ι
  lost : List ι

inductive Action (ι : Type)
  | start (k : ι) (method : Method)
  | post (k : ι)
  | posted (k : ι)
  | fail (k : ι)
  | respond (k : ι)
  | lookup (k : ι)
  | send (k : ι)
  | receive (k : ι)
  | timeout (k : ι)
  | cleanup (k : ι)

namespace Client

variable {ι : Type} [DecidableEq ι]

def new : Client ι := ⟨fun _ => none, fun _ => ⟨.initializeCall, .idle, false, none, .unsent⟩, []⟩

variable (σ : Client ι)

def setCall (k : ι) (c : Call ι) : Client ι := { σ with call := Function.update σ.call k c }

def step : Action ι → Option (Client ι)
  | .start k method =>
    if (σ.call k).stage = .idle then
      some { σ.setCall k { σ.call k with method := method, stage := .posting } with
        pending := Function.update σ.pending method.requestId (some k) }
    else none
  -- the request reaches the server, and the server's answer to the post the client
  | .post k =>
    if (σ.call k).stage = .posting ∧ (σ.call k).posted = false then
      some (σ.setCall k { σ.call k with posted := true })
    else none
  | .posted k =>
    if (σ.call k).stage = .posting ∧ (σ.call k).posted = true then
      some (σ.setCall k { σ.call k with stage := .waiting })
    else none
  -- an error of the post, which may have reached the server
  | .fail k =>
    if (σ.call k).stage = .posting then
      some (σ.setCall k { σ.call k with stage := .returning none })
    else none
  | .respond k =>
    if (σ.call k).posted = true ∧ (σ.call k).answer = .unsent then
      some (σ.setCall k { σ.call k with answer := .sent })
    else none
  -- `handleSSEEvent` or `postStreamable`: the table is read
  | .lookup k =>
    if (σ.call k).answer = .sent then
      let found := σ.pending (σ.call k).method.requestId
      some { σ.setCall k { σ.call k with answer := .ofLookup found } with
        lost := if (σ.call k).Expecting ∧ found ≠ some k then σ.lost ++ [k] else σ.lost }
    else none
  -- the response is put into the channel if there is room
  | .send k =>
    match (σ.call k).answer with
    | .found j =>
      if (σ.call j).channel = none then
        let σ := σ.setCall k { σ.call k with answer := .delivered }
        some (σ.setCall j { σ.call j with channel := some k })
      else
        some { σ.setCall k { σ.call k with answer := .dropped } with
          lost := if (σ.call k).Expecting then σ.lost ++ [k] else σ.lost }
    | _ => none
  | .receive k =>
    match (σ.call k).stage, (σ.call k).channel with
    | .waiting, some r =>
      some (σ.setCall k { σ.call k with stage := .returning (some r), channel := none })
    | _, _ => none
  | .timeout k =>
    if (σ.call k).stage = .waiting then
      some (σ.setCall k { σ.call k with stage := .returning none })
    else none
  -- the deferred function
  | .cleanup k =>
    match (σ.call k).stage with
    | .returning r =>
      some { σ.setCall k { σ.call k with stage := .done r } with
        pending := Function.update σ.pending (σ.call k).method.requestId none }
    | _ => none

@[simp] theorem setCall_call_self (k : ι) (c : Call ι) :
    (σ.setCall k c).call k = c := update_self ..

theorem setCall_call_of_ne {k j : ι} (h : j ≠ k) (c : Call ι) :
    (σ.setCall k c).call j = σ.call j := update_of_ne h ..

@[simp] theorem setCall_setCall (k : ι) (c d : Call ι) :
    (σ.setCall k c).setCall k d = σ.setCall k d := by
  simp [setCall]

/-! ## Calls one after the other -/

/-- The condition on the runs: a call starts when no other call with its request id is in progress,
and a response arrives while its call is in progress, or while no call with its id is. -/
def Exclusive : Action ι → Prop
  | .start _ method => ∀ j, (σ.call j).InProgress → (σ.call j).method.requestId ≠ method.requestId
  | .lookup k => (σ.call k).InProgress ∨
      ∀ j, (σ.call j).InProgress → (σ.call j).method.requestId ≠ (σ.call k).method.requestId
  | _ => True

instance [Fintype ι] (σ : Client ι) : DecidablePred (Exclusive σ)
  | .start _ method => inferInstanceAs (Decidable (∀ j, (σ.call j).InProgress →
      (σ.call j).method.requestId ≠ method.requestId))
  | .lookup k => inferInstanceAs (Decidable ((σ.call k).InProgress ∨
      ∀ j, (σ.call j).InProgress → (σ.call j).method.requestId ≠ (σ.call k).method.requestId))
  | .post _ | .posted _ | .fail _ | .respond _ | .send _ | .receive _ | .timeout _ | .cleanup _ =>
    .isTrue trivial

/-- What is true of a call by itself: its channel holds at most its own response, which is on its
way to no other channel, and it returns no other one. -/
structure Own (k : ι) (c : Call ι) : Prop where
  channel : ∀ r, c.channel = some r → r = k ∧ c.answer = .delivered
  found : ∀ j, c.answer = .found j → j = k
  result : ∀ r, c.result = some r → r = k

/-- The table holds the calls that are in progress. -/
structure Inv (σ : Client ι) : Prop where
  registered : ∀ k, (σ.call k).InProgress → σ.pending (σ.call k).method.requestId = some k
  inProgress : ∀ id k, σ.pending id = some k →
    (σ.call k).InProgress ∧ (σ.call k).method.requestId = id
  own : ∀ k, Own k (σ.call k)
  lost : σ.lost = []

namespace Inv

variable {σ σ' : Client ι} {k : ι} {a : Action ι}

omit [DecidableEq ι] in
theorem new : Inv (new : Client ι) where
  registered := fun _ h => h.elim
  inProgress := fun _ _ h => by cases h
  own := fun _ =>
    { channel := fun _ h => by cases h
      found := fun _ h => by cases h
      result := fun _ h => by cases h }
  lost := rfl

theorem setCall (h : Inv σ) {c : Call ι} (hmethod : c.method = (σ.call k).method)
    (hprogress : c.InProgress ↔ (σ.call k).InProgress) (hown : Own k c) : Inv (σ.setCall k c) := by
  have hcall : ∀ j, ((σ.setCall k c).call j).method = (σ.call j).method ∧
      (((σ.setCall k c).call j).InProgress ↔ (σ.call j).InProgress) ∧
      Own j ((σ.setCall k c).call j) := by
    intro j
    by_cases hj : j = k
    · subst hj
      rw [setCall_call_self]
      exact ⟨hmethod, hprogress, hown⟩
    · rw [setCall_call_of_ne σ hj]
      exact ⟨rfl, Iff.rfl, h.own j⟩
  refine ⟨fun j hj => ?_, fun id j hj => ?_, fun j => (hcall j).2.2, h.lost⟩
  · rw [(hcall j).1]
    exact h.registered j ((hcall j).2.1.mp hj)
  · obtain ⟨hprogress, hid⟩ := h.inProgress id j hj
    exact ⟨(hcall j).2.1.mpr hprogress, by rw [(hcall j).1, hid]⟩

theorem start (h : Inv σ) {method : Method} (hidle : (σ.call k).stage = .idle)
    (hexclusive : ∀ j, (σ.call j).InProgress → (σ.call j).method.requestId ≠ method.requestId) :
    Inv { σ.setCall k { σ.call k with method := method, stage := .posting } with
      pending := Function.update σ.pending method.requestId (some k) } := by
  have hnot : ¬ (σ.call k).InProgress := by simp [Call.InProgress, hidle]
  refine ⟨fun j hj => ?_, fun id j hj => ?_, (forall_update_iff σ.call Own).mpr ⟨?_, ?_⟩, h.lost⟩
  · by_cases hjk : j = k
    · subst hjk
      simp [setCall_call_self]
    · simp only [setCall_call_of_ne σ hjk] at hj ⊢
      rw [update_of_ne (hexclusive j hj)]
      exact h.registered j hj
  · by_cases hid : id = method.requestId
    · subst hid
      obtain rfl : k = j := by simpa using hj
      simp [setCall_call_self, Call.InProgress]
    · simp only [update_of_ne hid] at hj
      obtain ⟨hprogress, hmethod⟩ := h.inProgress id j hj
      have hjk : j ≠ k := fun heq => hnot (heq ▸ hprogress)
      simp only [setCall_call_of_ne σ hjk]
      exact ⟨hprogress, hmethod⟩
  · exact { h.own k with result := fun r hr => by cases hr }
  · exact fun j _ => h.own j

theorem cleanup (h : Inv σ) {r : Option ι} (hstage : (σ.call k).stage = .returning r) :
    Inv { σ.setCall k { σ.call k with stage := .done r } with
      pending := Function.update σ.pending (σ.call k).method.requestId none } := by
  have hregistered := h.registered k (by simp [Call.InProgress, hstage])
  refine ⟨fun j hj => ?_, fun id j hj => ?_, (forall_update_iff σ.call Own).mpr ⟨?_, ?_⟩, h.lost⟩
  · have hjk : j ≠ k := by
      rintro rfl
      simp [Call.InProgress] at hj
    simp only [setCall_call_of_ne σ hjk] at hj ⊢
    -- another call in progress has another id, since the table has one entry for each
    have hpending := h.registered j hj
    rw [update_of_ne]
    · exact hpending
    · intro hid
      rw [hid, hregistered] at hpending
      exact hjk (some.inj hpending).symm
  · by_cases hid : id = (σ.call k).method.requestId
    · subst hid
      simp at hj
    · simp only [update_of_ne hid] at hj
      obtain ⟨hprogress, hmethod⟩ := h.inProgress id j hj
      have hjk : j ≠ k := fun heq => hid (heq ▸ hmethod).symm
      simp only [setCall_call_of_ne σ hjk]
      exact ⟨hprogress, hmethod⟩
  · refine { h.own k with result := fun r' hr' => (h.own k).result r' ?_ }
    simpa [Call.result, hstage] using hr'
  · exact fun j _ => h.own j

omit [DecidableEq ι] in
theorem channel_eq_none (h : Inv σ) (hanswer : (σ.call k).answer ≠ .delivered) :
    (σ.call k).channel = none := by
  rw [eq_none_iff_forall_ne_some]
  exact fun r hr => hanswer ((h.own k).channel r hr).2

/-- A response finds the call that its request belongs to. -/
theorem lookup (h : Inv σ) (hanswer : (σ.call k).answer = .sent)
    (hexclusive : Exclusive σ (.lookup k)) :
    Inv { σ.setCall k { σ.call k with
        answer := .ofLookup (σ.pending (σ.call k).method.requestId) } with
      lost := if (σ.call k).Expecting ∧ σ.pending (σ.call k).method.requestId ≠ some k then
        σ.lost ++ [k] else σ.lost } := by
  have hempty : (σ.call k).channel = none := h.channel_eq_none (by simp [hanswer])
  have hresult := (h.own k).result
  rcases hexclusive with hprogress | hnone
  · -- the call is in the table, so its own channel is found
    simp only [h.registered k hprogress, ne_eq, not_true_eq_false, and_false, if_false]
    refine h.setCall rfl Iff.rfl ⟨fun r hr => ?_, fun j hj => ?_, hresult⟩
    · simp [hempty] at hr
    · exact (Answer.found.inj hj).symm
  · -- no call is in the table under the id, and none expects a response
    have hpending : σ.pending (σ.call k).method.requestId = none := by
      rw [eq_none_iff_forall_ne_some]
      intro j hj
      obtain ⟨hprogress, hid⟩ := h.inProgress _ j hj
      exact hnone j hprogress hid
    have hexpecting : ¬ (σ.call k).Expecting := by
      intro hexpecting
      refine hnone k ?_ rfl
      rw [Call.Expecting] at hexpecting
      rw [Call.InProgress]
      split at hexpecting <;> simp_all
    simp only [hpending, hexpecting, false_and, if_false]
    refine h.setCall rfl Iff.rfl ⟨fun r hr => ?_, fun j hj => (by cases hj), hresult⟩
    simp [hempty] at hr

/-- While calls with one id exclude each other, an entry belongs to one call. -/
theorem step (h : Inv σ) (hexclusive : Exclusive σ a) (hstep : Client.step σ a = some σ') :
    Inv σ' := by
  cases a with
  | start k method =>
    obtain ⟨hidle, rfl⟩ := ite_some_none_eq_some.mp hstep
    exact h.start hidle hexclusive
  | post k =>
    obtain ⟨-, rfl⟩ := ite_some_none_eq_some.mp hstep
    exact h.setCall rfl Iff.rfl { h.own k with }
  | posted k | fail k | timeout k =>
    obtain ⟨hstage, rfl⟩ := ite_some_none_eq_some.mp hstep
    exact h.setCall rfl (by simp [Call.InProgress, hstage])
      { h.own k with result := fun r hr => by cases hr }
  | respond k =>
    obtain ⟨hanswer, rfl⟩ := ite_some_none_eq_some.mp hstep
    obtain ⟨hchannel, -, hresult⟩ := h.own k
    refine h.setCall rfl Iff.rfl ⟨fun r hr => ?_, fun j hj => (by cases hj), hresult⟩
    exact absurd (hchannel r hr).2 (by simp [hanswer.2])
  | lookup k =>
    obtain ⟨hanswer, rfl⟩ := ite_some_none_eq_some.mp hstep
    exact h.lookup hanswer hexclusive
  | send k =>
    simp only [Client.step] at hstep
    split at hstep
    · rename_i j hanswer
      obtain rfl := (h.own k).found j hanswer
      have hempty : (σ.call j).channel = none := h.channel_eq_none (by simp [hanswer])
      rw [if_pos hempty] at hstep
      cases hstep
      obtain ⟨-, -, hresult⟩ := h.own j
      rw [setCall_setCall, setCall_call_self]
      refine h.setCall rfl Iff.rfl ⟨fun r hr => ?_, fun j' hj' => (by cases hj'), hresult⟩
      exact ⟨(some.inj hr).symm, rfl⟩
    · cases hstep
  | receive k =>
    simp only [Client.step] at hstep
    split at hstep
    · rename_i r hstage hchan
      cases hstep
      obtain ⟨hchannel, hfound, -⟩ := h.own k
      refine h.setCall rfl (by simp [Call.InProgress, hstage])
        ⟨fun r hr => (by cases hr), hfound, fun r' hr' => ?_⟩
      obtain rfl : r = r' := by simpa [Call.result] using hr'
      exact (hchannel r hchan).1
    · cases hstep
  | cleanup k =>
    simp only [Client.step] at hstep
    split at hstep
    · rename_i r hstage
      cases hstep
      exact h.cleanup hstage
    · cases hstep

end Inv

end Client

/-! ## Runs -/

open Client

/-- In a run in which calls under one id come one after the other, every call that returns a
response returns the response to itself, and no response that a call expects is thrown away. -/
theorem responses_correlated {ι : Type} [DecidableEq ι] {actions : List (Action ι)} {σ : Client ι}
    (hexclusive : Guarded step Exclusive (new : Client ι) actions)
    (hrun : run step (new : Client ι) actions = some σ) :
    (∀ k r, (σ.call k).result = some r → r = k) ∧ σ.lost = [] := by
  have hinv : Inv σ := hexclusive.invariant (fun _ _ _ h => h.step) Inv.new hrun
  exact ⟨fun k => (hinv.own k).result, hinv.lost⟩

/-- A tool is called twice, one call after the other. -/
def sequentialCalls : List (Action Bool) :=
  [.start false .callTool, .post false, .posted false, .respond false, .lookup false, .send false,
    .receive false, .cleanup false, .start true .callTool, .post true, .respond true, .lookup true,
    .send true, .posted true, .receive true]

theorem responses_correlated_sequentialCalls : ∃ σ : Client Bool,
    run step new sequentialCalls = some σ ∧ (σ.call false).result = some false ∧
      (σ.call true).result = some true ∧
      (∀ k r, (σ.call k).result = some r → r = k) ∧ σ.lost = [] := by
  obtain ⟨σ, hrun, hfirst, hsecond⟩ : ∃ σ : Client Bool, run step new sequentialCalls = some σ ∧
      (σ.call false).result = some false ∧ (σ.call true).result = some true :=
    ⟨_, rfl, rfl, rfl⟩
  exact ⟨σ, hrun, hfirst, hsecond, responses_correlated (by decide +kernel) hrun⟩

/-- Of two calls at the same time, the second one returns the response to the first, or its own
response is thrown away while it waits. A call after one that timed out returns the late response to
that one. -/
theorem not_responses_correlated :
    (run step new [.start false .callTool, .post false, .posted false, .start true .callTool,
        .post true, .posted true, .respond false, .lookup false, .send false, .receive true]).map
      (fun σ : Client Bool => (σ.call true).result) = some (some false) ∧
    (run step new [.start false .callTool, .post false, .posted false, .start true .callTool,
        .post true, .posted true, .respond false, .lookup false, .send false, .respond true,
        .lookup true, .send true]).map
      (fun σ : Client Bool => ((σ.call true).stage, σ.lost)) = some (.waiting, [false, true]) ∧
    (run step new [.start false .callTool, .post false, .posted false, .timeout false,
        .cleanup false, .start true .callTool, .post true, .posted true, .respond false,
        .lookup false, .send false, .receive true]).map
      (fun σ : Client Bool => (σ.call true).result) = some (some false) := by
  decide +kernel

end Mcp
