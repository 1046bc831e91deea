import Aflare.Workflow.Idempotency
import Aflare.Lib.Runs

/-!
# Triggering a workflow under an idempotency key

Any number of callers of `ExecuteWithTrace` with the same key against one store. The operations of
the store are atomic (each runs under the lock of the store), and what a caller does between them
may be interleaved with the steps of the others in any way.
-/

namespace Workflow

open Go Function

/-- `newRunID` from sixteen random bytes. -/
def newRunID (random : List UInt8) : Str :=
  let b := (random.set 6 (random.getD 6 0 &&& 0x0f ||| 0x40)).set 8
    (random.getD 8 0 &&& 0x3f ||| 0x80)
  joinWith (str "-")
    [hexEncode (b.take 4), hexEncode ((b.drop 4).take 2), hexEncode ((b.drop 6).take 2),
      hexEncode ((b.drop 8).take 2), hexEncode ((b.drop 10).take 6)]

theorem validUtf8_newRunID (random : List UInt8) : ValidUtf8 (newRunID random) := by
  apply validUtf8_of_ascii
  intro b hb
  simp only [newRunID, joinWith, List.mem_flatten] at hb
  obtain ⟨part, hpart, hb⟩ := hb
  simp only [List.intersperse, List.mem_cons, List.not_mem_nil, or_false] at hpart
  rcases hpart with rfl | rfl | rfl | rfl | rfl | rfl | rfl | rfl | rfl
  all_goals first
    | exact hexEncode_ascii _ b hb
    | (obtain rfl : b = 45 := by simpa [str, String.utf8EncodeChar] using hb
       decide)

/-! ## Callers -/

/-- What a call returns: the result of its own run, the output of an earlier run, or an error. -/
inductive CallOutcome
  | executed (out : Str) (err : Option Str)
  | cached (out : Str)
  | rejected (err : IdempotencyError)
  deriving DecidableEq

/-- How far a call has come. -/
inductive CallPhase
  | idle
  | checked
  | running (runID : Str)
  | finished (runID out : Str) (err : Option Str)
  | done (outcome : CallOutcome)
  deriving DecidableEq

/-- The run of the call has been reserved and its outcome is not recorded yet. -/
def CallPhase.InFlight : CallPhase → Prop
  | .running _ => True
  | .finished _ _ _ => True
  | _ => False

/-- `time.Now().UTC()`. -/
abbrev UtcTime := { t : ZonedTime // t.offset = 0 }

theorem UtcTime.wholeMinutes (t : UtcTime) : t.1.WholeMinutes := by
  rw [ZonedTime.WholeMinutes, t.2]
  rfl

/-- A step of a call: looking the key up, reserving it, the end of its run with some result, and
recording the outcome. -/
inductive TriggerAction (C : Type)
  | check (caller : C) (now : UtcTime)
  | reserve (caller : C) (now : UtcTime) (random : List UInt8)
  | finish (caller : C) (out : Str) (err : Option Str)
  | record (caller : C) (now : UtcTime)

/-- The store and the callers. -/
structure TriggerState (C : Type) where
  store : IdempotencyStore
  phase : C → CallPhase

/-- The calls of one workflow under one key. -/
structure TriggerConfig where
  signer : Signer
  key : Str
  key_ne : key ≠ []
  workflowName : Str

variable {store : IdempotencyStore} {p : CallPhase} {now : UtcTime}

namespace TriggerConfig

variable {C : Type} [DecidableEq C] (cfg : TriggerConfig)

def initial (store : IdempotencyStore) : TriggerState C := ⟨store, fun _ => .idle⟩

/-- How a call goes on after `Check`; an error of the store is left to `Reserve`. -/
def afterCheck : Except IdempotencyError (Option IdempotencyRecord) → CallPhase
  | .error _ => .checked
  | .ok none => .checked
  | .ok (some r) =>
    if r.status = idempotencyStatusCompleted then .done (.cached r.finalOutput)
    else if r.status = idempotencyStatusInProgress then .done (.rejected .inProgress)
    else .checked

/-- How a call goes on after `Reserve`. -/
def afterReserve (runID : Str) (answer : Reservation) : CallPhase :=
  match answer.err with
  | some e =>
    if answer.record.status = idempotencyStatusCompleted then
      .done (.cached answer.record.finalOutput)
    else .done (.rejected e)
  | none =>
    if answer.reserved then .running runID
    else if answer.record.status = idempotencyStatusCompleted then
      .done (.cached answer.record.finalOutput)
    else .done (.rejected .inProgress)

/-- The record of the outcome of a run. -/
def outcomeRecord (now : UtcTime) (runID out : Str) (err : Option Str) : IdempotencyRecord where
  key := cfg.key
  runID := runID
  workflowPath := cfg.workflowName
  status := idempotencyStatus err
  finalOutput := out
  error := err.getD []
  createdAt := now.1
  updatedAt := now.1
  hmac := []

variable (s : TriggerState C)

/-- One step of `ExecuteWithTrace` of one caller. -/
def step : TriggerAction C → Option (TriggerState C)
  | .check c now =>
    match s.phase c with
    | .idle =>
      let (found, store) := s.store.check cfg.signer now.1 cfg.key
      some ⟨store, Function.update s.phase c (afterCheck found)⟩
    | _ => none
  | .reserve c now random =>
    match s.phase c with
    | .checked =>
      let runID := newRunID random
      let (answer, store) := s.store.reserve cfg.signer now.1 cfg.key runID
      some ⟨store, Function.update s.phase c (afterReserve runID answer)⟩
    | _ => none
  | .finish c out err =>
    match s.phase c with
    | .running runID => some { s with phase := Function.update s.phase c (.finished runID out err) }
    | _ => none
  | .record c now =>
    match s.phase c with
    | .finished runID out err =>
      let (_, store) := s.store.record cfg.signer now.1 (cfg.outcomeRecord now runID out err)
      some ⟨store, Function.update s.phase c (.done (.executed out err))⟩
    | _ => none

/-- The record of the key has not expired when the store is asked for it. -/
def NoExpiry : TriggerAction C → Prop
  | .check _ now => ∀ r ∈ s.store.read cfg.signer cfg.key, r.expired s.store.ttl now.1 = false
  | .reserve _ now _ => ∀ r ∈ s.store.read cfg.signer cfg.key, r.expired s.store.ttl now.1 = false
  | _ => True

/-- If records are signed and kept in files: the key is valid UTF-8 when it is reserved, and so are
the name of the workflow and the output when a completed run is recorded. -/
def Storable : TriggerAction C → Prop
  | .reserve _ _ _ => s.store.isFile = true → cfg.signer.hmacKey ≠ none → ValidUtf8 cfg.key
  | .record c _ => s.store.isFile = true → cfg.signer.hmacKey ≠ none →
      ∀ runID out, s.phase c = .finished runID out none →
        ValidUtf8 cfg.key ∧ ValidUtf8 cfg.workflowName ∧ ValidUtf8 out
  | _ => True

/-- The output as the store gives it back. -/
def keptOutput (isFile : Bool) (out : Str) : Str := if isFile then coerce out else out

/-- The store answers the key with a record of this status. -/
def Holds (store : IdempotencyStore) (status : Str) (P : IdempotencyRecord → Prop) : Prop :=
  ∃ r, store.read cfg.signer cfg.key = some r ∧ r.status = status ∧ P r

/-- What the phase of a call says about the store: a run in flight is held by its placeholder, and
once a run has completed, or an output was served, the store holds the completed record. -/
def Agrees (store : IdempotencyStore) : CallPhase → Prop
  | .idle => True
  | .checked => True
  | .running runID => cfg.Holds store idempotencyStatusInProgress (fun _ => True) ∧ ValidUtf8 runID
  | .finished runID _ _ =>
    cfg.Holds store idempotencyStatusInProgress (fun _ => True) ∧ ValidUtf8 runID
  | .done (.executed _ (some _)) => True
  | .done (.executed out none) =>
    cfg.Holds store idempotencyStatusCompleted fun r => r.finalOutput = keptOutput store.isFile out
  | .done (.cached out) => cfg.Holds store idempotencyStatusCompleted fun r => r.finalOutput = out
  | .done (.rejected e) => e = .inProgress

/-- What holds between the store and the callers. -/
structure Inv (s : TriggerState C) : Prop where
  sound : s.store.Sound cfg.signer cfg.key
  agrees : ∀ c, cfg.Agrees s.store (s.phase c)
  unique : ∀ c d, (s.phase c).InFlight → (s.phase d).InFlight → c = d

variable {cfg} {c : C}

theorem Holds.not_both {P Q : IdempotencyRecord → Prop}
    (hdone : cfg.Holds store idempotencyStatusCompleted P)
    (hrun : cfg.Holds store idempotencyStatusInProgress Q) : False := by
  obtain ⟨r, hr, hstatus, -⟩ := hdone
  obtain ⟨r', hr', hstatus', -⟩ := hrun
  obtain rfl : r = r' := Option.some.inj (hr.symm.trans hr')
  exact absurd (hstatus.symm.trans hstatus') (by decide)

theorem Agrees.holds_of_inFlight (h : cfg.Agrees store p)
    (hflight : p.InFlight) : cfg.Holds store idempotencyStatusInProgress fun _ => True := by
  cases p with
  | running runID | finished runID out err => exact h.1
  | idle | checked | done outcome => cases hflight

theorem Agrees.congr {store' : IdempotencyStore} (h : cfg.Agrees store p)
    (hread : store'.read cfg.signer cfg.key = store.read cfg.signer cfg.key)
    (hfile : store'.isFile = store.isFile) : cfg.Agrees store' p := by
  cases p with
  | idle | checked => trivial
  | running runID | finished runID out err => simpa only [Agrees, Holds, hread] using h
  | done outcome =>
    cases outcome with
    | executed out err =>
      cases err with
      | none => simpa only [Agrees, Holds, hread, hfile] using h
      | some message => trivial
    | cached out => simpa only [Agrees, Holds, hread] using h
    | rejected e => exact h

/-- A call that is not in flight while no run is completed asks nothing of the store. -/
theorem Agrees.anywhere (h : cfg.Agrees store p) (hflight : ¬ p.InFlight)
    (hnot : ∀ P, ¬ cfg.Holds store idempotencyStatusCompleted P) (store' : IdempotencyStore) :
    cfg.Agrees store' p := by
  cases p with
  | idle | checked => trivial
  | running runID | finished runID out err => exact absurd trivial hflight
  | done outcome =>
    cases outcome with
    | executed out err =>
      cases err with
      | none => exact absurd h (hnot _)
      | some message => trivial
    | cached out => exact absurd h (hnot _)
    | rejected e => exact h

omit [DecidableEq C] in
theorem inv_initial (h : store.Sound cfg.signer cfg.key) :
    cfg.Inv (initial store : TriggerState C) where
  sound := h
  agrees _ := trivial
  unique _ _ hc := hc.elim

/-- What is read back of a record that is stored is its status and its output. -/
theorem kept_spec {isFile : Bool} {r : IdempotencyRecord} (hstatus : ValidUtf8 r.status)
    (hclean : isFile = true → cfg.signer.hmacKey ≠ none → r.Clean) :
    ∃ r', IdempotencyStore.kept cfg.signer isFile r = some r' ∧ r'.status = r.status ∧
      r'.finalOutput = keptOutput isFile r.finalOutput := by
  cases isFile with
  | false => exact ⟨_, rfl, rfl, rfl⟩
  | true =>
    cases hkey : cfg.signer.hmacKey with
    | none =>
      refine ⟨_, IdempotencyStore.kept_of_unsigned hkey r true, hstatus.coerce_eq, rfl⟩
    | some key =>
      have hr := hclean rfl (by simp [hkey])
      refine ⟨_, IdempotencyStore.kept_of_clean hr true, rfl, ?_⟩
      exact hr.finalOutput.coerce_eq.symm

section Steps

variable {s s' : TriggerState C} (h : cfg.Inv s)

include h

theorem Inv.settle
    (hafter : IdempotencyStore.After cfg.signer cfg.key (s.store.read cfg.signer cfg.key)
      s.store store)
    (hp : cfg.Agrees s.store p) (hflight : p.InFlight → (s.phase c).InFlight) :
    cfg.Inv ⟨store, Function.update s.phase c p⟩ := by
  have hphase : ∀ d, (Function.update s.phase c p d).InFlight → (s.phase d).InFlight :=
    (forall_update_iff s.phase fun d p => p.InFlight → (s.phase d).InFlight).mpr
      ⟨hflight, fun _ _ => id⟩
  refine ⟨hafter.sound, ?_, fun d e hd he => h.unique d e (hphase d hd) (hphase e he)⟩
  exact (forall_update_iff s.phase fun _ p => cfg.Agrees store p).mpr
    ⟨hp.congr hafter.read hafter.isFile, fun d _ => (h.agrees d).congr hafter.read hafter.isFile⟩

/-- A call moves on and the record of the key changes, while no other call asks anything of the
store. -/
theorem Inv.replace (hsound : store.Sound cfg.signer cfg.key) (hp : cfg.Agrees store p)
    (hothers : ∀ d ≠ c, ¬ (s.phase d).InFlight)
    (hnot : ∀ P, ¬ cfg.Holds s.store idempotencyStatusCompleted P) :
    cfg.Inv ⟨store, Function.update s.phase c p⟩ := by
  have hphase : ∀ d, (Function.update s.phase c p d).InFlight → d = c := by
    intro d hd
    by_contra hdc
    rw [update_of_ne hdc] at hd
    exact hothers d hdc hd
  refine ⟨hsound, ?_, fun d e hd he => (hphase d hd).trans (hphase e he).symm⟩
  exact (forall_update_iff s.phase fun _ p => cfg.Agrees store p).mpr
    ⟨hp, fun d hdc => (h.agrees d).anywhere (hothers d hdc) hnot store⟩

theorem Inv.check (hfresh : cfg.NoExpiry s (.check c now))
    (hstep : cfg.step s (.check c now) = some s') : cfg.Inv s' := by
  obtain ⟨hfound, hafter⟩ := IdempotencyStore.check_spec now.1 h.sound
  rw [IdempotencyStore.live_eq_read hfresh] at hfound hafter
  simp only [step] at hstep
  split at hstep
  · cases hstep
    rw [hfound]
    have hanswer : cfg.Agrees s.store (afterCheck (.ok (s.store.read cfg.signer cfg.key))) ∧
        ¬ (afterCheck (.ok (s.store.read cfg.signer cfg.key))).InFlight := by
      cases hr : s.store.read cfg.signer cfg.key with
      | none => exact ⟨trivial, id⟩
      | some r =>
        simp only [afterCheck]
        split
        · rename_i hstatus
          exact ⟨⟨r, hr, hstatus, rfl⟩, id⟩
        · split
          · exact ⟨rfl, id⟩
          · exact ⟨trivial, id⟩
    exact h.settle hafter hanswer.1 fun hflight => absurd hflight hanswer.2
  · cases hstep

/-- Only one caller gets a reservation, as none expires. -/
theorem Inv.reserve {random : List UInt8} (hfresh : cfg.NoExpiry s (.reserve c now random))
    (hsafe : cfg.Storable s (.reserve c now random))
    (hstep : cfg.step s (.reserve c now random) = some s') : cfg.Inv s' := by
  simp only [step] at hstep
  split at hstep
  · cases hstep
    have hlive := (IdempotencyStore.live_eq_read hfresh).symm
    by_cases hclear : ∀ r ∈ s.store.read cfg.signer cfg.key, Reservation.yield r = none
    · -- nothing stands in the way: no run is in flight, and none has completed
      obtain ⟨hanswer, hafter⟩ := IdempotencyStore.reserve_of_none now.1 h.sound cfg.key_ne
        (newRunID random) (hlive ▸ Option.bind_eq_none_iff.mpr hclear)
      have hfree : ∀ status P, cfg.Holds s.store status P →
          status ≠ idempotencyStatusCompleted ∧ status ≠ idempotencyStatusInProgress := by
        rintro status P ⟨r, hr, rfl, -⟩
        have hyield := hclear r hr
        simp only [Reservation.yield] at hyield
        split at hyield
        · cases hyield
        · split at hyield
          · cases hyield
          · exact ⟨‹_›, ‹_›⟩
      have hclean : s.store.isFile = true → cfg.signer.hmacKey ≠ none →
          (IdempotencyRecord.placeholder cfg.key (newRunID random) now.1).Clean := by
        intro hfile hkey
        exact IdempotencyRecord.clean_placeholder (hsafe hfile hkey)
          (validUtf8_newRunID random) now.wholeMinutes
      obtain ⟨r, hkept, hstatus, -⟩ := kept_spec validUtf8_inProgress hclean
      have hphase : afterReserve (newRunID random)
          (s.store.reserve cfg.signer now.1 cfg.key (newRunID random)).1 =
          .running (newRunID random) := by
        simp only [afterReserve, hanswer, if_true]
      rw [hphase]
      refine h.replace hafter.sound ⟨⟨r, hafter.read.trans hkept, hstatus, trivial⟩,
        validUtf8_newRunID random⟩ (fun d _ hd => ?_) fun P hP => (hfree _ P hP).1 rfl
      exact (hfree _ _ ((h.agrees d).holds_of_inFlight hd)).2 rfl
    · push Not at hclear
      obtain ⟨r, hr, hyield⟩ := hclear
      obtain ⟨answer, hanswer⟩ := Option.ne_none_iff_exists'.mp hyield
      have hres := IdempotencyStore.reserve_of_some now.1 h.sound cfg.key_ne
        (newRunID random) (hlive ▸ Option.bind_eq_some_iff.mpr ⟨r, hr, hanswer⟩)
      have hafter := IdempotencyStore.After.refl h.sound
      rw [hres]
      simp only [Reservation.yield] at hanswer
      split at hanswer
      · rename_i hstatus
        cases hanswer
        simp only [afterReserve, Bool.false_eq_true, if_false, hstatus, if_true]
        exact h.settle hafter ⟨r, hr, hstatus, rfl⟩ False.elim
      · split at hanswer
        · rename_i hcompleted hstatus
          cases hanswer
          simp only [afterReserve, hcompleted, if_false]
          exact h.settle hafter rfl False.elim
        · cases hanswer
  · cases hstep

theorem Inv.finish {out : Str} {err : Option Str}
    (hstep : cfg.step s (.finish c out err) = some s') : cfg.Inv s' := by
  simp only [step] at hstep
  split at hstep
  · rename_i runID hphase
    cases hstep
    have hrun := h.agrees c
    rw [hphase] at hrun
    refine h.settle (IdempotencyStore.After.refl h.sound) hrun fun _ => ?_
    rw [hphase]
    trivial
  · cases hstep

/-- The caller in flight replaces its reservation by the record of its run. -/
theorem Inv.record (hsafe : cfg.Storable s (.record c now))
    (hstep : cfg.step s (.record c now) = some s') : cfg.Inv s' := by
  simp only [step] at hstep
  split at hstep
  · rename_i runID out err hphase
    cases hstep
    have hrun := h.agrees c
    rw [hphase] at hrun
    have hflight : (s.phase c).InFlight := by
      rw [hphase]
      trivial
    have hafter : IdempotencyStore.After cfg.signer cfg.key _ s.store _ :=
      IdempotencyStore.record_spec s.store now.1
        (r := cfg.outcomeRecord now runID out err) cfg.key_ne
    -- the run holds the placeholder, so that no other call asks anything of the store
    refine h.replace hafter.sound ?_ (fun d hd hd' => hd (h.unique d c hd' hflight))
      fun P hP => hP.not_both hrun.1
    cases err with
    | some message => trivial
    | none =>
      have hclean : s.store.isFile = true → cfg.signer.hmacKey ≠ none →
          ((cfg.outcomeRecord now runID out none).stamp now.1).Clean := by
        intro hfile hkey
        obtain ⟨hkey, hname, hout⟩ := hsafe hfile hkey runID out hphase
        have htime : ∀ t : ZonedTime, t.WholeMinutes →
            (if t.isZero then now.1 else t).WholeMinutes := by
          intro t ht
          split
          · exact now.wholeMinutes
          · exact ht
        exact ⟨hkey, hrun.2, hname, validUtf8_completed, hout, validUtf8_nil,
          htime _ now.wholeMinutes, htime _ now.wholeMinutes⟩
      obtain ⟨r, hkept, hstatus, hout⟩ := kept_spec validUtf8_completed hclean
      refine ⟨r, hafter.read.trans hkept, hstatus, ?_⟩
      change r.finalOutput = keptOutput _ out
      rw [hout, hafter.isFile]
      rfl
  · cases hstep

theorem Inv.step {a : TriggerAction C} (hfresh : cfg.NoExpiry s a)
    (hsafe : cfg.Storable s a) (hstep : cfg.step s a = some s') : cfg.Inv s' := by
  cases a with
  | check c now => exact h.check hfresh hstep
  | reserve c now random => exact h.reserve hfresh hsafe hstep
  | finish c out err => exact h.finish hstep
  | record c now => exact h.record hsafe hstep

omit h

end Steps

end TriggerConfig

open TriggerConfig in
/-- In every run in which no record expires and what is signed survives the round trip: at most one
run of the workflow is in flight, none once a run has completed, and every call that does not run
the workflow gets the output of the completed record or the in-progress error. -/
theorem at_most_one_run {C : Type} [DecidableEq C] (cfg : TriggerConfig) {store : IdempotencyStore}
    (hstore : store.Sound cfg.signer cfg.key) {actions : List (TriggerAction C)}
    {s : TriggerState C}
    (hsafe : Runs.Guarded cfg.step (fun s a => cfg.NoExpiry s a ∧ cfg.Storable s a)
      (initial store) actions)
    (hrun : Runs.run cfg.step (initial store) actions = some s) :
    (∀ c d, (s.phase c).InFlight → (s.phase d).InFlight → c = d) ∧
      (∀ c out, s.phase c = .done (.executed out none) → ∀ d, ¬ (s.phase d).InFlight) ∧
      ∀ c outcome, s.phase c = .done outcome →
        (∃ out err, outcome = .executed out err) ∨
        (∃ r, s.store.read cfg.signer cfg.key = some r ∧ r.status = idempotencyStatusCompleted ∧
          outcome = .cached r.finalOutput) ∨
        outcome = .rejected .inProgress := by
  have hinv : cfg.Inv s :=
    hsafe.invariant (fun _ _ _ hi hguard hstep => hi.step hguard.1 hguard.2 hstep)
      (inv_initial hstore) hrun
  refine ⟨hinv.unique, fun c out hc d hd => ?_, fun c outcome hc => ?_⟩
  · have hdone := hinv.agrees c
    rw [hc] at hdone
    exact Holds.not_both hdone ((hinv.agrees d).holds_of_inFlight hd)
  · have hagrees := hinv.agrees c
    rw [hc] at hagrees
    cases outcome with
    | executed out err => exact .inl ⟨out, err, rfl⟩
    | cached out =>
      obtain ⟨r, hr, hstatus, rfl⟩ := hagrees
      exact .inr (.inl ⟨r, hr, hstatus, rfl⟩)
    | rejected e => exact .inr (.inr (congrArg CallOutcome.rejected hagrees))

/-! ## One call after the other -/

instance {C : Type} (cfg : TriggerConfig) (s : TriggerState C) :
    (a : TriggerAction C) → Decidable (cfg.NoExpiry s a)
  | .check _ _ | .reserve _ _ _ =>
    inferInstanceAs (Decidable (∀ r ∈ s.store.read cfg.signer cfg.key, _ = _))
  | .finish _ _ _ | .record _ _ => .isTrue trivial

/-- Caller 0 looks the key up, reserves it, runs the workflow with an output and records it. -/
def TriggerConfig.once (now : UtcTime) (random : List UInt8) (out : Str) : List (TriggerAction ℕ) :=
  [.check 0 now, .reserve 0 now random, .finish 0 out none, .record 0 now]

def sampleNow : UtcTime :=
  ⟨{ ZonedTime.zero with clock := str "2026-01-01T00:00:00", isClock := by decide }, rfl⟩

/-- A workflow that is triggered with a key for signatures in the environment. -/
def sampleTrigger : TriggerConfig where
  signer := ⟨.checked, some (str "secret")⟩
  key := str "job"
  key_ne := by decide
  workflowName := str "transfer"

def sampleLedger : IdempotencyStore := .file (.new 0)

theorem sampleLedger_sound (sg : Signer) (key : Str) : sampleLedger.Sound sg key := by
  intro data hdata
  simp [FileStore.new] at hdata

/-- Two callers look the key up, the first one reserves it and runs the workflow, and a third caller
comes after that. -/
def TriggerConfig.contended (now : UtcTime) (out : Str) : List (TriggerAction ℕ) :=
  [.check 0 now, .check 1 now, .reserve 0 now [], .reserve 1 now [], .finish 0 out none,
    .record 0 now, .check 2 now]

open TriggerConfig in
/-- In a signed file store the second caller is refused and the third one gets the output. -/
theorem at_most_one_run_contended :
    ∃ s : TriggerState ℕ, Runs.run sampleTrigger.step (initial sampleLedger)
        (contended sampleNow (str "paid")) = some s ∧
      s.phase 0 = .done (.executed (str "paid") none) ∧
      s.phase 1 = .done (.rejected .inProgress) ∧ s.phase 2 = .done (.cached (str "paid")) ∧
      ∀ d, ¬ (s.phase d).InFlight := by
  have hkey : ValidUtf8 sampleTrigger.key := coerce_eq_self_iff.mp rfl
  have hname : ValidUtf8 sampleTrigger.workflowName := coerce_eq_self_iff.mp rfl
  obtain ⟨s, hrun, hdone, hrefused, hcached⟩ : ∃ s ∈ Runs.run sampleTrigger.step
      (initial sampleLedger) (contended sampleNow (str "paid")),
      s.phase 0 = .done (.executed (str "paid") none) ∧
        s.phase 1 = .done (.rejected .inProgress) ∧ s.phase 2 = .done (.cached (str "paid")) := by
    decide +kernel
  have hfresh : Runs.Guarded sampleTrigger.step sampleTrigger.NoExpiry (initial sampleLedger)
      (contended sampleNow (str "paid")) := by decide +kernel
  have hstorable : Runs.Guarded sampleTrigger.step sampleTrigger.Storable (initial sampleLedger)
      (contended sampleNow (str "paid")) := by
    refine ⟨trivial, fun _ _ => ⟨trivial, fun _ _ => ⟨fun _ _ => hkey, fun _ _ =>
      ⟨fun _ _ => hkey, fun _ _ => ⟨trivial, fun s₃ hfinish =>
        ⟨fun _ _ runID out hout => ⟨hkey, hname, ?_⟩, fun _ _ => ⟨trivial, fun _ _ => trivial⟩⟩⟩⟩⟩⟩⟩
    -- the output is the one with which the run has ended
    simp only [TriggerConfig.step] at hfinish
    split at hfinish
    · cases hfinish
      obtain ⟨-, rfl⟩ : _ ∧ str "paid" = out := by simpa using hout
      exact coerce_eq_self_iff.mp rfl
    · cases hfinish
  have hall := at_most_one_run sampleTrigger (sampleLedger_sound _ _) (hfresh.and hstorable) hrun
  exact ⟨s, hrun, hdone, hrefused, hcached, hall.2.1 0 (str "paid") hdone⟩

open TriggerConfig in
/-- With records that are signed and kept in files, an output that is not valid UTF-8 makes the
completed record unreadable: a second call runs the workflow again. -/
theorem not_at_most_one_run_invalid_output :
    ¬ ∀ (cfg : TriggerConfig) (store : IdempotencyStore) (actions : List (TriggerAction ℕ))
        (s : TriggerState ℕ), store.Sound cfg.signer cfg.key →
      Runs.Guarded cfg.step cfg.NoExpiry (initial store) actions →
      Runs.run cfg.step (initial store) actions = some s →
      ∀ c out, s.phase c = .done (.executed out none) → ∀ d, ¬ (s.phase d).InFlight := by
  intro hall
  -- the signature of the record does not match what JSON makes of the output
  obtain ⟨s, hrun, hdone, hflight⟩ : ∃ s ∈ Runs.run sampleTrigger.step (initial sampleLedger)
      (once sampleNow [] [0xFF] ++ [.check 1 sampleNow, .reserve 1 sampleNow []]),
      s.phase 0 = .done (.executed [0xFF] none) ∧ s.phase 1 = .running (newRunID []) := by
    decide +kernel
  refine hall sampleTrigger sampleLedger _ s (sampleLedger_sound _ _) (by decide +kernel) hrun
    0 [0xFF] hdone 1 ?_
  rw [hflight]
  trivial

end Workflow
