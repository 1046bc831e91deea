import Aflare.Lib.Runs
import Aflare.Workflow.Idempotency

/-!
# The two idempotency stores side by side

The file store signs a record, writes it as JSON, and reads and verifies it again; the memory store
keeps it as it is. The same calls are made on both. What either store answers depends only on the
record that it finds for the key and counts: one that has not expired, and for a reservation one
that stands in its way.
-/

namespace Workflow

open Go List Option

/-! ## Calls and answers -/

inductive StoreCall
  | check (key : Str)
  | reserve (key runID : Str)
  | record (r : IdempotencyRecord)
  | clear (key : Str)

def StoreCall.key : StoreCall → Str
  | .check key => key
  | .reserve key _ => key
  | .record r => r.key
  | .clear key => key

/-- What is compared of a record. -/
structure View where
  status : Str
  runID : Str
  finalOutput : Str
  deriving DecidableEq

def IdempotencyRecord.view (r : IdempotencyRecord) : View := ⟨r.status, r.runID, r.finalOutput⟩

/-- What is compared of an answer. -/
inductive StoreAnswer
  | checked (found : Except IdempotencyError (Option View))
  | reserved (view : View) (reserved : Bool) (err : Option IdempotencyError)
  | recorded (err : Option IdempotencyError)
  | cleared
  deriving DecidableEq

/-- What is compared of the result of `Check`. -/
def checkAnswer (found : Except IdempotencyError (Option IdempotencyRecord)) : StoreAnswer :=
  .checked (found.map (Option.map IdempotencyRecord.view))

/-- What is compared of the result of `Reserve`. -/
def reserveAnswer (answer : Reservation) : StoreAnswer :=
  .reserved answer.record.view answer.reserved answer.err

section Steps

variable (sg : Signer) (now : ZonedTime)

def FileStore.call (s : FileStore) : StoreCall → StoreAnswer × FileStore
  | .check key => (checkAnswer (s.check sg now key).1, (s.check sg now key).2)
  | .reserve key runID =>
    (reserveAnswer (s.reserve sg now key runID).1, (s.reserve sg now key runID).2)
  | .record r => (.recorded (s.record sg now r).1, (s.record sg now r).2)
  | .clear key => (.cleared, s.clear sg key)

def MemoryStore.call (s : MemoryStore) : StoreCall → StoreAnswer × MemoryStore
  | .check key => (checkAnswer (s.check sg now key).1, (s.check sg now key).2)
  | .reserve key runID =>
    (reserveAnswer (s.reserve sg now key runID).1, (s.reserve sg now key runID).2)
  | .record r => (.recorded (s.record sg now r).1, (s.record sg now r).2)
  | .clear key => (.cleared, s.clear key)

def IdempotencyStore.call (s : IdempotencyStore) : StoreCall → StoreAnswer × IdempotencyStore
  | .check key => (checkAnswer (s.check sg now key).1, (s.check sg now key).2)
  | .reserve key runID =>
    (reserveAnswer (s.reserve sg now key runID).1, (s.reserve sg now key runID).2)
  | .record r => (.recorded (s.record sg now r).1, (s.record sg now r).2)
  | .clear key => (.cleared, s.clear sg key)

theorem IdempotencyStore.call_file (f : FileStore) (c : StoreCall) :
    (IdempotencyStore.file f).call sg now c = ((f.call sg now c).1, .file (f.call sg now c).2) := by
  cases c <;> rfl

theorem IdempotencyStore.call_memory (m : MemoryStore) (c : StoreCall) :
    (IdempotencyStore.memory m).call sg now c =
      ((m.call sg now c).1, .memory (m.call sg now c).2) := by
  cases c <;> rfl

end Steps

/-- The answers of a file store to calls, each at its time. -/
def answersOfFile (sg : Signer) : FileStore → List (ZonedTime × StoreCall) → List StoreAnswer
  | _, [] => []
  | s, (now, c) :: calls => (s.call sg now c).1 :: answersOfFile sg (s.call sg now c).2 calls

def answersOfMemory (sg : Signer) : MemoryStore → List (ZonedTime × StoreCall) → List StoreAnswer
  | _, [] => []
  | s, (now, c) :: calls => (s.call sg now c).1 :: answersOfMemory sg (s.call sg now c).2 calls

/-- The file names of the keys are distinct. -/
def NamesDistinct (sg : Signer) (keys : List Str) : Prop :=
  ∀ k ∈ keys, ∀ k' ∈ keys, sg.crypto.sha256 k = sg.crypto.sha256 k' → k = k'
  deriving Decidable

/-! ## Answers from the record that is found -/

/-- The call is decided by a record that it finds: one that has not expired, and for a reservation
one that stands in its way. -/
def StoreCall.counts (ttl : ℤ) (now : ZonedTime) (r : IdempotencyRecord) : StoreCall → Bool
  | .check _ => !r.expired ttl now
  | .reserve key _ => key ≠ [] && (!r.expired ttl now && (Reservation.yield r).isSome)
  | .record _ => false
  | .clear _ => false

/-- The answer to a call, from the record that decides it. -/
def StoreCall.answer (now : ZonedTime) : StoreCall → Option IdempotencyRecord → StoreAnswer
  | .check _, found => checkAnswer (.ok found)
  | .reserve key runID, found =>
    if key = [] then reserveAnswer ⟨.zero, false, some .emptyKey⟩
    else
      reserveAnswer ((found.bind Reservation.yield).getD ⟨.placeholder key runID now, true, none⟩)
  | .record r, _ => .recorded (if r.key = [] then some .emptyKey else none)
  | .clear _, _ => .cleared

/-- A record that counts in one of the stores, as it is or after the round trip through its file,
verifies after the round trip, counts in both, and shows the same. -/
def IsFaithful (sg : Signer) (ttl : ℤ) (now : ZonedTime) (c : StoreCall) (r : IdempotencyRecord) :
    Prop :=
  c.counts ttl now r = true ∨ (sg.verifyRecord r.clean = true ∧ c.counts ttl now r.clean = true) →
    sg.verifyRecord r.clean = true ∧ c.counts ttl now r = true ∧ c.counts ttl now r.clean = true ∧
      r.clean.view = r.view

variable {r : IdempotencyRecord} (sg : Signer)

theorem isFaithful_of_clean (h : r.Clean) (ttl : ℤ)
    (now : ZonedTime) (c : StoreCall) : IsFaithful sg ttl now c (sg.sign r) := by
  have hclean : (sg.sign r).clean = sg.sign r :=
    IdempotencyRecord.Clean.clean_eq { h with } (sg.validUtf8_signRecord r)
  have hverify := sg.verifyRecord_sign r
  intro hcounts
  rw [hclean] at hcounts ⊢
  have hcount : c.counts ttl now (sg.sign r) = true := by
    rcases hcounts with hcount | ⟨-, hcount⟩
    · exact hcount
    · exact hcount
  exact ⟨hverify, hcount, hcount, rfl⟩

theorem reserveAnswer_yield {answer : Reservation} (h : Reservation.yield r = some answer) :
    reserveAnswer answer = .reserved r.view false
      (if r.status = idempotencyStatusCompleted then none else some .inProgress) := by
  unfold Reservation.yield at h
  split_ifs at h with hcompleted hprogress
  · cases h
    rw [if_pos hcompleted]
    rfl
  · cases h
    rw [if_neg hcompleted]
    rfl

variable {key runID : Str}

section Answer

variable {ttl : ℤ} {now : ZonedTime} {c : StoreCall} {r r' : IdempotencyRecord}

theorem answer_reserve_of_counts (h : (StoreCall.reserve key runID).counts ttl now r = true) :
    (StoreCall.reserve key runID).answer now (some r) = .reserved r.view false
      (if r.status = idempotencyStatusCompleted then none else some .inProgress) := by
  simp only [StoreCall.counts, Bool.and_eq_true, decide_eq_true_eq, isSome_iff_exists] at h
  obtain ⟨hkey, -, answer, hyield⟩ := h
  rw [StoreCall.answer, if_neg hkey, bind_some, hyield, getD_some]
  exact reserveAnswer_yield hyield

theorem answer_some_ne_none (h : c.counts ttl now r = true) :
    c.answer now (some r) ≠ c.answer now none := by
  cases c with
  | check key => simp [StoreCall.answer, checkAnswer, Except.map]
  | reserve key runID =>
    have hkey : key ≠ [] := by
      simp only [StoreCall.counts, Bool.and_eq_true, decide_eq_true_eq] at h
      exact h.1
    rw [answer_reserve_of_counts h]
    simp [StoreCall.answer, hkey, reserveAnswer]
  | record | clear => cases h

/-- Two records that decide a call give one answer exactly if they show the same. -/
theorem answer_some_eq_iff (h : c.counts ttl now r = true) (h' : c.counts ttl now r' = true) :
    c.answer now (some r) = c.answer now (some r') ↔ r.view = r'.view := by
  cases c with
  | check key => simp [StoreCall.answer, checkAnswer, Except.map]
  | reserve key runID =>
    rw [answer_reserve_of_counts h, answer_reserve_of_counts h']
    constructor
    · intro heq
      exact (StoreAnswer.reserved.inj heq).1
    · intro hview
      -- the error depends on the status, which is shown
      have hstatus : r.status = r'.status := congrArg View.status hview
      rw [hview, hstatus]
  | record | clear => cases h

end Answer

/-- What the file store finds of a signed record that it has written. -/
def fromFile (sg : Signer) (r : IdempotencyRecord) : Option IdempotencyRecord :=
  (some r.clean).filter sg.verifyRecord

/-- The stores give one answer exactly if the record is faithful. -/
theorem answer_iff_faithful (ttl : ℤ) (now : ZonedTime) (c : StoreCall)
    (found : Option IdempotencyRecord) :
    c.answer now ((found.bind (fromFile sg)).filter (c.counts ttl now)) =
        c.answer now (found.filter (c.counts ttl now)) ↔
      ∀ r ∈ found, IsFaithful sg ttl now c r := by
  cases found with
  | none => simp
  | some r =>
    simp only [bind_some, fromFile, mem_some_iff, forall_eq', IsFaithful, filter_some]
    -- whether the record counts in memory, and whether its file is read and counts
    by_cases hv : sg.verifyRecord r.clean = true
    · by_cases hr : c.counts ttl now r = true
      · by_cases hr' : c.counts ttl now r.clean = true
        · simp [hv, hr, hr', filter_some, answer_some_eq_iff hr' hr]
        · simp [hv, hr, hr', filter_some, (answer_some_ne_none hr).symm]
      · by_cases hr' : c.counts ttl now r.clean = true
        · simp [hv, hr, hr', filter_some, answer_some_ne_none hr']
        · simp [hv, hr, hr', filter_some]
    · by_cases hr : c.counts ttl now r = true
      · simp [hv, hr, (answer_some_ne_none hr).symm]
      · simp [hv, hr]

/-! ## What a call does to the record of its key -/

/-- The record of the key after a call; `through` is what the store finds of a record that it has
written. -/
def StoreCall.held (sg : Signer) (through : IdempotencyRecord → Option IdempotencyRecord) (ttl : ℤ)
    (now : ZonedTime) (found : Option IdempotencyRecord) : StoreCall → Option IdempotencyRecord
  | .check _ => found.filter fun r => !r.expired ttl now
  | .reserve key runID =>
    let decisive := found.filter ((StoreCall.reserve key runID).counts ttl now)
    if key = [] ∨ (decisive.bind Reservation.yield).isSome then found
    else through (sg.sign (.placeholder key runID now))
  | .record r => if r.key = [] then found else through (sg.sign (r.stamp now))
  | .clear _ => none

/-- The file of a key holds the record that the memory holds, as far as it can be read back. -/
structure Alike (sg : Signer) (f : FileStore) (m : MemoryStore) (key : Str) : Prop where
  sound : (IdempotencyStore.file f).Sound sg key
  read : (IdempotencyStore.file f).read sg key = m.recs[key]?.bind (fromFile sg)
  signed : ∀ r ∈ m.recs[key]?, sg.verifyRecord r = true

section Calls

variable {sg : Signer} (now : ZonedTime)

/-- What decides a reservation is the record that has not expired. -/
theorem bind_filter_counts {key : Str} (hkey : key ≠ []) (runID : Str) (ttl : ℤ)
    (found : Option IdempotencyRecord) :
    (found.filter ((StoreCall.reserve key runID).counts ttl now)).bind Reservation.yield =
      (found.filter fun r => !r.expired ttl now).bind Reservation.yield := by
  cases found with
  | none => rfl
  | some r =>
    cases hexp : r.expired ttl now with
    | true => simp [StoreCall.counts, filter_some, hexp]
    | false => cases hyield : Reservation.yield r <;>
        simp [StoreCall.counts, filter_some, hexp, hkey, hyield]

/-- What a lookup finds of a signed record that was written. -/
def through (sg : Signer) (isFile : Bool) (r : IdempotencyRecord) : Option IdempotencyRecord :=
  if isFile then fromFile sg r else some r

/-- The answer of a store, and the record that it finds afterwards. -/
theorem IdempotencyStore.call_spec {s : IdempotencyStore} (c : StoreCall)
    (hsound : s.Sound sg c.key) :
    (s.call sg now c).1 = c.answer now ((s.read sg c.key).filter (c.counts s.ttl now)) ∧
      After sg c.key (c.held sg (through sg s.isFile) s.ttl now (s.read sg c.key)) s
        (s.call sg now c).2 := by
  have hsame := After.refl hsound
  cases c with
  | check key =>
    obtain ⟨hfound, hafter⟩ := check_spec now hsound
    exact ⟨congrArg checkAnswer hfound, hafter⟩
  | reserve key runID =>
    by_cases hkey : key = []
    · subst hkey
      have hrefused : s.reserve sg now [] runID = (⟨.zero, false, some .emptyKey⟩, s) := by
        cases s <;> simp [reserve, FileStore.reserve, MemoryStore.reserve]
      simp only [call, hrefused, StoreCall.answer, StoreCall.held, if_true, true_or]
      exact ⟨trivial, hsame⟩
    · simp only [call, StoreCall.key, StoreCall.answer, StoreCall.held, hkey, if_false, false_or,
        bind_filter_counts now hkey]
      change s.Sound sg key at hsound
      cases hlive : (s.live sg now key).bind Reservation.yield with
      | some answer =>
        rw [reserve_of_some now hsound hkey runID hlive]
        rw [live] at hlive
        simp only [hlive]
        exact ⟨rfl, hsame⟩
      | none =>
        obtain ⟨hanswer, hafter⟩ := reserve_of_none now hsound hkey runID hlive
        rw [live] at hlive
        rw [hanswer]
        simp only [hlive]
        refine ⟨?_, ?_⟩
        · cases s <;> rfl
        · cases s <;> exact hafter
  | record r =>
    by_cases hkey : r.key = []
    · have hrefused : s.record sg now r = (some .emptyKey, s) := by
        cases s <;> simp [record, FileStore.record, MemoryStore.record, hkey]
      simp only [call, hrefused, StoreCall.answer, StoreCall.held, hkey, if_true]
      exact ⟨trivial, hsame⟩
    · have hafter : After sg r.key _ s _ := record_spec s now hkey
      simp only [StoreCall.answer, StoreCall.held, hkey, if_false]
      cases s with
      | file f => exact ⟨by simp [call, record, FileStore.record, hkey], hafter⟩
      | memory m => exact ⟨by simp [call, record, MemoryStore.record, hkey], hafter⟩
  | clear key => exact ⟨rfl, after_clear s⟩

end Calls

/-! ## Other keys -/

/-- A call leaves the other files alone. -/
theorem FileStore.call_files (f : FileStore) (now : ZonedTime) (c : StoreCall)
    {name : Str} (hname : FileStore.pathFor sg c.key ≠ name) :
    (f.call sg now c).2.files[name]? = f.files[name]? := by
  have hremove (g : FileStore) : (g.remove sg c.key).files[name]? = g.files[name]? := by
    simp [FileStore.remove, Std.ExtTreeMap.getElem?_erase, hname]
  have hwrite (g : FileStore) (r : IdempotencyRecord) :
      (g.writeLocked sg now c.key r).files[name]? = g.files[name]? := by
    simp [FileStore.writeLocked, Std.ExtTreeMap.getElem?_insert, hname]
  cases c with
  | check key =>
    simp only [FileStore.call, FileStore.check]
    split
    · rfl
    · rfl
    · split
      · exact hremove f
      · rfl
  | reserve key runID =>
    simp only [FileStore.call, FileStore.reserve]
    split
    · rfl
    · split
      · rfl
      · exact hwrite f _
      · split
        · exact (hwrite _ _).trans (hremove f)
        · split
          · rfl
          · exact hwrite f _
  | record r =>
    simp only [FileStore.call, FileStore.record]
    split
    · rfl
    · exact hwrite f r
  | clear key => exact hremove f

variable (m : MemoryStore) (now : ZonedTime) (c : StoreCall)

include m now c

/-- What a call does to the memory store. -/
theorem MemoryStore.call_cases :
    (m.call sg now c).2 = m ∨ (m.call sg now c).2 = m.remove c.key ∨
      ∃ r, (m.call sg now c).2 = m.put sg c.key r ∨
        (m.call sg now c).2 = (m.remove c.key).put sg c.key r := by
  cases c with
  | check key =>
    simp only [MemoryStore.call, MemoryStore.check]
    split
    · exact .inl rfl
    · split
      · exact .inr (.inl rfl)
      · split
        · exact .inr (.inl rfl)
        · exact .inl rfl
  | reserve key runID =>
    simp only [MemoryStore.call, MemoryStore.reserve]
    split
    · exact .inl rfl
    · split
      · exact .inr (.inr ⟨_, .inl rfl⟩)
      · split
        · exact .inr (.inr ⟨_, .inr rfl⟩)
        · split
          · exact .inr (.inr ⟨_, .inr rfl⟩)
          · split
            · exact .inl rfl
            · exact .inr (.inr ⟨_, .inl rfl⟩)
  | record r =>
    simp only [MemoryStore.call, MemoryStore.record]
    split
    · exact .inl rfl
    · exact .inr (.inr ⟨_, .inl rfl⟩)
  | clear key => exact .inr (.inl rfl)

theorem MemoryStore.call_ttl : (m.call sg now c).2.ttl = m.ttl := by
  obtain h | h | ⟨r, h | h⟩ := m.call_cases sg now c
  all_goals rw [h]
  all_goals rfl

theorem MemoryStore.call_recs
    {key : Str} (hkey : c.key ≠ key) : (m.call sg now c).2.recs[key]? = m.recs[key]? := by
  obtain h | h | ⟨r, h | h⟩ := m.call_cases sg now c
  · rw [h]
  · simp [h, MemoryStore.remove, Std.ExtTreeMap.getElem?_erase, hkey]
  · simp [h, MemoryStore.put, Std.ExtTreeMap.getElem?_insert, hkey]
  · simp [h, MemoryStore.put, MemoryStore.remove, Std.ExtTreeMap.getElem?_insert,
      Std.ExtTreeMap.getElem?_erase, hkey]

theorem MemoryStore.signed_call (hsigned : ∀ r ∈ m.recs[c.key]?, sg.verifyRecord r = true) :
    ∀ r ∈ (m.call sg now c).2.recs[c.key]?, sg.verifyRecord r = true := by
  obtain h | h | ⟨r, h | h⟩ := m.call_cases sg now c
  · rw [h]
    exact hsigned
  · simp [h, MemoryStore.remove]
  all_goals simp [h, MemoryStore.put, sg.verifyRecord_sign]

omit m now c

/-! ## Both stores in step -/

variable {found : Option IdempotencyRecord} {sg : Signer} {now : ZonedTime} {ttl : ℤ}
  {c : StoreCall}

/-- A faithful record counts in its file exactly if it counts in memory. -/
theorem filter_fromFile (h : IsFaithful sg ttl now c r) :
    (fromFile sg r).filter (c.counts ttl now) =
      if c.counts ttl now r = true then fromFile sg r else none := by
  rw [fromFile, filter_some]
  by_cases hr : c.counts ttl now r = true
  · obtain ⟨hv, -, hclean, -⟩ := h (.inl hr)
    simp [hv, hr, hclean, filter_some]
  · have hnot : ¬ (sg.verifyRecord r.clean = true ∧ c.counts ttl now r.clean = true) :=
      fun hclean => hr (h (.inr hclean)).2.1
    by_cases hv : sg.verifyRecord r.clean = true
    · have hclean : ¬ c.counts ttl now r.clean = true := fun hc => hnot ⟨hv, hc⟩
      simp [hv, hr, hclean, filter_some]
    · simp [hv, hr]

theorem isSome_yield_of_counts (h : (StoreCall.reserve key runID).counts ttl now r = true) :
    (Reservation.yield r).isSome = true := by
  simp only [StoreCall.counts, Bool.and_eq_true] at h
  exact h.2.2

/-- A reservation that a faithful record blocks in memory is blocked by its file, and the other way
round. -/
theorem isSome_decisive (h : IsFaithful sg ttl now (.reserve key runID) r) :
    (((fromFile sg r).filter ((StoreCall.reserve key runID).counts ttl now)).bind
        Reservation.yield).isSome =
      (((some r).filter ((StoreCall.reserve key runID).counts ttl now)).bind
        Reservation.yield).isSome := by
  rw [filter_fromFile h, filter_some]
  by_cases hr : (StoreCall.reserve key runID).counts ttl now r = true
  · obtain ⟨hv, -, hclean, -⟩ := h (.inl hr)
    simp [hr, fromFile, filter_some, hv, isSome_yield_of_counts hr, isSome_yield_of_counts hclean]
  · simp [hr]

/-- After a call on a faithful record the file still holds what the memory holds. -/
theorem held_fromFile (h : ∀ r ∈ found, IsFaithful sg ttl now c r) :
    c.held sg (fromFile sg) ttl now (found.bind (fromFile sg)) =
      (c.held sg some ttl now found).bind (fromFile sg) := by
  cases c with
  | check key =>
    cases found with
    | none => rfl
    | some r =>
      change (fromFile sg r).filter ((StoreCall.check key).counts ttl now) =
        ((some r).filter ((StoreCall.check key).counts ttl now)).bind (fromFile sg)
      rw [filter_fromFile (h r rfl), filter_some]
      by_cases hlive : (StoreCall.check key).counts ttl now r = true
      · rw [if_pos hlive, if_pos hlive, bind_some]
      · rw [if_neg hlive, if_neg hlive, bind_none]
  | reserve key runID =>
    cases found with
    | none =>
      simp only [StoreCall.held, bind_none, filter_none]
      split <;> rfl
    | some r =>
      simp only [StoreCall.held, bind_some, isSome_decisive (h r rfl)]
      split <;> rfl
  | record r =>
    simp only [StoreCall.held]
    split <;> rfl
  | clear key => rfl

variable {m : MemoryStore} {f : FileStore}

theorem MemoryStore.read_eq (hsigned : ∀ r ∈ m.recs[key]?, sg.verifyRecord r = true) :
    (IdempotencyStore.memory m).read sg key = m.recs[key]? := by
  rw [IdempotencyStore.read]
  cases hget : m.recs[key]? with
  | none => rfl
  | some r => simp [filter_some, hsigned r hget]

/-- The answer of the memory store, and the record that it holds afterwards. -/
theorem MemoryStore.call_spec (hsigned : ∀ r ∈ m.recs[c.key]?, sg.verifyRecord r = true) :
    (m.call sg now c).1 = c.answer now (m.recs[c.key]?.filter (c.counts m.ttl now)) ∧
      (m.call sg now c).2.recs[c.key]? = c.held sg some m.ttl now m.recs[c.key]? := by
  have hsound : (IdempotencyStore.memory m).Sound sg c.key := trivial
  have hspec := IdempotencyStore.call_spec now c hsound
  rw [IdempotencyStore.call_memory, MemoryStore.read_eq hsigned] at hspec
  refine ⟨hspec.1, ?_⟩
  rw [← MemoryStore.read_eq (m.signed_call sg now c hsigned)]
  exact hspec.2.read

/-- The answer of the file store, and the record that it finds afterwards. -/
theorem FileStore.call_spec (hsound : (IdempotencyStore.file f).Sound sg c.key) :
    (f.call sg now c).1 =
        c.answer now (((IdempotencyStore.file f).read sg c.key).filter (c.counts f.ttl now)) ∧
      IdempotencyStore.After sg c.key
        (c.held sg (fromFile sg) f.ttl now ((IdempotencyStore.file f).read sg c.key)) (.file f)
        (.file (f.call sg now c).2) := by
  have hspec := IdempotencyStore.call_spec now c hsound
  rw [IdempotencyStore.call_file] at hspec
  exact hspec

/-- The stores agree on a call exactly if the record that it finds is faithful, and then they stay
alike. -/
theorem Alike.call (h : Alike sg f m c.key) (httl : f.ttl = m.ttl) (now : ZonedTime) :
    ((f.call sg now c).1 = (m.call sg now c).1 ↔
        ∀ r ∈ m.recs[c.key]?, IsFaithful sg m.ttl now c r) ∧
      ((f.call sg now c).1 = (m.call sg now c).1 →
        Alike sg (f.call sg now c).2 (m.call sg now c).2 c.key) := by
  obtain ⟨hfile, hafter⟩ := FileStore.call_spec h.sound
  obtain ⟨hmemory, hheld⟩ := MemoryStore.call_spec h.signed
  rw [h.read, httl] at hfile hafter
  have hiff : (f.call sg now c).1 = (m.call sg now c).1 ↔
      ∀ r ∈ m.recs[c.key]?, IsFaithful sg m.ttl now c r := by
    rw [hfile, hmemory]
    exact answer_iff_faithful sg m.ttl now c _
  refine ⟨hiff, fun hagree => ⟨hafter.sound, ?_, ?_⟩⟩
  · rw [hafter.read, hheld]
    exact held_fromFile (hiff.mp hagree)
  · exact m.signed_call sg now c h.signed

theorem Alike.other {key : Str} (h : Alike sg f m key) (hkey : c.key ≠ key)
    (hname : FileStore.pathFor sg c.key ≠ FileStore.pathFor sg key) :
    Alike sg (f.call sg now c).2 (m.call sg now c).2 key := by
  have hfiles := f.call_files sg now c hname
  have hrecs := m.call_recs sg now c hkey
  refine ⟨?_, ?_, ?_⟩
  · intro data hdata
    rw [hfiles] at hdata
    exact h.sound data hdata
  · have hread : (IdempotencyStore.file (f.call sg now c).2).read sg key =
        (IdempotencyStore.file f).read sg key := by
      simp only [IdempotencyStore.read, FileStore.readLocked, hfiles]
    rw [hread, hrecs]
    exact h.read
  · rw [hrecs]
    exact h.signed

/-! ## Runs -/

/-- A call on the memory store as a step. -/
def memoryStep (sg : Signer) (m : MemoryStore) (a : ZonedTime × StoreCall) : Option MemoryStore :=
  some (m.call sg a.1 a.2).2

/-- The record that the call finds in memory is faithful. -/
def FaithfulCall (sg : Signer) (m : MemoryStore) (a : ZonedTime × StoreCall) : Prop :=
  ∀ r ∈ m.recs[a.2.key]?, IsFaithful sg m.ttl a.1 a.2 r

variable {calls : List (ZonedTime × StoreCall)}

/-- From stores that are alike, the answers agree exactly if all calls are faithful. -/
theorem answers_eq_iff {keys : List Str} (hnames : NamesDistinct sg keys)
    (hkeys : ∀ a ∈ calls, a.2.key ∈ keys)
    (halike : ∀ k ∈ keys, Alike sg f m k) (httl : f.ttl = m.ttl) :
    answersOfFile sg f calls = answersOfMemory sg m calls ↔
      Runs.Guarded (memoryStep sg) (FaithfulCall sg) m calls := by
  -- along the calls: the stores stay alike for all keys as long as the answers agree
  induction calls generalizing f m with
  | nil => simp [answersOfFile, answersOfMemory, Runs.Guarded]
  | cons a calls ih =>
    obtain ⟨now, c⟩ := a
    have hc : c.key ∈ keys := hkeys (now, c) mem_cons_self
    obtain ⟨hiff, hnext⟩ := (halike c.key hc).call httl now
    have hstep : memoryStep sg m (now, c) = some (m.call sg now c).2 := rfl
    rw [answersOfFile, answersOfMemory, Runs.guarded_cons hstep, List.cons.injEq]
    have hguard : FaithfulCall sg m (now, c) ↔ (f.call sg now c).1 = (m.call sg now c).1 :=
      hiff.symm
    rw [hguard]
    apply and_congr_right
    intro hagree
    apply ih
    · exact (forall_mem_of_forall_mem_cons hkeys)
    · intro k hk
      by_cases heq : c.key = k
      · exact heq ▸ hnext hagree
      · refine (halike k hk).other heq fun hname => heq (hnames _ hc _ hk ?_)
        exact append_cancel_right hname
    · have hsame : (f.call sg now c).2.ttl = f.ttl :=
        (FileStore.call_spec (halike c.key hc).sound).2.ttl
      exact hsame.trans (httl.trans (m.call_ttl sg now c).symm)

/-- With the same time to live, the stores give the same answers exactly if every call finds a
faithful record or none. -/
theorem stores_agree_iff {sg : Signer} {ttl : ℤ} (httl : 0 < ttl)
    {calls : List (ZonedTime × StoreCall)} (hnames : NamesDistinct sg (calls.map (·.2.key))) :
    answersOfFile sg (.new ttl) calls = answersOfMemory sg (.new ttl) calls ↔
      Runs.Guarded (memoryStep sg) (FaithfulCall sg) (.new ttl) calls := by
  apply answers_eq_iff hnames
  · exact fun a ha => mem_map_of_mem ha
  · intro k _
    refine ⟨?_, ?_, ?_⟩
    · intro data hdata
      simp [FileStore.new] at hdata
    · simp [IdempotencyStore.read, FileStore.readLocked, FileStore.new, MemoryStore.new]
    · simp [MemoryStore.new]
  · have hpos : ¬ ttl ≤ 0 := not_le.mpr httl
    have hnonneg : ¬ ttl < 0 := not_lt.mpr httl.le
    simp [FileStore.new, MemoryStore.new, hpos, hnonneg]

/-! ## Calls with clean records -/

/-- The record that a call may write is clean. -/
def StoreCall.WritesClean (now : ZonedTime) : StoreCall → Prop
  | .reserve key runID => ValidUtf8 key ∧ ValidUtf8 runID ∧ now.WholeMinutes
  | .record r => (r.stamp now).Clean
  | .check _ => True
  | .clear _ => True

/-- What a call leaves in memory is what was there, or a clean record with its signature. -/
theorem StoreCall.held_clean (hc : c.WritesClean now) (hr : r ∈ c.held sg some ttl now found) :
    r ∈ found ∨ ∃ r', r = sg.sign r' ∧ r'.Clean := by
  cases c with
  | check key => exact .inl (filter_eq_some_iff.mp hr).1
  | reserve key runID =>
    simp only [StoreCall.held] at hr
    split at hr
    · exact .inl hr
    · cases hr
      obtain ⟨hkey, hrunID, hnow⟩ := hc
      exact .inr ⟨_, rfl, IdempotencyRecord.clean_placeholder hkey hrunID hnow⟩
  | record r' =>
    simp only [StoreCall.held] at hr
    split at hr
    · exact .inl hr
    · cases hr
      exact .inr ⟨_, rfl, hc⟩
  | clear key => cases hr

/-- Calls that write clean records only are faithful throughout. -/
theorem guarded_of_writesClean (hcalls : ∀ a ∈ calls, a.2.WritesClean a.1)
    (hm : ∀ k : Str, ∀ r ∈ m.recs[k]?, ∃ r', r = sg.sign r' ∧ r'.Clean) :
    Runs.Guarded (memoryStep sg) (FaithfulCall sg) m calls := by
  induction calls generalizing m with
  | nil => trivial
  | cons a calls ih =>
    obtain ⟨now, c⟩ := a
    have hstep : memoryStep sg m (now, c) = some (m.call sg now c).2 := rfl
    rw [Runs.guarded_cons hstep]
    refine ⟨?_, ih (forall_mem_of_forall_mem_cons hcalls) ?_⟩
    · intro r hr
      obtain ⟨r', rfl, hclean⟩ := hm c.key r hr
      exact isFaithful_of_clean sg hclean m.ttl now c
    · intro k r hr
      by_cases hkey : c.key = k
      · subst hkey
        have hsigned : ∀ r ∈ m.recs[c.key]?, sg.verifyRecord r = true := by
          intro r hr
          obtain ⟨r', rfl, -⟩ := hm c.key r hr
          exact sg.verifyRecord_sign r'
        rw [(MemoryStore.call_spec hsigned).2] at hr
        rcases StoreCall.held_clean (hcalls (now, c) mem_cons_self) hr with hr | hr
        · exact hm c.key r hr
        · exact hr
      · rw [m.call_recs sg now c hkey] at hr
        exact hm k r hr

private theorem isClock_newYear : IsClock (str "2026-01-01T00:00:00") := by
  decide

def storeNow : ZonedTime :=
  { ZonedTime.zero with clock := str "2026-01-01T00:00:00", isClock := isClock_newYear }

/-- A record of a run that has completed with an output. -/
def completedRecord (output : Str) : IdempotencyRecord :=
  { IdempotencyRecord.zero with
    key := str "job"
    runID := str "run-1"
    status := idempotencyStatusCompleted
    finalOutput := output }

/-- A run that is reserved, completed with an output and looked up. -/
def completedCalls (output : Str) : List (ZonedTime × StoreCall) :=
  [(storeNow, .reserve (str "job") (str "run-1")), (storeNow, .record (completedRecord output)),
    (storeNow, .check (str "job")), (storeNow, .clear (str "job"))]

def storeSigner : Signer := ⟨.checked, some (str "secret")⟩

theorem stores_agree_completed :
    answersOfFile storeSigner (.new 1) (completedCalls (str "paid")) =
      answersOfMemory storeSigner (.new 1) (completedCalls (str "paid")) := by
  have hnames : NamesDistinct storeSigner ((completedCalls (str "paid")).map (·.2.key)) := by
    decide
  refine (stores_agree_iff (by decide) hnames).mpr (guarded_of_writesClean ?_ ?_)
  · have hjob : ValidUtf8 (str "job") := coerce_eq_self_iff.mp rfl
    have hrun : ValidUtf8 (str "run-1") := coerce_eq_self_iff.mp rfl
    have hout : ValidUtf8 (str "paid") := coerce_eq_self_iff.mp rfl
    intro a ha
    simp only [completedCalls, mem_cons, not_mem_nil, or_false] at ha
    rcases ha with rfl | rfl | rfl | rfl
    · exact ⟨hjob, hrun, by decide⟩
    · exact ⟨hjob, hrun, validUtf8_nil, validUtf8_completed, hout, validUtf8_nil,
        by decide, by decide⟩
    · trivial
    · trivial
  · simp [MemoryStore.new]

/-- An output that is not valid UTF-8 is found in memory; its file does not verify, and without
signatures it is found changed. -/
theorem not_stores_agree :
    (∃ calls, answersOfFile storeSigner (.new 1) calls ≠
        answersOfMemory storeSigner (.new 1) calls ∧
      NamesDistinct storeSigner (calls.map (·.2.key))) ∧
    ∃ calls, answersOfFile ⟨.checked, none⟩ (.new 1) calls ≠
        answersOfMemory ⟨.checked, none⟩ (.new 1) calls ∧
      NamesDistinct ⟨.checked, none⟩ (calls.map (·.2.key)) := by
  refine ⟨⟨completedCalls [0xFF], ?_, ?_⟩, completedCalls [0xFF], ?_, ?_⟩
  all_goals decide +kernel

end Workflow
