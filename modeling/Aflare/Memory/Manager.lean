import Aflare.Go.Encoding
import Aflare.Lib.Runs
import Aflare.Memory.Session

/-!
# The session manager

The manager keeps at most a given number of sessions in memory. When one more is asked for, it saves
one of them to its file and forgets it; a session that is asked for later is read from its file into
a new object. Callers keep the objects they got and use them without the manager, whose lock they do
not take.

`GetSession` looks for the session without the lock and touches it afterwards; if there is none, it
takes the lock, looks again, evicts, and makes a new session. An eviction copies the session under
the lock of the session, and writes the copy to the file without it. All of this is interleaved with
stores and retrievals through any object. Which session is evicted is left open. -/

namespace Memory

open Go Runs Option Function Std.ExtTreeMap

/-! ## Identifiers -/

/-- The characters of `sessionIDPattern`. -/
def isSessionIDByte (b : UInt8) : Bool :=
  97 ≤ b && b ≤ 122 || 65 ≤ b && b ≤ 90 || 48 ≤ b && b ≤ 57 || b = 95 || b = 45

/-- `sanitizeSessionID`, with the hexadecimal digits of the FNV hash as a parameter. -/
def sanitizeSessionID (fnv : Str → Str) (sessionID : Str) : Str :=
  if 1 ≤ sessionID.length ∧ sessionID.length ≤ 128 ∧ sessionID.all isSessionIDByte then sessionID
  else str "s_" ++ fnv sessionID

/-- The identifier under which `GetSession` keeps a session. -/
def sessionKey (fnv : Str → Str) (sessionID : Str) : Str :=
  sanitizeSessionID fnv (if sessionID = [] then str "default" else sessionID)

/-! ## Files -/

/-- JSON keeps the entry: its texts are valid UTF-8, and its confidence and score are numbers. -/
def MemoryEntry.Encodable (e : MemoryEntry) : Prop :=
  (∀ s ∈ [e.id, e.key, e.value, e.memType, e.level, e.source] ++ e.tags, ValidUtf8 s) ∧
    e.confidence.isSome ∧ e.score.isSome
  deriving Decidable

/-- JSON keeps the session. -/
def SessionMemory.Encodable (sm : SessionMemory) : Prop :=
  ∀ e ∈ sm.entries.toList, ValidUtf8 e.1 ∧ e.2.Encodable
  deriving Decidable

/-- The files of sessions: `json.MarshalIndent` and `json.Unmarshal` of a `sessionData`. What is
read is valid UTF-8 with finite numbers, and what can be written is read back; the clock is before
the year 10000, beyond which a time has no JSON text. -/
structure Codec (B : Type) where
  marshal : SessionMemory → Option B
  unmarshal : B → Option SessionMemory
  unmarshal_marshal : ∀ sm : SessionMemory, sm.Encodable →
    ∃ text, marshal sm = some text ∧ unmarshal text = some sm
  encodable : ∀ text sm, unmarshal text = some sm → sm.Encodable

/-! ## The manager -/

/-- Where a caller is in `GetSession`: outside, with a session that was found and is to be touched,
without one and in front of the lock, behind it, with the copy of a session that is evicted, or with
the session evicted. -/
inductive GetStage
  | idle
  | found (id : Str) (h : ℕ)
  | missing (id : Str)
  | locked (id : Str)
  | saving (id victim : Str) (data : SessionMemory)
  | evicted (id : Str)

/-- The caller has the lock of the manager. -/
def GetStage.Holds : GetStage → Prop
  | .idle => False
  | .found _ _ => False
  | .missing _ => False
  | .locked _ => True
  | .saving _ _ _ => True
  | .evicted _ => True

/-- The identifier of the session that is evicted at the moment. -/
def GetStage.victim : GetStage → Option Str
  | .saving _ victim _ => some victim
  | _ => none

/-- The arguments of `NewSessionMemoryManager`, the hash and the files, and the order in which a
session at capacity goes through its entries. -/
structure Config (B : Type) where
  codec : Codec B
  fnv : Str → Str
  maxSessions : ℤ
  maxPerSession : ℤ
  range : EntryRange

/-- How many sessions are kept in memory. -/
def Config.limit {B : Type} (c : Config B) : ℤ := if c.maxSessions ≤ 0 then 100 else c.maxSessions

/-- The manager, the objects of the sessions, the files, and what the callers know: the handles they
got, what they stored (the newest first), and the retrievals that did not give what was stored last.
-/
structure Manager (ι B : Type) where
  heap : ℕ → SessionMemory
  next : ℕ
  sessions : GoMap Str ℕ
  disk : Str → Option B
  lock : Option ι
  caller : ι → GetStage
  handles : List (Str × ℕ)
  log : List (Str × Str × Str)
  lost : List (Str × Str)

def latest (log : List (Str × Str × Str)) (id key : Str) : Option Str :=
  (log.find? fun r => r.1 = id ∧ r.2.1 = key).map fun r => r.2.2

/-- The steps. Handles are given with the identifier they were got for. -/
inductive ManagerAction (ι : Type)
  | lookup (k : ι) (sessionID : Str)
  | touch (k : ι) (now : ℤ)
  | acquire (k : ι)
  | recheck (k : ι) (now : ℤ)
  | snapshot (k : ι) (victim : Str)
  | persist (k : ι)
  | create (k : ι) (now : ℤ)
  | store (id : Str) (h : ℕ) (args : StoreArgs) (now : ℤ)
  | retrieve (id : Str) (h : ℕ) (key : Str) (now : ℤ)

variable {now : ℤ}

namespace Manager

variable {ι B : Type} [DecidableEq ι] (c : Config B)

/-- A manager without sessions in memory, over any files. -/
def start (disk : Str → Option B) : Manager ι B :=
  ⟨fun _ => newSessionMemory [] 0 0, 0, ∅, disk, none, fun _ => .idle, [], [], []⟩

variable (σ : Manager ι B)

def setCaller (k : ι) (stage : GetStage) : Manager ι B :=
  { σ with caller := Function.update σ.caller k stage }

/-- Write to the object of a session. -/
def setSession (h : ℕ) (sm : SessionMemory) : Manager ι B :=
  { σ with heap := Function.update σ.heap h sm }

def give (k : ι) (id : Str) (h : ℕ) : Manager ι B :=
  { σ.setCaller k .idle with handles := (id, h) :: σ.handles }

/-- `NewSessionMemory` and `loadSessionLocked`. -/
def loaded (id : Str) (now : ℤ) : SessionMemory :=
  match (σ.disk id).bind c.codec.unmarshal with
  | some data => { data with sessionID := id }
  | none => newSessionMemory id c.maxPerSession now

/-- A new session is put into the manager. -/
def insertSession (k : ι) (id : Str) (now : ℤ) : Manager ι B :=
  { (σ.setSession σ.next (σ.loaded c id now)).give k id σ.next with
    next := σ.next + 1
    sessions := σ.sessions.insert id σ.next
    lock := none }

/-- The end of `evictOldestLocked`: the copy is written, unless it cannot be, and the session is
forgotten. -/
def evict (k : ι) (id victim : Str) (data : SessionMemory) : Manager ι B :=
  { σ.setCaller k (.evicted id) with
    disk :=
      match c.codec.marshal data with
      | some text => Function.update σ.disk victim (some text)
      | none => σ.disk
    sessions := σ.sessions.erase victim }

/-- The lost retrievals after one that gives `result`. -/
def lostBy (id key : Str) (result : Except Str MemoryEntry) : List (Str × Str) :=
  if (latest σ.log id key).isSome ∧ latest σ.log id key ≠ result.toOption.map MemoryEntry.value then
    (id, key) :: σ.lost
  else σ.lost

def step : ManagerAction ι → Option (Manager ι B)
  | .lookup k sessionID =>
    match σ.caller k, σ.lock with
    | .idle, none =>
      let id := sessionKey c.fnv sessionID
      match σ.sessions[id]? with
      | some h => some (σ.setCaller k (.found id h))
      | none => some (σ.setCaller k (.missing id))
    | _, _ => none
  | .touch k now =>
    match σ.caller k with
    | .found id h => some ((σ.setSession h ((σ.heap h).touch now)).give k id h)
    | _ => none
  | .acquire k =>
    match σ.caller k, σ.lock with
    | .missing id, none => some { σ.setCaller k (.locked id) with lock := some k }
    | _, _ => none
  | .recheck k now =>
    match σ.caller k with
    | .locked id =>
      match σ.sessions[id]? with
      | some h => some { (σ.setSession h ((σ.heap h).touch now)).give k id h with lock := none }
      | none => none
    | _ => none
  -- the victim is copied under its own lock
  | .snapshot k victim =>
    match σ.caller k, σ.sessions[victim]? with
    | .locked id, some h =>
      if σ.sessions[id]? = none ∧ c.limit ≤ σ.sessions.size then
        some (σ.setCaller k (.saving id victim (σ.heap h)))
      else none
    | _, _ => none
  | .persist k =>
    match σ.caller k with
    | .saving id victim data => some (σ.evict c k id victim data)
    | _ => none
  | .create k now =>
    match σ.caller k with
    | .locked id =>
      if σ.sessions[id]? = none ∧ σ.sessions.size < c.limit then
        some (σ.insertSession c k id now)
      else none
    | .evicted id => some (σ.insertSession c k id now)
    | _ => none
  | .store id h args now =>
    if (id, h) ∈ σ.handles then
      some { σ.setSession h ((σ.heap h).store c.range args now) with
        log := (id, args.key, args.value) :: σ.log }
    else none
  | .retrieve id h key now =>
    if (id, h) ∈ σ.handles then
      let result := (σ.heap h).retrieve key now
      some { σ.setSession h result.2 with lost := σ.lostBy id key result.1 }
    else none

/-! ## Conditions -/

/-- No entry is expired, and a store finds its session below capacity. -/
def Quiet : ManagerAction ι → Prop
  | .store _ h _ now => (σ.heap h).Unexpired now ∧ (σ.heap h).HasRoom
  | .retrieve _ h _ now => (σ.heap h).Unexpired now
  | _ => True

/-- Stores and retrievals go through the object that the manager has, stores not while the session
is being evicted, and what is stored can be written to the file. -/
def Fresh : ManagerAction ι → Prop
  | .store id h args now =>
    σ.sessions[id]? = some h ∧ (∀ k, (σ.caller k).victim ≠ some id) ∧
      (SessionMemory.newEntry args now).Encodable
  | .retrieve id h _ _ => σ.sessions[id]? = some h
  | _ => True

instance (σ : Manager ι B) : DecidablePred (Quiet σ)
  | .store .. => inferInstanceAs (Decidable (_ ∧ _))
  | .retrieve _ h _ now => inferInstanceAs (Decidable ((σ.heap h).Unexpired now))
  | .lookup .. | .touch .. | .acquire .. | .recheck .. | .snapshot .. | .persist .. | .create .. =>
    .isTrue trivial

instance [Fintype ι] (σ : Manager ι B) : DecidablePred (Fresh σ)
  | .store .. => inferInstanceAs (Decidable (_ ∧ (∀ _, _) ∧ _))
  | .retrieve .. => inferInstanceAs (Decidable (_ = _))
  | .lookup .. | .touch .. | .acquire .. | .recheck .. | .snapshot .. | .persist .. | .create .. =>
    .isTrue trivial

/-! ## What a step does -/

inductive Moves (σ : Manager ι B) : ManagerAction ι → Manager ι B → Prop
  | found {k : ι} {sessionID : Str} {h : ℕ}
      (hsession : σ.sessions[sessionKey c.fnv sessionID]? = some h) :
      Moves σ (.lookup k sessionID) (σ.setCaller k (.found (sessionKey c.fnv sessionID) h))
  | missing {k : ι} {sessionID : Str} :
      Moves σ (.lookup k sessionID) (σ.setCaller k (.missing (sessionKey c.fnv sessionID)))
  | touch {k : ι} {now : ℤ} {id : Str} {h : ℕ} :
      Moves σ (.touch k now) ((σ.setSession h ((σ.heap h).touch now)).give k id h)
  | acquire {k : ι} {id : Str} (hfree : σ.lock = none) :
      Moves σ (.acquire k) { σ.setCaller k (.locked id) with lock := some k }
  | recheck {k : ι} {now : ℤ} {id : Str} {h : ℕ} (hstage : σ.caller k = .locked id) :
      Moves σ (.recheck k now)
        { (σ.setSession h ((σ.heap h).touch now)).give k id h with lock := none }
  | snapshot {k : ι} {id victim : Str} {h : ℕ} (hstage : σ.caller k = .locked id)
      (hvictim : σ.sessions[victim]? = some h) (hid : σ.sessions[id]? = none) :
      Moves σ (.snapshot k victim) (σ.setCaller k (.saving id victim (σ.heap h)))
  | persist {k : ι} {id victim : Str} {data : SessionMemory}
      (hstage : σ.caller k = .saving id victim data) :
      Moves σ (.persist k) (σ.evict c k id victim data)
  | create {k : ι} {now : ℤ} {id : Str} (hholds : (σ.caller k).Holds)
      (hid : σ.caller k = .evicted id ∨ σ.sessions[id]? = none) :
      Moves σ (.create k now) (σ.insertSession c k id now)
  | store {id : Str} {h : ℕ} {args : StoreArgs} {now : ℤ} :
      Moves σ (.store id h args now) { σ.setSession h ((σ.heap h).store c.range args now) with
        log := (id, args.key, args.value) :: σ.log }
  | retrieve {id : Str} {h : ℕ} {key : Str} {now : ℤ} :
      Moves σ (.retrieve id h key now) { σ.setSession h ((σ.heap h).retrieve key now).2 with
        lost := σ.lostBy id key ((σ.heap h).retrieve key now).1 }

variable {c} {σ σ' : Manager ι B} {a : ManagerAction ι} {k : ι}

theorem moves_of_step (h : step c σ a = some σ') : Moves c σ a σ' := by
  cases a with
  | create k now =>
    simp only [step] at h
    split at h
    · next id hstage =>
      obtain ⟨hroom, rfl⟩ := ite_some_none_eq_some.mp h
      exact .create (by rw [hstage]; trivial) (.inr hroom.1)
    · next id hstage =>
      cases h
      exact .create (by rw [hstage]; trivial) (.inl hstage)
    · cases h
  | _ => grind [step, Moves]

/-! ## What was stored is kept -/

/-- Every key has the value stored last. -/
def Keeps (log : List (Str × Str × Str)) (id : Str) (sm : SessionMemory) : Prop :=
  ∀ key value, latest log id key = some value → ∃ e, sm.entries[key]? = some e ∧ e.value = value

/-- The session has what was stored, and can be written to its file. -/
structure Good (log : List (Str × Str × Str)) (id : Str) (sm : SessionMemory) : Prop where
  keeps : Keeps log id sm
  encodable : sm.Encodable

/-- What is known of a caller with the lock: the session it asked for is not in the manager, and the
one that it evicts is, with a good copy. -/
def StageOk (log : List (Str × Str × Str)) (sessions : GoMap Str ℕ) :
    GetStage → Prop
  | .saving id victim data =>
    sessions[id]? = none ∧ (∃ h, sessions[victim]? = some h) ∧ Good log victim data
  | .evicted id => sessions[id]? = none
  | _ => True

variable (c) in
/-- The invariant. A session is good in memory, or it would be loaded as a good one. -/
structure Inv (σ : Manager ι B) : Prop where
  live : ∀ (id : Str) (h : ℕ), σ.sessions[id]? = some h → h < σ.next ∧ Good σ.log id (σ.heap h)
  unique : ∀ (id id' : Str) (h : ℕ), σ.sessions[id]? = some h → σ.sessions[id']? = some h → id = id'
  filed : ∀ id : Str, σ.sessions[id]? = none → ∀ now, Good σ.log id (σ.loaded c id now)
  holder : ∀ k, (σ.caller k).Holds → σ.lock = some k
  stages : ∀ k, StageOk σ.log σ.sessions (σ.caller k)
  lost : σ.lost = []

variable {log : List (Str × Str × Str)} {id id' key value : Str}
  {sm sm' : SessionMemory} {stage : GetStage}

theorem latest_cons_self : latest ((id, key, value) :: log) id key = some value := by
  simp [latest]

theorem latest_cons_of_ne {key' : Str} (h : id ≠ id' ∨ key ≠ key') :
    latest ((id, key, value) :: log) id' key' = latest log id' key' := by
  have hne : ¬ (id = id' ∧ key = key') := not_and_or.mpr h
  simp [latest, hne]

theorem Good.of_entries (h : Good log id sm) (hentries : sm'.entries = sm.entries) :
    Good log id sm' := by
  refine ⟨?_, ?_⟩
  · rw [Keeps, hentries]
    exact h.keeps
  · rw [SessionMemory.Encodable, hentries]
    exact h.encodable

theorem Good.cons_of_ne (h : Good log id' sm) (hne : id ≠ id') :
    Good ((id, key, value) :: log) id' sm := by
  refine ⟨fun key' value' hlatest => h.keeps key' value' ?_, h.encodable⟩
  rwa [latest_cons_of_ne (.inl hne)] at hlatest

theorem encodable_iff : sm.Encodable ↔ ∀ (key : Str) (e : MemoryEntry),
    sm.entries[key]? = some e → ValidUtf8 key ∧ e.Encodable := by
  simp [SessionMemory.Encodable, mem_toList_iff_getElem?_eq_some]

/-- A session in which one entry is written. -/
theorem Good.insert {log' : List (Str × Str × Str)} {e : MemoryEntry} (h : Good log id sm)
    (hkey : ValidUtf8 key) (he : e.Encodable) (hentries : sm'.entries = sm.entries.insert key e)
    (hlatest : ∀ value, latest log' id key = some value → e.value = value)
    (hothers : ∀ key', key ≠ key' → latest log' id key' = latest log id key') :
    Good log' id sm' := by
  refine ⟨fun key' value hvalue => ?_, encodable_iff.mpr ?_⟩
  · by_cases hsame : key = key'
    · subst hsame
      exact ⟨e, by simp [hentries], hlatest value hvalue⟩
    · rw [hothers key' hsame] at hvalue
      simpa [hentries, getElem?_insert, hsame] using h.keeps key' value hvalue
  · rw [hentries]
    exact GoMap.Forall.insert (encodable_iff.mp h.encodable) ⟨hkey, he⟩

/-- What `Store` leaves below capacity. -/
theorem Good.store {args : StoreArgs} (h : Good log id sm) (hroom : sm.HasRoom)
    (hargs : (SessionMemory.newEntry args now).Encodable) (range : EntryRange) :
    Good ((id, args.key, args.value) :: log) id (sm.store range args now) := by
  rw [SessionMemory.store_of_hasRoom hroom]
  have hkey : ValidUtf8 args.key := hargs.1 args.key (by simp [SessionMemory.newEntry])
  refine h.insert hkey hargs rfl (fun value hvalue => ?_) fun key' hne =>
    latest_cons_of_ne (.inr hne)
  rw [latest_cons_self] at hvalue
  exact some.inj hvalue

/-- What `Retrieve` leaves if nothing is expired. -/
theorem Good.retrieve (h : Good log id sm) (hnow : sm.Unexpired now) :
    Good log id (sm.retrieve key now).2 := by
  cases hget : sm.entries[key]? with
  | none =>
    rw [SessionMemory.retrieve_of_none hget]
    exact h
  | some e =>
    rw [SessionMemory.retrieve_of_some hget (SessionMemory.unexpired_iff.mp hnow key e hget)]
    obtain ⟨hkey, he⟩ := encodable_iff.mp h.encodable key e hget
    have htouched : ({ e with accessedAt := now } : MemoryEntry).Encodable := he
    refine h.insert hkey htouched rfl (fun value hvalue => ?_) fun _ _ => rfl
    obtain ⟨e', he', hvalue⟩ := h.keeps key value hvalue
    obtain rfl := some.inj (hget.symm.trans he')
    exact hvalue

omit [DecidableEq ι] in
theorem Good.lostBy (h : Good σ.log id sm) (hnow : sm.Unexpired now) :
    σ.lostBy id key (sm.retrieve key now).1 = σ.lost := by
  refine if_neg ?_
  rintro ⟨hsome, hne⟩
  obtain ⟨value, hlatest⟩ := isSome_iff_exists.mp hsome
  obtain ⟨e, he, hvalue⟩ := h.keeps key value hlatest
  apply hne
  rw [SessionMemory.retrieve_of_some he (SessionMemory.unexpired_iff.mp hnow key e he), hlatest,
    ← hvalue]
  rfl

/-! ## The steps keep it -/

theorem stageOk_of_not_holds {sessions : GoMap Str ℕ} (h : ¬ stage.Holds) :
    StageOk log sessions stage := by
  cases stage with
  | idle | found | missing | locked => trivial
  | saving | evicted => exact absurd trivial h

omit [DecidableEq ι] in
theorem inv_start (disk : Str → Option B) : Inv c (start disk : Manager ι B) where
  live := fun id h hget => by simp [start] at hget
  unique := fun id id' h hget => by simp [start] at hget
  filed := fun id _ now => by
    refine ⟨fun key value hlatest => by simp [start, latest] at hlatest, ?_⟩
    unfold loaded
    split
    · next data hdata =>
      obtain ⟨text, -, htext⟩ := bind_eq_some_iff.mp hdata
      exact c.codec.encodable text data htext
    · simp [SessionMemory.Encodable, newSessionMemory]
  holder := fun k hholds => hholds.elim
  stages := fun k => trivial
  lost := rfl

variable (hinv : Inv c σ)

include hinv

theorem Inv.setCaller (hstage : StageOk σ.log σ.sessions stage)
    (hlock : stage.Holds → σ.lock = some k) : Inv c (σ.setCaller k stage) :=
  { hinv with
    holder := (forall_update_iff σ.caller fun k' s => s.Holds → σ.lock = some k').mpr
      ⟨hlock, fun k' _ => hinv.holder k'⟩
    stages := (forall_update_iff σ.caller fun _ s => StageOk σ.log σ.sessions s).mpr
      ⟨hstage, fun k' _ => hinv.stages k'⟩ }

omit [DecidableEq ι] in
theorem Inv.setSession {h : ℕ} (hgood : ∀ id : Str, σ.sessions[id]? = some h → Good σ.log id sm) :
    Inv c (σ.setSession h sm) := by
  refine { hinv with live := fun id h' hget => ?_ }
  obtain ⟨hlt, hlive⟩ := hinv.live id h' hget
  refine ⟨hlt, ?_⟩
  by_cases hh : h' = h
  · subst hh
    simpa [Manager.setSession] using hgood id hget
  · simpa [Manager.setSession, hh] using hlive

theorem Inv.give_touch {h : ℕ} : Inv c ((σ.setSession h ((σ.heap h).touch now)).give k id h) := by
  have htouched : Inv c (σ.setSession h ((σ.heap h).touch now)) :=
    hinv.setSession fun id hget => (hinv.live id h hget).2.of_entries rfl
  have hidle : Inv c ((σ.setSession h ((σ.heap h).touch now)).setCaller k .idle) :=
    htouched.setCaller trivial False.elim
  exact { hidle with }

omit [DecidableEq ι] in
theorem Inv.not_holds {k' : ι} (hholds : (σ.caller k).Holds) (hk : k' ≠ k) :
    ¬ (σ.caller k').Holds := fun hholds' =>
  hk (some.inj ((hinv.holder k' hholds').symm.trans (hinv.holder k hholds)))

/-- A session that is not in memory is loaded and put there. -/
theorem Inv.insertSession (hholds : (σ.caller k).Holds)
    (hid : σ.sessions[id]? = none) : Inv c (σ.insertSession c k id now) where
  live := fun id' h hget => by
    simp only [Manager.insertSession, getElem?_insert, Std.LawfulEqOrd.compare_eq_iff_eq] at hget
    split_ifs at hget with hsame
    · subst hsame
      cases hget
      refine ⟨Nat.lt_succ_self _, ?_⟩
      simpa [Manager.insertSession, give, Manager.setSession, Manager.setCaller]
        using hinv.filed id hid now
    · obtain ⟨hlt, hlive⟩ := hinv.live id' h hget
      refine ⟨Nat.lt_succ_of_lt hlt, ?_⟩
      simpa [Manager.insertSession, give, Manager.setSession, Manager.setCaller, hlt.ne] using hlive
  unique := fun id₁ id₂ h hget₁ hget₂ => by
    -- the new handle is new
    have hnew : ∀ id' : Str, σ.sessions[id']? ≠ some σ.next := fun id' hget =>
      (hinv.live id' _ hget).1.false
    simp only [Manager.insertSession, getElem?_insert,
      Std.LawfulEqOrd.compare_eq_iff_eq] at hget₁ hget₂
    split_ifs at hget₁ hget₂ with h₁ h₂ h₂
    · exact h₁.symm.trans h₂
    · cases hget₁
      exact absurd hget₂ (hnew id₂)
    · cases hget₂
      exact absurd hget₁ (hnew id₁)
    · exact hinv.unique id₁ id₂ h hget₁ hget₂
  filed := fun id' hget now' => by
    simp only [Manager.insertSession, getElem?_insert] at hget
    split at hget
    · cases hget
    · exact hinv.filed id' hget now'
  holder := (forall_update_iff σ.caller fun k' s => s.Holds → none = some k').mpr
    ⟨False.elim, fun k' hk hholds' => absurd hholds' (hinv.not_holds hholds hk)⟩
  stages :=
    (forall_update_iff σ.caller fun _ s => StageOk σ.log (σ.sessions.insert id σ.next) s).mpr
    ⟨trivial, fun k' hk => stageOk_of_not_holds (hinv.not_holds hholds hk)⟩
  lost := hinv.lost

/-- A good copy is written, and read back as a good session. -/
theorem Inv.evict {victim : Str} {data : SessionMemory}
    (hstage : σ.caller k = .saving id victim data) : Inv c (σ.evict c k id victim data) := by
  have hok := hinv.stages k
  rw [hstage] at hok
  obtain ⟨hid, ⟨h, hvictim⟩, hgood⟩ := hok
  have hholds : (σ.caller k).Holds := by rw [hstage]; trivial
  obtain ⟨text, hmarshal, hunmarshal⟩ := c.codec.unmarshal_marshal data hgood.encodable
  have hget : ∀ {id' : Str} {h' : ℕ},
      (σ.sessions.erase victim)[id']? = some h' → σ.sessions[id']? = some h' := by
    simp [getElem?_erase]
  refine ⟨fun id' h' h => hinv.live id' h' (hget h),
    fun id₁ id₂ h' h₁ h₂ => hinv.unique id₁ id₂ h' (hget h₁) (hget h₂), ?_, ?_, ?_, hinv.lost⟩
  · intro id' hnone now
    by_cases hsame : id' = victim
    · subst hsame
      have hloaded : (σ.evict c k id id' data).loaded c id' now =
          { data with sessionID := id' } := by
        simp [loaded, Manager.evict, hmarshal, hunmarshal]
      rw [hloaded]
      exact hgood.of_entries rfl
    · have hloaded : (σ.evict c k id victim data).loaded c id' now = σ.loaded c id' now := by
        simp [loaded, Manager.evict, hmarshal, hsame]
      rw [hloaded]
      refine hinv.filed id' ?_ now
      simpa [Manager.evict, getElem?_erase, Ne.symm hsame] using hnone
  · exact (forall_update_iff σ.caller fun k' s => s.Holds → σ.lock = some k').mpr
      ⟨fun _ => hinv.holder k hholds, fun k' _ => hinv.holder k'⟩
  · exact (forall_update_iff σ.caller fun _ s => StageOk σ.log (σ.sessions.erase victim) s).mpr
      ⟨by simp [StageOk, getElem?_erase, hid],
        fun k' hk => stageOk_of_not_holds (hinv.not_holds hholds hk)⟩

omit [DecidableEq ι] in
/-- A store through the object of the manager, while the session is not evicted. -/
theorem Inv.store {h : ℕ} {args : StoreArgs}
    (hquiet : Quiet σ (.store id h args now)) (hfresh : Fresh σ (.store id h args now)) :
    Inv c { σ.setSession h ((σ.heap h).store c.range args now) with
      log := (id, args.key, args.value) :: σ.log } := by
  obtain ⟨hcurrent, hsaving, hargs⟩ := hfresh
  refine { hinv with
    live := fun id' h' hget => ?_, filed := fun id' hnone now' => ?_, stages := fun k => ?_ }
  · obtain ⟨hlt, hlive⟩ := hinv.live id' h' hget
    refine ⟨hlt, ?_⟩
    by_cases hh : h' = h
    · subst hh
      obtain rfl := hinv.unique id id' h' hcurrent hget
      simpa [Manager.setSession] using hlive.store hquiet.2 hargs c.range
    · have hne : id ≠ id' := by
        rintro rfl
        exact hh (some.inj (hget.symm.trans hcurrent))
      simpa [Manager.setSession, hh] using hlive.cons_of_ne hne
  · have hne : id ≠ id' := by
      rintro rfl
      exact some_ne_none h (hcurrent.symm.trans hnone)
    exact (hinv.filed id' hnone now').cons_of_ne hne
  · have hok := hinv.stages k
    have hvictim := hsaving k
    change StageOk _ _ (σ.caller k)
    cases hstage : σ.caller k with
    | saving id' victim data =>
      rw [hstage] at hok hvictim
      obtain ⟨hid, hin, hgood⟩ := hok
      exact ⟨hid, hin, hgood.cons_of_ne fun hne => hvictim (hne ▸ rfl)⟩
    | evicted id' =>
      rw [hstage] at hok
      exact hok
    | idle | found | missing | locked => trivial

/-- Every step that meets the conditions keeps the invariant. -/
theorem Inv.step (hguard : Quiet σ a ∧ Fresh σ a) (hstep : step c σ a = some σ') : Inv c σ' := by
  cases moves_of_step hstep with
  | found | missing => exact hinv.setCaller trivial False.elim
  | touch => exact hinv.give_touch
  | @acquire k id hfree =>
    -- nobody had the lock
    have hnone : ∀ k', ¬ (σ.caller k').Holds := fun k' hholds =>
      some_ne_none k' ((hinv.holder k' hholds).symm.trans hfree)
    refine { hinv with holder := ?_, stages := ?_ }
    · exact (forall_update_iff σ.caller fun k' s => s.Holds → some k = some k').mpr
        ⟨fun _ => rfl, fun k' _ hholds => absurd hholds (hnone k')⟩
    · exact (forall_update_iff σ.caller fun _ s => StageOk σ.log σ.sessions s).mpr
        ⟨trivial, fun k' _ => hinv.stages k'⟩
  | @recheck k now id h hstage =>
    have hgiven : Inv c ((σ.setSession h ((σ.heap h).touch now)).give k id h) := hinv.give_touch
    refine { hgiven with holder := fun k' hholds => ?_ }
    have hlock : σ.lock = some k := hinv.holder k (by rw [hstage]; trivial)
    -- the caller had the lock, and gives it back
    obtain rfl : k = k' := some.inj (hlock.symm.trans (hgiven.holder k' hholds))
    simp [give, Manager.setCaller, GetStage.Holds] at hholds
  | @snapshot k id victim h hstage hvictim hid =>
    refine hinv.setCaller ⟨hid, ⟨h, hvictim⟩, (hinv.live victim h hvictim).2⟩ fun _ => ?_
    exact hinv.holder k (by rw [hstage]; trivial)
  | persist hstage => exact hinv.evict hstage
  | @create k now id hholds hid =>
    refine hinv.insertSession hholds ?_
    obtain hstage | hid := hid
    · have hok := hinv.stages k
      rwa [hstage] at hok
    · exact hid
  | store => exact hinv.store hguard.1 hguard.2
  | @retrieve id h key now =>
    have hlive := (hinv.live id h hguard.2).2
    have hkept : Inv c (σ.setSession h ((σ.heap h).retrieve key now).2) :=
      hinv.setSession fun id' hget => (hinv.live id' h hget).2.retrieve hguard.1
    refine { hkept with lost := ?_ }
    exact (hlive.lostBy hguard.1).trans hinv.lost

omit hinv

/-- No update is lost: if stores and retrievals go through the object that the manager has, and no
store comes while its session is being evicted, every retrieval gives the value stored last. -/
theorem no_lost_update {disk : Str → Option B} {actions : List (ManagerAction ι)}
    {σ : Manager ι B} (hrun : run (step c) (start disk) actions = some σ)
    (hquiet : Guarded (step c) Quiet (start disk) actions)
    (hfresh : Guarded (step c) Fresh (start disk) actions) : σ.lost = [] :=
  ((hquiet.and hfresh).invariant (fun _ _ _ hinv hguard hstep => hinv.step hguard hstep)
    (inv_start disk) hrun).lost

/-! ## One session at a time -/

theorem encodable_unmarshal (text : { sm : SessionMemory // sm.Encodable }) (sm : SessionMemory)
    (h : some text.val = some sm) : sm.Encodable := some.inj h ▸ text.2

theorem unmarshal_marshal (sm : SessionMemory) (h : sm.Encodable) :
    ∃ text : { sm : SessionMemory // sm.Encodable },
      (if h : sm.Encodable then some ⟨sm, h⟩ else none) = some text ∧ some text.val = some sm :=
  ⟨⟨sm, h⟩, dif_pos h, rfl⟩

/-- A manager that keeps one session in memory; its files are sessions. -/
def oneSession : Config { sm : SessionMemory // sm.Encodable } where
  codec := ⟨fun sm => if h : sm.Encodable then some ⟨sm, h⟩ else none, fun text => some text.val,
    unmarshal_marshal, encodable_unmarshal⟩
  fnv := fun _ => []
  maxSessions := 1
  maxPerSession := 10
  range := fun entries => entries.toList

def likesTea : StoreArgs where
  key := str "drink"
  value := str "tea"
  level := str "long"
  memType := str "fact"
  tags := []
  ttlHours := 0
  confidence := some 1
  source := str "user"

/-- `GetSession` for a session that is not in memory, while another one is. -/
def swap (sessionID victim : Str) (now : ℤ) : List (ManagerAction Unit) :=
  [.lookup () sessionID, .acquire (), .snapshot () victim, .persist (), .create () now]

/-- The session `a` is in memory, with handle 0. -/
def getFirst : List (ManagerAction Unit) := [.lookup () (str "a"), .acquire (), .create () 0]

/-- Store, evict the session, and load it again. -/
def storeAndReload : List (ManagerAction Unit) :=
  getFirst ++ [.store (str "a") 0 likesTea 1] ++ swap (str "b") (str "a") 2 ++
    swap (str "a") (str "b") 3 ++ [.retrieve (str "a") 2 (str "drink") 4]

theorem no_lost_update_reloaded :
    ∃ σ : Manager Unit { sm : SessionMemory // sm.Encodable },
      run (step oneSession) (start fun _ => none) storeAndReload = some σ ∧
        latest σ.log (str "a") (str "drink") = some (str "tea") ∧ σ.lost = [] := by
  have hlatest : (run (step oneSession) (start fun _ => none) storeAndReload).map
      (fun σ => latest σ.log (str "a") (str "drink")) = some (some (str "tea")) := by decide
  obtain ⟨σ, hrun, hlatest⟩ := map_eq_some_iff.mp hlatest
  exact ⟨σ, hrun, hlatest, no_lost_update hrun (by decide +kernel) (by decide +kernel)⟩

/-- The session is evicted before the store: its object is no longer the one of the manager, and
what is stored there is in no file. -/
theorem not_no_lost_update :
    let actions := getFirst ++ swap (str "b") (str "a") 1 ++ [.store (str "a") 0 likesTea 2] ++
      swap (str "a") (str "b") 3 ++ [.retrieve (str "a") 2 (str "drink") 4]
    (run (step oneSession) (start fun _ => none) actions).map Manager.lost =
        some [(str "a", str "drink")] ∧
      Guarded (step oneSession) Quiet (start fun _ => none) actions := by
  decide

end Manager

end Memory
