import Aflare.Go.Strings
import Aflare.Lib.Runs

/-!
# The debounced quota writer

The router hands its usage counts to a saver, which keeps the latest update for each tenant and
provider and writes them to the store from a goroutine of its own, at every tick and once more when
it is closed. A call is refused after the saver was closed; the check is made before the lock on the
pending updates is taken, so a call may pass it and put its update there much later.

An update counts as accepted from the moment it is put into the pending map: the call that puts it
there returns true.
-/

namespace Nodes

open Go List

/-! ## Updates -/

structure QuotaUpdate where
  tenant : Str
  provider : Str
  usage : ℤ
  day : Str
  clear : Bool
  deriving DecidableEq

/-- The entries of a quota store, by tenant and provider: usage and day. -/
abbrev QuotaStore := Str × Str → Option (ℤ × Str)

/-- A call of the saver. -/
inductive QuotaCall
  | save (tenant provider : Str) (usage : ℤ) (day : Str)
  | enqueueClear (tenant provider : Str)

/-- The update that a call puts into the pending map. -/
def QuotaCall.update : QuotaCall → QuotaUpdate
  | .save tenant provider usage day => ⟨tenant, provider, usage, day, false⟩
  | .enqueueClear tenant provider => ⟨tenant, provider, 0, [], true⟩

namespace QuotaUpdate

variable (u : QuotaUpdate)

def pair : Str × Str := (u.tenant, u.provider)

def key : Str := u.tenant ++ 0 :: u.provider

theorem key_congr {u v : QuotaUpdate} (h : u.pair = v.pair) : u.key = v.key := by
  obtain ⟨htenant, hprovider⟩ := Prod.mk.inj h
  rw [key, key, htenant, hprovider]

/-- What the store holds for the pair after the update. -/
def effect : Option (ℤ × Str) := if u.clear then none else some (u.usage, u.day)

/-- The update written to the store, by `Clear` or `Save`. -/
def apply (store : QuotaStore) : QuotaStore := Function.update store u.pair u.effect

end QuotaUpdate

/-- The store under a list of updates, of which the first one for a pair counts. -/
def overlay (updates : List QuotaUpdate) (store : QuotaStore) : QuotaStore := fun p =>
  match updates.find? (·.pair = p) with
  | some u => u.effect
  | none => store p

/-- The pending updates with one more: it takes the place of the update with its key. -/
def put (u : QuotaUpdate) (pending : List QuotaUpdate) : List QuotaUpdate :=
  u :: pending.filter (·.key ≠ u.key)

section Overlay

variable {u : QuotaUpdate} {l : List QuotaUpdate} {store : QuotaStore}

theorem overlay_cons : overlay (u :: l) store = u.apply (overlay l store) := by
  funext p
  by_cases hp : u.pair = p
  · simp [overlay, QuotaUpdate.apply, hp]
  · simp [overlay, QuotaUpdate.apply, hp, Function.update_of_ne (Ne.symm hp)]

theorem overlay_append (l' : List QuotaUpdate) :
    overlay (l ++ l') store = overlay l (overlay l' store) := by
  induction l with
  | nil => rfl
  | cons u l ih => rw [cons_append, overlay_cons, overlay_cons, ih]

theorem apply_comm {v : QuotaUpdate} (h : u.pair ≠ v.pair) :
    u.apply (v.apply store) = v.apply (u.apply store) := Function.update_comm h.symm _ _ _

theorem overlay_apply (h : u.pair ∉ l.map QuotaUpdate.pair) :
    overlay l (u.apply store) = u.apply (overlay l store) := by
  induction l with
  | nil => rfl
  | cons v l ih =>
    rw [map_cons, mem_cons, not_or] at h
    rw [overlay_cons, overlay_cons, ih h.2, apply_comm h.1]

theorem overlay_eraseIdx {i : ℕ} (hnodup : (l.map QuotaUpdate.pair).Nodup) (hu : l[i]? = some u) :
    overlay (l.eraseIdx i) (u.apply store) = overlay l store := by
  induction l generalizing i with
  | nil => simp at hu
  | cons v l ih =>
    rw [map_cons, nodup_cons] at hnodup
    cases i with
    | zero =>
      cases hu
      rw [eraseIdx_cons_zero, overlay_apply hnodup.1, overlay_cons]
    | succ i => rw [eraseIdx_cons_succ, overlay_cons, overlay_cons, ih hnodup.2 hu]

theorem overlay_put (hkey : ∀ v ∈ l, v.key = u.key → v.pair = u.pair) :
    overlay (put u l) store = u.apply (overlay l store) := by
  rw [put, overlay_cons]
  induction l with
  | nil => rfl
  | cons v l ih =>
    have hrest := ih fun w hw => hkey w (mem_cons_of_mem v hw)
    by_cases hv : v.key = u.key
    · -- what `v` has written is written over
      have hpair : v.pair = u.pair := hkey v mem_cons_self hv
      rw [filter_cons_of_neg (by simpa using hv), hrest, overlay_cons, QuotaUpdate.apply,
        QuotaUpdate.apply, QuotaUpdate.apply, hpair, Function.update_idem]
    · have hpair : u.pair ≠ v.pair := fun h => hv (QuotaUpdate.key_congr h.symm)
      rw [filter_cons_of_pos (by simpa using hv), overlay_cons, overlay_cons, apply_comm hpair,
        hrest, apply_comm hpair]

theorem nodup_put (hnodup : (l.map QuotaUpdate.pair).Nodup) :
    ((put u l).map QuotaUpdate.pair).Nodup := by
  rw [put, map_cons, nodup_cons]
  constructor
  · intro hmem
    obtain ⟨v, hv, hpair⟩ := mem_map.mp hmem
    exact of_decide_eq_true (mem_filter.mp hv).2 (QuotaUpdate.key_congr hpair)
  · exact hnodup.sublist (filter_sublist.map _)

end Overlay

/-! ## The saver -/

/-- Where the goroutine of the saver is. -/
inductive SaverLoop
  | waiting
  /-- The updates of the batch that are not written yet, and whether it is the last batch. -/
  | flushing (rest : List QuotaUpdate) (last : Bool)
  | exited
  deriving DecidableEq

/-- The updates of the batch that are not written yet. -/
def SaverLoop.rest : SaverLoop → List QuotaUpdate
  | .flushing rest _ => rest
  | _ => []

/-- The goroutine has taken its last batch. -/
def SaverLoop.last : SaverLoop → Bool
  | .waiting => false
  | .flushing _ last => last
  | .exited => true

/-- `quotaSaver` with its store and the calls that are under way. -/
structure QuotaSaver where
  pending : List QuotaUpdate
  closed : Bool
  done : Bool
  /-- The calls that have found the saver open and do not have the lock yet. -/
  called : List QuotaUpdate
  /-- The updates that were put into the pending map, in this order. -/
  accepted : List QuotaUpdate
  loop : SaverLoop
  store : QuotaStore

/-- The steps of the callers, of the goroutine and of `close`. -/
inductive SaverAction
  | call (c : QuotaCall)
  | enqueue (i : ℕ)
  | tick
  | stop
  | write (i : ℕ)
  | flushed
  | close
  | signal

namespace QuotaSaver

/-- `newQuotaSaver`. -/
def new (store : QuotaStore) : QuotaSaver where
  pending := []
  closed := false
  done := false
  called := []
  accepted := []
  loop := .waiting
  store := store

variable (s : QuotaSaver)

/-- The goroutine takes all pending updates. -/
def takePending (last : Bool) : Option QuotaSaver :=
  match s.loop with
  | .waiting => some { s with pending := [], loop := .flushing s.pending last }
  | _ => none

/-- One step; `none` if it cannot happen now. The updates of a batch are written in the order in
which the map is ranged over, which is any. -/
def step (s : QuotaSaver) : SaverAction → Option QuotaSaver
  | .call c => if s.closed then some s else some { s with called := s.called ++ [c.update] }
  | .enqueue i =>
    match s.called[i]? with
    | none => none
    | some u =>
      some { s with
        called := s.called.eraseIdx i
        pending := put u s.pending
        accepted := s.accepted ++ [u] }
  | .tick => s.takePending false
  | .stop => if s.done then s.takePending true else none
  | .write i =>
    match s.loop with
    | .flushing rest last =>
      match rest[i]? with
      | none => none
      | some u =>
        some { s with store := u.apply s.store, loop := .flushing (rest.eraseIdx i) last }
    | _ => none
  | .flushed =>
    match s.loop with
    | .flushing [] last => some { s with loop := if last then .exited else .waiting }
    | _ => none
  | .close => some { s with closed := true }
  | .signal => if s.closed then some { s with done := true } else none

end QuotaSaver

/-- The effect of the accepted updates: for every pair that of the last one. -/
def acceptedEffect (store : QuotaStore) (accepted : List QuotaUpdate) : QuotaStore :=
  overlay accepted.reverse store

/-- An update is put into the pending map before the goroutine takes its last batch, and does not
take the place of an update of another pair. -/
def InTime (s : QuotaSaver) : SaverAction → Prop
  | .enqueue i => ∀ u ∈ s.called[i]?, s.loop.last = false ∧
      ∀ v ∈ s.pending, v.key = u.key → v.pair = u.pair
  | _ => True

instance (s : QuotaSaver) (a : SaverAction) : Decidable (InTime s a) :=
  match a with
  | .enqueue i => inferInstanceAs (Decidable (∀ u ∈ s.called[i]?, _ ∧ ∀ v ∈ s.pending, _ → _))
  | .call _ | .tick | .stop | .write _ | .flushed | .close | .signal => .isTrue trivial

namespace QuotaSaver

/-! ## The invariant -/

/-- The store under the updates that are not written yet is what was accepted, and nothing is
pending once the last batch was taken. -/
structure Inv (store : QuotaStore) (s : QuotaSaver) : Prop where
  view : overlay (s.pending ++ s.loop.rest) s.store = acceptedEffect store s.accepted
  nodup_pending : (s.pending.map QuotaUpdate.pair).Nodup
  nodup_rest : (s.loop.rest.map QuotaUpdate.pair).Nodup
  pending_of_last : s.loop.last = true → s.pending = []

variable {store : QuotaStore} {s s' : QuotaSaver}

theorem inv_new : Inv store (new store) where
  view := rfl
  nodup_pending := nodup_nil
  nodup_rest := nodup_nil
  pending_of_last h := by cases h

variable (hinv : Inv store s)

include hinv

theorem Inv.takePending {last : Bool} (h : s.takePending last = some s') : Inv store s' := by
  obtain ⟨hview, hpending, -, -⟩ := hinv
  rw [QuotaSaver.takePending] at h
  split at h
  · cases h
    refine ⟨?_, nodup_nil, hpending, fun _ => rfl⟩
    simpa [SaverLoop.rest, *] using hview
  · cases h

theorem Inv.enqueue {i : ℕ} (hguard : InTime s (.enqueue i))
    (h : s.step (.enqueue i) = some s') : Inv store s' := by
  obtain ⟨hview, hpending, hrest, -⟩ := hinv
  simp only [step] at h
  split at h
  · cases h
  · rename_i u hu
    cases h
    obtain ⟨hlast, hkey⟩ := hguard u hu
    refine ⟨?_, nodup_put hpending, hrest, fun h => ?_⟩
    · rw [acceptedEffect, reverse_append, reverse_singleton, singleton_append,
        overlay_cons, ← acceptedEffect, ← hview, overlay_append, overlay_append, overlay_put hkey]
    · exact absurd h (by simp [hlast])

theorem Inv.write {i : ℕ} (h : s.step (.write i) = some s') : Inv store s' := by
  obtain ⟨hview, hpending, hrest, hlast⟩ := hinv
  simp only [step] at h
  split at h
  · rename_i rest last hloop
    rw [hloop] at hview hrest hlast
    split at h
    · cases h
    · rename_i u hu
      cases h
      refine ⟨?_, hpending, hrest.sublist ((eraseIdx_sublist ..).map _), hlast⟩
      rw [← hview, overlay_append, overlay_append]
      exact congrArg _ (overlay_eraseIdx hrest hu)
  · cases h

theorem Inv.flushed (h : s.step .flushed = some s') : Inv store s' := by
  obtain ⟨hview, hpending, hrest, hlast⟩ := hinv
  simp only [step] at h
  split at h
  · rename_i last hloop
    rw [hloop] at hview hrest hlast
    cases h
    cases last with
    | true => exact ⟨hview, hpending, nodup_nil, hlast⟩
    | false => exact ⟨hview, hpending, nodup_nil, fun h => by cases h⟩
  · cases h

theorem Inv.congr (hpending : s'.pending = s.pending) (haccepted : s'.accepted = s.accepted)
    (hloop : s'.loop = s.loop) (hstore : s'.store = s.store) : Inv store s' := by
  obtain ⟨hview, hnodup, hrest, hlast⟩ := hinv
  exact ⟨by rw [hpending, haccepted, hloop, hstore, hview], by rwa [hpending], by rwa [hloop],
    by rwa [hpending, hloop]⟩

/-- No accepted update is lost by a step in time. -/
theorem Inv.step {a : SaverAction} (hguard : InTime s a)
    (h : s.step a = some s') : Inv store s' := by
  cases a with
  | call c =>
    simp only [QuotaSaver.step] at h
    split_ifs at h <;> obtain rfl := Option.some.inj h
    · exact hinv
    · exact hinv.congr rfl rfl rfl rfl
  | enqueue i => exact hinv.enqueue hguard h
  | tick => exact hinv.takePending h
  | stop =>
    simp only [QuotaSaver.step] at h
    split_ifs at h
    exact hinv.takePending h
  | write i => exact hinv.write h
  | flushed => exact hinv.flushed h
  | close =>
    cases h
    exact hinv.congr rfl rfl rfl rfl
  | signal =>
    obtain ⟨-, rfl⟩ := Option.ite_some_none_eq_some.mp h
    exact hinv.congr rfl rfl rfl rfl

omit hinv

end QuotaSaver

/-! ## Persistence -/

/-- When `close` has returned, the store holds for every pair the effect of its last accepted
update, if every update was accepted in time. -/
theorem quota_persisted (store : QuotaStore) (actions : List SaverAction) (s : QuotaSaver)
    (hrun : Runs.run QuotaSaver.step (.new store) actions = some s)
    (hguard : Runs.Guarded QuotaSaver.step InTime (.new store) actions) (hexited : s.loop = .exited)
    (p : Str × Str) : s.store p = acceptedEffect store s.accepted p := by
  have hinv : QuotaSaver.Inv store s :=
    hguard.invariant (fun _ _ _ hs hg h => hs.step hg h) QuotaSaver.inv_new hrun
  have hpending : s.pending = [] := hinv.pending_of_last (by rw [hexited]; rfl)
  rw [← hinv.view, hpending, hexited]
  rfl

/-- The steps of `close` for a batch of a given length. -/
def closing (batch : ℕ) : List SaverAction :=
  [.close, .signal, .stop] ++ List.replicate batch (.write 0) ++ [.flushed]

/-- Two updates for one pair and one for another, with a tick after the first. -/
def threeUpdates : List SaverAction :=
  [.call (.save (str "t") (str "p") 5 (str "d")), .enqueue 0, .tick,
    .call (.save (str "t") (str "p") 7 (str "d")), .enqueue 0,
    .call (.enqueueClear (str "t") (str "q")), .enqueue 0, .write 0, .flushed] ++ closing 2

theorem quota_persisted_threeUpdates :
    ∃ s, Runs.run QuotaSaver.step (.new fun _ => none) threeUpdates = some s ∧ s.loop = .exited ∧
      s.accepted.length = 3 ∧ ∀ p, s.store p = acceptedEffect (fun _ => none) s.accepted p := by
  obtain ⟨s, hrun, hexited, hlength⟩ : ∃ s,
      Runs.run QuotaSaver.step (.new fun _ => none) threeUpdates = some s ∧ s.loop = .exited ∧
        s.accepted.length = 3 := ⟨_, rfl, rfl, rfl⟩
  have hguard : Runs.Guarded QuotaSaver.step InTime (.new fun _ => none) threeUpdates := by
    decide
  exact ⟨s, hrun, hexited, hlength, quota_persisted _ threeUpdates s hrun hguard hexited⟩

/-- A call that finds the saver open and gets the lock after the last batch was taken. -/
def lateSave : List SaverAction :=
  [.call (.save (str "t") (str "p") 5 (str "d"))] ++ closing 0 ++ [.enqueue 0]

/-- Two pairs with the same key. -/
def sharedKey : List SaverAction :=
  [.call (.save (str "a\x00b") (str "c") 1 (str "d")), .enqueue 0,
    .call (.save (str "a") (str "b\x00c") 2 (str "d")), .enqueue 0] ++ closing 1

/-- An update is lost when its call gets the lock too late, and when the update of another pair
takes its place. -/
theorem not_quota_persisted :
    (∃ s, Runs.run QuotaSaver.step (.new fun _ => none) lateSave = some s ∧ s.loop = .exited ∧
      s.store (str "t", str "p") ≠ acceptedEffect (fun _ => none) s.accepted (str "t", str "p")) ∧
    ∃ s, Runs.run QuotaSaver.step (.new fun _ => none) sharedKey = some s ∧ s.loop = .exited ∧
      s.store (str "a\x00b", str "c") ≠
        acceptedEffect (fun _ => none) s.accepted (str "a\x00b", str "c") :=
  ⟨⟨_, rfl, rfl, by decide⟩, ⟨_, rfl, rfl, by decide⟩⟩

end Nodes
