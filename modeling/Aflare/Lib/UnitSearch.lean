import Mathlib

/-!
# Searching units one after the other

A line of positions is cut into units, each of which is left out as a whole or searched from some
place inside it on. The place is part of a start, which is used for the first unit that is searched
and replaced by a fixed one after that. A unit that is left out does not change the start, so that a
start which is meant for one unit may be used in a later one. The search as a whole finds the first
hit behind its entry, the place in the first unit that is searched, and what lies before the entry
is cut off.
-/

namespace UnitSearch

open List

/-- The search of an interval gives its first hit, or there is none. -/
def Finds (Hit : ℤ → Prop) (a b : ℤ) : Option ℤ → Prop
  | some r => a ≤ r ∧ r < b ∧ Hit r ∧ ∀ x, a ≤ x → x < r → ¬ Hit x
  | none => ∀ x, a ≤ x → x < b → ¬ Hit x

section Finds

variable {Hit : ℤ → Prop} {a b c r : ℤ} {found : Option ℤ}

/-- What comes before the searched interval has no hit. -/
theorem Finds.extend (h : Finds Hit b c found) (hab : a ≤ b) (hnone : Finds Hit a b none) :
    Finds Hit a c found := by
  cases found with
  | none =>
    intro x hax hxc
    rcases lt_or_ge x b with hxb | hbx
    · exact hnone x hax hxb
    · exact h x hbx hxc
  | some r =>
    obtain ⟨hbr, hrc, hhit, hfirst⟩ := h
    refine ⟨hab.trans hbr, hrc, hhit, fun x hax hxr => ?_⟩
    rcases lt_or_ge x b with hxb | hbx
    · exact hnone x hax hxb
    · exact hfirst x hbx hxr

/-- An interval that was searched without a hit, and one that starts inside it. -/
theorem Finds.none_of_le (h : Finds Hit a c none) (hab : a ≤ b) : Finds Hit b c none :=
  fun x hbx hxc => h x (hab.trans hbx) hxc

theorem Finds.widen (h : Finds Hit a b (some r)) (hbc : b ≤ c) : Finds Hit a c (some r) :=
  ⟨h.1, h.2.1.trans_le hbc, h.2.2⟩

theorem Finds.append (hab : Finds Hit a b none) (hbc : Finds Hit b c none) :
    Finds Hit a c none := by
  intro x hax hxc
  rcases lt_or_ge x b with hxb | hbx
  · exact hab x hax hxb
  · exact hbc x hbx hxc

variable (Hit) in
/-- The first of some numbers that meets a condition. -/
theorem finds_range' (p : ℕ → Bool) (base : ℤ) (first last : ℕ)
    (hhit : ∀ n, first ≤ n → n < last → (Hit (base + n) ↔ p n = true)) :
    Finds Hit (base + first) (base + last)
      (((range' first (last - first)).find? p).map fun n : ℕ => base + (n : ℤ)) := by
  induction hk : last - first generalizing first with
  | zero =>
    intro x hle hlt
    omega
  | succ k ih =>
    have hfirst := hhit first (Nat.le_refl first) (by omega)
    have hrest := ih (first + 1) (fun n hn => hhit n (by omega)) (by omega)
    rw [range'_succ]
    by_cases hp : p first = true
    · rw [find?_cons_of_pos hp, Option.map_some]
      exact ⟨Int.le_refl _, by omega, hfirst.mpr hp, fun x hle hlt => absurd hlt (by omega)⟩
    · rw [find?_cons_of_neg hp]
      push_cast at hrest
      refine hrest.extend (by omega) fun x hle hlt => ?_
      obtain rfl : x = base + first := by omega
      exact fun h => hp (hfirst.mp h)

end Finds

variable {τ : Type*}

/-- Search units one after the other: those that are not wanted are left out, and after a search
without a hit the start is replaced. -/
def overUnits (wanted : ℕ → Bool) (inner : ℕ → τ → Option ℤ) (reset : τ) :
    List ℕ → τ → Option ℤ
  | [], _ => none
  | v :: rest, t =>
    if wanted v then
      match inner v t with
      | some r => some r
      | none => overUnits wanted inner reset rest reset
    else overUnits wanted inner reset rest t

section Some

variable {wanted : ℕ → Bool} {inner : ℕ → τ → Option ℤ} {reset t : τ} {units : List ℕ}

/-- What is found is found in a unit that is wanted. -/
theorem exists_of_overUnits (h : overUnits wanted inner reset units t ≠ none) :
    ∃ v ∈ units, wanted v = true ∧ ∃ t', inner v t' ≠ none := by
  induction units generalizing t with
  | nil => exact absurd rfl h
  | cons v rest ih =>
    rw [overUnits] at h
    split at h
    next hwanted =>
      cases hinner : inner v t with
      | some r => exact ⟨v, mem_cons_self, hwanted, t, by simp [hinner]⟩
      | none =>
        rw [hinner] at h
        obtain ⟨u, hu, hrest⟩ := ih h
        exact ⟨u, mem_cons_of_mem v hu, hrest⟩
    next =>
      obtain ⟨u, hu, hrest⟩ := ih h
      exact ⟨u, mem_cons_of_mem v hu, hrest⟩

/-- A start finds something if it does in some unit that is wanted, and in the first one at least if
the start is not the one that replaces it. -/
theorem overUnits_ne_none {v : ℕ} (hv : v ∈ units) (hwanted : wanted v = true)
    (hinner : inner v t ≠ none)
    (hstart : t = reset ∨ ∀ u ∈ units, wanted u = true → inner u t ≠ none) :
    overUnits wanted inner reset units t ≠ none := by
  induction units generalizing t with
  | nil => cases hv
  | cons u rest ih =>
    rw [overUnits]
    split
    next hu =>
      cases hfound : inner u t with
      | some r => simp
      | none =>
        have ht := hstart.resolve_right fun hall => hall u mem_cons_self hu hfound
        subst ht
        rcases mem_cons.mp hv with rfl | hv
        · exact absurd hfound hinner
        · exact ih hv hinner (.inl rfl)
    next hu =>
      rcases mem_cons.mp hv with rfl | hv
      · exact absurd hwanted hu
      · exact ih hv hinner (hstart.imp_right fun hall w hw => hall w (mem_cons_of_mem u hw))

end Some

variable (wanted : ℕ → Bool) (place : ℕ → ℤ)

/-- The entry of a search: the place in the first unit that is wanted. -/
def entry (stop : ℤ) (units : List ℕ) : ℤ :=
  match units.find? wanted with
  | some v => place v
  | none => stop

theorem entry_cons (stop : ℤ) (v : ℕ) (rest : List ℕ) :
    entry wanted place stop (v :: rest) =
      if wanted v then place v else entry wanted place stop rest := by
  rw [entry, entry, find?_cons]
  cases wanted v <;> rfl

/-- A unit is the first one from another on that is wanted. -/
structure FirstWanted (wanted : ℕ → Bool) (v last w : ℕ) : Prop where
  le : v ≤ w
  lt : w < last
  isWanted : wanted w = true
  before : ∀ u, v ≤ u → u < w → wanted u = false

/-- The entry is in the first unit that is wanted, or at the end if none is. -/
theorem entry_cases (stop : ℤ) (v last : ℕ) :
    (∃ w, FirstWanted wanted v last w ∧
        entry wanted place stop (range' v (last - v)) = place w) ∨
      (∀ w, v ≤ w → w < last → wanted w = false) ∧
        entry wanted place stop (range' v (last - v)) = stop := by
  rw [entry]
  cases hfind : (range' v (last - v)).find? wanted with
  | some w =>
    obtain ⟨hwanted, hmem, hbefore⟩ := find?_range'_eq_some.mp hfind
    rw [mem_range'_1] at hmem
    exact .inl ⟨w, ⟨hmem.1, by omega, hwanted, by simpa using hbefore⟩, rfl⟩
  | none =>
    rw [find?_range'_eq_none] at hfind
    exact .inr ⟨fun w hle hlt => by simpa using hfind w hle (by omega), rfl⟩

/-- Something that does not depend on the unit holds in the first one that is wanted. -/
theorem forall_firstWanted_iff {wanted : ℕ → Bool} {v last : ℕ} {P : Prop} :
    (∀ w, FirstWanted wanted v last w → P) ↔ (∀ w < last, v ≤ w → wanted w = false) ∨ P := by
  constructor
  · intro h
    rcases entry_cases wanted (fun _ => 0) 0 v last with ⟨w, hw, -⟩ | ⟨hnot, -⟩
    · exact .inr (h w hw)
    · exact .inl fun w hlt hle => hnot w hle hlt
  · rintro (hnot | hP) w hw
    · exact absurd hw.isWanted (by simp [hnot w hw.lt hw.le])
    · exact hP

/-- Units up to a last one, and the place at which the search of each begins for a start. -/
structure Searchable (Hit : ℤ → Prop) (wanted : ℕ → Bool) (inner : ℕ → τ → Option ℤ) (reset : τ)
    (first last : ℕ) (begins : ℕ → ℤ) (place : ℕ → τ → ℤ) : Prop where
  begins_mono : Monotone begins
  place_mem : ∀ v t, first ≤ v → v < last → wanted v = true →
    begins v ≤ place v t ∧ place v t ≤ begins (v + 1)
  unwanted : ∀ v, first ≤ v → v < last → wanted v = false →
    Finds Hit (begins v) (begins (v + 1)) none
  inner : ∀ v t, first ≤ v → v < last → wanted v = true →
    Finds Hit (place v t) (begins (v + 1)) (inner v t)
  clear_reset : ∀ v, first ≤ v → v < last → wanted v = true →
    Finds Hit (begins v) (place v reset) none

namespace Searchable

variable {Hit : ℤ → Prop} {wanted : ℕ → Bool} {inner : ℕ → τ → Option ℤ} {reset : τ}
  {first last v : ℕ} {begins : ℕ → ℤ} {place : ℕ → τ → ℤ}
  (h : Searchable Hit wanted inner reset first last begins place)

include h

/-- The entry lies between the units before it and the end. -/
theorem entry_mem {u : ℕ} (hv : first ≤ v) (huv : u ≤ v) (hlast : u ≤ last) (t : τ) :
    begins u ≤ entry wanted (place · t) (begins last) (range' v (last - v)) ∧
      entry wanted (place · t) (begins last) (range' v (last - v)) ≤ begins last := by
  rcases entry_cases wanted (place · t) (begins last) v last with ⟨w, hw, heq⟩ | ⟨-, heq⟩
  · rw [heq]
    obtain ⟨hbegins, hnext⟩ := h.place_mem w t (hv.trans hw.le) hw.lt hw.isWanted
    exact ⟨(h.begins_mono (huv.trans hw.le)).trans hbegins, hnext.trans (h.begins_mono hw.lt)⟩
  · rw [heq]
    exact ⟨h.begins_mono hlast, le_refl _⟩

/-- Units that are not wanted have no hit. -/
theorem none_of_unwanted {w : ℕ} (hv : first ≤ v) (hvw : v ≤ w) (hlast : w ≤ last)
    (hnot : ∀ u, v ≤ u → u < w → wanted u = false) : Finds Hit (begins v) (begins w) none := by
  induction w, hvw using Nat.le_induction with
  | base => exact fun x hle hlt => absurd hlt (not_lt.mpr hle)
  | succ w hw ih =>
    exact (ih (by omega) fun u hu hlt => hnot u hu (by omega)).append
      (h.unwanted w (by omega) hlast (hnot w hw (Nat.lt_succ_self w)))

/-- What is cut off in front of the entry, from the beginning of a unit on. -/
theorem clear_entry_iff (t : τ) (hv : first ≤ v) (hlast : v ≤ last) :
    Finds Hit (begins v) (entry wanted (place · t) (begins last) (range' v (last - v))) none ↔
      ∀ w, FirstWanted wanted v last w → Finds Hit (begins w) (place w t) none := by
  rcases entry_cases wanted (place · t) (begins last) v last with ⟨w, hw, heq⟩ | ⟨hnot, heq⟩
  · rw [heq]
    constructor
    · intro hclear u hu
      -- two first units are the same
      obtain rfl : u = w := by
        rcases lt_trichotomy u w with hlt | heq | hlt
        · exact absurd hu.isWanted (by simp [hw.before u hu.le hlt])
        · exact heq
        · exact absurd hw.isWanted (by simp [hu.before w hw.le hlt])
      exact hclear.none_of_le (h.begins_mono hu.le)
    · intro hclear
      exact (h.none_of_unwanted hv hw.le hw.lt.le hw.before).append (hclear w hw)
  · rw [heq]
    refine iff_of_true (h.none_of_unwanted hv hlast (le_refl _) hnot) fun w hw => ?_
    exact absurd hw.isWanted (by simp [hnot w hw.le hw.lt])

/-- What is cut off from a position in the first unit on: in this unit if it is wanted, or else in
the first later one that is. -/
theorem clear_from_iff {t : τ} {a : ℤ} (hv : first ≤ v) (hlast : v < last) (hle : begins v ≤ a)
    (hnext : a ≤ begins (v + 1)) (hplace : wanted v = true → a ≤ place v t) :
    a ≤ entry wanted (place · t) (begins last) (range' v (last - v)) ∧
      (Finds Hit a (entry wanted (place · t) (begins last) (range' v (last - v))) none ↔
        (wanted v = true → Finds Hit a (place v t) none) ∧
          (wanted v = false → ∀ w, FirstWanted wanted (v + 1) last w →
            Finds Hit (begins w) (place w t) none)) := by
  obtain ⟨k, hk⟩ : ∃ k, last - v = k + 1 := ⟨last - v - 1, by omega⟩
  obtain rfl : k = last - (v + 1) := by omega
  rw [hk, range'_succ, entry_cons]
  cases hwanted : wanted v with
  | true => simpa using hplace hwanted
  | false =>
    have hclear := (h.unwanted v hv hlast hwanted).none_of_le hle
    rw [if_neg (by decide), ← h.clear_entry_iff t (by omega) hlast]
    simp only [reduceCtorEq, false_implies, true_and, forall_const]
    exact ⟨hnext.trans (h.entry_mem (by omega) (le_refl _) hlast t).1,
      fun hfinds => hfinds.none_of_le hnext, hclear.append⟩

/-- What is cut off of all units, if there is a hit in each that is wanted and the start cuts off
the same in each: some unit is wanted only if none is before the start and it cuts off nothing. -/
theorem clear_all_iff {t : τ} {P : Prop} (hv : first ≤ v) (hfirst : first ≤ last)
    (hhit : ∀ u, first ≤ u → u < last → wanted u = true →
      ¬ Finds Hit (begins u) (begins (u + 1)) none)
    (hlater : ∀ w, v ≤ w → w < last → wanted w = true →
      (Finds Hit (begins w) (place w t) none ↔ P)) :
    Finds Hit (begins first) (entry wanted (place · t) (begins last) (range' v (last - v)))
        none ↔
      ((∃ u, first ≤ u ∧ u < last ∧ wanted u = true) →
        (∀ u < v, first ≤ u → u < last → wanted u = false) ∧ P) := by
  constructor
  · rintro hclear ⟨u, hu, hulast, hwanted⟩
    have hbefore : ∀ u < v, first ≤ u → u < last → wanted u = false := by
      refine fun u huv hu hulast => Bool.eq_false_iff.mpr fun hwanted => hhit u hu hulast hwanted ?_
      exact fun x hle hlt => hclear x ((h.begins_mono hu).trans hle)
        (hlt.trans_le (h.entry_mem hv huv hulast t).1)
    refine ⟨hbefore, ?_⟩
    rcases entry_cases wanted (place · t) (begins last) v last with ⟨w, hw, heq⟩ | ⟨hnot, -⟩
    · rw [heq] at hclear
      exact (hlater w hw.le hw.lt hw.isWanted).mp
        (hclear.none_of_le (h.begins_mono (hv.trans hw.le)))
    · rcases lt_or_ge u v with huv | huv
      · exact absurd hwanted (by simp [hbefore u huv hu hulast])
      · exact absurd hwanted (by simp [hnot u huv hulast])
  · intro hfree
    rcases entry_cases wanted (place · t) (begins last) v last with ⟨w, hw, heq⟩ | ⟨hnot, heq⟩
    · obtain ⟨hbefore, hP⟩ := hfree ⟨w, hv.trans hw.le, hw.lt, hw.isWanted⟩
      rw [heq]
      refine (h.none_of_unwanted (le_refl _) (hv.trans hw.le) hw.lt.le fun u hu huw => ?_).append
        ((hlater w hw.le hw.lt hw.isWanted).mpr hP)
      rcases lt_or_ge u v with huv | huv
      · exact hbefore u huv hu (huw.trans hw.lt)
      · exact hw.before u huv huw
    · rw [heq]
      refine h.none_of_unwanted (le_refl _) hfirst (le_refl _) fun u hu hulast => ?_
      refine Bool.eq_false_iff.mpr fun hwanted => ?_
      rcases lt_or_ge u v with huv | huv
      · exact absurd hwanted (by simp [(hfree ⟨u, hu, hulast, hwanted⟩).1 u huv hu hulast])
      · exact absurd hwanted (by simp [hnot u huv hulast])

/-- The fixed start cuts off nothing. -/
theorem clear_entry_reset (hv : first ≤ v) (hlast : v ≤ last) :
    Finds Hit (begins v)
      (entry wanted (place · reset) (begins last) (range' v (last - v))) none :=
  (h.clear_entry_iff reset hv hlast).mpr fun w hw =>
    h.clear_reset w (hv.trans hw.le) hw.lt hw.isWanted

/-- The search finds the first hit behind its entry. -/
theorem finds (t : τ) (hv : first ≤ v) :
    Finds Hit (entry wanted (place · t) (begins last) (range' v (last - v))) (begins last)
      (overUnits wanted inner reset (range' v (last - v)) t) := by
  induction hk : last - v generalizing v t with
  | zero => exact fun x hle hlt => absurd hlt (not_lt.mpr hle)
  | succ k ih =>
    have hlt : v < last := by omega
    obtain rfl : k = last - (v + 1) := by omega
    rw [range'_succ, entry_cons, overUnits]
    split_ifs with hwanted
    · have hinner := h.inner v t hv hlt hwanted
      cases hfound : inner v t with
      | some r =>
        rw [hfound] at hinner
        exact hinner.widen (h.begins_mono hlt)
      | none =>
        rw [hfound] at hinner
        have hrest :=
          (ih reset (by omega) rfl).extend (h.entry_mem (by omega) (le_refl _) hlt reset).1
          (h.clear_entry_reset (by omega) hlt)
        exact hrest.extend (h.place_mem v t hv hlt hwanted).2 hinner
    · exact ih t (by omega) rfl

end Searchable

end UnitSearch
