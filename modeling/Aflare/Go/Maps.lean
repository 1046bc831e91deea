import Mathlib

/-!
# Finite maps

Go's `map[K]V` as an extensional finite map. A `range` loop over a Go map visits the entries in an
unspecified order; `assignAll_eq_union` says that a loop which only assigns has one result for
every order, the right-biased union.
-/

namespace Go

open List

/-- Go's `map[K]V`. -/
abbrev GoMap (K V : Type) [Ord K] := Std.ExtTreeMap K V compare

namespace GoMap

variable {K V : Type} [Ord K] [Std.TransOrd K]

/-- Assign the entries of a list one after the other. -/
def assignAll (m : GoMap K V) (entries : List (K × V)) : GoMap K V :=
  entries.foldl (fun m e => m.insert e.1 e.2) m

variable (m : GoMap K V)

@[simp] theorem assignAll_nil : assignAll m [] = m := rfl

@[simp] theorem assignAll_cons (e : K × V) (entries : List (K × V)) :
    assignAll m (e :: entries) = assignAll (m.insert e.1 e.2) entries := rfl

variable {entries : List (K × V)} {m : GoMap K V}

@[simp] theorem assignAll_eq_empty_iff : assignAll m entries = ∅ ↔ m = ∅ ∧ entries = [] := by
  induction entries generalizing m with
  | nil => simp
  | cons e entries ih => simp [ih]

variable [Std.LawfulEqOrd K] {k : K}

theorem getElem?_assignAll_of_notMem
    (h : k ∉ entries.map Prod.fst) : (assignAll m entries)[k]? = m[k]? := by
  induction entries generalizing m with
  | nil => rfl
  | cons e entries ih =>
    simp only [map_cons, mem_cons, not_or] at h
    rw [assignAll_cons, ih h.2, Std.ExtTreeMap.getElem?_insert, if_neg]
    simpa using fun heq => h.1 heq.symm

theorem getElem?_assignAll_of_mem {v : V} (h : (k, v) ∈ entries)
    (hunique : ∀ w, (k, w) ∈ entries → w = v) : (assignAll m entries)[k]? = some v := by
  induction entries generalizing m with
  | nil => simp at h
  | cons e entries ih =>
    rw [assignAll_cons]
    by_cases hk : k ∈ entries.map Prod.fst
    · obtain ⟨⟨k', w⟩, hw, rfl⟩ := mem_map.mp hk
      obtain rfl := hunique w (mem_cons_of_mem _ hw)
      exact ih hw fun w' hw' => hunique w' (mem_cons_of_mem _ hw')
    · rw [getElem?_assignAll_of_notMem hk]
      rcases mem_cons.mp h with rfl | h
      · simp
      · exact absurd (mem_map_of_mem h) hk

variable {m d : GoMap K V}

/-- Assigning the entries of a map, in whatever order, is the union with it. -/
theorem assignAll_eq_union (h : entries.Perm d.toList) : assignAll m entries = m ∪ d := by
  have hmem (k : K) (v : V) : (k, v) ∈ entries ↔ d[k]? = some v := by
    rw [h.mem_iff, Std.ExtTreeMap.mem_toList_iff_getElem?_eq_some]
  apply Std.ExtTreeMap.ext_getElem?
  intro k
  rw [Std.ExtTreeMap.getElem?_union]
  cases hk : d[k]? with
  | none =>
    have hnot : k ∉ entries.map Prod.fst := by
      intro hkey
      obtain ⟨⟨k', v⟩, he, rfl⟩ := mem_map.mp hkey
      rw [(hmem k' v).mp he] at hk
      cases hk
    rw [getElem?_assignAll_of_notMem hnot, Option.none_or]
  | some v =>
    have hunique : ∀ w, (k, w) ∈ entries → w = v := by
      intro w hw
      rw [(hmem k w).mp hw] at hk
      exact Option.some.inj hk
    rw [getElem?_assignAll_of_mem ((hmem k v).mpr hk) hunique, Option.some_or]

@[simp] theorem empty_union : (∅ : GoMap K V) ∪ m = m := by
  apply Std.ExtTreeMap.ext_getElem?
  simp [Std.ExtTreeMap.getElem?_union]

@[simp] theorem union_empty : m ∪ (∅ : GoMap K V) = m := by
  apply Std.ExtTreeMap.ext_getElem?
  simp [Std.ExtTreeMap.getElem?_union]

@[simp] theorem union_self : m ∪ m = m := by
  apply Std.ExtTreeMap.ext_getElem?
  intro k
  rw [Std.ExtTreeMap.getElem?_union, Option.or_self]

@[simp] theorem assignAll_toList_empty : assignAll ∅ m.toList = m := by
  rw [assignAll_eq_union (List.Perm.refl _), empty_union]

/-! ## Maps all of whose entries satisfy a predicate -/

/-- Every entry of the map satisfies `P`. -/
def Forall (P : K → V → Prop) (m : GoMap K V) : Prop := ∀ k v, m[k]? = some v → P k v

variable {P : K → V → Prop}

omit [Std.LawfulEqOrd K] in
theorem Forall.empty : Forall P ∅ := by
  intro k v hv
  simp at hv

theorem Forall.insert (hm : Forall P m) {v : V} (hkv : P k v) : Forall P (m.insert k v) := by
  intro k' v' hv'
  rw [Std.ExtTreeMap.getElem?_insert] at hv'
  split at hv'
  · rename_i heq
    obtain rfl : k = k' := by simpa using heq
    cases hv'
    exact hkv
  · exact hm k' v' hv'

omit [Std.LawfulEqOrd K] in
theorem Forall.erase (hm : Forall P m) (k : K) : Forall P (m.erase k) := by
  intro k' v hv
  rw [Std.ExtTreeMap.getElem?_erase] at hv
  split at hv
  · cases hv
  · exact hm k' v hv

omit [Std.LawfulEqOrd K] in
theorem Forall.union (hm : Forall P m) (hd : Forall P d) : Forall P (m ∪ d) := by
  intro k v hv
  rw [Std.ExtTreeMap.getElem?_union] at hv
  rcases Option.or_eq_some_iff.mp hv with hv | ⟨-, hv⟩
  · exact hd k v hv
  · exact hm k v hv

theorem Forall.assignAll
    (hm : Forall P m) (h : ∀ e ∈ entries, P e.1 e.2) : Forall P (assignAll m entries) := by
  induction entries generalizing m with
  | nil => exact hm
  | cons e entries ih =>
    exact ih (hm.insert (h e mem_cons_self)) fun e' h' => h e' (mem_cons_of_mem _ h')

/-! ## Differences -/

section Diff

variable [DecidableEq V]

/-- The entries of `cur` that are absent from `prev` or carry a different value. -/
def diff (prev cur : GoMap K V) : GoMap K V := cur.filter fun k v => prev[k]? ≠ some v

theorem getElem?_diff (prev cur : GoMap K V) (k : K) :
    (diff prev cur)[k]? = if prev[k]? = cur[k]? then none else cur[k]? := by
  rw [diff, Std.ExtTreeMap.getElem?_filter']
  cases hk : cur[k]? with
  | none => simp
  | some v =>
    by_cases hv : prev[k]? = some v
    · simp [hv]
    · simp [hv]

/-- Laid over `base`, the difference from `prev` to `cur` restores `cur` exactly when `base` has no
entry that `cur` lacks, and agrees with `cur` wherever `prev` does. -/
theorem union_diff_eq_iff {base prev cur : GoMap K V} :
    base ∪ diff prev cur = cur ↔
      ∀ k : K, (cur[k]? = none → base[k]? = none) ∧ (prev[k]? = cur[k]? → base[k]? = cur[k]?) := by
  have hget (k : K) : (base ∪ diff prev cur)[k]? =
      if prev[k]? = cur[k]? then base[k]? else cur[k]?.or base[k]? := by
    rw [Std.ExtTreeMap.getElem?_union, getElem?_diff]
    split <;> simp
  constructor
  · intro h k
    have hk := hget k
    rw [h] at hk
    constructor
    · intro hnone
      rw [hnone] at hk
      split at hk <;> simpa using hk.symm
    · intro heq
      rw [if_pos heq] at hk
      exact hk.symm
  · intro h
    apply Std.ExtTreeMap.ext_getElem?
    intro k
    obtain ⟨habsent, hsame⟩ := h k
    rw [hget]
    split
    · exact hsame ‹_›
    · cases hk : cur[k]? with
      | none => simpa using habsent hk
      | some v => rfl

end Diff

end GoMap

end Go
