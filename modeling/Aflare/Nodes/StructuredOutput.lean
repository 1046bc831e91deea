import Aflare.Go.Strings

/-!
# Values of an enumeration

A schema may list the values that are allowed. A value is compared with each of them member by
member: two objects are taken as equal when they have as many members and every member of the first
has an equal one in the second, where a member that is missing counts as `null`.

Numbers are compared by value; the doubles that a decoder yields are finite, so they are taken as
rationals.
-/

namespace Nodes

open Go

/-- A decoded value. The members of an object are indexed by its keys, so that equal objects are
equal as values. -/
inductive Decoded
  | null
  | bool (b : Bool)
  | number (x : ℚ)
  | text (s : Str)
  | list (n : ℕ) (elems : Fin n → Decoded)
  | map (keys : Finset Str) (members : {k // k ∈ keys} → Decoded)

namespace Decoded

/-- The member with a key, or `null`. -/
def lookup {keys : Finset Str} (members : {k // k ∈ keys} → Decoded) (k : Str) : Decoded :=
  if h : k ∈ keys then members ⟨k, h⟩ else .null

def valuesEqual : Decoded → Decoded → Bool
  | .null, .null => true
  | .bool a, .bool b => a == b
  | .number a, .number b => a == b
  | .text a, .text b => a == b
  | .list n a, .list m b =>
    if h : n = m then decide (∀ i, valuesEqual (a i) (b (i.cast h)) = true) else false
  | .map keys a, .map keys' b =>
    keys.card == keys'.card && decide (∀ k, valuesEqual (a k) (lookup b k) = true)
  | _, _ => false

/-- No object in the value has a member that is `null`. -/
def NoNullMember : Decoded → Prop
  | .list _ elems => ∀ i, (elems i).NoNullMember
  | .map _ members => ∀ k, members k ≠ .null ∧ (members k).NoNullMember
  | _ => True

variable {keys : Finset Str} {members : {k // k ∈ keys} → Decoded}

theorem lookup_mem (k : {k // k ∈ keys}) : lookup members k = members k := dif_pos k.2

theorem valuesEqual_self (a : Decoded) : a.valuesEqual a = true := by
  induction a with
  | null | bool b | number x | text s => simp [valuesEqual]
  | list n elems ih => simp [valuesEqual, ih]
  | map keys members ih => simp [valuesEqual, lookup_mem, ih]

/-- Values without `null` members are only equal to themselves. -/
theorem eq_of_valuesEqual {a b : Decoded} (ha : a.NoNullMember) (h : a.valuesEqual b = true) :
    a = b := by
  induction a generalizing b with
  | null | bool | number | text => cases b <;> simp_all [valuesEqual]
  | list n elems ih =>
    cases b with
    | list m elems' =>
      simp only [valuesEqual] at h
      split_ifs at h with hn
      subst hn
      have helems : elems = elems' := funext fun i => ih i (ha i) (of_decide_eq_true h i)
      rw [helems]
    | _ => simp [valuesEqual] at h
  | map keys members ih =>
    cases b with
    | map keys' members' =>
      simp only [valuesEqual, Bool.and_eq_true, beq_iff_eq, decide_eq_true_eq] at h
      obtain ⟨hcard, hmembers⟩ := h
      have hlookup : ∀ k, members k = lookup members' k := fun k => ih k (ha k).2 (hmembers k)
      -- a key that is missing in the second object would have the value `null`
      have hsub : keys ⊆ keys' := by
        intro k hk
        by_contra hk'
        exact (ha ⟨k, hk⟩).1 ((hlookup ⟨k, hk⟩).trans (dif_neg hk'))
      obtain rfl := Finset.eq_of_subset_of_card_le hsub hcard.ge
      have heq : members = members' := funext fun k => (hlookup k).trans (lookup_mem k)
      rw [heq]
    | _ => simp [valuesEqual] at h

/-- A value with a `null` member is taken as equal to another one. -/
theorem exists_ne_of_nullMember {a : Decoded} (ha : ¬ a.NoNullMember) :
    ∃ b, a ≠ b ∧ a.valuesEqual b = true := by
  induction a with
  | null | bool | number | text => exact absurd trivial ha
  | list n elems ih =>
    obtain ⟨i, hi⟩ := not_forall.mp ha
    obtain ⟨b, hne, heq⟩ := ih i hi
    refine ⟨.list n (Function.update elems i b), fun h => hne ?_, ?_⟩
    · have helems := eq_of_heq (list.inj h).2
      rw [helems, Function.update_self]
    · simp only [valuesEqual, dite_true, decide_eq_true_eq]
      exact (Function.forall_update_iff elems fun j x => (elems j).valuesEqual x = true).mpr
        ⟨heq, fun j _ => valuesEqual_self _⟩
  | map keys members ih =>
    obtain ⟨k, hk⟩ := not_forall.mp ha
    by_cases hnull : members k = .null
    · -- another key takes the place of the one whose member is `null`
      obtain ⟨k', hk'⟩ := Infinite.exists_notMem_finset keys
      refine ⟨.map (insert k' (keys.erase k)) fun j => lookup members j, fun h => ?_, ?_⟩
      · have hkeys : keys = insert k' (keys.erase k) := (map.inj h).1
        exact hk' (hkeys ▸ Finset.mem_insert_self k' _)
      · simp only [valuesEqual, Bool.and_eq_true, beq_iff_eq, decide_eq_true_eq]
        constructor
        · rw [Finset.card_insert_of_notMem fun h => hk' (Finset.mem_of_mem_erase h),
            Finset.card_erase_add_one k.2]
        · intro j
          by_cases hj : j = k
          · subst hj
            have hout : (j : Str) ∉ insert k' (keys.erase j) := by
              simpa using fun h : (j : Str) = k' => hk' (h ▸ j.2)
            rw [hnull, lookup, dif_neg hout]
            rfl
          · have hin : (j : Str) ∈ insert k' (keys.erase k) :=
              Finset.mem_insert_of_mem (Finset.mem_erase.mpr ⟨fun h => hj (Subtype.ext h), j.2⟩)
            rw [lookup, dif_pos hin, lookup_mem]
            exact valuesEqual_self _
    · obtain ⟨b, hne, heq⟩ := ih k fun h => hk ⟨hnull, h⟩
      refine ⟨.map keys (Function.update members k b), fun h => hne ?_, ?_⟩
      · have hmembers := eq_of_heq (map.inj h).2
        rw [hmembers, Function.update_self]
      · simp only [valuesEqual, beq_self_eq_true, Bool.true_and, decide_eq_true_eq, lookup_mem]
        exact (Function.forall_update_iff members fun j x => (members j).valuesEqual x = true).mpr
          ⟨heq, fun j _ => valuesEqual_self _⟩

/-- The comparison with a value is equality exactly if no object in it has a `null` member. -/
theorem valuesEqual_iff_eq (a : Decoded) :
    (∀ b, a.valuesEqual b = true ↔ a = b) ↔ a.NoNullMember := by
  constructor
  · intro h
    by_contra ha
    obtain ⟨b, hne, heq⟩ := exists_ne_of_nullMember ha
    exact hne ((h b).mp heq)
  · intro ha b
    exact ⟨eq_of_valuesEqual ha, fun h => h ▸ valuesEqual_self a⟩

def single (k : Str) (v : Decoded) : Decoded := .map {k} fun _ => v

/-- A missing member counts as `null`, and only the keys of the first object are looked at. -/
theorem not_valuesEqual_symm :
    (single (str "a") .null).valuesEqual (single (str "b") (.bool true)) = true ∧
      (single (str "b") (.bool true)).valuesEqual (single (str "a") .null) = false := by
  decide

end Decoded

end Nodes
