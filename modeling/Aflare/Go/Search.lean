import Aflare.Go.Lines

/-!
# Searching in texts

Where `strings.Index` finds a text in a concatenation, and how lines are joined again.
-/

namespace Go

open List Option

/-! ## First occurrences -/

variable {sub a t : Str} {c : UInt8}

theorem indexOf_append_cons (hc : c ∉ sub) (h : indexOf sub a = none) (t : Str) :
    indexOf sub (a ++ c :: t) = (indexOf sub t).map (· + (a.length + 1)) := by
  induction a with
  | nil =>
    have hsub : sub ≠ [] := by
      rintro rfl
      simp [indexOf] at h
    have hfront : sub.isPrefixOf (c :: t) = false := by
      refine Bool.eq_false_of_not_eq_true fun hfront => hsub ?_
      have hnil : sub <+: [] := prefix_of_append_cons hc <| isPrefixOf_iff_prefix.mp hfront
      exact prefix_nil.mp hnil
    simp [indexOf, hfront]
  | cons b a ih =>
    rw [indexOf] at h
    split at h
    · cases h
    · next hfront =>
      have hlong : ¬ sub.isPrefixOf (b :: (a ++ c :: t)) = true := fun hlong => by
        rw [ isPrefixOf_iff_prefix] at hfront hlong
        exact hfront (prefix_of_append_cons (a := b :: a) hc hlong)
      rw [List.cons_append, indexOf, if_neg hlong, ih (Option.map_eq_none_iff.mp h), Option.map_map]
      congr 1

theorem indexOf_self_append (sub t : Str) : indexOf sub (sub ++ t) = some 0 := by
  cases h : sub ++ t with
  | nil =>
    obtain ⟨rfl, rfl⟩ := append_eq_nil_iff.mp h
    rfl
  | cons b rest =>
    rw [indexOf, ← h, if_pos <| isPrefixOf_iff_prefix.mpr (prefix_append sub t)]

/-- What follows does not change where a text is found first. -/
theorem indexOf_append_of_some {i : ℕ} (h : indexOf sub a = some i) (t : Str) :
    indexOf sub (a ++ t) = some i ∧ i + sub.length ≤ a.length := by
  induction a generalizing i with
  | nil =>
    rw [indexOf] at h
    obtain ⟨rfl, rfl⟩ := ite_some_none_eq_some.mp h
    exact ⟨indexOf_self_append [] t, le_rfl⟩
  | cons b a ih =>
    rw [indexOf] at h
    split at h
    · next hfront =>
      cases h
      rw [ isPrefixOf_iff_prefix] at hfront
      have hlong : sub.isPrefixOf (b :: (a ++ t)) = true :=
        isPrefixOf_iff_prefix.mpr (hfront.trans (prefix_append (b :: a) t))
      exact ⟨by rw [cons_append, indexOf, if_pos hlong], by simpa using hfront.length_le⟩
    · next hfront =>
      obtain ⟨j, hj, rfl⟩ := map_eq_some_iff.mp h
      obtain ⟨hfound, hle⟩ := ih hj
      -- an occurrence at the front would have to reach beyond `a`, but there is room for it in `a`
      have hlong : ¬ sub.isPrefixOf (b :: (a ++ t)) = true := fun hlong => hfront <| by
        rw [ isPrefixOf_iff_prefix] at hlong ⊢
        refine prefix_of_prefix_length_le hlong (prefix_append (b :: a) t) ?_
        rw [length_cons]
        omega
      rw [cons_append, indexOf, if_neg hlong, hfound, length_cons]
      exact ⟨rfl, by omega⟩

theorem cut_self_append (sub t : Str) : cut sub (sub ++ t) = some ([], t) := by
  simp [cut, indexOf_self_append]

theorem cut_eq_some {s u r : Str} (h : cut sub s = some (u, r)) :
    indexOf sub s = some u.length ∧ u <+: s ∧ r <:+ s := by
  obtain ⟨i, hi, hpair⟩ := map_eq_some_iff.mp h
  obtain ⟨rfl, rfl⟩ := Prod.mk.inj hpair
  obtain ⟨-, hle⟩ := indexOf_append_of_some hi []
  refine ⟨?_, take_prefix i s, drop_suffix _ s⟩
  rw [hi, length_take, Nat.min_eq_left (by omega)]

variable {lines : List Str}

theorem indexOf_lineFile_eq_none_iff (hsub : sub ≠ []) (hc : (10 : UInt8) ∉ sub) :
    indexOf sub (lineFile lines) = none ↔ ∀ line ∈ lines, indexOf sub line = none := by
  induction lines with
  | nil => simp [indexOf, hsub]
  | cons line lines ih =>
    have hfile : lineFile (line :: lines) = line ++ 10 :: lineFile lines := by simp [lineFile]
    rw [hfile, forall_mem_cons]
    cases hline : indexOf sub line with
    | none =>
      rw [indexOf_append_cons hc hline, map_eq_none_iff, ih]
      simp
    | some i =>
      rw [(indexOf_append_of_some hline _).1]
      simp

theorem indexOf_lineFile_append (hc : (10 : UInt8) ∉ sub)
    (h : ∀ line ∈ lines, indexOf sub line = none) (t : Str) :
    indexOf sub (lineFile lines ++ t) = (indexOf sub t).map (· + (lineFile lines).length) := by
  induction lines with
  | nil => simp
  | cons line lines ih =>
    have hfile : lineFile (line :: lines) ++ t = line ++ 10 :: (lineFile lines ++ t) := by
      simp [lineFile]
    rw [hfile, indexOf_append_cons hc (h line mem_cons_self),
      ih (forall_mem_of_forall_mem_cons h), Option.map_map]
    congr 1
    funext i
    simp [lineFile]
    omega

/-! ## Joining -/

theorem joinWith_split (s : Str) (b : UInt8) : joinWith [b] (split s [b]) = s := by
  rw [split_singleton]
  exact intercalate_splitOn b

@[simp] theorem joinWith_singleton (sep line : Str) : joinWith sep [line] = line := by
  simp [joinWith]

theorem joinWith_cons {sep line : Str} (h : lines ≠ []) :
    joinWith sep (line :: lines) = line ++ sep ++ joinWith sep lines := by
  cases lines with
  | nil => exact absurd rfl h
  | cons next lines => simp [joinWith]

variable {more : List Str}

theorem joinWith_append (h : more ≠ []) :
    joinWith [10] (lines ++ more) = lineFile lines ++ joinWith [10] more := by
  induction lines with
  | nil => rfl
  | cons line lines ih =>
    rw [cons_append, joinWith_cons (by simp [h]), ih]
    simp [lineFile]

variable {b : UInt8}

theorem notMem_of_mem_split {s line : Str} (h : line ∈ split s [b]) : b ∉ line := by
  -- on the length of what is left to split
  induction hn : s.length using Nat.strongRecOn generalizing s with
  | _ n ih =>
    by_cases hmem : b ∈ s
    · obtain ⟨u, v, rfl, hu⟩ := eq_append_cons_of_mem hmem
      rw [split_append_cons, split_of_notMem hu, singleton_append] at h
      rcases mem_cons.mp h with rfl | h
      · exact hu
      · exact ih v.length (by simp only [length_append, length_cons] at hn; omega) h rfl
    · rw [split_of_notMem hmem] at h
      obtain rfl := mem_singleton.mp h
      exact hmem

theorem split_joinWith (hne : lines ≠ []) (h : ∀ line ∈ lines, b ∉ line) :
    split (joinWith [b] lines) [b] = lines := by
  rw [split_singleton]
  exact splitOn_intercalate b h hne

theorem count_joinWith (b : UInt8) (h : lines ≠ []) :
    (joinWith [b] lines).count b + 1 = lines.length + (lines.map (List.count b)).sum := by
  induction lines with
  | nil => exact absurd rfl h
  | cons line lines ih =>
    by_cases hnil : lines = []
    · simp [hnil, Nat.add_comm]
    · have hrest := ih hnil
      simp only [joinWith_cons hnil, count_append, count_singleton_self,
        length_cons, map_cons, sum_cons]
      omega

/-- Parts without the separator can be told from any other parts, as many as they are. -/
theorem joinWith_inj (hlen : lines.length = more.length) (h : ∀ line ∈ lines, b ∉ line)
    (hjoin : joinWith [b] lines = joinWith [b] more) : lines = more := by
  by_cases hnil : lines = []
  · rw [hnil, length_nil, eq_comm, length_eq_zero_iff] at hlen
    rw [hnil, hlen]
  · have hmore : more ≠ [] := fun hmore => hnil (length_eq_zero_iff.mp (by simp [hlen, hmore]))
    -- the separator occurs once less than there are parts, so the other parts have none of it
    have hcount := count_joinWith b hnil
    have hzero : (lines.map (List.count b)).sum = 0 := by
      simpa [sum_eq_zero_iff, count_eq_zero] using h
    rw [hjoin, hzero, hlen, ← Nat.add_zero more.length] at hcount
    have hfree : (more.map (List.count b)).sum = 0 := by
      have := count_joinWith b hmore
      omega
    rw [← split_joinWith hnil h, hjoin, split_joinWith hmore]
    simpa [sum_eq_zero_iff, count_eq_zero] using hfree

end Go
