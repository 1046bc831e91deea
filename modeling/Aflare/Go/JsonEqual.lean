import Aflare.Go.JsonLines

/-!
# Equal JSON texts

The text of a value ends where the reader stops, so that equal texts of arrays or objects are equal
part by part. What a text does not determine is only which stray bytes its strings had.
-/

namespace Go

open List

variable {level : ℕ}

namespace Value

section Layouts

variable {layout : Layout}

/-- What follows the first of two values is the same if the whole texts are. -/
theorem render_append_inj {v v' : Value} (hv : v.WellFormed) (hv' : v'.WellFormed)
    {rest rest' : Str} (hrest : Follows rest) (hrest' : Follows rest')
    (h : v.render layout level ++ rest = v'.render layout level ++ rest') :
    v.render layout level = v'.render layout level ∧ rest = rest' := by
  have hblank : Blank [] := by simp [Blank]
  have hread := readsBack_read layout hv (le_max_left v.depth v'.depth) [] level rest hblank hrest
  have hread' := readsBack_read layout hv' (le_max_right v.depth v'.depth) [] level rest' hblank
    hrest'
  rw [nil_append] at hread hread'
  rw [h, hread'] at hread
  obtain ⟨-, rfl⟩ := Prod.mk.inj (Option.some.inj hread)
  exact ⟨append_cancel_right h, rfl⟩

theorem follows_renderMembers (level : ℕ) (ms : List (Str × Value)) :
    Follows (renderMembers layout level ms) := by
  cases ms with
  | nil =>
    rw [renderMembers]
    exact follows_gap layout level (Or.inr rfl) []
  | cons m ms =>
    rw [renderMembers]
    exact follows_comma _

theorem follows_renderElems (level : ℕ) (xs : List Value) :
    Follows (renderElems layout level xs) := by
  cases xs with
  | nil =>
    rw [renderElems]
    exact follows_gap layout level (Or.inl rfl) []
  | cons x xs =>
    rw [renderElems]
    exact follows_comma _

variable {ms ms' : List (Str × Value)}

private theorem renderMembers_inj (hms : ∀ m ∈ ms, m.2.WellFormed)
    (hms' : ∀ m ∈ ms', m.2.WellFormed) (hnames : ms.map Prod.fst = ms'.map Prod.fst)
    (h : renderMembers layout level ms = renderMembers layout level ms') :
    List.Forall₂ (fun m m' => m.2.render layout (level + 1) = m'.2.render layout (level + 1))
      ms ms' := by
  induction ms generalizing ms' with
  | nil =>
    obtain rfl : ms' = [] := map_eq_nil_iff.mp hnames.symm
    exact List.Forall₂.nil
  | cons m ms ih =>
    cases ms' with
    | nil => cases hnames
    | cons m' ms' =>
      simp only [map_cons, List.cons.injEq] at hnames
      simp only [renderMembers, hnames.1, List.cons.injEq, append_cancel_left_eq, true_and] at h
      -- the values come next, each followed by the other members
      obtain ⟨hvalue, hmembers⟩ := render_append_inj (hms m mem_cons_self)
        (hms' m' mem_cons_self) (follows_renderMembers level ms)
        (follows_renderMembers level ms') h
      exact List.Forall₂.cons hvalue (ih (forall_mem_of_forall_mem_cons hms)
        (forall_mem_of_forall_mem_cons hms') hnames.2 hmembers)

/-- Objects with the same names and the same text have members of the same texts. -/
theorem render_obj_inj (hms : ∀ m ∈ ms, m.2.WellFormed) (hms' : ∀ m ∈ ms', m.2.WellFormed)
    (hnames : ms.map Prod.fst = ms'.map Prod.fst)
    (h : (obj ms).render layout level = (obj ms').render layout level) :
    List.Forall₂ (fun m m' => m.2.render layout (level + 1) = m'.2.render layout (level + 1))
      ms ms' := by
  have hmembers : renderMembers layout level ms = renderMembers layout level ms' := by
    cases ms with
    | nil =>
      obtain rfl : ms' = [] := map_eq_nil_iff.mp hnames.symm
      rfl
    | cons m ms =>
      cases ms' with
      | nil => cases hnames
      | cons m' ms' =>
        simp only [render, List.cons.injEq, true_and] at h
        simp only [renderMembers, h]
  exact renderMembers_inj hms hms' hnames hmembers

variable {xs xs' : List Value}

private theorem renderElems_inj (hxs : ∀ x ∈ xs, x.WellFormed) (hxs' : ∀ x ∈ xs', x.WellFormed)
    (h : renderElems layout level xs = renderElems layout level xs') :
    List.Forall₂ (fun x x' => x.render layout (level + 1) = x'.render layout (level + 1))
      xs xs' := by
  -- after white space, a closing bracket against a comma
  have hclosed : ∀ y ys, renderElems layout level [] ≠ renderElems layout level (y :: ys) := by
    intro y ys heq
    have hskip := congrArg skipSpace heq
    rw [renderElems, renderElems, skipSpace_blank_append (layout.gap_blank level),
      skipSpace_cons (by decide), skipSpace_cons (by decide)] at hskip
    cases hskip
  induction xs generalizing xs' with
  | nil =>
    cases xs' with
    | nil => exact List.Forall₂.nil
    | cons x' xs' => exact absurd h (hclosed x' xs')
  | cons x xs ih =>
    cases xs' with
    | nil => exact absurd h.symm (hclosed x xs)
    | cons x' xs' =>
      simp only [renderElems, List.cons.injEq, append_cancel_left_eq, true_and] at h
      obtain ⟨hvalue, helems⟩ := render_append_inj (hxs x mem_cons_self)
        (hxs' x' mem_cons_self) (follows_renderElems level xs)
        (follows_renderElems level xs') h
      exact List.Forall₂.cons hvalue (ih (forall_mem_of_forall_mem_cons hxs)
        (forall_mem_of_forall_mem_cons hxs') helems)

/-- Arrays with the same text have elements of the same texts. -/
theorem render_arr_inj (hxs : ∀ x ∈ xs, x.WellFormed) (hxs' : ∀ x ∈ xs', x.WellFormed)
    (h : (arr xs).render layout level = (arr xs').render layout level) :
    List.Forall₂ (fun x x' => x.render layout (level + 1) = x'.render layout (level + 1))
      xs xs' := by
  -- an empty array is closed where the first element would start
  have hempty : ∀ x xs, x.WellFormed →
      (arr []).render layout level ≠ (arr (x :: xs)).render layout level := by
    intro x xs hx heq
    obtain ⟨b, t, hbt, hspace, hne, -⟩ := render_head layout hx (level + 1)
    simp only [render, List.cons.injEq, true_and] at heq
    have hskip := congrArg skipSpace heq
    rw [hbt, cons_append, skipSpace_blank_append (layout.gap_blank _), skipSpace_cons hspace,
      skipSpace_cons (by decide)] at hskip
    exact hne (List.cons.inj hskip).1.symm
  have helems : renderElems layout level xs = renderElems layout level xs' := by
    cases xs with
    | nil =>
      cases xs' with
      | nil => rfl
      | cons x' xs' => exact absurd h (hempty x' xs' (hxs' x' mem_cons_self))
    | cons x xs =>
      cases xs' with
      | nil => exact absurd h.symm (hempty x xs (hxs x mem_cons_self))
      | cons x' xs' =>
        simp only [render, List.cons.injEq, true_and] at h
        simp only [renderElems, h]
  exact renderElems_inj hxs hxs' helems

end Layouts

/-! ## Texts without white space -/

mutual

private theorem render_levels (l l' : ℕ) :
    (v : Value) → v.render .compact l = v.render .compact l'
  | null | bool _ | num _ | str _ | arr [] | obj [] => by simp only [render]
  | arr (x :: xs) => by
    simp only [render, render_levels (l + 1) (l' + 1) x, renderElems_levels l l' xs]
    rfl
  | obj ((name, v) :: ms) => by
    simp only [render, render_levels (l + 1) (l' + 1) v, renderMembers_levels l l' ms]
    rfl

private theorem renderElems_levels (l l' : ℕ) :
    (xs : List Value) → renderElems .compact l xs = renderElems .compact l' xs
  | [] => rfl
  | x :: xs => by
    simp only [renderElems, render_levels (l + 1) (l' + 1) x, renderElems_levels l l' xs]
    rfl

private theorem renderMembers_levels (l l' : ℕ) :
    (ms : List (Str × Value)) → renderMembers .compact l ms = renderMembers .compact l' ms
  | [] => rfl
  | (name, v) :: ms => by
    simp only [renderMembers, render_levels (l + 1) (l' + 1) v, renderMembers_levels l l' ms]
    rfl

end

theorem render_compact (level : ℕ) (v : Value) : v.render .compact level = v.marshal :=
  render_levels level 0 v

variable {xs ys : List Value}

private theorem renderElems_congr (h : xs.map marshal = ys.map marshal) :
    renderElems .compact 0 xs = renderElems .compact 0 ys := by
  induction xs generalizing ys with
  | nil =>
    obtain rfl : ys = [] := map_eq_nil_iff.mp h.symm
    rfl
  | cons x xs ih =>
    cases ys with
    | nil => cases h
    | cons y ys =>
      simp only [map_cons, List.cons.injEq] at h
      simp only [renderElems, render_compact, h.1, ih h.2]

theorem marshal_arr_congr (h : xs.map marshal = ys.map marshal) :
    (arr xs).marshal = (arr ys).marshal := by
  cases xs with
  | nil =>
    obtain rfl : ys = [] := map_eq_nil_iff.mp h.symm
    rfl
  | cons x xs =>
    cases ys with
    | nil => cases h
    | cons y ys =>
      simp only [map_cons, List.cons.injEq] at h
      have helems := renderElems_congr h.2
      rw [marshal, marshal, render, render, render_compact, render_compact, h.1, helems]

end Value

theorem eq_of_quote_eq {s t : Str} (ht : ValidUtf8 t) (h : quote s = quote t) : s = t := by
  have hescape : escape s = escape t := append_cancel_right (List.cons.inj h).2
  have hcoerce : coerce s = t := by
    have hread := readString_quote s []
    rw [hescape, readString_quote t [], ht.coerce_eq] at hread
    exact (Prod.mk.inj (Option.some.inj hread)).1.symm
  have hvalid : ValidUtf8 s := (length_escape_coerce s).2 (by rw [hcoerce, hescape])
  rw [← hvalid.coerce_eq, hcoerce]

end Go
