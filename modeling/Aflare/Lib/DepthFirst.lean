import Mathlib.Logic.Function.Basic
import Mathlib.Logic.Relation
import Mathlib.Data.Finset.Card
import Mathlib.Data.List.Basic
import Mathlib.Order.WellFounded

/-!
# Depth-first search for a cycle

Three-colour search over a graph given by the list of successors of each node. A node is gray while
the search is below it, and black when everything below it has been searched; a gray successor
closes a cycle. The search is fuelled by the depth it may reach.
-/

namespace DepthFirst

open List

/-- White nodes have not been visited, gray ones are on the current path. -/
inductive Color
  | white
  | gray
  | black
  deriving DecidableEq

variable {α : Type*}

/-! ## Finishing orders -/

/-- Every node of the list comes before its successors, which are all listed. -/
def Finished (succ : α → List α) : List α → Prop
  | [] => True
  | i :: rest => (∀ d ∈ succ i, d ∈ rest) ∧ Finished succ rest

theorem Finished.acc {succ : α → List α} {order : List α} (h : Finished succ order) :
    ∀ i ∈ order, Acc (fun d i => d ∈ succ i) i := by
  induction order with
  | nil => simp
  | cons i rest ih =>
    obtain ⟨hsucc, hrest⟩ := h
    intro j hj
    rcases mem_cons.mp hj with rfl | hj
    · exact ⟨_, fun d hd => ih hrest d (hsucc d hd)⟩
    · exact ih hrest j hj

/-- The black nodes are the nodes of a finishing order. -/
def Settled (succ : α → List α) (color : α → Color) : Prop :=
  ∃ order, Finished succ order ∧ ∀ i, color i = .black ↔ i ∈ order

/-- What a search from `color` to `color'` leaves: black nodes stay black, the gray nodes are the
same, and the black nodes are in a finishing order if they were before. -/
structure Extends (succ : α → List α) (color color' : α → Color) : Prop where
  black : ∀ i, color i = .black → color' i = .black
  gray : ∀ i, color' i = .gray ↔ color i = .gray
  settled : Settled succ color → Settled succ color'

variable {succ : α → List α}

theorem Extends.refl (color : α → Color) : Extends succ color color where
  black _ h := h
  gray _ := Iff.rfl
  settled h := h

theorem Extends.trans {c₁ c₂ c₃ : α → Color} (h₁ : Extends succ c₁ c₂) (h₂ : Extends succ c₂ c₃) :
    Extends succ c₁ c₃ where
  black i h := h₂.black i (h₁.black i h)
  gray i := (h₂.gray i).trans (h₁.gray i)
  settled h := h₂.settled (h₁.settled h)

variable [DecidableEq α]

/-! ## The search -/

/-- The cycle that a gray successor closes: the path from its first visit on. -/
def cycleFrom (path : List α) (d : α) : List α := path.dropWhile (· ≠ d) ++ [d]

/-- Visit the successors of the last node of `path`, in order. -/
def scan (visit : α → List α → (α → Color) → Except (List α) (α → Color)) (path : List α) :
    List α → (α → Color) → Except (List α) (α → Color)
  | [], color => .ok color
  | d :: ds, color =>
    match color d with
    | .gray => .error (cycleFrom path d)
    | .black => scan visit path ds color
    | .white =>
      match visit d path color with
      | .error cycle => .error cycle
      | .ok color' => scan visit path ds color'

/-- Search below the node `i`, which is reached by `path`. -/
def visit (succ : α → List α) : ℕ → α → List α → (α → Color) → Except (List α) (α → Color)
  | 0, _, path, _ => .error path
  | fuel + 1, i, path, color =>
    match scan (visit succ fuel) (path ++ [i]) (succ i) (Function.update color i .gray) with
    | .error cycle => .error cycle
    | .ok color' => .ok (Function.update color' i .black)

/-- Search from every white node of a list. -/
def search (succ : α → List α) (fuel : ℕ) (nodes : List α) : Except (List α) (α → Color) :=
  scan (visit succ fuel) [] nodes fun _ => .white

/-- The search below a white node makes it black and extends the colouring. -/
def VisitSpec (succ : α → List α)
    (visit : α → List α → (α → Color) → Except (List α) (α → Color)) : Prop :=
  ∀ i path color color', color i = .white → visit i path color = .ok color' →
    Extends succ color color' ∧ color' i = .black

/-- A scan that closes no cycle extends the colouring and makes every scanned node black. -/
theorem scan_spec {visit : α → List α → (α → Color) → Except (List α) (α → Color)}
    (hvisit : VisitSpec succ visit) {path ds : List α} {color color' : α → Color}
    (h : scan visit path ds color = .ok color') :
    Extends succ color color' ∧ ∀ d ∈ ds, color' d = .black := by
  induction ds generalizing color with
  | nil =>
    cases h
    exact ⟨Extends.refl _, by simp⟩
  | cons d ds ih =>
    rw [scan] at h
    cases hd : color d with
    | gray => simp [hd] at h
    | black =>
      simp only [hd] at h
      obtain ⟨hext, hblack⟩ := ih h
      exact ⟨hext, forall_mem_cons.mpr ⟨hext.black _ hd, hblack⟩⟩
    | white =>
      simp only [hd] at h
      cases hv : visit d path color with
      | error cycle => simp [hv] at h
      | ok c₁ =>
        simp only [hv] at h
        obtain ⟨hext₁, hd₁⟩ := hvisit d path color c₁ hd hv
        obtain ⟨hext, hblack⟩ := ih h
        exact ⟨hext₁.trans hext, forall_mem_cons.mpr ⟨hext.black _ hd₁, hblack⟩⟩

variable {color : α → Color} {i : α}

/-- Making a gray node black after its successors keeps the finishing order. -/
private theorem settled_update (hsucc : ∀ d ∈ succ i, color d = .black) (h : Settled succ color) :
    Settled succ (Function.update color i .black) := by
  obtain ⟨order, hfin, hblack⟩ := h
  refine ⟨i :: order, ⟨fun d hd => (hblack d).mp (hsucc d hd), hfin⟩, ?_⟩
  intro j
  by_cases hj : j = i
  · simp [hj]
  · simp [hj, hblack]

private theorem settled_gray (hwhite : color i = .white)
    (h : Settled succ color) : Settled succ (Function.update color i .gray) := by
  obtain ⟨order, hfin, hblack⟩ := h
  refine ⟨order, hfin, ?_⟩
  intro j
  by_cases hj : j = i
  · subst hj
    have hnot : j ∉ order := fun hmem => by simpa [hwhite] using (hblack j).mpr hmem
    simp [hnot]
  · simp [hj, hblack]

/-- A search that finds no cycle makes its node black. -/
theorem visit_spec (fuel : ℕ) : VisitSpec succ (visit succ fuel) := by
  induction fuel with
  | zero => intro i path color color' _ h; simp [visit] at h
  | succ fuel ih =>
    intro i path color color' hwhite h
    rw [visit] at h
    cases hscan : scan (visit succ fuel) (path ++ [i]) (succ i) (Function.update color i .gray) with
    | error cycle => simp [hscan] at h
    | ok c₁ =>
      simp only [hscan] at h
      cases h
      obtain ⟨hext, hblack⟩ := scan_spec ih hscan
      refine ⟨⟨?_, ?_, ?_⟩, Function.update_self _ _ _⟩
      · intro j hj
        by_cases hji : j = i
        · simp [hji]
        · simpa [hji] using hext.black j (by simpa [hji] using hj)
      · intro j
        by_cases hji : j = i
        · simp [hji, hwhite]
        · simpa [hji] using hext.gray j
      · exact fun hset => settled_update hblack (hext.settled (settled_gray hwhite hset))

variable {fuel : ℕ}

/-- When the search closes no cycle, every searched node is accessible. -/
theorem acc_of_search {nodes : List α} (h : search succ fuel nodes = .ok color) :
    ∀ i ∈ nodes, Acc (fun d i => d ∈ succ i) i := by
  obtain ⟨hext, hblack⟩ := scan_spec (visit_spec fuel) h
  have hinit : Settled succ fun _ : α => Color.white := ⟨[], trivial, by simp⟩
  obtain ⟨order, hfin, horder⟩ := hext.settled hinit
  intro i hi
  exact hfin.acc i ((horder i).mp (hblack i hi))

/-! ## Reported cycles -/

/-- A scan fails only if the last node of the path is below a gray one, or the search below a white
one fails. -/
theorem scan_error {visit : α → List α → (α → Color) → Except (List α) (α → Color)}
    (hvisit : VisitSpec succ visit) {path ds cycle : List α}
    (h : scan visit path ds color = .error cycle) :
    (∃ d ∈ ds, color d = .gray) ∨
      ∃ d ∈ ds, ∃ color', Extends succ color color' ∧ color' d = .white ∧
        visit d path color' = .error cycle := by
  induction ds generalizing color with
  | nil => cases h
  | cons d ds ih =>
    rw [scan] at h
    cases hd : color d with
    | gray => exact .inl ⟨d, mem_cons_self, hd⟩
    | black =>
      simp only [hd] at h
      rcases ih h with ⟨e, he, hgray⟩ | ⟨e, he, hrest⟩
      · exact .inl ⟨e, mem_cons_of_mem _ he, hgray⟩
      · exact .inr ⟨e, mem_cons_of_mem _ he, hrest⟩
    | white =>
      simp only [hd] at h
      cases hv : visit d path color with
      | error cycle' =>
        simp only [hv] at h
        cases h
        exact .inr ⟨d, mem_cons_self, color, Extends.refl _, hd, hv⟩
      | ok c₁ =>
        simp only [hv] at h
        obtain ⟨hext, -⟩ := hvisit d path color c₁ hd hv
        rcases ih h with ⟨e, he, hgray⟩ | ⟨e, he, color', hext', hwhite, herr⟩
        · exact .inl ⟨e, mem_cons_of_mem _ he, (hext.gray e).mp hgray⟩
        · exact .inr ⟨e, mem_cons_of_mem _ he, color', hext.trans hext', hwhite, herr⟩

omit [DecidableEq α] in
private theorem nodup_path {path : List α} (hwhite : color i = .white)
    (hgray : ∀ j, color j = .gray ↔ j ∈ path) (hnodup : path.Nodup) : (path ++ [i]).Nodup := by
  have hfresh : i ∉ path := by
    rw [← hgray, hwhite]
    exact Color.noConfusion
  rw [← concat_eq_append]
  exact hnodup.concat hfresh

variable {nodes : Finset α}

/-- The search below a node that all gray nodes reach fails only on a cycle, as long as the depth
it may reach is not less than the number of nodes that are not gray. -/
theorem cycle_of_visit (hclosed : ∀ i ∈ nodes, ∀ d ∈ succ i, d ∈ nodes)
    {path cycle : List α} (hi : i ∈ nodes)
    (hwhite : color i = .white) (hgray : ∀ j, color j = .gray ↔ j ∈ path) (hnodup : path.Nodup)
    (hpath : ∀ p ∈ path, p ∈ nodes ∧ Relation.TransGen (fun a b => b ∈ succ a) p i)
    (hfuel : nodes.card ≤ path.length + fuel) (h : visit succ fuel i path color = .error cycle) :
    ∃ j, Relation.TransGen (fun a b => b ∈ succ a) j j := by
  induction fuel generalizing i path cycle color with
  | zero =>
    have hnodup' := nodup_path hwhite hgray hnodup
    -- a path of different nodes is not longer than there are nodes
    have hsub : (path ++ [i]).toFinset ⊆ nodes := by
      intro p hp
      rcases mem_append.mp (mem_toFinset.mp hp) with hp | hp
      · exact (hpath p hp).1
      · rwa [mem_singleton.mp hp]
    have hcard := Finset.card_le_card hsub
    rw [toFinset_card_of_nodup hnodup', length_append, length_singleton] at hcard
    omega
  | succ fuel ih =>
    have hnodup' := nodup_path hwhite hgray hnodup
    rw [visit] at h
    cases hscan : scan (visit succ fuel) (path ++ [i]) (succ i) (Function.update color i .gray) with
    | ok c₁ => simp [hscan] at h
    | error cycle' =>
      have hgray' : ∀ j, Function.update color i Color.gray j = .gray ↔ j ∈ path ++ [i] := by
        intro j
        by_cases hj : j = i
        · simp [hj]
        · simp [hj, hgray]
      have hreach : ∀ p ∈ path ++ [i], ∀ d ∈ succ i,
          p ∈ nodes ∧ Relation.TransGen (fun a b => b ∈ succ a) p d := by
        intro p hp d hd
        rcases mem_append.mp hp with hp | hp
        · exact ⟨(hpath p hp).1, (hpath p hp).2.tail hd⟩
        · rw [mem_singleton.mp hp]
          exact ⟨hi, .single hd⟩
      rcases scan_error (visit_spec fuel) hscan with ⟨d, hd, hdgray⟩ |
        ⟨d, hd, color', hext, hd', hv⟩
      · exact ⟨d, (hreach d ((hgray' d).mp hdgray) d hd).2⟩
      · have hgray'' : ∀ j, color' j = .gray ↔ j ∈ path ++ [i] := fun j =>
          (hext.gray j).trans (hgray' j)
        refine ih (hclosed i hi d hd) hd' hgray'' hnodup' (fun p hp => hreach p hp d hd) ?_ hv
        rw [length_append, length_singleton]
        omega

/-- There is a cycle when the search reports one. -/
theorem cycle_of_search (hclosed : ∀ i ∈ nodes, ∀ d ∈ succ i, d ∈ nodes)
    (hfuel : nodes.card ≤ fuel) {roots cycle : List α} (hroots : ∀ i ∈ roots, i ∈ nodes)
    (h : search succ fuel roots = .error cycle) :
    ∃ j, Relation.TransGen (fun a b => b ∈ succ a) j j := by
  rcases scan_error (visit_spec fuel) h with ⟨d, -, hd⟩ | ⟨d, hd, color', hext, hd', hv⟩
  · cases hd
  · have hgray : ∀ j, color' j = .gray ↔ j ∈ ([] : List α) := by
      intro j
      rw [hext.gray]
      simp
    exact cycle_of_visit hclosed (hroots d hd) hd' hgray nodup_nil (by simp)
      (by simpa using hfuel) hv

end DepthFirst
