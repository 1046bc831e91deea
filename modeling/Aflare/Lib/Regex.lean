import Mathlib

/-!
# Regular expressions with greedy repetition

A backtracking matcher tries the ways in which an expression can match the front of a text in a
fixed order and takes the first one; a search tries the positions of the text from left to right.
The expressions here match at least one character, so that a search always moves on.
-/

namespace Regex

open List

/-- A regular expression: one character of a class, a sequence, or one or more repetitions. -/
inductive Pattern (α : Type*)
  | one (p : α → Bool)
  | seq (r t : Pattern α)
  | plus (r : Pattern α)

/-- A piece of a text that was searched: a match, or a character outside of the matches. -/
inductive Piece (α : Type*)
  | hit (text : List α)
  | skip (a : α)

variable {α : Type*}

/-- The rests after one or more repetitions, at most `n` of them; more repetitions come first. -/
def repeatEnds (f : List α → List (List α)) : ℕ → List α → List (List α)
  | 0, _ => []
  | n + 1, s => (f s).flatMap fun rest => repeatEnds f n rest ++ [rest]

namespace Pattern

/-- What is left of a text after each way to match its front, in order of preference. -/
def ends : Pattern α → List α → List (List α)
  | .one _, [] => []
  | .one p, a :: s => if p a then [s] else []
  | .seq r t, s => (r.ends s).flatMap t.ends
  | .plus r, s => repeatEnds r.ends s.length s

/-- The search for all matches from left to right, as far as the fuel reaches. -/
def piecesAux (r : Pattern α) : ℕ → List α → List (Piece α)
  | 0, _ => []
  | _ + 1, [] => []
  | fuel + 1, a :: s =>
    match (r.ends (a :: s)).head? with
    | some rest => .hit ((a :: s).take ((a :: s).length - rest.length)) :: r.piecesAux fuel rest
    | none => .skip a :: r.piecesAux fuel s

/-- A text cut into the matches of an expression and the characters between them. -/
def pieces (r : Pattern α) (s : List α) : List (Piece α) := r.piecesAux s.length s

/-! ## The ways to match -/

variable {s rest : List α} {p : α → Bool}

theorem mem_ends_one : rest ∈ (one p).ends s ↔ ∃ a, p a = true ∧ s = a :: rest := by
  cases s with
  | nil => simp [ends]
  | cons a s =>
    simp only [ends, List.cons.injEq]
    by_cases ha : p a = true
    · simp [ha, eq_comm]
    · simp only [ha, Bool.false_eq_true, if_false, not_mem_nil, false_iff]
      rintro ⟨b, hb, rfl, -⟩
      exact ha hb

theorem mem_ends_seq {r t : Pattern α} :
    rest ∈ (seq r t).ends s ↔ ∃ mid ∈ r.ends s, rest ∈ t.ends mid := mem_flatMap

private theorem mem_repeatEnds_one {n : ℕ} (hn : s.length ≤ n) :
    rest ∈ repeatEnds (one p).ends n s ↔
      ∃ front, front ≠ [] ∧ (∀ a ∈ front, p a = true) ∧ s = front ++ rest := by
  induction n generalizing s with
  | zero =>
    obtain rfl : s = [] := length_eq_zero_iff.mp (by omega)
    simp only [repeatEnds, not_mem_nil, false_iff]
    rintro ⟨front, hne, -, hs⟩
    exact hne (append_eq_nil_iff.mp hs.symm).1
  | succ n ih =>
    simp only [repeatEnds, mem_flatMap, mem_ends_one, mem_append, mem_singleton]
    constructor
    · rintro ⟨mid, ⟨a, ha, rfl⟩, hrest | rfl⟩
      · obtain ⟨front, -, hall, rfl⟩ := (ih (by simpa using hn)).mp hrest
        exact ⟨a :: front, by simp, by simpa using ⟨ha, hall⟩, rfl⟩
      · exact ⟨[a], by simp, by simpa using ha, rfl⟩
    · rintro ⟨front, hne, hall, rfl⟩
      obtain ⟨a, front, rfl⟩ := exists_cons_of_ne_nil hne
      simp only [mem_cons, forall_eq_or_imp] at hall
      refine ⟨front ++ rest, ⟨a, hall.1, rfl⟩, ?_⟩
      by_cases hfront : front = []
      · exact .inr (by simp [hfront])
      · exact .inl ((ih (by simpa using hn)).mpr ⟨front, hfront, hall.2, rfl⟩)

/-- Repeating a class matches the texts of one or more of its characters. -/
theorem mem_ends_plus_one :
    rest ∈ (plus (one p)).ends s ↔
      ∃ front, front ≠ [] ∧ (∀ a ∈ front, p a = true) ∧ s = front ++ rest :=
  mem_repeatEnds_one le_rfl

private theorem length_lt_of_mem_repeatEnds {f : List α → List (List α)}
    (hf : ∀ s, ∀ rest ∈ f s, rest.length < s.length) {n : ℕ}
    (h : rest ∈ repeatEnds f n s) : rest.length < s.length := by
  induction n generalizing s with
  | zero => simp [repeatEnds] at h
  | succ n ih =>
    obtain ⟨mid, hmid, hrest⟩ := mem_flatMap.mp h
    have hlt := hf s mid hmid
    rcases mem_append.mp hrest with hrest | hrest
    · exact (ih hrest).trans hlt
    · rwa [mem_singleton.mp hrest]

variable (r : Pattern α)

/-- Every match takes at least one character. -/
theorem length_lt_of_mem_ends (h : rest ∈ r.ends s) : rest.length < s.length := by
  induction r generalizing s rest with
  | one p =>
    obtain ⟨a, -, rfl⟩ := mem_ends_one.mp h
    simp
  | seq r t ihr iht =>
    obtain ⟨mid, hmid, hrest⟩ := mem_ends_seq.mp h
    exact (iht hrest).trans (ihr hmid)
  | plus r ih => exact length_lt_of_mem_repeatEnds (fun _ _ => ih) h

/-! ## The search -/

private theorem piecesAux_eq (fuel fuel' : ℕ) (s : List α) (h : s.length ≤ fuel)
    (h' : s.length ≤ fuel') : r.piecesAux fuel s = r.piecesAux fuel' s := by
  induction fuel generalizing fuel' s with
  | zero =>
    obtain rfl : s = [] := length_eq_zero_iff.mp (by omega)
    cases fuel' <;> rfl
  | succ fuel ih =>
    rcases s with - | ⟨a, s⟩
    · cases fuel' <;> rfl
    obtain ⟨fuel', rfl⟩ : ∃ k, fuel' = k + 1 := ⟨fuel' - 1, by simp at h'; omega⟩
    simp only [length_cons, Nat.add_le_add_iff_right] at h h'
    simp only [piecesAux]
    cases hends : (r.ends (a :: s)).head? with
    | none => simp only [ih fuel' s h h']
    | some rest =>
      have hlt := r.length_lt_of_mem_ends (mem_of_mem_head? hends)
      simp only [length_cons] at hlt
      simp only [ih fuel' rest (by omega) (by omega)]

@[simp] theorem pieces_nil : r.pieces [] = [] := rfl

variable {r : Pattern α}

/-- Where nothing matches, the search moves on by one character. -/
theorem pieces_of_none {a : α} {s : List α} (h : ∀ rest, rest ∉ r.ends (a :: s)) :
    r.pieces (a :: s) = .skip a :: r.pieces s := by
  have hnil : r.ends (a :: s) = [] := eq_nil_iff_forall_not_mem.mpr h
  simp [pieces, piecesAux, hnil]

/-- Where there is one way to match, the search takes it and goes on behind the match. -/
theorem pieces_of_unique {text rest : List α} (h : rest ∈ r.ends (text ++ rest))
    (hunique : ∀ other ∈ r.ends (text ++ rest), other = rest) :
    r.pieces (text ++ rest) = .hit text :: r.pieces rest := by
  have hlt := r.length_lt_of_mem_ends h
  obtain ⟨a, text, rfl⟩ : ∃ a text', text = a :: text' := by
    cases text with
    | nil => simp at hlt
    | cons a text => exact ⟨a, text, rfl⟩
  have hhead : (r.ends (a :: text ++ rest)).head? = some rest := by
    cases hends : r.ends (a :: text ++ rest) with
    | nil =>
      rw [hends] at h
      cases h
    | cons other others =>
      rw [head?_cons, hunique other (by rw [hends]; exact mem_cons_self)]
  have htake : (a :: text ++ rest).take ((a :: text ++ rest).length - rest.length) = a :: text := by
    rw [length_append, Nat.add_sub_cancel, take_left]
  have hstep : r.pieces (a :: text ++ rest) =
      .hit (a :: text) :: r.piecesAux (text ++ rest).length rest := by
    rw [pieces, cons_append, length_cons, piecesAux]
    simp only [cons_append] at hhead htake
    simp only [hhead, htake]
  rw [hstep, pieces, r.piecesAux_eq _ rest.length rest (by simp) le_rfl]

end Pattern

end Regex
