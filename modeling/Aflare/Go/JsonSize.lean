import Aflare.Go.Json

/-!
# The size of JSON texts

Texts of printable ASCII that JSON writes as they are, and how the size of an object depends on one
of its members.
-/

namespace Go

open List

/-- ASCII that is not escaped inside a JSON string. -/
def Plain (s : Str) : Prop := ∀ b ∈ s, b < 0x80 ∧ escapeAscii b = [b]

theorem plain_replicate {b : UInt8} (h : b < 0x80 ∧ escapeAscii b = [b]) (n : ℕ) :
    Plain (List.replicate n b) := by
  intro c hc
  rw [eq_of_mem_replicate hc]
  exact h

theorem isRune_ascii {b : UInt8} (h : b < 0x80) : IsRune [b] := by simp [IsRune, runeWidth, h]

namespace Plain

variable {s : Str}

theorem validUtf8 (h : Plain s) : ValidUtf8 s := by
  refine ⟨s.map fun b => [b], ?_, by rw [← flatMap_def, flatMap_singleton']⟩
  intro r hr
  obtain ⟨b, hb, rfl⟩ := mem_map.mp hr
  exact isRune_ascii (h b hb).1

theorem escape_eq (h : Plain s) : escape s = s := by
  induction s with
  | nil => rfl
  | cons b s ih =>
    obtain ⟨hascii, hescape⟩ := h b mem_cons_self
    have hrest : escape s = s := ih (forall_mem_of_forall_mem_cons h)
    have hchunks : chunks (b :: s) = .rune [b] :: chunks s :=
      chunks_rune_append (isRune_ascii hascii) s
    rw [escape, hchunks, flatMap_cons, ← escape, hrest]
    simp [escapeChunk, hescape]

theorem length_quote (h : Plain s) : (quote s).length = s.length + 2 := by
  rw [quote, h.escape_eq]
  simp

end Plain

namespace Value

variable (layout : Layout) (level : ℕ) (k : Str) (v v' : Value)
  (before after : List (Str × Value))

private theorem length_renderMembers_replace :
    (renderMembers layout level (before ++ (k, v) :: after)).length +
        (render layout (level + 1) v').length =
      (renderMembers layout level (before ++ (k, v') :: after)).length +
        (render layout (level + 1) v).length := by
  induction before with
  | nil =>
    simp only [nil_append, renderMembers, length_append, length_cons]
    omega
  | cons m before ih =>
    simp only [cons_append, renderMembers, length_append, length_cons] at ih ⊢
    omega

theorem length_render_obj_replace :
    (render layout level (obj (before ++ (k, v) :: after))).length +
        (render layout (level + 1) v').length =
      (render layout level (obj (before ++ (k, v') :: after))).length +
        (render layout (level + 1) v).length := by
  cases before with
  | nil =>
    simp only [nil_append, render, length_append, length_cons]
    omega
  | cons m before =>
    have hrest := length_renderMembers_replace layout level k v v' before after
    simp only [cons_append, render, length_append, length_cons] at hrest ⊢
    omega

/-- The string of a member adds one byte to the text for each of its bytes. -/
theorem length_render_obj_letters {b : UInt8} (h : b < 0x80 ∧ escapeAscii b = [b]) (n : ℕ) :
    (render layout level (obj (before ++ (k, .str (List.replicate n b)) :: after))).length =
      (render layout level (obj (before ++ (k, .str []) :: after))).length + n := by
  have hreplace := length_render_obj_replace layout level k (.str (List.replicate n b)) (.str [])
    before after
  have hempty : (quote []).length = 2 := rfl
  simp only [render, (plain_replicate h n).length_quote, length_replicate, hempty] at hreplace ⊢
  omega

end Value

end Go
