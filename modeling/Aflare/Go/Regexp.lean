import Aflare.Go.JsonText
import Aflare.Lib.Regex

/-!
# Regular expressions on strings

Package `regexp` reads a string rune by rune, where a stray byte counts as U+FFFD. An ASCII byte is
always a rune of its own, so that an expression about ASCII characters finds in the runes of a
string what stands in its bytes.
-/

namespace Go

open List

/-- The bytes of a piece of a string. -/
def Chunk.bytes : Chunk → Str
  | .rune r => r
  | .bad b => [b]

/-- The bytes of a list of pieces. -/
def chunkBytes (cs : List Chunk) : Str := cs.flatMap Chunk.bytes

@[simp] theorem chunkBytes_nil : chunkBytes [] = [] := rfl

@[simp] theorem chunkBytes_cons (c : Chunk) (cs : List Chunk) :
    chunkBytes (c :: cs) = c.bytes ++ chunkBytes cs := rfl

@[simp] theorem chunkBytes_append (cs ds : List Chunk) :
    chunkBytes (cs ++ ds) = chunkBytes cs ++ chunkBytes ds := flatMap_append

@[simp] theorem bytes_rune (r : Str) : (Chunk.rune r).bytes = r := rfl

theorem chunkBytes_chunks (s : Str) : chunkBytes (chunks s) = s := by
  induction s using chunk_induction with
  | nil => rfl
  | rune r t hr ih => rw [chunks_rune_append hr, chunkBytes_cons, bytes_rune, ih]
  | bad b t hb ih => rw [chunks_of_none hb, chunkBytes_cons, ih]; rfl

namespace Regexp

/-- The expression that matches one ASCII character. -/
def byte (b : UInt8) : Regex.Pattern Chunk := .one fun c => c = .rune [b]

/-- The expression that matches every character but one. -/
def anyBut (b : UInt8) : Regex.Pattern Chunk := .one fun c => c ≠ .rune [b]

end Regexp

/-! ## Bytes and runes -/

/-- A piece that is one ASCII byte or has no ASCII byte at all. -/
def Chunk.Clear (c : Chunk) : Prop :=
  (∃ b < 0x80, c = .rune [b]) ∨ (c.bytes ≠ [] ∧ ∀ b ∈ c.bytes, 0x80 ≤ b)

variable {b : UInt8}

private theorem IsRune.clear {r : Str} (h : IsRune r) : (Chunk.rune r).Clear := by
  match r, h with
  | [], h => exact absurd rfl h.ne_nil
  | [b], h => exact .inl ⟨b, h.singleton_lt, rfl⟩
  | b :: c :: r, h => exact .inr ⟨by simp, h.bytes_ge⟩

theorem clear_of_mem_chunks {s : Str} {c : Chunk} (h : c ∈ chunks s) : c.Clear := by
  induction s using chunk_induction with
  | nil => cases h
  | rune r t hr ih =>
    rw [chunks_rune_append hr] at h
    rcases mem_cons.mp h with rfl | h
    · exact hr.clear
    · exact ih h
  | bad b t hb ih =>
    rw [chunks_of_none hb] at h
    rcases mem_cons.mp h with rfl | h
    · refine .inr ⟨by simp [Chunk.bytes], ?_⟩
      have hge : ¬ b < 0x80 := fun hlt => by simp [runeWidth, hlt] at hb
      simpa [Chunk.bytes] using UInt8.not_lt.mp hge
    · exact ih h

theorem Chunk.Clear.mem_bytes_iff {c : Chunk} (h : c.Clear) (hb : b < 0x80) :
    b ∈ c.bytes ↔ c = .rune [b] := by
  rcases h with ⟨d, hd, rfl⟩ | ⟨-, hall⟩
  · simp [eq_comm]
  · refine ⟨fun hmem => absurd hb (UInt8.not_lt.mpr (hall b hmem)), ?_⟩
    rintro rfl
    exact mem_singleton.mpr rfl

theorem Chunk.Clear.bytes_ne_nil {c : Chunk} (h : c.Clear) : c.bytes ≠ [] := by
  rcases h with ⟨b, -, rfl⟩ | ⟨hne, -⟩
  · simp
  · exact hne

variable {cs : List Chunk} (hcs : ∀ c ∈ cs, c.Clear)

include hcs

theorem chunkBytes_eq_nil_iff : chunkBytes cs = [] ↔ cs = [] := by
  cases cs with
  | nil => simp
  | cons c cs => simp [(hcs c mem_cons_self).bytes_ne_nil]

theorem mem_chunkBytes_iff (hb : b < 0x80) : b ∈ chunkBytes cs ↔ Chunk.rune [b] ∈ cs := by
  constructor
  · intro h
    obtain ⟨c, hc, hmem⟩ := mem_flatMap.mp h
    rwa [((hcs c hc).mem_bytes_iff hb).mp hmem] at hc
  · intro h
    exact mem_flatMap.mpr ⟨_, h, mem_singleton.mpr rfl⟩

/-- Pieces can be cut at the first place where an ASCII byte stands in their bytes. -/
theorem exists_cut_of_chunkBytes (hb : b < 0x80) {front rest : Str} (hfront : b ∉ front)
    (h : chunkBytes cs = front ++ b :: rest) :
    ∃ before after, cs = before ++ .rune [b] :: after ∧ .rune [b] ∉ before ∧
      chunkBytes before = front ∧ chunkBytes after = rest := by
  induction cs generalizing front with
  | nil => simp at h
  | cons c cs ih =>
    have hc := hcs c mem_cons_self
    by_cases hcb : c = .rune [b]
    · subst hcb
      -- the byte stands at the front of the pieces, so nothing can come before it
      rcases front with - | ⟨d, front⟩
      · exact ⟨[], cs, rfl, by simp, rfl, by simpa using h⟩
      · simp only [chunkBytes_cons, bytes_rune, cons_append, nil_append,
          List.cons.injEq] at h
        exact absurd (h.1 ▸ mem_cons_self) hfront
    · have hnot : b ∉ c.bytes := fun hmem => hcb ((hc.mem_bytes_iff hb).mp hmem)
      rw [chunkBytes_cons] at h
      obtain ⟨more, rfl⟩ : ∃ more, front = c.bytes ++ more := by
        rcases append_eq_append_iff.mp h with ⟨more, hmore, -⟩ | ⟨more, hmore, hrest⟩
        · exact ⟨more, hmore⟩
        · rcases more with - | ⟨d, more⟩
          · exact ⟨[], by simpa using hmore.symm⟩
          · obtain ⟨rfl, -⟩ := List.cons.inj hrest
            exact absurd (hmore ▸ by simp) hnot
      rw [append_assoc, append_cancel_left_eq] at h
      obtain ⟨before, after, rfl, hbefore, rfl, hafter⟩ :=
        ih (forall_mem_of_forall_mem_cons hcs)
          (fun hmem => hfront (mem_append_right _ hmem)) h
      exact ⟨c :: before, after, rfl, by simpa using ⟨fun h => hcb h.symm, hbefore⟩, rfl, hafter⟩

theorem exists_cons_of_chunkBytes (hb : b < 0x80) {rest : Str} (h : chunkBytes cs = b :: rest) :
    ∃ after, cs = .rune [b] :: after ∧ chunkBytes after = rest := by
  obtain ⟨before, after, rfl, -, hbefore, hafter⟩ :=
    exists_cut_of_chunkBytes hcs hb (not_mem_nil (a := b)) h
  rw [chunkBytes_eq_nil_iff fun c hc => hcs c (mem_append_left _ hc)] at hbefore
  exact ⟨after, by rw [hbefore, nil_append], hafter⟩

omit hcs

end Go
