import Aflare.Go.Text

/-!
# Files of lines

How a file of lines is taken apart, by `strings.Split` and by a `bufio.Scanner`.
-/

namespace Go

open List

/-! ## Splitting -/

variable {b : UInt8} {a sub t : Str}

theorem prefix_append_cons_cases (h : sub <+: a ++ b :: t) : sub <+: a ∨ a ++ [b] <+: sub := by
  obtain hs | ⟨r, rfl⟩ := prefix_or_prefix_of_prefix h ⟨b :: t, rfl⟩
  · exact .inl hs
  · rw [prefix_append_right_inj] at h ⊢
    rcases r with - | ⟨c, r⟩
    · exact .inl (by simp)
    · rw [cons_prefix_cons] at h
      exact .inr (by simp [h.1])

theorem prefix_of_append_cons (hb : b ∉ sub) (h : sub <+: a ++ b :: t) : sub <+: a :=
  (prefix_append_cons_cases h).resolve_right fun hend => hb (hend.subset (by simp))

theorem indexOf_singleton_append (h : b ∉ a) (t : Str) :
    indexOf [b] (a ++ b :: t) = some a.length := by
  induction a with
  | nil => simp [indexOf]
  | cons c a ih =>
    have hc : ¬ b = c := fun heq => h (heq ▸ mem_cons_self)
    have hrest := ih fun hmem => h (mem_cons_of_mem _ hmem)
    simp [indexOf, hc, hrest]

variable {s : Str}

theorem indexOf_singleton_of_notMem (h : b ∉ s) : indexOf [b] s = none := by
  induction s with
  | nil => rfl
  | cons c s ih =>
    have hc : ¬ b = c := fun heq => h (heq ▸ mem_cons_self)
    have hrest := ih fun hmem => h (mem_cons_of_mem _ hmem)
    simp [indexOf, hc, hrest]

theorem cut_singleton_append (h : b ∉ a) (t : Str) : cut [b] (a ++ b :: t) = some (a, t) := by
  have hdrop : (a ++ b :: t).drop (a.length + 1) = t := by
    rw [← drop_drop, drop_left, drop_succ_cons, drop_zero]
  simp [cut, indexOf_singleton_append h, hdrop]

theorem cut_singleton_of_notMem (h : b ∉ s) : cut [b] s = none := by
  simp [cut, indexOf_singleton_of_notMem h]

/-- Splitting at a single byte. -/
theorem split_singleton (s : Str) (b : UInt8) : split s [b] = s.splitOn b := by
  suffices h : ∀ fuel (s : Str), s.length ≤ fuel → splitAux [b] fuel s = s.splitOn b from
    h _ s le_rfl
  intro fuel
  induction fuel with
  | zero =>
    intro s hs
    obtain rfl := length_eq_zero_iff.mp (Nat.le_zero.mp hs)
    rfl
  | succ fuel ih =>
    intro s hs
    by_cases hmem : b ∈ s
    · obtain ⟨a, t, rfl, ha⟩ := eq_append_cons_of_mem hmem
      have hlen : t.length ≤ fuel := by
        simp only [length_append, length_cons] at hs
        omega
      simp only [splitAux, cut_singleton_append ha, ih t hlen,
        splitOn_append_cons_self_of_not_mem ha]
    · simp only [splitAux, cut_singleton_of_notMem hmem, splitOn_eq_singleton hmem]

theorem split_append_cons (s t : Str) (b : UInt8) :
    split (s ++ b :: t) [b] = split s [b] ++ split t [b] := by
  simp only [split_singleton, splitOn_append_cons_self]

theorem split_of_notMem (h : b ∉ s) : split s [b] = [s] := by
  rw [split_singleton, splitOn_eq_singleton h]

/-! ## Scanning -/

/-- Lines, each followed by a newline. -/
def lineFile (lines : List Str) : Str := lines.flatMap fun line => line ++ [10]

@[simp] theorem lineFile_nil : lineFile [] = [] := rfl

@[simp] theorem lineFile_append (ls ms : List Str) :
    lineFile (ls ++ ms) = lineFile ls ++ lineFile ms := by
  simp [lineFile]

@[simp] theorem lineFile_singleton (line : Str) : lineFile [line] = line ++ [10] := by
  simp [lineFile]

variable {lines : List Str} (h : ∀ line ∈ lines, (10 : UInt8) ∉ line)

include h

theorem split_lineFile_append
    (t : Str) : split (lineFile lines ++ t) [10] = lines ++ split t [10] := by
  induction lines with
  | nil => rfl
  | cons line lines ih =>
    have hrest := ih (forall_mem_of_forall_mem_cons h)
    have hfile : lineFile (line :: lines) ++ t = line ++ 10 :: (lineFile lines ++ t) := by
      simp [lineFile]
    rw [hfile, split_append_cons, hrest, split_of_notMem (h line mem_cons_self)]
    rfl

theorem split_lineFile : split (lineFile lines) [10] = lines ++ [[]] := by
  have hsplit := split_lineFile_append h []
  rwa [append_nil] at hsplit

/-- The lines of a file. What follows the last newline counts if it is not empty. -/
def fileLines (data : Str) : List Str :=
  let parts := split data [10]
  if parts.getLast? = some [] then parts.dropLast else parts

theorem fileLines_lineFile : fileLines (lineFile lines) = lines := by
  simp [fileLines, split_lineFile h]

omit h

/-- `dropCR` of `bufio`. -/
def dropCR (line : Str) : Str :=
  if line.getLast? = some 13 then line.dropLast else line

/-- A `bufio.Scanner` over the lines of a file, with a bound on the length of a line: the lines up
to the first one that is too long, and whether there is one. -/
def scan (maxTokenSize : ℕ) (data : Str) : List Str × Bool :=
  (((fileLines data).takeWhile fun line => line.length < maxTokenSize).map dropCR,
    (fileLines data).any fun line => maxTokenSize ≤ line.length)

end Go
