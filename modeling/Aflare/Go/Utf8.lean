import Aflare.Go.Strings

/-!
# UTF-8 in Go strings

Go reads a string rune by rune: a valid UTF-8 sequence is one rune, and a byte that starts no
valid sequence is an error of width one. `encoding/json` writes the replacement rune U+FFFD for
each such byte, so what it stores is the *coercion* of the string and not the string itself.
-/

namespace Go

open List

def isCont (b : UInt8) : Bool := 0x80 ≤ b && b ≤ 0xBF

/-- The smallest second byte after the leading byte `b`: overlong forms are excluded. -/
def secondLo (b : UInt8) : UInt8 := if b = 0xE0 then 0xA0 else if b = 0xF0 then 0x90 else 0x80

/-- The largest second byte after the leading byte `b`: surrogates and values above U+10FFFF are
excluded. -/
def secondHi (b : UInt8) : UInt8 := if b = 0xED then 0x9F else if b = 0xF4 then 0x8F else 0xBF

/-- The width of the valid rune a string starts with; `none` where `utf8.DecodeRune` reports an
error of width one. -/
def runeWidth : Str → Option ℕ
  | [] => none
  | b :: s =>
    if b < 0x80 then some 1
    else if 0xC2 ≤ b ∧ b ≤ 0xDF then
      match s with
      | c :: _ => if isCont c then some 2 else none
      | [] => none
    else if 0xE0 ≤ b ∧ b ≤ 0xEF then
      match s with
      | c :: d :: _ => if secondLo b ≤ c ∧ c ≤ secondHi b ∧ isCont d then some 3 else none
      | _ => none
    else if 0xF0 ≤ b ∧ b ≤ 0xF4 then
      match s with
      | c :: d :: e :: _ =>
        if secondLo b ≤ c ∧ c ≤ secondHi b ∧ isCont d ∧ isCont e then some 4 else none
      | _ => none
    else none

def IsRune (r : Str) : Prop := runeWidth r = some r.length
  deriving Decidable

/-- The replacement rune U+FFFD. -/
def replacement : Str := [0xEF, 0xBF, 0xBD]

theorem isRune_replacement : IsRune replacement := by decide

variable {r : Str}

theorem IsRune.ne_nil (h : IsRune r) : r ≠ [] := by
  rintro rfl
  simp [IsRune, runeWidth] at h

variable {s : Str}

/-- A width found at the start of a string is positive, within the string, and read off the
leading bytes alone. -/
theorem runeWidth_spec {w : ℕ} (h : runeWidth s = some w) :
    0 < w ∧ w ≤ s.length ∧ ∀ t, runeWidth (s.take w ++ t) = some w := by
  rcases s with - | ⟨b, s⟩
  · simp [runeWidth] at h
  by_cases h1 : b < 0x80
  · obtain rfl : 1 = w := by simpa [runeWidth, h1] using h
    simp [runeWidth, h1]
  by_cases h2 : 0xC2 ≤ b ∧ b ≤ 0xDF
  · rcases s with - | ⟨c, s⟩
    · simp [runeWidth, h1, h2] at h
    · obtain ⟨hc, rfl⟩ : isCont c ∧ 2 = w := by simpa [runeWidth, h1, h2] using h
      simp [runeWidth, h1, h2, hc]
  by_cases h3 : 0xE0 ≤ b ∧ b ≤ 0xEF
  · rcases s with - | ⟨c, - | ⟨d, s⟩⟩
    · simp [runeWidth, h1, h2, h3] at h
    · simp [runeWidth, h1, h2, h3] at h
    · obtain ⟨hc, rfl⟩ : (secondLo b ≤ c ∧ c ≤ secondHi b ∧ isCont d) ∧ 3 = w := by
        simpa [runeWidth, h1, h2, h3] using h
      simp [runeWidth, h1, h2, h3, hc]
  by_cases h4 : 0xF0 ≤ b ∧ b ≤ 0xF4
  · rcases s with - | ⟨c, - | ⟨d, - | ⟨e, s⟩⟩⟩
    · simp [runeWidth, h1, h2, h3, h4] at h
    · simp [runeWidth, h1, h2, h3, h4] at h
    · simp [runeWidth, h1, h2, h3, h4] at h
    · obtain ⟨hc, rfl⟩ :
          (secondLo b ≤ c ∧ c ≤ secondHi b ∧ isCont d ∧ isCont e) ∧ 4 = w := by
        simpa [runeWidth, h1, h2, h3, h4] using h
      simp [runeWidth, h1, h2, h3, h4, hc]
  · simp [runeWidth, h1, h2, h3, h4] at h

theorem IsRune.append (h : IsRune r) (t : Str) : runeWidth (r ++ t) = some r.length := by
  simpa using (runeWidth_spec h).2.2 t

theorem isRune_take {w : ℕ} (h : runeWidth s = some w) : IsRune (s.take w) := by
  obtain ⟨-, hle, happ⟩ := runeWidth_spec h
  simpa [IsRune, Nat.min_eq_left hle] using happ []

/-! ## Cutting a string into runes -/

/-- A piece of a string: a valid rune, or a byte that starts none. -/
inductive Chunk
  | rune (bytes : Str)
  | bad (byte : UInt8)
  deriving DecidableEq, Repr

/-- Cut at most `fuel` pieces off a string. -/
def chunksAux : ℕ → Str → List Chunk
  | 0, _ => []
  | _ + 1, [] => []
  | fuel + 1, b :: s =>
    match runeWidth (b :: s) with
    | some w => .rune ((b :: s).take w) :: chunksAux fuel ((b :: s).drop w)
    | none => .bad b :: chunksAux fuel s

/-- A string cut into runes and stray bytes, as a `range` loop over it proceeds. -/
def chunks (s : Str) : List Chunk := chunksAux s.length s

private theorem chunksAux_eq (fuel fuel' : ℕ) (s : Str) (h : s.length ≤ fuel)
    (h' : s.length ≤ fuel') : chunksAux fuel s = chunksAux fuel' s := by
  induction fuel generalizing fuel' s with
  | zero =>
    obtain rfl : s = [] := length_eq_zero_iff.mp (by omega)
    cases fuel' <;> rfl
  | succ fuel ih =>
    cases s with
    | nil => cases fuel' <;> rfl
    | cons b s =>
      cases fuel' with
      | zero => simp at h'
      | succ fuel' =>
        simp only [length_cons] at h h'
        cases hw : runeWidth (b :: s) with
        | none =>
          simp only [chunksAux, hw]
          rw [ih fuel' s (by omega) (by omega)]
        | some w =>
          obtain ⟨hpos, -, -⟩ := runeWidth_spec hw
          have hdrop : ((b :: s).drop w).length ≤ s.length := by
            simp only [length_drop, length_cons]; omega
          simp only [chunksAux, hw]
          rw [ih fuel' _ (by omega) (by omega)]

@[simp] theorem chunks_nil : chunks [] = [] := rfl

theorem chunks_of_runeWidth {w : ℕ} (h : runeWidth s = some w) :
    chunks s = .rune (s.take w) :: chunks (s.drop w) := by
  cases s with
  | nil => simp [runeWidth] at h
  | cons b s =>
    obtain ⟨hpos, -, -⟩ := runeWidth_spec h
    simp only [chunks, length_cons, chunksAux, h]
    rw [chunksAux_eq s.length ((b :: s).drop w).length _ _ le_rfl]
    simp only [length_drop, length_cons]
    omega

theorem chunks_of_none {b : UInt8} (h : runeWidth (b :: s) = none) :
    chunks (b :: s) = .bad b :: chunks s := by
  simp only [chunks, length_cons, chunksAux, h]

theorem chunks_rune_append (h : IsRune r) (t : Str) : chunks (r ++ t) = .rune r :: chunks t := by
  simpa using chunks_of_runeWidth (h.append t)

theorem chunks_flatten {rs : List Str} (h : ∀ r ∈ rs, IsRune r) :
    chunks rs.flatten = rs.map .rune := by
  induction rs with
  | nil => rfl
  | cons r rs ih =>
    rw [flatten_cons, chunks_rune_append (h r mem_cons_self),
      ih (forall_mem_of_forall_mem_cons h), map_cons]

theorem chunk_induction {motive : Str → Prop} (nil : motive [])
    (rune : ∀ r t, IsRune r → motive t → motive (r ++ t))
    (bad : ∀ b t, runeWidth (b :: t) = none → motive t → motive (b :: t)) (s : Str) : motive s := by
  induction hn : s.length using Nat.strong_induction_on generalizing s with
  | _ n ih =>
    subst hn
    cases s with
    | nil => exact nil
    | cons b s =>
      cases hw : runeWidth (b :: s) with
      | none => exact bad b s hw (ih s.length (by simp) s rfl)
      | some w =>
        obtain ⟨hpos, -, -⟩ := runeWidth_spec hw
        have hrest := ih ((b :: s).drop w).length
          (by simp only [length_drop, length_cons]; omega) _ rfl
        simpa using rune _ _ (isRune_take hw) hrest

/-! ## Coercion to valid UTF-8 -/

/-- What a piece becomes in valid UTF-8. -/
def Chunk.coerce : Chunk → Str
  | .rune r => r
  | .bad _ => replacement

/-- Every byte that starts no rune is replaced by U+FFFD. -/
def coerce (s : Str) : Str := (chunks s).flatMap Chunk.coerce

/-- A string in which every byte belongs to a rune. -/
def ValidUtf8 (s : Str) : Prop := ∃ rs : List Str, (∀ r ∈ rs, IsRune r) ∧ s = rs.flatten

@[simp] theorem coerce_nil : coerce [] = [] := rfl

theorem coerce_rune_append (h : IsRune r) (t : Str) : coerce (r ++ t) = r ++ coerce t := by
  simp [coerce, chunks_rune_append h, Chunk.coerce]

theorem coerce_bad {b : UInt8} {t : Str} (h : runeWidth (b :: t) = none) :
    coerce (b :: t) = replacement ++ coerce t := by
  simp [coerce, chunks_of_none h, Chunk.coerce]

theorem validUtf8_coerce (s : Str) : ValidUtf8 (coerce s) := by
  induction s using chunk_induction with
  | nil => exact ⟨[], by simp, rfl⟩
  | rune r t hr ih =>
    obtain ⟨rs, hrs, ht⟩ := ih
    exact ⟨r :: rs, by simpa using ⟨hr, hrs⟩, by rw [coerce_rune_append hr, ht, flatten_cons]⟩
  | bad b t hb ih =>
    obtain ⟨rs, hrs, ht⟩ := ih
    refine ⟨replacement :: rs, ?_, by rw [coerce_bad hb, ht, flatten_cons]⟩
    simpa using ⟨isRune_replacement, hrs⟩

theorem ValidUtf8.coerce_eq (h : ValidUtf8 s) : coerce s = s := by
  obtain ⟨rs, hrs, rfl⟩ := h
  have hmap : (rs.map Chunk.rune).flatMap Chunk.coerce = rs.flatten := by
    rw [flatMap_map]
    exact flatMap_id
  rw [coerce, chunks_flatten hrs, hmap]

theorem coerce_eq_self_iff : coerce s = s ↔ ValidUtf8 s :=
  ⟨fun h => h ▸ validUtf8_coerce s, ValidUtf8.coerce_eq⟩

instance (s : Str) : Decidable (ValidUtf8 s) := decidable_of_iff _ coerce_eq_self_iff

example : coerce [104, 0xFF, 105] = [104, 0xEF, 0xBF, 0xBD, 105] := by decide

end Go
