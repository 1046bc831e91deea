import Aflare.Go.Utf8

/-!
# JSON strings and numbers

The lexical half of `encoding/json`: how `Marshal` quotes a string (with the HTML escapes that are
on by default) and how `Unmarshal` reads strings and number literals back.
-/

namespace Go

open List

/-! ## Writing strings -/

def hexDigit (n : ℕ) : UInt8 := if n < 10 then UInt8.ofNat (48 + n) else UInt8.ofNat (87 + n)

/-- The letter of the two-character escape of a byte, for the bytes that have one. -/
def shortEscape (b : UInt8) : Option UInt8 :=
  if b = 34 then some 34
  else if b = 92 then some 92
  else if b = 8 then some 98
  else if b = 12 then some 102
  else if b = 10 then some 110
  else if b = 13 then some 114
  else if b = 9 then some 116
  else none

/-- An ASCII byte inside a JSON string; control characters and the HTML-sensitive `<`, `>` and `&`
become `\u00xx`. -/
def escapeAscii (b : UInt8) : Str :=
  match shortEscape b with
  | some e => [92, e]
  | none =>
    if b < 32 ∨ b = 60 ∨ b = 62 ∨ b = 38 then
      [92, 117, 48, 48, hexDigit (b.toNat / 16), hexDigit (b.toNat % 16)]
    else [b]

/-- A piece of a string inside a JSON string. The line separators U+2028 and U+2029 are escaped,
and a stray byte is written as the escape of U+FFFD. -/
def escapeChunk : Chunk → Str
  | .bad _ => str "\\ufffd"
  | .rune r =>
    if r = [0xE2, 0x80, 0xA8] then str "\\u2028"
    else if r = [0xE2, 0x80, 0xA9] then str "\\u2029"
    else
      match r with
      | [b] => escapeAscii b
      | r => r

variable (s : Str)

/-- The body of a JSON string. -/
def escape : Str := (chunks s).flatMap escapeChunk

/-- A string as `Marshal` writes it. -/
def quote : Str := 34 :: (escape s ++ [34])

/-! ## Reading strings -/

def hexValue (b : UInt8) : Option ℕ :=
  if 48 ≤ b ∧ b ≤ 57 then some (b.toNat - 48)
  else if 97 ≤ b ∧ b ≤ 102 then some (b.toNat - 87)
  else if 65 ≤ b ∧ b ≤ 70 then some (b.toNat - 55)
  else none

/-- The code unit of an escape `\uXXXX` at the start of a string. -/
def getu4 : Str → Option ℕ
  | x :: y :: a :: b :: c :: d :: _ =>
    if x = 92 ∧ y = 117 then do
      let a ← hexValue a
      let b ← hexValue b
      let c ← hexValue c
      let d ← hexValue d
      some (a * 4096 + b * 256 + c * 16 + d)
    else none
  | _ => none

/-- The code point of a surrogate pair. -/
def decodeSurrogates (hi lo : ℕ) : Option ℕ :=
  if 0xD800 ≤ hi ∧ hi < 0xDC00 ∧ 0xDC00 ≤ lo ∧ lo < 0xE000 then
    some ((hi - 0xD800) * 1024 + (lo - 0xDC00) + 0x10000)
  else none

/-- The UTF-8 bytes of a code point. -/
def encodeRune (n : ℕ) : Str :=
  if n < 0x80 then [UInt8.ofNat n]
  else if n < 0x800 then [UInt8.ofNat (0xC0 + n / 64), UInt8.ofNat (0x80 + n % 64)]
  else if (0xD800 ≤ n ∧ n < 0xE000) ∨ 0x10FFFF < n then replacement
  else if n < 0x10000 then
    [UInt8.ofNat (0xE0 + n / 4096), UInt8.ofNat (0x80 + n / 64 % 64), UInt8.ofNat (0x80 + n % 64)]
  else
    [UInt8.ofNat (0xF0 + n / 262144), UInt8.ofNat (0x80 + n / 4096 % 64),
      UInt8.ofNat (0x80 + n / 64 % 64), UInt8.ofNat (0x80 + n % 64)]

/-- The byte a two-character escape stands for. -/
def unescape (e : UInt8) : Option UInt8 :=
  if e = 34 ∨ e = 92 ∨ e = 47 then some e
  else if e = 98 then some 8
  else if e = 102 then some 12
  else if e = 110 then some 10
  else if e = 114 then some 13
  else if e = 116 then some 9
  else none

/-- The first character of a string body, decoded, and what follows it. A raw control character
is a syntax error; a stray byte or a lone surrogate decodes to U+FFFD. -/
def readUnit : Str → Option (Str × Str)
  | [] => none
  | b :: s =>
    if b = 92 then
      match s with
      | [] => none
      | e :: t =>
        if e = 117 then
          match getu4 (b :: e :: t) with
          | none => none
          | some n =>
            if 0xD800 ≤ n ∧ n < 0xE000 then
              match (getu4 (t.drop 4)).bind (decodeSurrogates n) with
              | some r => some (encodeRune r, t.drop 10)
              | none => some (replacement, t.drop 4)
            else some (encodeRune n, t.drop 4)
        else (unescape e).map fun c => ([c], t)
    else if b < 32 then none
    else
      match runeWidth (b :: s) with
      | some w => some ((b :: s).take w, (b :: s).drop w)
      | none => some (replacement, s)

/-- Read at most `fuel` characters up to the closing quote. -/
def readStringAux : ℕ → Str → Option (Str × Str)
  | 0, _ => none
  | _ + 1, [] => none
  | fuel + 1, b :: s =>
    if b = 34 then some ([], s)
    else
      match readUnit (b :: s) with
      | none => none
      | some (u, r) => (readStringAux fuel r).map fun p => (u ++ p.1, p.2)

/-- The string after an opening quote, decoded, and what follows its closing quote. -/
def readString : Option (Str × Str) := readStringAux s.length s

/-! ## Strings round-trip up to coercion -/

theorem hexValue_hexDigit : ∀ n < 16, hexValue (hexDigit n) = some n := by decide

theorem unescape_shortEscape {b e : UInt8} (h : shortEscape b = some e) :
    e ≠ 117 ∧ unescape e = some b := by
  simp only [shortEscape] at h
  split_ifs at h with h1 h2 h3 h4 h5 h6 h7 <;> cases h <;> subst b <;> decide

variable {b : UInt8}

/-- An escape `\uXXXX` that is no surrogate. -/
private theorem readUnit_u4 {a b c d : UInt8} {n : ℕ} (h : getu4 [92, 117, a, b, c, d] = some n)
    (hn : ¬ (0xD800 ≤ n ∧ n < 0xE000)) (rest : Str) :
    readUnit (92 :: 117 :: a :: b :: c :: d :: rest) = some (encodeRune n, rest) := by
  have hget : getu4 (92 :: 117 :: a :: b :: c :: d :: rest) = some n := h
  simp [readUnit, hget, hn]

private theorem readUnit_escapeAscii (hb : b < 128) (rest : Str) :
    readUnit (escapeAscii b ++ rest) = some ([b], rest) := by
  unfold escapeAscii
  cases hs : shortEscape b with
  | some e =>
    obtain ⟨hne, hun⟩ := unescape_shortEscape hs
    simp [readUnit, hne, hun]
  | none =>
    have hnat : b.toNat < 128 := by simpa [UInt8.lt_iff_toNat_lt] using hb
    by_cases hesc : b < 32 ∨ b = 60 ∨ b = 62 ∨ b = 38
    · have h1 := hexValue_hexDigit (b.toNat / 16) (by omega)
      have h2 := hexValue_hexDigit (b.toNat % 16) (by omega)
      have h0 : hexValue 48 = some 0 := by decide
      have hsum : b.toNat / 16 * 16 + b.toNat % 16 = b.toNat := by omega
      have hsur : ¬ (0xD800 ≤ b.toNat ∧ b.toNat < 0xE000) := by omega
      simp [readUnit, hesc, getu4, h0, h1, h2, hsum, hsur, encodeRune, hnat]
    · have h92 : b ≠ 92 := by
        rintro rfl
        simp [shortEscape] at hs
      have h32 : ¬ b < 32 := fun h => hesc (Or.inl h)
      simp only [if_neg hesc]
      simp [readUnit, h92, h32, runeWidth, hb]

theorem IsRune.singleton_lt (h : IsRune [b]) : b < 128 := by
  by_contra hb
  simp only [IsRune, runeWidth, hb, if_false] at h
  split_ifs at h

variable {b c : UInt8} {r : Str}

theorem IsRune.head_ge (h : IsRune (b :: c :: r)) : ¬ b < 128 := by
  intro hb
  simp [IsRune, runeWidth, hb] at h

private theorem ge_of_isCont (h : isCont b = true) : 0x80 ≤ b := by
  simp only [isCont, Bool.and_eq_true, decide_eq_true_eq] at h
  exact h.1

private theorem ge_of_secondLo (h : secondLo b ≤ c) : 0x80 ≤ c := by
  refine UInt8.le_trans ?_ h
  unfold secondLo
  split
  · decide
  · split <;> decide

/-- The bytes of a rune of several bytes are not ASCII. -/
theorem IsRune.bytes_ge (h : IsRune (b :: c :: r)) : ∀ d ∈ b :: c :: r, 0x80 ≤ d := by
  have hb := h.head_ge
  have hb' : 0x80 ≤ b := UInt8.not_lt.mp hb
  simp only [IsRune, runeWidth, hb, if_false, length_cons] at h
  split at h
  · split at h
    · rename_i hc
      obtain rfl : r = [] := length_eq_zero_iff.mp (by simpa using h)
      simpa using ⟨hb', ge_of_isCont hc⟩
    · cases h
  split at h
  · rcases r with - | ⟨d, r⟩
    · cases h
    · simp only at h
      split at h
      · rename_i hcd
        obtain rfl : r = [] := length_eq_zero_iff.mp (by simpa using h)
        simpa using ⟨hb', ge_of_secondLo hcd.1, ge_of_isCont hcd.2.2⟩
      · cases h
  split at h
  · rcases r with - | ⟨d, - | ⟨e, r⟩⟩
    · cases h
    · cases h
    · simp only at h
      split at h
      · rename_i hcd
        obtain rfl : r = [] := length_eq_zero_iff.mp (by simpa using h)
        simpa using ⟨hb', ge_of_secondLo hcd.1, ge_of_isCont hcd.2.2.1, ge_of_isCont hcd.2.2.2⟩
      · cases h
  · cases h

variable {c : Chunk}

/-- One written piece is read back as its coercion. -/
theorem readUnit_escapeChunk (hc : ∀ r, c = .rune r → IsRune r) (rest : Str) :
    readUnit (escapeChunk c ++ rest) = some (c.coerce, rest) := by
  cases c with
  | bad b => exact readUnit_u4 (n := 65533) (by decide) (by decide) rest
  | rune r =>
    have hr := hc r rfl
    by_cases h8 : r = [0xE2, 0x80, 0xA8]
    · subst h8
      exact readUnit_u4 (n := 8232) (by decide) (by decide) rest
    by_cases h9 : r = [0xE2, 0x80, 0xA9]
    · subst h9
      exact readUnit_u4 (n := 8233) (by decide) (by decide) rest
    rcases r with - | ⟨b, - | ⟨c, r⟩⟩
    · exact absurd rfl hr.ne_nil
    · simpa [escapeChunk, Chunk.coerce] using readUnit_escapeAscii hr.singleton_lt rest
    · have hge := hr.head_ge
      have h92 : b ≠ 92 := by
        rintro rfl
        exact hge (by decide)
      have h32 : ¬ b < 32 := fun h => hge (UInt8.lt_trans h (by decide))
      have hw := hr.append rest
      simp only [escapeChunk, h8, h9, if_false, Chunk.coerce]
      simp only [cons_append] at hw ⊢
      simp [readUnit, h92, h32, hw]

private theorem hexDigit_form : ∀ n < 16, 32 ≤ hexDigit n ∧ hexDigit n ≠ 123 := by
  decide

private theorem shortEscape_form {b e : UInt8} (h : shortEscape b = some e) : 32 ≤ e ∧ e ≠ 123 := by
  unfold shortEscape at h
  split_ifs at h <;> cases h <;> decide

/-- A byte is written as it is, if it is printable and not the quote, or behind a backslash. -/
private theorem escapeAscii_form (b : UInt8) :
    (escapeAscii b = [b] ∧ 32 ≤ b ∧ b ≠ 34) ∨
      ∃ t, escapeAscii b = 92 :: t ∧ ∀ x ∈ t, 32 ≤ x ∧ x ≠ 123 := by
  rw [escapeAscii]
  cases hshort : shortEscape b with
  | some e => exact .inr ⟨[e], rfl, by simpa using shortEscape_form hshort⟩
  | none =>
    dsimp only
    split
    next =>
      have hbyte := b.toNat_lt
      have hhigh := hexDigit_form (b.toNat / 16) (by omega)
      have hlow := hexDigit_form (b.toNat % 16) (by omega)
      refine .inr ⟨_, rfl, ?_⟩
      simpa using ⟨hhigh, hlow⟩
    next hplain =>
      refine .inl ⟨rfl, ?_, ?_⟩
      · exact UInt8.not_lt.mp fun hlt => hplain (.inl hlt)
      · rintro rfl
        cases hshort

/-- A piece is written as it is, if it is a printable character other than the quote, or it is
written as a backslash or a byte that is not ASCII, followed by no brace. -/
theorem escapeChunk_form (hc : ∀ r, c = .rune r → IsRune r) :
    (∃ b, c = .rune [b] ∧ escapeChunk c = [b] ∧ 32 ≤ b ∧ b ≠ 34) ∨
      ∃ y t, escapeChunk c = y :: t ∧ (y = 92 ∨ 128 ≤ y) ∧ ∀ x ∈ t, 32 ≤ x ∧ x ≠ 123 := by
  cases c with
  | bad b => exact Or.inr ⟨92, str "ufffd", rfl, Or.inl rfl, by decide⟩
  | rune r =>
    by_cases h8 : r = [0xE2, 0x80, 0xA8]
    · subst h8
      exact Or.inr ⟨92, str "u2028", rfl, Or.inl rfl, by decide⟩
    by_cases h9 : r = [0xE2, 0x80, 0xA9]
    · subst h9
      exact Or.inr ⟨92, str "u2029", rfl, Or.inl rfl, by decide⟩
    have hr := hc r rfl
    rcases r with - | ⟨b, - | ⟨c, r⟩⟩
    · exact absurd rfl hr.ne_nil
    · have hesc : escapeChunk (.rune [b]) = escapeAscii b := by simp [escapeChunk]
      rw [hesc]
      rcases escapeAscii_form b with ⟨heq, hle, hne⟩ | ⟨t, heq, ht⟩
      · exact Or.inl ⟨b, rfl, heq, hle, hne⟩
      · exact Or.inr ⟨92, t, heq, Or.inl rfl, ht⟩
    · have hge := hr.bytes_ge
      have hesc : escapeChunk (.rune (b :: c :: r)) = b :: c :: r := by
        simp [escapeChunk, h8, h9]
      refine Or.inr ⟨b, c :: r, hesc, Or.inr (hge b mem_cons_self), fun x hx => ?_⟩
      have hx' := hge x (mem_cons_of_mem _ hx)
      refine ⟨UInt8.le_trans (by decide) hx', ?_⟩
      rintro rfl
      exact absurd hx' (by decide)

/-- A written piece does not start with the closing quote. -/
private theorem escapeChunk_head (hc : ∀ r, c = .rune r → IsRune r) :
    ∃ b t, escapeChunk c = b :: t ∧ b ≠ 34 := by
  rcases escapeChunk_form hc with ⟨b, -, heq, -, hne⟩ | ⟨y, t, heq, hy, -⟩
  · exact ⟨b, [], heq, hne⟩
  · refine ⟨y, t, heq, ?_⟩
    rintro rfl
    exact absurd hy (by decide)

theorem rune_of_mem_chunks {s : Str} : ∀ c ∈ chunks s, ∀ r, c = .rune r → IsRune r := by
  induction s using chunk_induction with
  | nil => simp
  | rune r t hr ih =>
    rw [chunks_rune_append hr]
    exact forall_mem_cons.mpr ⟨by rintro q ⟨rfl⟩; exact hr, ih⟩
  | bad b t hb ih =>
    rw [chunks_of_none hb]
    exact forall_mem_cons.mpr ⟨by simp, ih⟩

variable (cs : List Chunk)

private theorem readStringAux_chunks (hcs : ∀ c ∈ cs, ∀ r, c = .rune r → IsRune r) (rest : Str)
    (fuel : ℕ) (hfuel : cs.length < fuel) :
    readStringAux fuel (cs.flatMap escapeChunk ++ 34 :: rest)
      = some (cs.flatMap Chunk.coerce, rest) := by
  induction cs generalizing fuel with
  | nil =>
    obtain ⟨fuel, rfl⟩ : ∃ n, fuel = n + 1 := ⟨fuel - 1, by simp at hfuel; omega⟩
    simp [readStringAux]
  | cons c cs ih =>
    obtain ⟨fuel, rfl⟩ : ∃ n, fuel = n + 1 := ⟨fuel - 1, by simp at hfuel; omega⟩
    have hc := hcs c mem_cons_self
    obtain ⟨b, t, hbt, hb⟩ := escapeChunk_head hc
    have hunit := readUnit_escapeChunk hc (cs.flatMap escapeChunk ++ 34 :: rest)
    have hrest := ih (forall_mem_of_forall_mem_cons hcs) fuel
      (by simp at hfuel; omega)
    simp only [flatMap_cons, append_assoc]
    rw [hbt, cons_append] at hunit ⊢
    simp [readStringAux, hb, hunit, hrest]

private theorem length_le_flatMap_escapeChunk (hcs : ∀ c ∈ cs, ∀ r, c = .rune r → IsRune r) :
    cs.length ≤ (cs.flatMap escapeChunk).length := by
  induction cs with
  | nil => simp
  | cons c cs ih =>
    obtain ⟨b, t, hbt, -⟩ := escapeChunk_head (hcs c mem_cons_self)
    have hrest := ih (forall_mem_of_forall_mem_cons hcs)
    simp only [flatMap_cons, length_append, length_cons, hbt]
    omega

theorem readString_quote (s rest : Str) :
    readString (escape s ++ 34 :: rest) = some (coerce s, rest) := by
  refine readStringAux_chunks (chunks s) rune_of_mem_chunks rest _ ?_
  have hlen := length_le_flatMap_escapeChunk (chunks s) rune_of_mem_chunks
  simp only [escape, length_append, length_cons]
  omega

/-! ## Numbers -/

/-- The integer part of a number literal: no leading zeros. -/
def readIntPart : Str → Option (Str × Str)
  | [] => none
  | b :: s =>
    if b = 48 then some ([48], s)
    else if isDigit b then some (b :: s.takeWhile isDigit, s.dropWhile isDigit)
    else none

/-- The optional fraction of a number literal. -/
def readFraction : Str → Option (Str × Str)
  | [] => some ([], [])
  | b :: s =>
    if b = 46 then
      if s.takeWhile isDigit = [] then none
      else some (46 :: s.takeWhile isDigit, s.dropWhile isDigit)
    else some ([], b :: s)

/-- The digits of an exponent, after its sign. -/
def readExponentDigits (lead s : Str) : Option (Str × Str) :=
  if s.takeWhile isDigit = [] then none
  else some (lead ++ s.takeWhile isDigit, s.dropWhile isDigit)

/-- The optional exponent of a number literal. -/
def readExponent : Str → Option (Str × Str)
  | [] => some ([], [])
  | b :: s =>
    if b = 101 ∨ b = 69 then
      match s with
      | [] => none
      | c :: t =>
        if c = 43 ∨ c = 45 then readExponentDigits [b, c] t else readExponentDigits [b] (c :: t)
    else some ([], b :: s)

/-- The optional minus sign of a number literal. -/
def readSign : Str → Str × Str
  | [] => ([], [])
  | b :: s => if b = 45 then ([45], s) else ([], b :: s)

/-- A number literal and what follows it. -/
def readNumber : Option (Str × Str) := do
  let (sign, s) := readSign s
  let (whole, s) ← readIntPart s
  let (frac, s) ← readFraction s
  let (exp, s) ← readExponent s
  some (sign ++ whole ++ frac ++ exp, s)

/-- A text that cannot continue a number literal. -/
def Delimited : Str → Prop
  | [] => True
  | b :: _ => isDigit b = false ∧ b ≠ 46 ∧ b ≠ 101 ∧ b ≠ 69

/-- A text that is read as a number literal wherever it stands. -/
def NumberText (lit : Str) : Prop :=
  ∀ rest, Delimited rest → readNumber (lit ++ rest) = some (lit, rest)

private theorem span_digits {ds rest : Str} (hds : ∀ b ∈ ds, isDigit b = true)
    (hrest : Delimited rest) :
    (ds ++ rest).takeWhile isDigit = ds ∧ (ds ++ rest).dropWhile isDigit = rest := by
  rw [takeWhile_append_of_pos hds, dropWhile_append_of_pos hds]
  cases rest with
  | nil => simp
  | cons b rest => simp [hrest.1]

variable {rest : Str}

private theorem readTail_delimited (h : Delimited rest) :
    readFraction rest = some ([], rest) ∧ readExponent rest = some ([], rest) := by
  cases rest with
  | nil => exact ⟨rfl, rfl⟩
  | cons b rest =>
    obtain ⟨-, hdot, he, hE⟩ := h
    simp [readFraction, readExponent, hdot, he, hE]

private theorem readIntPart_natDigits (n : ℕ) (h : Delimited rest) :
    readIntPart (natDigits n ++ rest) = some (natDigits n, rest) := by
  have hdigit : ∀ b ∈ natDigits n, isDigit b = true := fun b hb => natDigits_isDigit hb
  by_cases hn : n = 0
  · subst hn
    rfl
  · obtain ⟨d, ds, hds⟩ := exists_cons_of_ne_nil (natDigits_ne_nil n)
    have hd : d ≠ 48 := natDigits_head_ne_zero hn hds
    rw [hds] at hdigit ⊢
    obtain ⟨htake, hdrop⟩ := span_digits (forall_mem_of_forall_mem_cons hdigit) h
    simp [readIntPart, hd, hdigit d mem_cons_self, htake, hdrop]

theorem numberText_itoa (i : ℤ) : NumberText (itoa i) := by
  intro rest hrest
  obtain ⟨hfrac, hexp⟩ := readTail_delimited hrest
  cases i with
  | ofNat n =>
    have hwhole := readIntPart_natDigits n hrest
    have hsign : readSign (natDigits n ++ rest) = ([], natDigits n ++ rest) := by
      obtain ⟨d, ds, hds⟩ := exists_cons_of_ne_nil (natDigits_ne_nil n)
      have hd : isDigit d = true := natDigits_isDigit (n := n) (by simp [hds])
      have hne : d ≠ 45 := by
        rintro rfl
        simp [isDigit] at hd
      simp [hds, readSign, hne]
    simp [itoa, readNumber, hsign, hwhole, hfrac, hexp]
  | negSucc n =>
    have hwhole := readIntPart_natDigits (n + 1) hrest
    simp [itoa, readNumber, readSign, hwhole, hfrac, hexp]

end Go
