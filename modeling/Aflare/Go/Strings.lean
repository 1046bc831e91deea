import Mathlib

/-!
# Go strings

A Go string is a sequence of bytes with no further promise: nothing in the language makes it
valid UTF-8, and the standard library functions below work on the bytes. This file fixes the
representation and gives the decimal conversions of `strconv` with their round trip.
-/

namespace Go

open List

/-- A Go string: an arbitrary sequence of bytes. -/
abbrev Str := List UInt8

/-- The bytes of a string literal, which Go source files hold in UTF-8. -/
def str (s : String) : Str := s.toList.flatMap String.utf8EncodeChar

instance instLawfulBEqStr : LawfulBEq Str := inferInstance

/-- The bytes of a string are checked one by one, not each of the 256 bytes. -/
instance (s : Str) (p : UInt8 → Prop) [DecidablePred p] : Decidable (∀ b ∈ s, p b) :=
  decidableBAll p s

example : str "né" = [110, 0xC3, 0xA9] := by decide

/-- The value of a 64 bit integer. -/
def wrapInt64 (n : ℤ) : ℤ := (n + 2 ^ 63) % 2 ^ 64 - 2 ^ 63

/-! ## Decimal digits -/

/-- A decimal digit byte, `'0'` to `'9'`. -/
def isDigit (b : UInt8) : Bool := 48 ≤ b && b ≤ 57

/-- The byte of an ASCII character. -/
def byteOf (c : Char) : UInt8 := c.toNat.toUInt8

/-- The decimal digits of a natural number, most significant first. -/
def natDigits (n : ℕ) : Str := (Nat.toDigits 10 n).map byteOf

/-- The number that a list of digit bytes denotes. -/
def digitsValue (s : Str) : ℕ := s.foldl (fun acc b => acc * 10 + (b.toNat - 48)) 0

/-- A non-empty list of digits, read as a number. -/
def parseNat (s : Str) : Option ℕ :=
  if s ≠ [] ∧ s.all isDigit then some (digitsValue s) else none

variable {c : Char}

private theorem isDigit_toNat (h : c.isDigit) : 48 ≤ c.toNat ∧ c.toNat ≤ 57 := by
  simp only [Char.isDigit, Bool.and_eq_true, decide_eq_true_eq] at h
  obtain ⟨hlo, hhi⟩ := h
  exact ⟨by simpa using UInt32.le_iff_toNat_le.mp hlo, by simpa using UInt32.le_iff_toNat_le.mp hhi⟩

private theorem byteOf_toNat (h : c.isDigit) : (byteOf c).toNat = c.toNat := by
  have hc := isDigit_toNat h
  simp only [byteOf, Nat.toUInt8, UInt8.toNat_ofNat']
  omega

theorem isDigit_byteOf (h : c.isDigit) : isDigit (byteOf c) = true := by
  have hc := isDigit_toNat h
  have hb := byteOf_toNat h
  simp only [isDigit, Bool.and_eq_true, decide_eq_true_eq, UInt8.le_iff_toNat_le, hb]
  exact ⟨hc.1, hc.2⟩

variable (n : ℕ)

@[simp] theorem natDigits_ne_nil : natDigits n ≠ [] := by
  simp [natDigits, Nat.toDigits_ne_nil]

variable {b : UInt8}

theorem natDigits_isDigit {n : ℕ} (h : b ∈ natDigits n) : isDigit b = true := by
  obtain ⟨c, hc, rfl⟩ := mem_map.mp h
  exact isDigit_byteOf (Nat.isDigit_of_mem_toDigits (by norm_num) (by norm_num) hc)

theorem natDigits_head_ne_zero {n : ℕ} (hn : n ≠ 0) {d : UInt8} {ds : Str}
    (h : natDigits n = d :: ds) : d ≠ 48 := by
  induction n using Nat.strong_induction_on generalizing ds with
  | _ n ih =>
    by_cases hlt : n < 10
    · rw [natDigits, Nat.toDigits_of_lt_base hlt] at h
      obtain ⟨rfl, -⟩ := List.cons.inj h
      interval_cases n
      · exact absurd rfl hn
      all_goals decide
    · rw [natDigits, Nat.toDigits_of_base_le (by norm_num) (by omega), map_append] at h
      obtain ⟨e, es, hes⟩ := exists_cons_of_ne_nil (natDigits_ne_nil (n / 10))
      rw [show (Nat.toDigits 10 (n / 10)).map byteOf = e :: es from hes, cons_append] at h
      obtain ⟨rfl, -⟩ := List.cons.inj h
      exact ih (n / 10) (by omega) (by omega) hes

private theorem foldl_byteOf (cs : List Char) (hcs : ∀ c ∈ cs, c.isDigit) (acc : ℕ) :
    (cs.map byteOf).foldl (fun acc b => acc * 10 + (b.toNat - 48)) acc =
      Nat.ofDigitChars 10 cs acc := by
  induction cs generalizing acc with
  | nil => simp
  | cons c cs ih =>
    rw [map_cons, foldl_cons, ih (forall_mem_of_forall_mem_cons hcs),
      Nat.ofDigitChars_cons, byteOf_toNat (hcs c mem_cons_self), Nat.mul_comm 10 acc]
    rfl

theorem digitsValue_natDigits : digitsValue (natDigits n) = n := by
  unfold digitsValue natDigits
  rw [foldl_byteOf]
  · exact Nat.ofDigitChars_ten_toDigits
  · exact fun c hc => Nat.isDigit_of_mem_toDigits (by norm_num) (by norm_num) hc

theorem parseNat_natDigits : parseNat (natDigits n) = some n := by
  have hall : (natDigits n).all isDigit = true := all_eq_true.mpr fun b hb => natDigits_isDigit hb
  simp [parseNat, hall, digitsValue_natDigits]

/-! ## `strconv.Itoa` and `strconv.Atoi` -/

/-- `strconv.Itoa`: the decimal text of an integer. -/
def itoa : ℤ → Str
  | .ofNat n => natDigits n
  | .negSucc n => 45 :: natDigits (n + 1)

/-- The sign and the digits of a decimal text. -/
def signedNat : Str → Option ℤ
  | [] => none
  | b :: s =>
    if b = 45 then (parseNat s).map fun n => -(n : ℤ)
    else if b = 43 then (parseNat s).map fun n => (n : ℤ)
    else (parseNat (b :: s)).map fun n => (n : ℤ)

/-- The range of Go's 64-bit `int`. -/
def InInt64 (n : ℤ) : Prop := -2 ^ 63 ≤ n ∧ n < 2 ^ 63
  deriving Decidable

/-- `strconv.Atoi`: an optional sign and decimal digits, in the range of a 64-bit `int`;
`none` for the syntax and range errors. -/
def atoi (s : Str) : Option ℤ := (signedNat s).filter fun n => decide (InInt64 n)

private theorem natDigits_head {n : ℕ} {s : Str} (h : natDigits n = b :: s) : b ≠ 45 ∧ b ≠ 43 := by
  have hb : isDigit b = true := natDigits_isDigit (n := n) (h ▸ mem_cons_self)
  constructor <;> rintro rfl <;> simp [isDigit] at hb

theorem signedNat_natDigits : signedNat (natDigits n) = some (n : ℤ) := by
  have hparse := parseNat_natDigits n
  cases hs : natDigits n with
  | nil => exact absurd hs (natDigits_ne_nil n)
  | cons b s =>
    obtain ⟨hminus, hplus⟩ := natDigits_head hs
    rw [hs] at hparse
    simp [signedNat, hminus, hplus, hparse]

theorem signedNat_itoa (n : ℤ) : signedNat (itoa n) = some n := by
  cases n with
  | ofNat n => exact signedNat_natDigits n
  | negSucc n =>
    simp only [itoa, signedNat, if_true, parseNat_natDigits]
    rfl

theorem mem_itoa {n : ℤ} (h : b ∈ itoa n) : b = 45 ∨ isDigit b = true := by
  cases n with
  | ofNat n => exact .inr (natDigits_isDigit h)
  | negSucc n => exact (mem_cons.mp h).imp_right natDigits_isDigit

theorem itoa_injective : Function.Injective itoa := by
  intro m n h
  have hm := signedNat_itoa m
  rw [h, signedNat_itoa] at hm
  exact (Option.some.inj hm).symm

example : itoa (-12) = str "-12" := by decide

/-! ## Results with an error -/

theorem bind_eq_ok {ε α β : Type} {x : Except ε α} {f : α → Except ε β} {b : β} :
    (x >>= f) = .ok b ↔ ∃ a, x = .ok a ∧ f a = .ok b := by
  cases x with
  | error e | ok a => simp [bind, Except.bind]

end Go
