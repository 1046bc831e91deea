import Aflare.Go.JsonText

/-!
# JSON values

Values as `encoding/json` writes and reads them: the writer in either layout, `Marshal` without
white space and `MarshalIndent` with it, and the reader with its bound on the nesting depth. A
number is kept as its literal, and an object keeps its members in the order in which they stand in
the text, repeated names included; what a repeated name means is up to the type that is decoded.
The text of a value is read back as that value with its strings coerced to valid UTF-8.
-/

namespace Go

open List

inductive Value
  | null
  | bool (b : Bool)
  | num (lit : Str)
  | str (s : Str)
  | arr (xs : List Value)
  | obj (members : List (Str × Value))

def isSpace (b : UInt8) : Bool := b = 32 || b = 9 || b = 10 || b = 13

/-- A text of white space only. -/
def Blank (s : Str) : Prop := ∀ b ∈ s, isSpace b = true

/-- Where the writer puts white space: what stands between the parts of an array or object at a
nesting level, and what follows a colon. -/
structure Layout where
  gap : ℕ → Str
  colon : Str
  gap_blank : ∀ n, Blank (gap n)
  colon_blank : Blank colon

/-- The layout of `json.Marshal`. -/
def Layout.compact : Layout where
  gap _ := []
  colon := []
  gap_blank := by simp [Blank]
  colon_blank := by simp [Blank]

/-- The layout of `json.MarshalIndent` with two spaces for each level. -/
def Layout.indented : Layout where
  gap n := 10 :: List.replicate (2 * n) 32
  colon := [32]
  gap_blank := by
    intro n b hb
    rcases mem_cons.mp hb with rfl | hb
    · rfl
    · rw [eq_of_mem_replicate hb]
      rfl
  colon_blank := by simp [Blank, isSpace]

variable {value : Reader} {ms : List (Str × Value)} {v : Value} {xs : List Value}

namespace Value

/-! ## Writing -/

section Render

variable (layout : Layout)

mutual

/-- The text of a value at a nesting level. -/
def render (level : ℕ) : Value → Str
  | null => Go.str "null"
  | bool b => if b then Go.str "true" else Go.str "false"
  | num lit => lit
  | str s => quote s
  | arr [] => [91, 93]
  | arr (x :: xs) =>
    91 :: (layout.gap (level + 1) ++ (render (level + 1) x ++ renderElems level xs))
  | obj [] => [123, 125]
  | obj (m :: ms) =>
    123 :: (layout.gap (level + 1) ++ (quote m.1 ++
      58 :: (layout.colon ++ (render (level + 1) m.2 ++ renderMembers level ms))))

/-- The elements after the first, each after a comma, and the closing bracket. -/
def renderElems (level : ℕ) : List Value → Str
  | [] => layout.gap level ++ [93]
  | x :: xs => 44 :: (layout.gap (level + 1) ++ (render (level + 1) x ++ renderElems level xs))

/-- The members after the first, each after a comma, and the closing brace. -/
def renderMembers (level : ℕ) : List (Str × Value) → Str
  | [] => layout.gap level ++ [125]
  | m :: ms =>
    44 :: (layout.gap (level + 1) ++ (quote m.1 ++
      58 :: (layout.colon ++ (render (level + 1) m.2 ++ renderMembers level ms))))

end

end Render

/-- `json.Marshal` of a value. -/
def marshal (v : Value) : Str := v.render .compact 0

/-- `json.MarshalIndent` of a value. -/
def marshalIndent (v : Value) : Str := v.render .indented 0

mutual

/-- A value with every string in it coerced. -/
def coerce : Value → Value
  | null => null
  | bool b => bool b
  | num lit => num lit
  | str s => str (Go.coerce s)
  | arr xs => arr (coerceElems xs)
  | obj ms => obj (coerceMembers ms)

def coerceElems : List Value → List Value
  | [] => []
  | x :: xs => x.coerce :: coerceElems xs

def coerceMembers : List (Str × Value) → List (Str × Value)
  | [] => []
  | m :: ms => (Go.coerce m.1, m.2.coerce) :: coerceMembers ms

end

mutual

/-- How deeply arrays and objects are nested. -/
def depth : Value → ℕ
  | arr xs => depthElems xs + 1
  | obj ms => depthMembers ms + 1
  | _ => 0

def depthElems : List Value → ℕ
  | [] => 0
  | x :: xs => max x.depth (depthElems xs)

def depthMembers : List (Str × Value) → ℕ
  | [] => 0
  | m :: ms => max m.2.depth (depthMembers ms)

end

mutual

/-- Every number in the value is a number literal. -/
def WellFormed : Value → Prop
  | num lit => NumberText lit ∧ ∃ b t, lit = b :: t ∧ (b = 45 ∨ isDigit b)
  | arr xs => WellFormedElems xs
  | obj ms => WellFormedMembers ms
  | _ => True

def WellFormedElems : List Value → Prop
  | [] => True
  | x :: xs => x.WellFormed ∧ WellFormedElems xs

def WellFormedMembers : List (Str × Value) → Prop
  | [] => True
  | m :: ms => m.2.WellFormed ∧ WellFormedMembers ms

end

/-! ## Reading -/

/-- The text after leading white space. -/
def skipSpace (s : Str) : Str := s.dropWhile isSpace

/-- What follows the literal `word`, if the text starts with it. -/
def readWord (word s : Str) : Option Str :=
  if s.take word.length = word then some (s.drop word.length) else none

/-- A reader of a value from the start of a text. -/
abbrev Reader := Str → Option (Value × Str)

/-- Read at most `fuel` elements, up to the closing bracket. -/
def readElems (value : Reader) : ℕ → Str → Option (List Value × Str)
  | 0, _ => none
  | fuel + 1, s =>
    match value s with
    | none => none
    | some (x, r) =>
      match skipSpace r with
      | [] => none
      | b :: t =>
        if b = 44 then (readElems value fuel t).map fun p => (x :: p.1, p.2)
        else if b = 93 then some ([x], t)
        else none

/-- A member of an object: its name, a colon and its value. -/
def readMember (value : Reader) (s : Str) : Option ((Str × Value) × Str) :=
  match skipSpace s with
  | [] => none
  | b :: t =>
    if b = 34 then do
      let (name, r) ← readString t
      match skipSpace r with
      | [] => none
      | c :: r =>
        if c = 58 then (value r).map fun p => ((name, p.1), p.2) else none
    else none

/-- Read at most `fuel` members, up to the closing brace. -/
def readMembers (value : Reader) : ℕ → Str → Option (List (Str × Value) × Str)
  | 0, _ => none
  | fuel + 1, s =>
    match readMember value s with
    | none => none
    | some (m, r) =>
      match skipSpace r with
      | [] => none
      | b :: t =>
        if b = 44 then (readMembers value fuel t).map fun p => (m :: p.1, p.2)
        else if b = 125 then some ([m], t)
        else none

/-- The rest of an array after its opening bracket. -/
def readArray (value : Reader) (s : Str) : Option (Value × Str) :=
  match skipSpace s with
  | [] => none
  | b :: t =>
    if b = 93 then some (arr [], t)
    else (readElems value s.length s).map fun p => (arr p.1, p.2)

/-- The rest of an object after its opening brace. -/
def readObject (value : Reader) (s : Str) : Option (Value × Str) :=
  match skipSpace s with
  | [] => none
  | b :: t =>
    if b = 125 then some (obj [], t)
    else (readMembers value s.length s).map fun p => (obj p.1, p.2)

/-- One value, given the reader for the values inside it; without one, no array or object may
start here. -/
def readWith (inner : Option Reader) (s : Str) : Option (Value × Str) :=
  match skipSpace s with
  | [] => none
  | b :: t =>
    if b = 34 then (readString t).map fun p => (str p.1, p.2)
    else if b = 91 then inner.bind fun value => readArray value t
    else if b = 123 then inner.bind fun value => readObject value t
    else if b = 110 then (readWord (Go.str "null") (b :: t)).map fun r => (null, r)
    else if b = 116 then (readWord (Go.str "true") (b :: t)).map fun r => (bool true, r)
    else if b = 102 then (readWord (Go.str "false") (b :: t)).map fun r => (bool false, r)
    else (readNumber (b :: t)).map fun p => (num p.1, p.2)

/-- One value with at most `depth` levels of nesting. -/
def read : ℕ → Reader
  | 0 => readWith none
  | depth + 1 => readWith (some (read depth))

/-- The nesting depth at which the decoder gives up. -/
def maxNestingDepth : ℕ := 10000

/-- A text that is one value and nothing else but white space. -/
def parse (s : Str) : Option Value :=
  match read maxNestingDepth s with
  | none => none
  | some (v, r) => if skipSpace r = [] then some v else none

/-! ## Round trip -/

/-- A text that may stand after a value: after white space it ends, or goes on with a comma or a
closing bracket or brace. -/
def Follows (rest : Str) : Prop :=
  ∃ gap r, rest = gap ++ r ∧ Blank gap ∧ ∀ b t, r = b :: t → b = 44 ∨ b = 93 ∨ b = 125

variable {gap : Str}

theorem skipSpace_blank_append (h : Blank gap) (s : Str) : skipSpace (gap ++ s) = skipSpace s :=
  dropWhile_append_of_pos h

variable {b : UInt8}

theorem skipSpace_cons (h : isSpace b = false) (s : Str) : skipSpace (b :: s) = b :: s := by
  simp [skipSpace, h]

private theorem skipSpace_comma (s : Str) : skipSpace (44 :: s) = 44 :: s :=
  skipSpace_cons (by decide) s

theorem Follows.delimited {rest : Str} (h : Follows rest) : Delimited rest := by
  obtain ⟨gap, r, rfl, hgap, hr⟩ := h
  cases gap with
  | nil =>
    cases r with
    | nil => trivial
    | cons b t => rcases hr b t rfl with rfl | rfl | rfl <;> simp [Delimited, isDigit]
  | cons b gap =>
    have hb := hgap b mem_cons_self
    simp only [isSpace, Bool.or_eq_true, decide_eq_true_eq] at hb
    rcases hb with ((rfl | rfl) | rfl) | rfl <;> simp [Delimited, isDigit]

section Layouts

variable (layout : Layout)

theorem follows_gap (n : ℕ) (hb : b = 93 ∨ b = 125) (rest : Str) :
    Follows (layout.gap n ++ b :: rest) := by
  refine ⟨layout.gap n, b :: rest, rfl, layout.gap_blank n, ?_⟩
  intro c t hc
  obtain ⟨rfl, -⟩ := List.cons.inj hc
  exact Or.inr hb

theorem follows_comma (rest : Str) : Follows (44 :: rest) := by
  refine ⟨[], 44 :: rest, rfl, by simp [Blank], ?_⟩
  intro c t hc
  obtain ⟨rfl, -⟩ := List.cons.inj hc
  exact Or.inl rfl

private theorem skipSpace_gap (n : ℕ) (hb : b = 93 ∨ b = 125) (rest : Str) :
    skipSpace (layout.gap n ++ b :: rest) = b :: rest := by
  rw [skipSpace_blank_append (layout.gap_blank n)]
  exact skipSpace_cons (by rcases hb with rfl | rfl <;> decide) rest

/-- The reader gives back the coercion of a value from its text at any level, whatever white space
stands before it and whatever follows it. -/
def ReadsBack (value : Reader) (v : Value) : Prop :=
  ∀ gap level rest, Blank gap → Follows rest →
    value (gap ++ (v.render layout level ++ rest)) = some (v.coerce, rest)

variable (level : ℕ)

private theorem readElems_render (x : Value) (xs : List Value) (hx : ReadsBack layout value x)
    (hxs : ∀ y ∈ xs, ReadsBack layout value y) (rest : Str) (fuel : ℕ) (hfuel : xs.length < fuel) :
    readElems value fuel (layout.gap (level + 1) ++
        (x.render layout (level + 1) ++ (renderElems layout level xs ++ rest)))
      = some (x.coerce :: coerceElems xs, rest) := by
  -- one element is read, then the comma leads to the remaining ones
  induction xs generalizing x fuel with
  | nil =>
    obtain ⟨fuel, rfl⟩ := Nat.exists_eq_succ_of_ne_zero (Nat.ne_of_gt hfuel)
    have hread := hx _ (level + 1) _ (layout.gap_blank (level + 1))
      (follows_gap layout level (Or.inl rfl) rest)
    have hskip := skipSpace_gap layout level (Or.inl rfl) rest
    simp only [renderElems, append_assoc, singleton_append]
    simp [readElems, hread, hskip, coerceElems]
  | cons y ys ih =>
    obtain ⟨fuel, rfl⟩ := Nat.exists_eq_succ_of_ne_zero (Nat.ne_zero_of_lt hfuel)
    have hrest := ih y (hxs y mem_cons_self)
      (forall_mem_of_forall_mem_cons hxs) fuel (by simpa using hfuel)
    simp only [renderElems, cons_append, append_assoc]
    have hread t := hx _ (level + 1) _ (layout.gap_blank (level + 1)) (follows_comma t)
    simp [readElems, hread, skipSpace_comma, hrest, coerceElems]

private theorem readMember_render (m : Str × Value) (hm : ReadsBack layout value m.2)
    {gap rest : Str} (hgap : Blank gap) (hrest : Follows rest) :
    readMember value (gap ++ (quote m.1 ++
        58 :: (layout.colon ++ (m.2.render layout level ++ rest))))
      = some ((Go.coerce m.1, m.2.coerce), rest) := by
  have hname := readString_quote m.1 (58 :: (layout.colon ++ (m.2.render layout level ++ rest)))
  have hvalue := hm layout.colon level rest layout.colon_blank hrest
  rw [readMember, skipSpace_blank_append hgap]
  simp [quote, skipSpace, isSpace, hname, hvalue]

private theorem readMembers_render (m : Str × Value) (ms : List (Str × Value))
    (hm : ReadsBack layout value m.2) (hms : ∀ n ∈ ms, ReadsBack layout value n.2) (rest : Str)
    (fuel : ℕ) (hfuel : ms.length < fuel) :
    readMembers value fuel (layout.gap (level + 1) ++ (quote m.1 ++
        58 :: (layout.colon ++
          (m.2.render layout (level + 1) ++ (renderMembers layout level ms ++ rest)))))
      = some ((Go.coerce m.1, m.2.coerce) :: coerceMembers ms, rest) := by
  induction ms generalizing m fuel with
  | nil =>
    obtain ⟨fuel, rfl⟩ := Nat.exists_eq_succ_of_ne_zero (Nat.ne_of_gt hfuel)
    have hread := readMember_render layout (level + 1) m hm (layout.gap_blank (level + 1))
      (follows_gap layout level (Or.inr rfl) rest)
    have hskip := skipSpace_gap layout level (Or.inr rfl) rest
    simp only [renderMembers, append_assoc, singleton_append]
    simp [readMembers, hread, hskip, coerceMembers]
  | cons n ns ih =>
    obtain ⟨fuel, rfl⟩ := Nat.exists_eq_succ_of_ne_zero (Nat.ne_zero_of_lt hfuel)
    have hrest := ih n (hms n mem_cons_self)
      (forall_mem_of_forall_mem_cons hms) fuel (by simpa using hfuel)
    simp only [renderMembers, cons_append, append_assoc]
    have hread t := readMember_render layout (level + 1) m hm (layout.gap_blank (level + 1))
      (follows_comma t)
    simp [readMembers, hread, skipSpace_comma, hrest, coerceMembers]

variable {d : ℕ}

private theorem depthElems_le_iff : depthElems xs ≤ d ↔ ∀ x ∈ xs, x.depth ≤ d := by
  induction xs with
  | nil => simp [depthElems]
  | cons x xs ih => simp [depthElems, ih]

theorem depthMembers_le_iff : depthMembers ms ≤ d ↔ ∀ m ∈ ms, m.2.depth ≤ d := by
  induction ms with
  | nil => simp [depthMembers]
  | cons m ms ih => simp [depthMembers, ih]

theorem wellFormedElems_iff :
    WellFormedElems xs ↔ ∀ x ∈ xs, x.WellFormed := by
  induction xs with
  | nil => simp [WellFormedElems]
  | cons x xs ih => simp [WellFormedElems, ih]

theorem wellFormedMembers_iff :
    WellFormedMembers ms ↔ ∀ m ∈ ms, m.2.WellFormed := by
  induction ms with
  | nil => simp [WellFormedMembers]
  | cons m ms ih => simp [WellFormedMembers, ih]

/-- The text of a value starts with a byte that neither is white space nor closes a bracket. -/
theorem render_head (hv : v.WellFormed) (level : ℕ) :
    ∃ b t, v.render layout level = b :: t ∧ isSpace b = false ∧ b ≠ 93 ∧ b ≠ 125 := by
  cases v with
  | null => exact ⟨110, Go.str "ull", rfl, by decide, by decide, by decide⟩
  | bool b =>
    cases b with
    | true => exact ⟨116, Go.str "rue", rfl, by decide, by decide, by decide⟩
    | false => exact ⟨102, Go.str "alse", rfl, by decide, by decide, by decide⟩
  | num lit =>
    obtain ⟨-, b, t, rfl, hb⟩ := hv
    refine ⟨b, t, rfl, ?_⟩
    rcases hb with rfl | hb
    · decide
    · simp only [isDigit, Bool.and_eq_true, decide_eq_true_eq, UInt8.le_iff_toNat_le] at hb
      have hne (c : UInt8) (hc : c.toNat < 48 ∨ 57 < c.toNat) : b ≠ c := by
        rintro rfl
        have h48 : (48 : UInt8).toNat = 48 := rfl
        have h57 : (57 : UInt8).toNat = 57 := rfl
        omega
      refine ⟨?_, hne 93 (by decide), hne 125 (by decide)⟩
      simp [isSpace, hne 32 (by decide), hne 9 (by decide), hne 10 (by decide), hne 13 (by decide)]
  | str s => exact ⟨34, _, by simp only [render, quote]; rfl, by decide, by decide, by decide⟩
  | arr xs =>
    cases xs with
    | nil => exact ⟨91, [93], by simp [render], by decide, by decide, by decide⟩
    | cons x xs => exact ⟨91, _, by simp only [render]; rfl, by decide, by decide, by decide⟩
  | obj ms =>
    cases ms with
    | nil => exact ⟨123, [125], by simp [render], by decide, by decide, by decide⟩
    | cons m ms => exact ⟨123, _, by simp only [render]; rfl, by decide, by decide, by decide⟩

private theorem length_lt_renderElems (xs : List Value) :
    xs.length < (renderElems layout level xs).length := by
  induction xs with
  | nil => simp [renderElems]
  | cons x xs ih =>
    simp only [renderElems, length_cons, length_append]
    omega

private theorem length_lt_renderMembers (ms : List (Str × Value)) :
    ms.length < (renderMembers layout level ms).length := by
  induction ms with
  | nil => simp [renderMembers]
  | cons m ms ih =>
    simp only [renderMembers, length_cons, length_append]
    omega

variable (inner : Option Reader)

private theorem readWith_blank_append (h : Blank gap)
    (s : Str) : readWith inner (gap ++ s) = readWith inner s := by
  rw [readWith, readWith, skipSpace_blank_append h]

/-- Values without parts are read back. -/
private theorem readsBack_scalar (hv : v.WellFormed)
    (hdepth : v.depth = 0) : ReadsBack layout (readWith inner) v := by
  intro gap level rest hgap hrest
  rw [readWith_blank_append inner hgap]
  cases v with
  | null =>
    have hnull : Go.str "null" = [110, 117, 108, 108] := by decide
    simp [render, coerce, hnull, readWith, readWord, skipSpace, isSpace]
  | bool b =>
    have htrue : Go.str "true" = [116, 114, 117, 101] := by decide
    have hfalse : Go.str "false" = [102, 97, 108, 115, 101] := by decide
    cases b <;>
      simp [render, coerce, htrue, hfalse, readWith, readWord, skipSpace, isSpace]
  | num lit =>
    obtain ⟨b, t, hbt, hspace, -, -⟩ := render_head layout hv level
    obtain ⟨hnum, c, u, hcu, hc⟩ := hv
    have hread := hnum rest hrest.delimited
    simp only [render] at hbt
    subst hbt
    obtain ⟨rfl, rfl⟩ := List.cons.inj hcu
    -- a digit or a minus sign is none of the bytes the reader dispatches on
    have hne : b ≠ 34 ∧ b ≠ 91 ∧ b ≠ 123 ∧ b ≠ 110 ∧ b ≠ 116 ∧ b ≠ 102 := by
      rcases hc with rfl | hc
      · decide
      · refine ⟨?_, ?_, ?_, ?_, ?_, ?_⟩ <;> (rintro rfl; simp [isDigit] at hc)
    simp only [cons_append] at hread
    simp [render, coerce, readWith, skipSpace, hspace, hne, hread]
  | str s =>
    have hread := readString_quote s rest
    simp [render, coerce, quote, readWith, skipSpace, isSpace, hread]
  | arr xs | obj ms => simp [depth] at hdepth

private theorem readsBack_arr
    (hwf : ∀ x ∈ xs, x.WellFormed) (hxs : ∀ x ∈ xs, ReadsBack layout value x) :
    ReadsBack layout (readWith (some value)) (arr xs) := by
  intro gap level rest hgap hrest
  rw [readWith_blank_append _ hgap]
  cases xs with
  | nil =>
    simp [render, coerce, coerceElems, readWith, readArray, skipSpace, isSpace]
  | cons x xs =>
    obtain ⟨b, t, hbt, hspace, hclose, -⟩ := render_head layout (hwf x mem_cons_self) (level + 1)
    set text := layout.gap (level + 1) ++
      (x.render layout (level + 1) ++ (renderElems layout level xs ++ rest)) with htext
    have hlen : xs.length < text.length := by
      have hxs := length_lt_renderElems layout level xs
      simp only [htext, length_append]
      omega
    have hread := readElems_render layout level x xs (hxs x mem_cons_self)
      (forall_mem_of_forall_mem_cons hxs) rest _ hlen
    rw [← htext] at hread
    have hskip : skipSpace text = b :: (t ++ (renderElems layout level xs ++ rest)) := by
      rw [htext, skipSpace_blank_append (layout.gap_blank _), hbt]
      exact skipSpace_cons hspace _
    have harr : readArray value text = some (arr (x.coerce :: coerceElems xs), rest) := by
      simp only [readArray, hskip, hclose, if_false, hread, Option.map_some]
    simp [render, coerce, coerceElems, readWith, skipSpace, isSpace, ← htext, harr]

private theorem readsBack_obj (hms : ∀ m ∈ ms, ReadsBack layout value m.2) :
    ReadsBack layout (readWith (some value)) (obj ms) := by
  intro gap level rest hgap hrest
  rw [readWith_blank_append _ hgap]
  cases ms with
  | nil =>
    simp [render, coerce, coerceMembers, readWith, readObject, skipSpace, isSpace]
  | cons m ms =>
    set body := 58 :: (layout.colon ++
      (m.2.render layout (level + 1) ++ (renderMembers layout level ms ++ rest))) with hbody
    set text := layout.gap (level + 1) ++ (quote m.1 ++ body) with htext
    have hlen : ms.length < text.length := by
      have hms := length_lt_renderMembers layout level ms
      simp only [htext, hbody, length_append, length_cons]
      omega
    have hread := readMembers_render layout level m ms (hms m mem_cons_self)
      (forall_mem_of_forall_mem_cons hms) rest _ hlen
    rw [← hbody, ← htext] at hread
    have hskip : skipSpace text = quote m.1 ++ body := by
      rw [htext, skipSpace_blank_append (layout.gap_blank _)]
      exact skipSpace_cons (by decide) _
    have hobj : readObject value text =
        some (obj ((Go.coerce m.1, m.2.coerce) :: coerceMembers ms), rest) := by
      simp only [readObject, hskip, hread]
      simp [quote]
    simp [render, coerce, coerceMembers, readWith, skipSpace, isSpace, ← hbody, ← htext, hobj]

/-- A value is read back, up to coercion, by a reader that admits its depth. -/
theorem readsBack_read (hv : v.WellFormed) (hd : v.depth ≤ d) : ReadsBack layout (read d) v := by
  induction d generalizing v with
  | zero => exact readsBack_scalar layout none hv (Nat.le_zero.mp hd)
  | succ d ih =>
    cases v with
    | arr xs =>
      have hwf := wellFormedElems_iff.mp hv
      have hdepth := depthElems_le_iff.mp (Nat.le_of_succ_le_succ hd)
      exact readsBack_arr layout hwf fun x hx => ih (hwf x hx) (hdepth x hx)
    | obj ms =>
      have hwf := wellFormedMembers_iff.mp hv
      have hdepth := depthMembers_le_iff.mp (Nat.le_of_succ_le_succ hd)
      exact readsBack_obj layout fun m hm => ih (hwf m hm) (hdepth m hm)
    | null | bool b | num lit | str s => exact readsBack_scalar layout _ hv rfl

theorem parse_render (hv : v.WellFormed) (hd : v.depth ≤ maxNestingDepth)
    (level : ℕ) : parse (v.render layout level) = some v.coerce := by
  have hfollows : Follows [] := ⟨[], [], rfl, by simp [Blank], by simp⟩
  have hread := readsBack_read layout hv hd [] level [] (by simp [Blank]) hfollows
  rw [nil_append, append_nil] at hread
  simp [parse, hread, skipSpace]

theorem render_ne_nil (hv : v.WellFormed) (level : ℕ) : v.render layout level ≠ [] := by
  obtain ⟨b, t, hbt, -⟩ := render_head layout hv level
  simp [hbt]

end Layouts

theorem wellFormed_num_itoa (i : ℤ) : (num (itoa i)).WellFormed := by
  refine ⟨numberText_itoa i, ?_⟩
  cases i with
  | ofNat n =>
    obtain ⟨d, ds, hds⟩ := exists_cons_of_ne_nil (natDigits_ne_nil n)
    exact ⟨d, ds, hds, Or.inr (natDigits_isDigit (n := n) (by simp [hds]))⟩
  | negSucc n => exact ⟨45, _, rfl, Or.inl rfl⟩

end Value

end Go
