import Aflare.Go.Search
import Aflare.Watermark.Payload

/-!
# Watermarks of source files

A watermark is a comment line that starts with `// aflare` and goes on with invisible characters. It
is put behind the line `//` that ends the copyright block of the file, and in front of the file if
there is none. Watermark lines that are there already are removed first.

Removing a watermark does not look for such a line: it looks for the first `// aflare` in the file,
for the next start marker, and for the next end marker, and removes everything from the line of the
first to the line of the last.

Source files are arbitrary bytes, and the markers are searched for by their encodings.
-/

namespace Watermark

open Go Option
open List hiding contains

/-! ## Lines with a watermark -/

def zwPrefix : Str := str "// aflare"

/-- The encodings of the zero-width characters. -/
def zwForms : List Str := [zwBit0, zwBit1, zwStart, zwEnd, zwEndLegacy].map fun r => utf8 [r]

/-- The text has only zero-width characters; each of them has three bytes. -/
def onlyZeroWidth : Str → Bool
  | [] => true
  | a :: b :: c :: rest => zwForms.contains [a, b, c] && onlyZeroWidth rest
  | _ => false

/-- `strings.TrimRight` with a set of bytes. -/
def trimRightBytes (s set : Str) : Str := (s.reverse.dropWhile fun b => set.contains b).reverse

def isSourceWatermarkLine (line : Str) : Bool :=
  if hasPrefix line zwPrefix = false then false
  else
    let rest := trimRightBytes (line.drop zwPrefix.length) (str " \t\r")
    if rest = [] then false else onlyZeroWidth rest

def stripAllSourceWatermarkLines (src : Str) : Str :=
  joinWith [10] ((split src [10]).filter fun line => !isSourceWatermarkLine line)

/-! ## Encoding -/

/-- The line of the copyright holder. -/
def isCopyright (line : Str) : Bool :=
  hasPrefix line (str "// Copyright") && contains line (str "aflare")

/-- The state of the loop of `EncodeSource`. -/
structure ScanState where
  result : Str
  inCopyright : Bool
  watermarkInserted : Bool

/-- The body of the loop of `EncodeSource`; the last line is written without a newline. -/
def scanLine (mark : Str) (last : Bool) (st : ScanState) (line : Str) : ScanState :=
  let result := st.result ++ line ++ (if last then [] else [10])
  if isCopyright line then { st with result := result, inCopyright := true }
  else if st.inCopyright && line = str "//" then
    { result := if st.watermarkInserted then result else result ++ mark ++ [10]
      inCopyright := false
      watermarkInserted := true }
  else { st with result := result }

def scanLines (mark : Str) : ScanState → List Str → ScanState
  | st, [] => st
  | st, [line] => scanLine mark true st line
  | st, line :: next :: rest => scanLines mark (scanLine mark false st line) (next :: rest)

/-- The watermark of a source text. -/
def sourceMark (stamp : Stamp) (src : Str) : Str :=
  zwPrefix ++ utf8 (encodeZeroWidth (withChecksum stamp (buildPayload stamp src)))

def encodeSource (stamp : Stamp) (src : Str) : Str :=
  if src = [] then src
  else
    let src := stripAllSourceWatermarkLines src
    let mark := sourceMark stamp src
    let st := scanLines mark ⟨[], false, false⟩ (split src [10])
    if st.watermarkInserted then st.result else mark ++ [10] ++ src

/-! ## Stripping -/

def indexZeroWidthEnd (s : Str) : Option (ℕ × Char) :=
  match indexOf (utf8 [zwEnd]) s, indexOf (utf8 [zwEndLegacy]) s with
  | none, none => none
  | none, some iOld => some (iOld, zwEndLegacy)
  | some iCur, none => some (iCur, zwEnd)
  | some iCur, some iOld => if iCur < iOld then some (iCur, zwEnd) else some (iOld, zwEndLegacy)

/-- What is kept before the watermark: the lines up to it, or all if the text has no newline. -/
def lineHead (s : Str) : Str :=
  match indexOf [10] s.reverse with
  | some i => s.take (s.length - i)
  | none => s

/-- What is kept after the watermark: the text behind the next newline, or all if there is none. -/
def lineTail (s : Str) : Str :=
  match cut [10] s with
  | some (_, rest) => rest
  | none => s

/-- `StripSourceWatermark`, with the parts of the text in place of their offsets. -/
def stripSourceWatermark (src : Str) : Str :=
  match cut zwPrefix src with
  | none => src
  | some (before, rest) =>
    match cut (utf8 [zwStart]) rest with
    | none => src
    | some (_, rest) =>
      match indexZeroWidthEnd rest with
      | none => src
      | some (endIdx, endRune) =>
        lineHead before ++ lineTail (rest.drop (endIdx + (utf8 [endRune]).length))

/-! ## The block -/

/-- The lines before the first line `//` that follows a copyright line, and the lines after it. -/
def copyrightBlock (lines : List Str) : Option (List Str × List Str) :=
  let front := lines.takeWhile fun line => !isCopyright line
  let block := lines.dropWhile fun line => !isCopyright line
  match block.dropWhile fun line => line ≠ str "//" with
  | [] => none
  | _ :: after => some (front ++ block.takeWhile (fun line => line ≠ str "//"), after)

/-- The text has no copyright block, or the block does not contain `// aflare` and lines follow. -/
def Removable (src : Str) : Prop :=
  ∀ block ∈ copyrightBlock (split src [10]),
    block.2 ≠ [] ∧ ∀ line ∈ block.1, contains line zwPrefix = false
  deriving Decidable

/-! ## Where the watermark stands -/

variable {mark : Str} {st : ScanState} {lines : List Str} {line : Str}

theorem scanLines_append (xs : List Str) :
    scanLines mark st (xs ++ line :: lines) =
      scanLines mark (xs.foldl (scanLine mark false) st) (line :: lines) := by
  induction xs generalizing st with
  | nil => rfl
  | cons x xs ih =>
    rw [foldl_cons, ← ih]
    cases xs with
    | nil => rfl
    | cons y xs => rfl

variable {result : Str}

/-- Lines that are only copied: no copyright line comes up, or no line `//` after one. -/
theorem foldl_scanLine_of_copied {inCopyright : Bool}
    (h : ∀ line ∈ lines, if inCopyright then line ≠ str "//" else isCopyright line = false) :
    lines.foldl (scanLine mark false) ⟨result, inCopyright, false⟩ =
      ⟨result ++ lineFile lines, inCopyright, false⟩ := by
  induction lines generalizing result with
  | nil => simp
  | cons line lines ih =>
    have hline : scanLine mark false ⟨result, inCopyright, false⟩ line =
        ⟨result ++ line ++ [10], inCopyright, false⟩ := by
      have hcopied := h line mem_cons_self
      cases inCopyright <;> simp_all [scanLine]
    rw [foldl_cons, hline, ih fun l hl => h l (mem_cons_of_mem _ hl)]
    simp [lineFile]

theorem scanLine_of_inserted (mark result line : Str) (inCopyright last : Bool) :
    ∃ inCopyright', scanLine mark last ⟨result, inCopyright, true⟩ line =
      ⟨result ++ line ++ (if last then [] else [10]), inCopyright', true⟩ := by
  unfold scanLine
  dsimp only
  split
  · exact ⟨_, rfl⟩
  · split
    · exact ⟨_, rfl⟩
    · exact ⟨_, rfl⟩

variable {inCopyright : Bool}

variable (mark) in
theorem scanLines_of_inserted (h : lines ≠ []) : ∃ inCopyright',
    scanLines mark ⟨result, inCopyright, true⟩ lines =
      ⟨result ++ joinWith [10] lines, inCopyright', true⟩ := by
  induction lines generalizing result inCopyright with
  | nil => exact absurd rfl h
  | cons line lines ih =>
    cases lines with
    | nil =>
      obtain ⟨inCopyright', hline⟩ := scanLine_of_inserted mark result line inCopyright true
      exact ⟨inCopyright', by simp [scanLines, hline]⟩
    | cons next lines =>
      obtain ⟨inCopyright', hline⟩ := scanLine_of_inserted mark result line inCopyright false
      rw [scanLines, hline]
      obtain ⟨inCopyright'', hrest⟩ := ih (cons_ne_nil next lines)
      exact ⟨inCopyright'', hrest.trans (by simp [joinWith_cons (cons_ne_nil next lines)])⟩

theorem watermarkInserted_scanLines :
    (scanLines mark st lines).watermarkInserted =
      (lines.foldl (scanLine mark false) st).watermarkInserted := by
  have hlast : ∀ (st : ScanState) (line : Str), (scanLine mark true st line).watermarkInserted =
      (scanLine mark false st line).watermarkInserted := fun st line => by
    simp only [scanLine, apply_ite ScanState.watermarkInserted]
  induction lines generalizing st with
  | nil => rfl
  | cons line lines ih =>
    cases lines with
    | nil => exact hlast st line
    | cons next lines => exact ih

theorem ne_slashes_of_isCopyright (h : isCopyright line = true) : line ≠ str "//" := by
  rintro rfl
  exact absurd h (by decide)

variable (mark) in
theorem foldl_scanLine_block {front block : List Str} {c : Str}
    (hfront : ∀ line ∈ front, isCopyright line = false) (hc : isCopyright c = true)
    (hblock : ∀ line ∈ block, line ≠ str "//") :
    (front ++ c :: block).foldl (scanLine mark false) ⟨[], false, false⟩ =
      ⟨lineFile (front ++ c :: block), true, false⟩ := by
  have hline : scanLine mark false ⟨lineFile front, false, false⟩ c =
      ⟨lineFile front ++ c ++ [10], true, false⟩ := by
    simp [scanLine, hc]
  rw [foldl_append, foldl_scanLine_of_copied hfront, nil_append, foldl_cons, hline,
    foldl_scanLine_of_copied hblock]
  simp [lineFile]

theorem takeWhile_cases {α : Type*} (p : α → Bool) (l : List α) :
    (l.dropWhile p = [] ∧ ∀ x ∈ l, p x = true) ∨
      ∃ a x b, l.takeWhile p = a ∧ l.dropWhile p = x :: b ∧ l = a ++ x :: b ∧
        (∀ y ∈ a, p y = true) ∧ p x = false := by
  have hsplit := takeWhile_append_dropWhile (p := p) (l := l)
  have hall : ∀ x ∈ l.takeWhile p, p x = true := fun x => mem_takeWhile_imp
  cases hdrop : l.dropWhile p with
  | nil =>
    rw [hdrop, append_nil] at hsplit
    exact .inl ⟨rfl, hsplit ▸ hall⟩
  | cons x b =>
    rw [hdrop] at hsplit
    have hx := head_dropWhile_not p (hdrop ▸ cons_ne_nil x b)
    exact .inr ⟨_, x, b, rfl, rfl, hsplit.symm, hall, by simpa [hdrop] using hx⟩

/-- How the lines are divided: there is no copyright line, or no line `//` after it, or there is a
block. -/
theorem copyrightBlock_cases (lines : List Str) :
    (copyrightBlock lines = none ∧ ∀ line ∈ lines, isCopyright line = false) ∨
    ∃ front c block, (∀ line ∈ front, isCopyright line = false) ∧ isCopyright c = true ∧
      (∀ line ∈ block, line ≠ str "//") ∧
      (copyrightBlock lines = none ∧ lines = front ++ c :: block ∨
        ∃ after, copyrightBlock lines = some (front ++ c :: block, after) ∧
          lines = front ++ c :: block ++ str "//" :: after) := by
  obtain ⟨hdrop, hall⟩ | ⟨front, c, rest, htake, hdrop, hlines, hfront, hc⟩ :=
    takeWhile_cases (fun line => !isCopyright line) lines
  · exact .inl ⟨by simp [copyrightBlock, hdrop], by simpa using hall⟩
  · simp only [Bool.not_eq_true', Bool.not_eq_false'] at hfront hc
    have hslashes : decide (c ≠ str "//") = true := decide_eq_true (ne_slashes_of_isCopyright hc)
    have hdropc : (c :: rest).dropWhile (fun line => decide (line ≠ str "//")) =
        rest.dropWhile fun line => decide (line ≠ str "//") := dropWhile_cons_of_pos hslashes
    have htakec : (c :: rest).takeWhile (fun line => decide (line ≠ str "//")) =
        c :: rest.takeWhile fun line => decide (line ≠ str "//") := takeWhile_cons_of_pos hslashes
    obtain ⟨hdrop', hall⟩ | ⟨block, x, after, htake', hdrop', rfl, hblock, hx⟩ :=
      takeWhile_cases (fun line => decide (line ≠ str "//")) rest
    · refine .inr ⟨front, c, rest, hfront, hc, by simpa using hall, .inl ⟨?_, hlines⟩⟩
      simp only [copyrightBlock, hdrop, hdropc, hdrop']
    · obtain rfl : x = str "//" := by simpa using hx
      refine .inr ⟨front, c, block, hfront, hc, by simpa using hblock, .inr ⟨after, ?_, ?_⟩⟩
      · simp only [copyrightBlock, htake, hdrop, htakec, hdropc, htake', hdrop']
      · rw [hlines]
        simp

theorem not_inserted_of_none (h : copyrightBlock lines = none) :
    (scanLines mark ⟨[], false, false⟩ lines).watermarkInserted = false := by
  rw [watermarkInserted_scanLines]
  obtain ⟨-, hall⟩ | ⟨front, c, block, hfront, hc, hblock, ⟨-, rfl⟩ | ⟨after, hsome, -⟩⟩ :=
    copyrightBlock_cases lines
  · rw [foldl_scanLine_of_copied hall]
  · rw [foldl_scanLine_block mark hfront hc hblock]
  · exact absurd (h.symm.trans hsome) (by simp)

variable {before : List Str} (mark) in
/-- The watermark follows the block. -/
theorem scanLines_of_some {after : List Str} (h : copyrightBlock lines = some (before, after)) :
    lines = before ++ str "//" :: after ∧ before ≠ [] ∧
      (scanLines mark ⟨[], false, false⟩ lines).watermarkInserted = true ∧
      (scanLines mark ⟨[], false, false⟩ lines).result =
        if after = [] then lineFile before ++ str "//" ++ mark ++ [10]
        else lineFile (before ++ [str "//"]) ++ mark ++ [10] ++ joinWith [10] after := by
  obtain ⟨hnone, -⟩ | ⟨front, c, block, hfront, hc, hblock, ⟨hnone, -⟩ | ⟨after', hsome, hlines⟩⟩ :=
    copyrightBlock_cases lines
  · exact absurd (h.symm.trans hnone) (by simp)
  · exact absurd (h.symm.trans hnone) (by simp)
  · obtain ⟨rfl, rfl⟩ := Prod.mk.inj (some.inj (h.symm.trans hsome))
    have hfold := foldl_scanLine_block mark hfront hc hblock
    have hslashes : ∀ last, scanLine mark last ⟨lineFile (front ++ c :: block), true, false⟩
        (str "//") = ⟨lineFile (front ++ c :: block) ++ str "//" ++ (if last then [] else [10]) ++
          mark ++ [10], false, true⟩ := fun last => by
      rw [scanLine, if_neg (by decide), if_pos (by simp)]
      rfl
    refine ⟨hlines, by simp, ?_⟩
    rw [hlines, scanLines_append, hfold]
    cases after with
    | nil =>
      rw [scanLines, hslashes]
      simp
    | cons next after =>
      obtain ⟨inCopyright', hrest⟩ := scanLines_of_inserted mark (cons_ne_nil next after)
      rw [scanLines, hslashes, hrest]
      simp [lineFile]

/-! ## The watermark itself -/

theorem utf8_zwBit0 : utf8 [zwBit0] = [0xE2, 0x80, 0x8B] := by decide

theorem utf8_zwBit1 : utf8 [zwBit1] = [0xE2, 0x80, 0x8C] := by decide

theorem utf8_zwStart : utf8 [zwStart] = [0xE2, 0x80, 0x8D] := by decide

theorem utf8_zwEnd : utf8 [zwEnd] = [0xE2, 0x81, 0xA0] := by decide

theorem utf8_zwEndLegacy : utf8 [zwEndLegacy] = [0xEF, 0xBB, 0xBF] := by decide

theorem utf8_cons (r : Char) (text : List Char) : utf8 (r :: text) = utf8 [r] ++ utf8 text := by
  simp [utf8]

theorem utf8_encodeZeroWidth (data : List UInt8) :
    utf8 (encodeZeroWidth data) = utf8 [zwStart] ++ (utf8 (bits data) ++ utf8 [zwEnd]) := by
  simp [utf8, encodeZeroWidth]

/-- The end marker is not found in a bit. -/
theorem indexZeroWidthEnd_bit {r : Char} (h : r = zwBit0 ∨ r = zwBit1) (rest : Str) :
    indexZeroWidthEnd (utf8 [r] ++ rest) =
      (indexZeroWidthEnd rest).map fun found => (found.1 + 3, found.2) := by
  have hcur : indexOf (utf8 [zwEnd]) (utf8 [r] ++ rest) =
      (indexOf (utf8 [zwEnd]) rest).map (· + 3) := by
    rcases h with rfl | rfl
    · simp [utf8_zwBit0, utf8_zwEnd, indexOf, Option.map_map, Function.comp_def]
    · simp [utf8_zwBit1, utf8_zwEnd, indexOf, Option.map_map, Function.comp_def]
  have hold : indexOf (utf8 [zwEndLegacy]) (utf8 [r] ++ rest) =
      (indexOf (utf8 [zwEndLegacy]) rest).map (· + 3) := by
    rcases h with rfl | rfl
    · simp [utf8_zwBit0, utf8_zwEndLegacy, indexOf, Option.map_map, Function.comp_def]
    · simp [utf8_zwBit1, utf8_zwEndLegacy, indexOf, Option.map_map, Function.comp_def]
  simp only [indexZeroWidthEnd, hcur, hold]
  cases indexOf (utf8 [zwEnd]) rest with
  | none =>
    cases indexOf (utf8 [zwEndLegacy]) rest with
    | none => rfl
    | some iOld => rfl
  | some iCur =>
    cases indexOf (utf8 [zwEndLegacy]) rest with
    | none => rfl
    | some iOld =>
      simp only [map_some, Nat.add_lt_add_iff_right]
      split
      · rfl
      · rfl

variable {text : List Char}

/-- The end marker is found behind the bits. -/
theorem indexZeroWidthEnd_bits (h : ∀ r ∈ text, r = zwBit0 ∨ r = zwBit1) (rest : Str) :
    indexZeroWidthEnd (utf8 text ++ (utf8 [zwEnd] ++ rest)) = some ((utf8 text).length, zwEnd) := by
  induction text with
  | nil =>
    have hcur : indexOf (utf8 [zwEnd]) (utf8 [zwEnd] ++ rest) = some 0 := indexOf_self_append _ _
    have hold : ∀ i, indexOf (utf8 [zwEndLegacy]) (utf8 [zwEnd] ++ rest) = some i → 0 < i := by
      intro i hi
      rw [utf8_zwEnd, utf8_zwEndLegacy, cons_append, indexOf, if_neg (by simp)] at hi
      obtain ⟨j, -, rfl⟩ := map_eq_some_iff.mp hi
      exact Nat.succ_pos j
    have hnil : utf8 [] ++ (utf8 [zwEnd] ++ rest) = utf8 [zwEnd] ++ rest := rfl
    rw [hnil, indexZeroWidthEnd, hcur]
    cases hlegacy : indexOf (utf8 [zwEndLegacy]) (utf8 [zwEnd] ++ rest) with
    | none => rfl
    | some i => exact if_pos (hold i hlegacy)
  | cons r text ih =>
    rw [utf8_cons, append_assoc, indexZeroWidthEnd_bit (h r mem_cons_self),
      ih fun r' hr' => h r' (mem_cons_of_mem _ hr')]
    have hlength : (utf8 [r]).length = 3 := by
      rcases h r mem_cons_self with rfl | rfl
      · rfl
      · rfl
    simp [hlength, Nat.add_comm]

variable {stamp : Stamp} {src : Str}

theorem newline_notMem_sourceMark : (10 : UInt8) ∉ sourceMark stamp src := by
  intro hmem
  rw [sourceMark, utf8_encodeZeroWidth] at hmem
  simp only [mem_append, utf8_zwStart, utf8_zwEnd] at hmem
  rcases hmem with hmem | hmem | hmem | hmem
  · exact absurd hmem (by decide)
  · exact absurd hmem (by decide)
  · obtain ⟨r, hr, hmem⟩ := mem_flatMap.mp hmem
    rcases mem_bits hr with rfl | rfl
    · exact absurd hmem (by decide)
    · exact absurd hmem (by decide)
  · exact absurd hmem (by decide)

theorem onlyZeroWidth_append {r : Char} (h : utf8 [r] ∈ zwForms) (rest : Str) :
    onlyZeroWidth (utf8 [r] ++ rest) = onlyZeroWidth rest := by
  have hforms : ∀ form ∈ zwForms, ∃ a b c, form = [a, b, c] := by
    simp [zwForms, utf8_zwBit0, utf8_zwBit1, utf8_zwStart, utf8_zwEnd, utf8_zwEndLegacy]
  obtain ⟨a, b, c, hform⟩ := hforms _ h
  rw [hform] at h ⊢
  simp [onlyZeroWidth, h]

theorem onlyZeroWidth_bits (h : ∀ r ∈ text, r = zwBit0 ∨ r = zwBit1)
    (rest : Str) : onlyZeroWidth (utf8 text ++ rest) = onlyZeroWidth rest := by
  induction text with
  | nil => rfl
  | cons r text ih =>
    have hform : utf8 [r] ∈ zwForms := by
      rcases h r mem_cons_self with rfl | rfl
      · simp [zwForms]
      · simp [zwForms]
    rw [utf8_cons, append_assoc, onlyZeroWidth_append hform,
      ih fun r' hr' => h r' (mem_cons_of_mem _ hr')]

/-- A watermark is recognised. -/
theorem isSourceWatermarkLine_sourceMark : isSourceWatermarkLine (sourceMark stamp src) = true := by
  have hfront : hasPrefix (sourceMark stamp src) zwPrefix = true :=
    isPrefixOf_iff_prefix.mpr (prefix_append zwPrefix _)
  have hrest : (sourceMark stamp src).drop zwPrefix.length =
      utf8 (encodeZeroWidth (withChecksum stamp (buildPayload stamp src))) := drop_left
  -- the last byte is no white space
  have htrim : ∀ data, trimRightBytes (utf8 (encodeZeroWidth data)) (str " \t\r") =
      utf8 (encodeZeroWidth data) := fun data => by
    have hlast : ¬ (str " \t\r").contains 0xA0 = true := by decide
    rw [utf8_encodeZeroWidth, utf8_zwEnd, trimRightBytes]
    simp only [reverse_append, reverse_cons, reverse_nil, nil_append, cons_append]
    rw [dropWhile_cons_of_neg hlast]
    simp
  have hne : ∀ data, utf8 (encodeZeroWidth data) ≠ [] := fun data => by
    simp [utf8_encodeZeroWidth, utf8_zwStart]
  have honly : ∀ data, onlyZeroWidth (utf8 (encodeZeroWidth data)) = true := fun data => by
    rw [utf8_encodeZeroWidth, onlyZeroWidth_append (by simp [zwForms]),
      onlyZeroWidth_bits fun r => mem_bits]
    decide
  rw [isSourceWatermarkLine, hfront, if_neg (by decide), hrest, htrim, if_neg (hne _)]
  exact honly _

/-! ## What stripping removes -/

theorem lineHead_of_notMem {s : Str} (h : (10 : UInt8) ∉ s) : lineHead s = s := by
  rw [lineHead, indexOf_singleton_of_notMem (by simpa using h)]

theorem lineHead_append {s t : Str} (h : (10 : UInt8) ∉ t) :
    lineHead (s ++ 10 :: t) = s ++ [10] := by
  have hreverse : (s ++ 10 :: t).reverse = t.reverse ++ 10 :: s.reverse := by simp
  rw [lineHead, hreverse, indexOf_singleton_append (by simpa using h)]
  have hlength : (s ++ 10 :: t).length - t.reverse.length = (s ++ [10]).length := by
    simp only [length_append, length_cons, length_reverse, length_nil]
    omega
  dsimp only
  rw [hlength, append_cons s 10 t]
  exact take_left

variable (s : Str)

theorem lineHead_cases :
    lineHead s <+: s ∧ ((10 : UInt8) ∉ s ∧ lineHead s = s ∨ ∃ t, lineHead s = t ++ [10]) := by
  by_cases h : (10 : UInt8) ∈ s
  · obtain ⟨u, v, hreverse, hu⟩ := eq_append_cons_of_mem (mem_reverse.mpr h)
    obtain rfl : s = v.reverse ++ 10 :: u.reverse := by
      rw [← reverse_reverse s, hreverse]
      simp
    rw [lineHead_append (by simpa using hu)]
    exact ⟨⟨u.reverse, by simp⟩, .inr ⟨v.reverse, rfl⟩⟩
  · rw [lineHead_of_notMem h]
    exact ⟨prefix_rfl, .inl ⟨h, rfl⟩⟩

theorem lineTail_suffix : lineTail s <:+ s := by
  unfold lineTail
  split
  · next rest hcut => exact (cut_eq_some hcut).2.2
  · exact suffix_rfl

variable (t : Str)

/-- Nothing is removed, or what is kept are the lines up to the first `// aflare` and an end of the
text. -/
theorem strip_cases :
    stripSourceWatermark t = t ∨ ∃ before after,
      indexOf zwPrefix t = some before.length ∧ before <+: t ∧ after <:+ t ∧
        stripSourceWatermark t = lineHead before ++ after := by
  unfold stripSourceWatermark
  split
  · exact .inl rfl
  · next before rest hcut =>
    split
    · exact .inl rfl
    · next rest' hstart =>
      split
      · exact .inl rfl
      · next endIdx endRune hend =>
        obtain ⟨hindex, hbefore, hrest⟩ := cut_eq_some hcut
        have hrest' := (cut_eq_some hstart).2.2.trans hrest
        exact .inr ⟨before, _, hindex, hbefore,
          ((lineTail_suffix _).trans (drop_suffix _ _)).trans hrest', rfl⟩

/-- A watermark that the first `// aflare` belongs to is removed. -/
theorem strip_append_mark {before : Str} (after : Str)
    (h : indexOf zwPrefix (before ++ (sourceMark stamp src ++ 10 :: after)) = some before.length) :
    stripSourceWatermark (before ++ (sourceMark stamp src ++ 10 :: after)) =
      lineHead before ++ after := by
  have hmark : ∀ data, before ++ (zwPrefix ++ utf8 (encodeZeroWidth data) ++ 10 :: after) =
      before ++
        (zwPrefix ++ (utf8 [zwStart] ++ (utf8 (bits data) ++ (utf8 [zwEnd] ++ 10 :: after)))) :=
    fun data => by simp [utf8_encodeZeroWidth]
  have hcut : ∀ rest, indexOf zwPrefix (before ++ (zwPrefix ++ rest)) = some before.length →
      cut zwPrefix (before ++ (zwPrefix ++ rest)) = some (before, rest) := fun rest h => by
    simp [cut, h]
  have htail : lineTail (10 :: after) = after := by
    have hcut : cut [10] (10 :: after) = some ([], after) := cut_self_append [10] after
    rw [lineTail, hcut]
  rw [sourceMark, hmark] at h ⊢
  rw [stripSourceWatermark, hcut _ h]
  dsimp only
  rw [cut_self_append]
  dsimp only
  rw [indexZeroWidthEnd_bits fun r => mem_bits]
  dsimp only
  have hdrop : ∀ data, (utf8 (bits data) ++ (utf8 [zwEnd] ++ 10 :: after)).drop
      ((utf8 (bits data)).length + (utf8 [zwEnd]).length) = 10 :: after := fun data => by
    rw [← length_append, ← append_assoc, drop_left]
  rw [hdrop, htail]

/-! ## Round trips -/

/-- The text has no watermark line. -/
def Unmarked (src : Str) : Prop := ∀ line ∈ split src [10], isSourceWatermarkLine line = false
  deriving Decidable

variable {text : Str}

theorem stripAll_of_lines {kept : List Str}
    (h : (split text [10]).filter (fun line => !isSourceWatermarkLine line) = kept) :
    stripAllSourceWatermarkLines text = joinWith [10] kept := by
  rw [stripAllSourceWatermarkLines, h]

theorem filter_of_unmarked {ls : List Str} (h : ∀ line ∈ ls, isSourceWatermarkLine line = false) :
    ls.filter (fun line => !isSourceWatermarkLine line) = ls :=
  filter_eq_self.mpr fun line hline => by simp [h line hline]

theorem Unmarked.stripAll (h : Unmarked src) : stripAllSourceWatermarkLines src = src := by
  rw [stripAll_of_lines (filter_of_unmarked h), joinWith_split]

theorem encodeSource_of_none (stamp : Stamp) (hne : src ≠ []) (h : Unmarked src)
    (hblock : copyrightBlock (split src [10]) = none) :
    encodeSource stamp src = sourceMark stamp src ++ 10 :: src := by
  rw [encodeSource, if_neg hne, h.stripAll]
  dsimp only
  rw [not_inserted_of_none hblock]
  simp

theorem encodeSource_of_some (stamp : Stamp) {after : List Str} (hne : src ≠ []) (h : Unmarked src)
    (hblock : copyrightBlock (split src [10]) = some (before, after)) :
    encodeSource stamp src =
      if after = [] then lineFile before ++ str "//" ++ sourceMark stamp src ++ [10]
      else
        lineFile (before ++ [str "//"]) ++ sourceMark stamp src ++ [10] ++ joinWith [10] after := by
  obtain ⟨-, -, hinserted, hresult⟩ := scanLines_of_some (sourceMark stamp src) hblock
  rw [encodeSource, if_neg hne, h.stripAll]
  dsimp only
  rw [hinserted, if_pos rfl, hresult]

/-- Encoding again removes the watermark line and puts it back. -/
theorem encodeSource_again (hne : src ≠ []) (h : Unmarked src) (ls ms : List Str)
    (hsrc : split src [10] = ls ++ ms) (htext : split text [10] = ls ++ sourceMark stamp src :: ms)
    (hencode : encodeSource stamp src = text) : encodeSource stamp text = text := by
  have hls : ∀ line ∈ ls, isSourceWatermarkLine line = false := fun line hline =>
    h line (by simp [hsrc, hline])
  have hms : ∀ line ∈ ms, isSourceWatermarkLine line = false := fun line hline =>
    h line (by simp [hsrc, hline])
  have hstrip : stripAllSourceWatermarkLines text = src := by
    rw [stripAll_of_lines rfl, htext, filter_append, filter_of_unmarked hls,
      filter_cons_of_neg (by simp [isSourceWatermarkLine_sourceMark]), filter_of_unmarked hms,
      ← hsrc, joinWith_split]
  have htext' : text ≠ [] := by
    rintro rfl
    have hlines : split ([] : Str) [10] = [[]] := rfl
    have hmark : sourceMark stamp src ∈ split ([] : Str) [10] := by simp [htext]
    rw [hlines, mem_singleton] at hmark
    exact absurd hmark (by simp [sourceMark, zwPrefix, str, String.utf8EncodeChar])
  rw [← hencode, encodeSource, if_neg (hencode ▸ htext'), hencode, hstrip]
  conv_rhs => rw [← hencode, encodeSource, if_neg hne, h.stripAll]

theorem indexOf_sourceMark : indexOf zwPrefix (sourceMark stamp src ++ 10 :: t) = some 0 := by
  rw [sourceMark, append_assoc, indexOf_self_append]

theorem eq_of_suffixes {a b t : Str} (ha : a <:+ t) (hb : b <:+ t) (h : a.length = b.length) :
    a = b :=
  (suffix_of_suffix_length_le ha hb h.le).eq_of_length h

theorem sourceMark_last (stamp : Stamp) (src : Str) :
    ∃ front, sourceMark stamp src = front ++ [0xA0] := by
  refine ⟨zwPrefix ++ (utf8 [zwStart] ++
    (utf8 (bits (withChecksum stamp (buildPayload stamp src))) ++ [0xE2, 0x81])), ?_⟩
  simp [sourceMark, utf8_encodeZeroWidth, utf8_zwEnd]

/-- If the block contains `// aflare`, stripping removes a part of it, or leaves the watermark. -/
theorem strip_ne_of_contains {after line : Str} (hline : line ∈ before)
    (hcontains : contains line zwPrefix = true) :
    stripSourceWatermark (lineFile (before ++ [str "//"]) ++
      (sourceMark stamp src ++ 10 :: after)) ≠
      lineFile (before ++ [str "//"]) ++ after := by
  intro hstrip
  have hfound : indexOf zwPrefix (lineFile (before ++ [str "//"])) ≠ none := by
    rw [Ne, indexOf_lineFile_eq_none_iff (by decide) (by decide)]
    intro hnone
    rw [contains, hnone line (by simp [hline])] at hcontains
    exact absurd hcontains (by decide)
  obtain ⟨i, hi⟩ := ne_none_iff_exists'.mp hfound
  obtain ⟨hfirst, hle⟩ := indexOf_append_of_some hi (sourceMark stamp src ++ 10 :: after)
  have hfile : lineFile (before ++ [str "//"]) = lineFile before ++ [47] ++ [47, 10] := by
    simp [lineFile, str, String.utf8EncodeChar]
  obtain hsame | ⟨kept, rest, hindex, -, hrest, hshape⟩ :=
    strip_cases (lineFile (before ++ [str "//"]) ++ (sourceMark stamp src ++ 10 :: after))
  · have hlength := congrArg length (hsame.symm.trans hstrip)
    simp only [length_append, length_cons] at hlength
    omega
  · -- the text that is given back ends like the block, the marked text like the watermark
    have hkept : (lineHead kept).length ≤ i := by
      rw [← some.inj (hindex.symm.trans hfirst)]
      exact (lineHead_cases kept).1.length_le
    have hsrc : lineHead kept ++ rest = lineFile before ++ [47] ++ ([47, 10] ++ after) := by
      rw [← hshape, hstrip, hfile, append_assoc]
    have hlength := congrArg length hsrc
    have hsize : zwPrefix.length = 9 := by decide
    rw [hfile] at hle
    simp only [length_append, length_cons, length_nil] at hlength hle
    have hblock : [47, 10] ++ after <:+ rest := by
      refine suffix_of_suffix_length_le (suffix_append _ _)
        (hsrc ▸ suffix_append (lineHead kept) rest) ?_
      simp only [length_append, length_cons, length_nil]
      omega
    obtain ⟨front, hmark⟩ := sourceMark_last stamp src
    have hend : [0xA0, 10] ++ after <:+
        lineFile (before ++ [str "//"]) ++ (sourceMark stamp src ++ 10 :: after) :=
      ⟨lineFile (before ++ [str "//"]) ++ front, by simp [hmark]⟩
    have heq := eq_of_suffixes (hblock.trans hrest) hend (by simp)
    exact absurd (cons.inj heq).1 (by decide)

/-- If nothing follows the block, stripping removes its last line with the watermark. -/
theorem strip_ne_of_last (stamp : Stamp) (src : Str) (hbefore : before ≠ []) :
    stripSourceWatermark (lineFile before ++ str "//" ++ sourceMark stamp src ++ [10]) ≠
      lineFile before ++ str "//" := by
  intro hstrip
  have hlast : (lineFile before ++ str "//").getLast? = some 47 := by
    rw [getLast?_append_of_ne_nil _ (by decide)]
    decide
  obtain hsame | ⟨kept, rest, -, -, ⟨front, hrest⟩, hshape⟩ :=
    strip_cases (lineFile before ++ str "//" ++ sourceMark stamp src ++ [10])
  · have hlength := congrArg length (hsame.symm.trans hstrip)
    simp only [length_append, length_cons] at hlength
    omega
  · rw [hstrip] at hshape
    by_cases hempty : rest = []
    · rw [hempty, append_nil] at hshape
      obtain ⟨hnewline, hkept⟩ | ⟨t, ht⟩ := (lineHead_cases kept).2
      · -- there is a newline in front of the last line
        obtain ⟨line, lines, rfl⟩ := exists_cons_of_ne_nil hbefore
        rw [← hkept, ← hshape] at hnewline
        exact hnewline (by simp [lineFile])
      · rw [hshape, ht, getLast?_concat] at hlast
        exact absurd hlast (by decide)
    · -- what is kept behind the watermark ends with the newline
      have hend := congrArg getLast? hrest
      rw [getLast?_append_of_ne_nil _ hempty, getLast?_concat] at hend
      rw [hshape, getLast?_append_of_ne_nil _ hempty, hend] at hlast
      exact absurd hlast (by decide)

/-- The text with its watermark behind a block that lines follow is stripped to the text exactly if
the block does not contain `// aflare`. -/
theorem strip_after_block_iff (stamp : Stamp) (src : Str) (before : List Str) (after : Str) :
    stripSourceWatermark (lineFile (before ++ [str "//"]) ++
      (sourceMark stamp src ++ 10 :: after)) =
        lineFile (before ++ [str "//"]) ++ after ↔
      ∀ line ∈ before, contains line zwPrefix = false := by
  constructor
  · intro hstrip line hline
    exact Bool.eq_false_of_not_eq_true fun hcontains => strip_ne_of_contains hline hcontains hstrip
  · intro hbefore
    have hnone : ∀ line ∈ before ++ [str "//"], indexOf zwPrefix line = none := by
      intro line hline
      rcases mem_append.mp hline with hline | hline
      · simpa [contains] using hbefore line hline
      · obtain rfl := mem_singleton.mp hline
        decide
    have hfirst := indexOf_lineFile_append (by decide) hnone (sourceMark stamp src ++ 10 :: after)
    rw [indexOf_sourceMark, map_some, Nat.zero_add] at hfirst
    have hhead : lineHead (lineFile (before ++ [str "//"])) = lineFile (before ++ [str "//"]) := by
      rw [lineFile_append, lineFile_singleton, ← append_assoc]
      exact lineHead_append (by simp)
    rw [strip_append_mark _ hfirst, hhead]

/-- A source text without watermark lines is given back by encoding and stripping it, and encoding
again changes nothing, exactly if its copyright block does not contain `// aflare` and is not the
whole text. -/
theorem strip_source_iff (stamp : Stamp) (src : Str) (h : Unmarked src) :
    (stripSourceWatermark (encodeSource stamp src) = src ∧
      encodeSource stamp (encodeSource stamp src) = encodeSource stamp src) ↔ Removable src := by
  by_cases hne : src = []
  · subst hne
    exact iff_of_true ⟨rfl, rfl⟩ (by decide)
  cases hblock : copyrightBlock (split src [10]) with
  | none =>
    have hencode := encodeSource_of_none stamp hne h hblock
    refine iff_of_true ⟨?_, ?_⟩ (by simp [Removable, hblock])
    · have hfirst : indexOf zwPrefix ([] ++ (sourceMark stamp src ++ 10 :: src)) = some 0 :=
        indexOf_sourceMark src
      have hstrip := strip_append_mark src hfirst
      rw [nil_append, lineHead_of_notMem (by simp), nil_append] at hstrip
      rw [hencode, hstrip]
    · rw [hencode]
      refine encodeSource_again hne h [] (split src [10]) rfl ?_ hencode
      rw [split_append_cons, split_of_notMem newline_notMem_sourceMark]
      rfl
  | some block =>
    obtain ⟨before, after⟩ := block
    obtain ⟨hlines, hbefore, -⟩ := scanLines_of_some [] hblock
    have hencode := encodeSource_of_some stamp hne h hblock
    have hsrc : src = joinWith [10] (before ++ str "//" :: after) := by
      rw [← hlines, joinWith_split]
    by_cases hafter : after = []
    · subst hafter
      rw [if_pos rfl] at hencode
      refine iff_of_false (fun hboth => ?_) fun hremovable => (hremovable _ hblock).1 rfl
      have hlast := strip_ne_of_last stamp src hbefore
      rw [← hencode, hboth.1] at hlast
      rw [joinWith_append (by simp), joinWith_singleton] at hsrc
      exact hlast hsrc
    · have hfile : src = lineFile (before ++ [str "//"]) ++ joinWith [10] after := by
        rw [← joinWith_append hafter, append_assoc, singleton_append]
        exact hsrc
      have hencode' : encodeSource stamp src = lineFile (before ++ [str "//"]) ++
          (sourceMark stamp src ++ 10 :: joinWith [10] after) := by
        rw [hencode, if_neg hafter]
        simp
      have hagain : encodeSource stamp (encodeSource stamp src) = encodeSource stamp src := by
        have hnewline : ∀ line ∈ before ++ str "//" :: after, (10 : UInt8) ∉ line :=
          fun line hline =>
          notMem_of_mem_split (hlines ▸ hline)
        refine encodeSource_again hne h (before ++ [str "//"]) after ?_ ?_ rfl
        · rw [hlines, append_cons]
        · rw [hencode', split_lineFile_append, split_append_cons,
            split_of_notMem newline_notMem_sourceMark, split_joinWith hafter]
          · rfl
          · exact fun line hline => hnewline line (by simp [hline])
          · rw [append_cons] at hnewline
            exact fun line hline => hnewline line (mem_append_left after hline)
      have hstrip : stripSourceWatermark (encodeSource stamp src) = src ↔
          ∀ line ∈ before, contains line zwPrefix = false := by
        conv_lhs => rw [hencode']; rhs; rw [hfile]
        exact strip_after_block_iff stamp src before _
      rw [and_iff_left hagain, hstrip]
      simp [Removable, hblock, hafter]

/-- A file with the copyright block of this repository. -/
def licensedFile : Str := str "// Copyright (c) 2026 aflare Contributors\n//\npackage main\n"

theorem strip_source_licensed :
    encodeSource plainStamp licensedFile ≠ licensedFile ∧
      stripSourceWatermark (encodeSource plainStamp licensedFile) = licensedFile ∧
      encodeSource plainStamp (encodeSource plainStamp licensedFile) =
        encodeSource plainStamp licensedFile :=
  ⟨by decide,
    (strip_source_iff plainStamp licensedFile (by decide)).mpr (by decide)⟩

/-- The name of the program at the start of a comment in the block: that line and the end of the
block are removed with the watermark. -/
theorem not_strip_source :
    let src := str "// Copyright (c) 2026 aflare Contributors\n" ++
      str "// aflare runs workflows.\n//\npackage main\n"
    let stripped := str "// Copyright (c) 2026 aflare Contributors\npackage main\n"
    Unmarked src ∧ stripSourceWatermark (encodeSource plainStamp src) = stripped ∧
      stripped ≠ src := by
  decide +kernel

end Watermark
