import Aflare.Go.Strings

/-!
# Functions on strings

The functions of Go's `strings` package that the engine uses.
-/

namespace Go

/-- The UTF-8 forms of the white space characters. -/
def spaceForms : List Str :=
  [[9], [10], [11], [12], [13], [32], [0xC2, 0x85], [0xC2, 0xA0], [0xE1, 0x9A, 0x80]] ++
    ((List.range 11).map fun k => [0xE2, 0x80, 0x80 + UInt8.ofNat k]) ++
    [[0xE2, 0x80, 0xA8], [0xE2, 0x80, 0xA9], [0xE2, 0x80, 0xAF], [0xE2, 0x81, 0x9F],
      [0xE3, 0x80, 0x80]]

/-- Drop forms from the front of a text for as long as one of them stands there. -/
def dropForms (forms : List Str) : ℕ → Str → Str
  | 0, s => s
  | fuel + 1, s =>
    match forms.find? fun form => form.isPrefixOf s with
    | none => s
    | some form => dropForms forms fuel (s.drop form.length)

def trimSpace (s : Str) : Str :=
  let front := dropForms spaceForms s.length s
  -- a form ends the text exactly if its reverse starts the reversed text
  (dropForms (spaceForms.map List.reverse) front.length front.reverse).reverse

def hasPrefix (s pre : Str) : Bool := pre.isPrefixOf s

def trimPrefix (s pre : Str) : Str := if hasPrefix s pre then s.drop pre.length else s

def hasSuffix (s suf : Str) : Bool := suf.isSuffixOf s

/-- The ASCII letters of a text in lower case. `strings.ToLower` gives an ASCII name of this
program for the same texts. -/
def asciiLower (s : Str) : Str := s.map fun b => if 65 ≤ b ∧ b ≤ 90 then b + 32 else b

/-- `strings.Index`; `none` when the text does not occur. -/
def indexOf (sub : Str) : Str → Option ℕ
  | [] => if sub = [] then some 0 else none
  | b :: rest => if sub.isPrefixOf (b :: rest) then some 0 else (indexOf sub rest).map (· + 1)

def contains (s sub : Str) : Bool := (indexOf sub s).isSome

/-- The parts of a text before and after the first occurrence of a separator: `strings.SplitN` with
a limit of two, where `none` is a result of one part. -/
def cut (sep s : Str) : Option (Str × Str) :=
  (indexOf sep s).map fun i => (s.take i, s.drop (i + sep.length))

/-- The parts of a text between the occurrences of a separator, as far as the fuel reaches. -/
def splitAux (sep : Str) : ℕ → Str → List Str
  | 0, s => [s]
  | fuel + 1, s =>
    match cut sep s with
    | none => [s]
    | some (part, rest) => part :: splitAux sep fuel rest

/-- `strings.Split` with a separator that is not empty. -/
def split (s sep : Str) : List Str := splitAux sep s.length s

/-- The words of a text from a word on that has been read in part. -/
def fieldsAux : ℕ → Str → Str → List Str
  | 0, word, _ => if word = [] then [] else [word]
  | fuel + 1, word, s =>
    match spaceForms.find? fun form => form.isPrefixOf s, s with
    | some form, _ => (if word = [] then [] else [word]) ++ fieldsAux fuel [] (s.drop form.length)
    | none, b :: rest => fieldsAux fuel (word ++ [b]) rest
    | none, [] => if word = [] then [] else [word]

def fields (s : Str) : List Str := fieldsAux s.length [] s

/-- `strings.Join`. -/
def joinWith (sep : Str) (parts : List Str) : Str := (parts.intersperse sep).flatten

end Go
