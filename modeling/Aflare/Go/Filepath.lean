import Aflare.Go.Text
import Aflare.Lib.LinkTree

/-!
# `path/filepath` on Unix

Paths are byte strings with `/` between their components. The functions of the standard library
read a path component by component: an empty component and `.` mean nothing, `..` is the parent,
and anything else is a name. Cleaning folds the components into names below a number of leading
`..`, which an absolute path does not have.

A `FileName` is a component that is a name, so the location of a file, a list of names, has one
absolute text and is read back from it.
-/

open LinkTree (Step)

namespace Go

open List

namespace Filepath

def separator : UInt8 := 47

/-- A component that is a name: not empty, without a separator, neither `.` nor `..`. -/
def IsName (s : Str) : Prop := s ≠ [] ∧ separator ∉ s ∧ s ≠ str "." ∧ s ≠ str ".."
  deriving Decidable

end Filepath

/-- A name that a directory can hold. -/
structure FileName where
  text : Str
  isName : Filepath.IsName text
deriving DecidableEq

namespace Filepath

/-- What a component asks for. -/
def stepOf (part : Str) : Step FileName :=
  if h : IsName part then .name ⟨part, h⟩ else if part = str ".." then .up else .stay

variable (path : Str)

/-- The components of a path. -/
def steps : List (Step FileName) := (path.splitOn separator).map stepOf

def isAbs : Bool := hasPrefix path [separator]

/-- The text of components with separators between them. -/
def joinParts (parts : List Str) : Str := [separator].intercalate parts

/-- The absolute path of a location. -/
def pathText (loc : List FileName) : Str := separator :: joinParts (loc.map FileName.text)

/-! ## Cleaning -/

/-- A cleaned path: names below some leading `..`, from the root or not. -/
structure Cleaned where
  rooted : Bool
  ups : ℕ
  names : List FileName
deriving DecidableEq

/-- One component more. A `..` takes back a name; the root is its own parent. -/
def Cleaned.step (c : Cleaned) : Step FileName → Cleaned
  | .stay => c
  | .up =>
    if c.names ≠ [] then { c with names := c.names.dropLast }
    else if c.rooted then c
    else { c with ups := c.ups + 1 }
  | .name a => { c with names := c.names ++ [a] }

/-- The path as cleaning reads it. -/
def parse : Cleaned := (steps path).foldl Cleaned.step ⟨isAbs path, 0, []⟩

/-- The text of a cleaned path; `.` stands for the empty one. -/
def Cleaned.text (c : Cleaned) : Str :=
  if c.rooted then pathText c.names
  else if c.ups = 0 ∧ c.names = [] then str "."
  else joinParts (List.replicate c.ups (str "..") ++ c.names.map FileName.text)

def clean : Str := (parse path).text

example : clean (str "a//./b/../../../c/") = str "../c" ∧ clean (str "/../a/") = str "/a" := by
  decide

/-- `filepath.Join` of two elements; empty ones do not count. -/
def join (dir elem : Str) : Str :=
  if dir = [] then (if elem = [] then [] else clean elem) else clean (dir ++ separator :: elem)

/-- What two lists have after their longest common beginning. -/
def stripCommon {α : Type*} [DecidableEq α] : List α → List α → List α × List α
  | a :: as, b :: bs => if a = b then stripCommon as bs else (a :: as, b :: bs)
  | as, bs => (as, bs)

/-- `filepath.Rel` of two absolute paths: up from the base as far as the paths differ, then down
to the target. Relative paths, whose lexical comparison can fail in other ways, are refused. -/
def rel (basepath targpath : Str) : Option Str :=
  let base := parse basepath
  let targ := parse targpath
  if base.rooted && targ.rooted then
    if base.names = targ.names then some (str ".")
    else
      let rest := stripCommon base.names targ.names
      some (joinParts (rest.1.map (fun _ => str "..") ++ rest.2.map FileName.text))
  else none

example : rel (str "/a/b") (str "/a/c/d") = some (str "../c/d") := by decide

/-- `filepath.Base`: the last element, without trailing separators. -/
def base : Str :=
  if path = [] then str "."
  else
    let last := ((path.reverse.dropWhile (· == separator)).takeWhile (· != separator)).reverse
    if last = [] then [separator] else last

/-- `filepath.Ext`: the last element from its last dot on. -/
def ext : Str :=
  let last := path.reverse.takeWhile (· != separator)
  if 46 ∈ last then (last.takeWhile (· != 46) ++ [46]).reverse else []

example : base (str "/a/b.tar.gz/") = str "b.tar.gz" ∧ ext (str "/a.d/b.tar.gz") = str ".gz" := by
  decide

/-! ## The text of a location -/

@[simp] theorem stepOf_text (a : FileName) : stepOf a.text = .name a := by
  simp [stepOf, a.isName]

@[simp] theorem stepOf_nil : stepOf [] = .stay := by
  decide

variable (loc : List FileName)

@[simp] theorem isAbs_pathText : isAbs (pathText loc) = true := by
  simp [isAbs, hasPrefix, pathText]

/-- The components of an absolute path: a leading empty one, then the names; the root alone has
an empty one more. -/
theorem steps_pathText :
    steps (pathText loc) = .stay :: if loc = [] then [.stay] else loc.map .name := by
  have hsplit : (pathText loc).splitOn separator =
      [] :: (joinParts (loc.map FileName.text)).splitOn separator :=
    splitOnP_append_cons [] _ (by simp)
  rw [steps, hsplit, map_cons, stepOf_nil]
  congr 1
  by_cases hloc : loc = []
  · subst hloc
    rfl
  · rw [if_neg hloc, joinParts, splitOn_intercalate]
    · simp
    · intro part hpart
      obtain ⟨a, -, rfl⟩ := mem_map.mp hpart
      exact a.isName.2.1
    · simpa using hloc

variable (c : Cleaned)

theorem foldl_step_names (loc : List FileName) :
    (loc.map Step.name).foldl Cleaned.step c = { c with names := c.names ++ loc } := by
  induction loc generalizing c with
  | nil => simp
  | cons a loc ih => simp [ih, Cleaned.step]

@[simp] theorem parse_pathText : parse (pathText loc) = ⟨true, 0, loc⟩ := by
  rw [parse, isAbs_pathText, steps_pathText]
  by_cases hloc : loc = []
  · subst hloc
    rfl
  · simp [hloc, foldl_step_names, Cleaned.step]

theorem rooted_foldl_step (parts : List (Step FileName)) :
    (parts.foldl Cleaned.step c).rooted = c.rooted := by
  induction parts generalizing c with
  | nil => rfl
  | cons part parts ih =>
    rw [foldl_cons, ih]
    cases part with
    | stay => rfl
    | up =>
      simp only [Cleaned.step]
      split_ifs <;> rfl
    | name a => rfl

theorem clean_of_isAbs {path : Str} (h : isAbs path = true) :
    clean path = pathText (parse path).names := by
  have hrooted : (parse path).rooted = true := by
    rw [parse, rooted_foldl_step, h]
  rw [clean, Cleaned.text, if_pos hrooted]

theorem clean_pathText : clean (pathText loc) = pathText loc := by
  rw [clean_of_isAbs (isAbs_pathText loc), parse_pathText]

theorem exists_join_eq_pathText {dir : Str} (h : isAbs dir = true) (elem : Str) :
    ∃ loc, join dir elem = pathText loc := by
  cases dir with
  | nil => cases h
  | cons b dir =>
    have habs : isAbs (b :: dir ++ separator :: elem) = true := by
      simpa [isAbs, hasPrefix] using h
    rw [join, if_neg (cons_ne_nil b dir), clean_of_isAbs habs]
    exact ⟨_, rfl⟩

/-! ## Relative paths -/

theorem stripCommon_spec {α : Type*} [DecidableEq α] (as bs : List α) :
    ∃ common, as = common ++ (stripCommon as bs).1 ∧ bs = common ++ (stripCommon as bs).2 := by
  fun_induction stripCommon as bs with
  | case1 as a bs ih =>
    obtain ⟨common, has, hbs⟩ := ih
    exact ⟨a :: common, by rw [cons_append, ← has], by rw [cons_append, ← hbs]⟩
  | case2 a as b bs hne | case3 as bs hcons => exact ⟨[], rfl, rfl⟩

theorem hasPrefix_joinParts_dotdot (parts : List Str) :
    hasPrefix (joinParts (str ".." :: parts)) (str "..") = true := by
  rw [hasPrefix, isPrefixOf_iff_prefix, joinParts]
  cases parts with
  | nil => simp
  | cons part parts =>
    rw [intercalate_cons_cons, append_assoc]
    exact prefix_append _ _

/-- A relative path that does not start with `..` leads down from the base. -/
theorem prefix_of_rel {home loc : List FileName} {r : Str}
    (hrel : rel (pathText home) (pathText loc) = some r)
    (hdown : hasPrefix r (str "..") = false) : home <+: loc := by
  simp only [rel, parse_pathText, Bool.and_self, if_true] at hrel
  split at hrel
  next heq => exact heq ▸ prefix_rfl
  next =>
    cases hrel
    obtain ⟨common, hhome, hloc⟩ := stripCommon_spec home loc
    cases hup : (stripCommon home loc).1 with
    | nil =>
      rw [hup, append_nil] at hhome
      rw [← hhome] at hloc
      exact ⟨_, hloc.symm⟩
    | cons a up =>
      -- A name of the base that the target lacks is left by `..`.
      rw [hup, map_cons, cons_append, hasPrefix_joinParts_dotdot] at hdown
      cases hdown

end Filepath

end Go
