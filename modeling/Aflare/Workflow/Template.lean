import Aflare.Workflow.Expression

/-!
# Compiled templates

`Evaluate` looks a template up in a bounded cache that all goroutines share, compiles it when it is
not there, and runs the instructions. Each call of the cache holds its lock, so that the calls of
all goroutines come one after the other.
-/

namespace Workflow

open Go
open List hiding contains

/-! ## Compilation -/

/-- A compiled template: its text if it has no expression, and its instructions otherwise. -/
structure CompiledTemplate where
  literal : Str
  hasExpr : Bool
  instrs : List Instruction
  deriving DecidableEq

/-- Whether an instruction is a literal. -/
def Op.isLiteral : Op → Bool
  | .literal _ => true
  | _ => false

/-- `parseTemplate`, with the fast path for texts without opening braces. -/
def compileSource (s : Str) : CompiledTemplate :=
  if contains s [123, 123] then
    let instrs := scanTemplate s.length [] s
    if instrs.any fun ins => !ins.op.isLiteral then ⟨[], true, instrs⟩ else ⟨s, false, []⟩
  else ⟨s, false, []⟩

/-! ## The cache -/

/-- `templateLRU`: the compiled templates, and their keys with the one used last in front. -/
structure TemplateLRU where
  items : GoMap Str CompiledTemplate
  order : List Str
  cap : ℕ

def templateCacheCap : ℤ := 10000

def newTemplateLRU (cap : ℤ) : TemplateLRU where
  items := ∅
  order := []
  cap := if cap ≤ 0 then 1 else cap.toNat

namespace TemplateLRU

def load (c : TemplateLRU) (key : Str) : Option CompiledTemplate × TemplateLRU :=
  match c.items[key]? with
  | none => (none, c)
  | some value => (some value, { c with order := key :: c.order.erase key })

def loadOrStore (c : TemplateLRU) (key : Str) (value : CompiledTemplate) :
    CompiledTemplate × TemplateLRU :=
  match c.items[key]? with
  | some value' => (value', { c with order := key :: c.order.erase key })
  | none =>
    let items := c.items.insert key value
    let order := key :: c.order
    if c.cap < order.length then
      (value, { c with items := items.erase (order.getLast (by simp [order])),
                       order := order.dropLast })
    else (value, { c with items := items, order := order })

end TemplateLRU

/-- A call of the cache by some goroutine that compiles the template `key`. -/
inductive CacheCall
  | load (key : Str)
  | loadOrStore (key : Str)

variable (c : TemplateLRU)

def TemplateLRU.apply : CacheCall → TemplateLRU
  | .load key => (c.load key).2
  | .loadOrStore key => (c.loadOrStore key (compileSource key)).2

def TemplateLRU.run (calls : List CacheCall) : TemplateLRU := calls.foldl apply c

/-- `compileTemplate`. Each of its two calls holds the lock of the cache, and `others` are the calls
of other goroutines between the two. -/
def compileTemplate (others : List CacheCall) (expr : Str) : CompiledTemplate × TemplateLRU :=
  match c.load expr with
  | (some value, c) => (value, c)
  | (none, c) => (c.run others).loadOrStore expr (compileSource expr)

namespace TemplateLRU

/-- Every cached template was compiled from its key. -/
def Sound (c : TemplateLRU) : Prop :=
  GoMap.Forall (fun key value => value = compileSource key) c.items

variable {c : TemplateLRU}

theorem sound_new (cap : ℤ) : (newTemplateLRU cap).Sound := GoMap.Forall.empty

theorem Sound.load (h : c.Sound) (key : Str) : (c.load key).2.Sound := by
  unfold TemplateLRU.load
  split <;> exact h

theorem Sound.loadOrStore (h : c.Sound) (key : Str) :
    (c.loadOrStore key (compileSource key)).2.Sound := by
  have hinsert : GoMap.Forall (fun key value => value = compileSource key)
      (c.items.insert key (compileSource key)) := GoMap.Forall.insert h rfl
  unfold TemplateLRU.loadOrStore
  split
  · exact h
  · simp only
    split
    · exact hinsert.erase _
    · exact hinsert

theorem Sound.apply (h : c.Sound) (call : CacheCall) : (c.apply call).Sound := by
  cases call with
  | load key => exact h.load key
  | loadOrStore key => exact h.loadOrStore key

theorem Sound.run (h : c.Sound) (calls : List CacheCall) : (c.run calls).Sound := by
  induction calls generalizing c with
  | nil => exact h
  | cons call calls ih => exact ih (h.apply call)

end TemplateLRU

variable {c : TemplateLRU}

theorem compileTemplate_eq (h : c.Sound) (others : List CacheCall)
    (expr : Str) : (compileTemplate c others expr).1 = compileSource expr := by
  unfold compileTemplate TemplateLRU.load
  cases hload : c.items[expr]? with
  | some value => exact h expr value hload
  | none =>
    simp only [TemplateLRU.loadOrStore]
    cases hstore : (c.run others).items[expr]? with
    | some value => exact (h.run others) expr value hstore
    | none => simp only; split <;> rfl

/-! ## Evaluation -/

namespace ExpressionEngine

/-- One turn of the loop of `Evaluate`, with the text and the first error so far. -/
def evaluateInstr (w : World) (e : ExpressionEngine) (input : Str) :
    Str × Option Str → Instruction → Str × Option Str
  | (buf, firstErr), ins =>
    match e.resolveInstr w input ins with
    | .ok v => (buf ++ v, firstErr)
    | .error err =>
      (buf ++ ins.fullMatch,
        if ins.known && firstErr.isNone then
          some (str "expression '" ++ [123, 123] ++ ins.inner ++ [125, 125] ++ str "': " ++ err)
        else firstErr)

/-- `Evaluate`: the text, the error, and the cache afterwards. -/
def evaluateTemplate (w : World) (e : ExpressionEngine) (c : TemplateLRU) (others : List CacheCall)
    (expr input : Str) : (Str × Option Str) × TemplateLRU :=
  if expr = [] then (([], none), c)
  else
    let (tmpl, c) := compileTemplate c others expr
    if !tmpl.hasExpr then ((tmpl.literal, none), c)
    else (tmpl.instrs.foldl (e.evaluateInstr w input) ([], none), c)

variable {w : World} {e : ExpressionEngine} {input : Str}

theorem foldl_collect {α : Type} {f : Str × Option Str → α → Str × Option Str}
    {text : α → Str} {error : α → Option Str}
    (hf : ∀ buf firstErr a, f (buf, firstErr) a = (buf ++ text a, firstErr.or (error a)))
    (l : List α) (buf : Str) (firstErr : Option Str) :
    l.foldl f (buf, firstErr) = (buf ++ l.flatMap text, firstErr.or (l.findSome? error)) := by
  induction l generalizing buf firstErr with
  | nil => simp
  | cons a l ih =>
    rw [foldl_cons, hf, ih, flatMap_cons, append_assoc, findSome?_cons]
    cases firstErr <;> cases error a <;> rfl

theorem evaluateInstr_eq (buf : Str) (firstErr : Option Str) (ins : Instruction) :
    e.evaluateInstr w input (buf, firstErr) ins =
      (buf ++ e.pieceOf w input ins, firstErr.or (e.errorOf w input ins)) := by
  unfold evaluateInstr pieceOf errorOf
  cases hres : e.resolveInstr w input ins with
  | ok v => simp [hres]
  | error err => cases firstErr <;> cases hknown : ins.known <;> simp [hres, hknown]

end ExpressionEngine

/-! ## What the scanner finds -/

variable {s content after : Str}

/-- An expression is a text without `}` between double braces. -/
theorem matchExpr_eq_some_iff :
    matchExpr s = some (content, after) ↔
      content ≠ [] ∧ (125 : UInt8) ∉ content ∧
        s = 123 :: 123 :: (content ++ 125 :: 125 :: after) := by
  constructor
  · intro h
    unfold matchExpr at h
    split at h
    · rename_i rest
      simp only at h
      split at h
      · rename_i after' hdrop
        split at h
        · rename_i hne
          obtain ⟨rfl, rfl⟩ := Prod.mk.inj (Option.some.inj h)
          refine ⟨hne, fun hmem => ?_, ?_⟩
          · simpa using mem_takeWhile_imp hmem
          · rw [← hdrop, takeWhile_append_dropWhile]
        · cases h
      · cases h
    · cases h
  · rintro ⟨hne, hnot, rfl⟩
    have hall : ∀ b ∈ content, decide (b ≠ 125) = true := by
      intro b hb
      rw [decide_eq_true_eq]
      rintro rfl
      exact hnot hb
    have htake : (content ++ 125 :: 125 :: after).takeWhile (· ≠ 125) = content := by
      rw [takeWhile_append_of_pos hall]
      simp
    have hdrop : (content ++ 125 :: 125 :: after).dropWhile (· ≠ 125) = 125 :: 125 :: after := by
      rw [dropWhile_append_of_pos hall]
      simp
    simp only [matchExpr, htake, hdrop, hne, ne_eq, not_false_eq_true, if_true]

theorem matchExpr_eq_none_of_ne {b : UInt8} (h : b ≠ 123) (s : Str) :
    matchExpr (b :: s) = none := by
  apply Option.eq_none_iff_forall_ne_some.mpr
  rintro ⟨content, after⟩ hmatch
  exact h (cons.inj (matchExpr_eq_some_iff.mp hmatch).2.2).1

@[simp] theorem scanTemplate_nil (fuel : ℕ) (lit : Str) :
    scanTemplate fuel lit [] = flushLit lit := by
  cases fuel <;> rfl

theorem scanTemplate_skip {bs : Str} (hbs : ∀ b ∈ bs, b ≠ 123) (fuel : ℕ) (lit t : Str) :
    scanTemplate (bs.length + fuel) lit (bs ++ t) = scanTemplate fuel (lit ++ bs) t := by
  induction bs generalizing lit with
  | nil => simp
  | cons b bs ih =>
    simp only [mem_cons, forall_eq_or_imp] at hbs
    rw [length_cons, Nat.add_right_comm, cons_append, scanTemplate, matchExpr_eq_none_of_ne hbs.1]
    simp only
    rw [ih hbs.2, append_assoc, singleton_append]

theorem scanTemplate_match (h : matchExpr s = some (content, after)) (fuel : ℕ) (lit : Str) :
    scanTemplate (fuel + 1) lit s =
      flushLit lit ++
        compileExprToInstr ([123, 123] ++ content ++ [125, 125]) (trimSpace content) ::
          scanTemplate fuel [] after := by
  cases s with
  | nil => cases h
  | cons b s => simp only [scanTemplate, h]

/-- The text that an instruction was compiled from. -/
def Instruction.source (ins : Instruction) : Str :=
  match ins.op with
  | .literal text => text
  | _ => ins.fullMatch

theorem source_compileExprToInstr (fullMatch inner : Str) :
    (compileExprToInstr fullMatch inner).source = fullMatch := by
  unfold Instruction.source compileExprToInstr compileOp
  rcases indexOf (str ".jsonpath:") inner with - | - | i <;> rfl

theorem flatMap_source_flushLit (lit : Str) : (flushLit lit).flatMap Instruction.source = lit := by
  unfold flushLit
  split
  · rename_i hlit
    rw [hlit, flatMap_nil]
  · simp [Instruction.source]

variable {s : Str} {fuel : ℕ}

/-- A template is cut into instructions without loss. -/
theorem flatMap_source_scanTemplate (hfuel : s.length ≤ fuel)
    (lit : Str) : (scanTemplate fuel lit s).flatMap Instruction.source = lit ++ s := by
  induction fuel generalizing lit s with
  | zero =>
    obtain rfl : s = [] := length_eq_zero_iff.mp (by omega)
    simp [flatMap_source_flushLit]
  | succ fuel ih =>
    rcases s with - | ⟨b, s⟩
    · simp [flatMap_source_flushLit]
    simp only [length_cons, Nat.add_le_add_iff_right] at hfuel
    cases hmatch : matchExpr (b :: s) with
    | some found =>
      obtain ⟨content, after⟩ := found
      obtain ⟨-, -, hs⟩ := matchExpr_eq_some_iff.mp hmatch
      have hafter : after.length ≤ fuel := by
        have hlen := congrArg length hs
        simp only [length_cons, length_append] at hlen
        omega
      rw [scanTemplate_match hmatch, flatMap_append, flatMap_cons,
        flatMap_source_flushLit, source_compileExprToInstr, ih hafter, hs]
      simp
    | none =>
      simp only [scanTemplate, hmatch]
      rw [ih hfuel, append_assoc, singleton_append]

theorem scanTemplate_of_indexOf_eq_none (hfuel : s.length ≤ fuel) (h : indexOf [123, 123] s = none)
    (lit : Str) : scanTemplate fuel lit s = flushLit (lit ++ s) := by
  induction fuel generalizing lit s with
  | zero =>
    obtain rfl : s = [] := length_eq_zero_iff.mp (by omega)
    simp
  | succ fuel ih =>
    rcases s with - | ⟨b, s⟩
    · simp
    rw [indexOf] at h
    split at h
    · cases h
    · rename_i hpre
      have hmatch : matchExpr (b :: s) = none := by
        apply Option.eq_none_iff_forall_ne_some.mpr
        rintro ⟨content, after⟩ hmatch
        rw [(matchExpr_eq_some_iff.mp hmatch).2.2] at hpre
        simp at hpre
      simp only [scanTemplate, hmatch]
      rw [ih (by simpa using hfuel) (by simpa using h), append_assoc, singleton_append]

variable {ins : Instruction}

theorem isLiteral_of_mem_flushLit {lit : Str} (h : ins ∈ flushLit lit) :
    ins.op.isLiteral = true := by
  unfold flushLit at h
  split at h
  · cases h
  · rw [mem_singleton.mp h]
    rfl

/-- A compiled template is its own text if it has no expression, and all its instructions
otherwise. -/
theorem compileSource_cases (expr : Str) :
    (compileSource expr = ⟨expr, false, []⟩ ∧ ∀ ins ∈ parseTemplate expr, ins.op.isLiteral = true) ∨
    compileSource expr = ⟨[], true, parseTemplate expr⟩ := by
  unfold compileSource
  by_cases hbraces : contains expr [123, 123] = true
  · by_cases hany : (scanTemplate expr.length [] expr).any (fun ins => !ins.op.isLiteral) = true
    · exact .inr (by simp only [hbraces, hany, if_true, parseTemplate])
    · refine .inl ⟨by simp only [hbraces, hany, if_true, Bool.false_eq_true, if_false], ?_⟩
      intro ins hins
      by_contra hlit
      exact hany (any_eq_true.mpr ⟨ins, hins, by simpa using hlit⟩)
  · refine .inl ⟨by simp only [hbraces, Bool.false_eq_true, if_false], ?_⟩
    intro ins hins
    have hnone : indexOf [123, 123] expr = none := by simpa [contains] using hbraces
    rw [parseTemplate, scanTemplate_of_indexOf_eq_none le_rfl hnone] at hins
    exact isLiteral_of_mem_flushLit hins

/-! ## What a template evaluates to -/

namespace ExpressionEngine

variable {w : World} {e : ExpressionEngine} {input : Str}

theorem resolveInstr_of_isLiteral (h : ins.op.isLiteral = true) :
    e.resolveInstr w input ins = .ok ins.source := by
  unfold resolveInstr Instruction.source
  cases hop : ins.op with
  | literal text => rfl
  | expr ref | jsonPath ref path => simp [hop, Op.isLiteral] at h

variable (w e input) in
/-- A template whose instructions are all literals evaluates to its own text. -/
theorem flatMap_pieceOf_of_literals (h : ∀ ins ∈ parseTemplate s, ins.op.isLiteral = true) :
    (parseTemplate s).flatMap (e.pieceOf w input) = s ∧
      (parseTemplate s).findSome? (e.errorOf w input) = none := by
  constructor
  · calc (parseTemplate s).flatMap (e.pieceOf w input)
        = (parseTemplate s).flatMap Instruction.source := by
          apply flatMap_congr
          intro ins hins
          simp only [pieceOf, resolveInstr_of_isLiteral (h ins hins)]
      _ = s := flatMap_source_scanTemplate le_rfl []
  · rw [findSome?_eq_none_iff]
    intro ins hins
    simp only [errorOf, resolveInstr_of_isLiteral (h ins hins)]

theorem evaluateTemplate_eq (hc : c.Sound) (others : List CacheCall) (expr : Str) :
    (e.evaluateTemplate w c others expr input).1 =
      ((parseTemplate expr).flatMap (e.pieceOf w input),
        (parseTemplate expr).findSome? (e.errorOf w input)) := by
  unfold evaluateTemplate
  split
  · rename_i hexpr
    subst hexpr
    rfl
  simp only [compileTemplate_eq hc]
  rcases compileSource_cases expr with ⟨hsource, hall⟩ | hsource
  · obtain ⟨htext, herror⟩ := flatMap_pieceOf_of_literals w e input hall
    simp [hsource, htext, herror]
  · simp only [hsource, Bool.not_true, Bool.false_eq_true, if_false]
    rw [foldl_collect evaluateInstr_eq]
    simp

/-- The cache does not show in the result of a template, whatever it holds and whatever other
goroutines compile meanwhile. -/
theorem evaluate_eq_evaluateTemplate (hc : c.Sound) (others : List CacheCall) (expr : Str) :
    e.evaluate w expr input =
      match (e.evaluateTemplate w c others expr input).1 with
      | (text, none) => .ok text
      | (_, some err) => .error err := by
  rw [evaluateTemplate_eq hc, evaluate]
  cases (parseTemplate expr).findSome? (e.errorOf w input) <;> rfl

end ExpressionEngine

end Workflow
