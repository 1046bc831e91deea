import Aflare.Go.Spaces
import Aflare.Workflow.Template

/-!
# The condition node

The node evaluates a condition such as `contains:foo` against its input, and so does the engine for
the conditions of steps. The two read the same operators with two parsers. The node trims the whole
condition and the input; the engine trims the operator and the value, looks for `not` before it
trims anything, and takes a value or none with every operator.

A condition is given here in its parts, with white space of any kind between them (`Condition`).
-/

namespace Nodes

open Go List
open Workflow (World ExpressionEngine templateExprs compareCondition)

/-! ## The evaluation of the node -/

def evalPositive (w : World) (expr input : Str) : Except Str Bool :=
  if expr = str "empty" then .ok (input = [])
  else if expr = str "not_empty" then .ok (input ≠ [])
  else if expr = str "true" then .ok true
  else if expr = str "false" then .ok false
  else
    match cut (str ":") expr with
    | none => .error (str "invalid condition format: " ++ expr)
    | some (op, value) =>
      if op = str "contains" then .ok (contains input value)
      else if op = str "equals" then .ok (input = value)
      else if op = str "starts_with" then .ok (hasPrefix input value)
      else if op = str "ends_with" then .ok (hasSuffix input value)
      else if op = str "regex" then
        match w.safeRegexMatch value input with
        | .error err => .error (str "regex evaluation failed: " ++ err)
        | .ok matched => .ok matched
      else .error (str "unsupported operator: " ++ op)

/-- `evaluateCondition` of the node. -/
def evaluateCondition (w : World) (expr input : Str) : Except Str Bool :=
  let expr := trimSpace expr
  let input := trimSpace input
  let negate := hasPrefix expr (str "not ")
  let expr := if negate then trimSpace (expr.drop 4) else expr
  match evalPositive w expr input with
  | .error err => .error err
  | .ok result => .ok (if negate then !result else result)

/-! ## Conditions in their parts -/

/-- The operators that both evaluations have, but for the one with a regular expression. -/
inductive Operator
  | contains
  | equals
  | startsWith
  | endsWith
  | empty
  | notEmpty
  | always
  | never
  deriving DecidableEq

namespace Operator

def name : Operator → Str
  | contains => str "contains"
  | equals => str "equals"
  | startsWith => str "starts_with"
  | endsWith => str "ends_with"
  | empty => str "empty"
  | notEmpty => str "not_empty"
  | always => str "true"
  | never => str "false"

/-- Whether an operator is documented with a value. -/
def takesValue : Operator → Bool
  | contains => true
  | equals => true
  | startsWith => true
  | endsWith => true
  | empty => false
  | notEmpty => false
  | always => false
  | never => false

/-- What an operator says about an input and a value. -/
def holds : Operator → Str → Str → Bool
  | contains, input, value => Go.contains input value
  | equals, input, value => input = value
  | startsWith, input, value => hasPrefix input value
  | endsWith, input, value => hasSuffix input value
  | empty, input, _ => input = []
  | notEmpty, input, _ => input ≠ []
  | always, _, _ => true
  | never, _, _ => false

end Operator

/-- A condition: white space, `not` followed by white space, an operator, white space, and a colon
with a value. -/
structure Condition where
  lead : List SpaceForm
  neg : Option (SpaceForm × List SpaceForm)
  op : Operator
  gap : List SpaceForm
  value : Option Str

namespace Condition

/-- What follows the operator and its white space. -/
def tail : Option Str → Str
  | none => []
  | some value => 58 :: value

def negText : Option (SpaceForm × List SpaceForm) → Str
  | none => []
  | some (form, more) => str "not" ++ (form.val ++ spaces more)

variable (c : Condition)

def text : Str := spaces c.lead ++ (negText c.neg ++ (c.op.name ++ (spaces c.gap ++ tail c.value)))

/-- The engine finds a negation at the very front only, and with a blank behind it. -/
def ReadByWorkflow : Prop := ∀ neg ∈ c.neg, c.lead = [] ∧ neg.1.val = [32]
  deriving Decidable

/-- The node finds a negation with a blank behind it. It wants a colon right behind the operators
that take a value, and nothing behind the others. -/
def ReadByNode : Prop :=
  (∀ neg ∈ c.neg, neg.1.val = [32]) ∧ c.op.takesValue = c.value.isSome ∧
    (c.value.isSome → c.gap = [])
  deriving Decidable

end Condition

/-! ## Bytes of the names -/

theorem spaceForms_bytes : ∀ form ∈ spaceForms, ∀ b ∈ form, b ≤ 32 ∨ 128 ≤ b := by decide

theorem solid_of_between {b : UInt8} (hlo : 32 < b) (hhi : b < 128) : Solid b := by
  intro form hform hb
  obtain hle | hge := spaceForms_bytes form hform b hb
  · exact absurd hlo (UInt8.not_lt.mpr hle)
  · exact absurd hhi (UInt8.not_lt.mpr hge)

/-- A text with a byte that no name has. -/
def Spaced (s : Str) : Prop := ∃ b ∈ s, b ≤ 32 ∨ 128 ≤ b

theorem Spaced.append_right {s : Str} (h : Spaced s) (t : Str) : Spaced (s ++ t) := by
  obtain ⟨b, hb, hspace⟩ := h
  exact ⟨b, mem_append_left _ hb, hspace⟩

theorem Spaced.append_left {t : Str} (h : Spaced t) (s : Str) : Spaced (s ++ t) := by
  obtain ⟨b, hb, hspace⟩ := h
  exact ⟨b, mem_append_right _ hb, hspace⟩

variable (form : SpaceForm)

theorem spaced_spaces (more : List SpaceForm) : Spaced (spaces (form :: more)) := by
  have hne : form.val ≠ [] := fun hnil => prefixFree_spaceForms.1 (hnil ▸ form.2)
  obtain ⟨b, rest, h⟩ := exists_cons_of_ne_nil hne
  refine ⟨b, ?_, spaceForms_bytes form.val form.2 b (h ▸ mem_cons_self)⟩
  exact mem_append_left _ (h ▸ mem_cons_self)

theorem Spaced.ne {s name : Str} (h : Spaced s) (hname : ∀ b ∈ name, 32 < b ∧ b < 128) :
    s ≠ name := by
  rintro rfl
  obtain ⟨b, hb, hle | hge⟩ := h
  · exact absurd (hname b hb).1 (UInt8.not_lt.mpr hle)
  · exact absurd (hname b hb).2 (UInt8.not_lt.mpr hge)

/-- A text that stays as it is between white space and contains no colon. -/
structure Word (s : Str) : Prop where
  head : ∃ b rest, s = b :: rest ∧ Solid b
  last : ∃ rest b, s = rest ++ [b] ∧ Solid b
  colon : 58 ∉ s

namespace Word

variable {s : Str} (h : Word s) (l : List SpaceForm)

include h

theorem trimLeft_append (t : Str) : trimLeft (spaces l ++ (s ++ t)) = s ++ t := by
  obtain ⟨b, rest, rfl, hb⟩ := h.head
  rw [trimLeft_spaces, cons_append, trimLeft_solid hb]

theorem trimRight_eq : trimRight (s ++ spaces l) = s := by
  obtain ⟨rest, b, rfl, hb⟩ := h.last
  rw [trimRight_spaces, trimRight_solid hb]
  rfl

theorem trimSpace_eq (k : List SpaceForm) : trimSpace (spaces k ++ (s ++ spaces l)) = s := by
  rw [Go.trimSpace_eq, h.trimLeft_append, h.trimRight_eq]

end Word

theorem colon_notMem_spaces (l : List SpaceForm) : 58 ∉ spaces l := by
  intro hmem
  obtain ⟨form, hform, hb⟩ := mem_flatten.mp hmem
  obtain ⟨f, -, rfl⟩ := mem_map.mp hform
  exact solid_of_between (by decide) (by decide) f.val f.2 hb

theorem Operator.name_bytes (op : Operator) : ∀ b ∈ op.name, 32 < b ∧ b < 128 ∧ b ≠ 58 := by
  cases op <;> decide

theorem Operator.name_ne_nil (op : Operator) : op.name ≠ [] := by
  cases op <;> decide

theorem Operator.word_name (op : Operator) : Word op.name where
  head := by
    obtain ⟨b, rest, h⟩ := exists_cons_of_ne_nil op.name_ne_nil
    have hb := op.name_bytes b (h ▸ mem_cons_self)
    exact ⟨b, rest, h, solid_of_between hb.1 hb.2.1⟩
  last := by
    obtain ⟨rest, b, h⟩ := eq_nil_or_concat' op.name |>.resolve_left op.name_ne_nil
    have hb := op.name_bytes b (h ▸ mem_append_right _ mem_cons_self)
    exact ⟨rest, b, h, solid_of_between hb.1 hb.2.1⟩
  colon := fun h => (op.name_bytes 58 h).2.2 rfl

theorem word_negText (neg : SpaceForm × List SpaceForm) (op : Operator) :
    Word (Condition.negText (some neg) ++ op.name) where
  head := ⟨110, [111, 116] ++ (neg.1.val ++ spaces neg.2) ++ op.name, rfl,
    solid_of_between (by decide) (by decide)⟩
  last := by
    obtain ⟨rest, b, h, hb⟩ := op.word_name.last
    exact ⟨Condition.negText (some neg) ++ rest, b, by rw [h, append_assoc], hb⟩
  colon := by
    have hspaces : 58 ∉ neg.1.val ++ spaces neg.2 := colon_notMem_spaces (neg.1 :: neg.2)
    have hnot : 58 ∉ str "not" := by decide
    rw [Condition.negText]
    simp only [mem_append, not_or] at hspaces ⊢
    exact ⟨⟨hnot, hspaces.1, hspaces.2⟩, op.word_name.colon⟩

/-! ## The engine -/

namespace Condition

variable {w : World} {e : ExpressionEngine} {input : Str}

theorem compareCondition_name (op : Operator) (value : Str) :
    compareCondition w op.name value input = .ok (op.holds input value) := by
  cases op <;> simp [compareCondition, Operator.name, Operator.holds, str, String.utf8EncodeChar]

theorem compareCondition_of_spaced {op : Str} (h : Spaced op) (value : Str) :
    compareCondition w op value input = .error (str "unknown condition operator: " ++ op) := by
  simp (disch := decide) only [compareCondition, List.contains_eq_mem, mem_cons, not_mem_nil, h.ne,
    or_false, decide_false, if_false, Bool.false_eq_true]

variable {cond : Str}

theorem evaluate_of_templateExprs (h : templateExprs cond = []) :
    e.evaluate w cond input = .ok cond := by
  have hliteral : ∀ ins ∈ Workflow.parseTemplate cond, ins.op.isLiteral = true := by
    intro ins hins
    have href : ins.op.ref? = none := filterMap_eq_nil_iff.mp h ins hins
    cases hop : ins.op with
    | literal => rfl
    | expr ref | jsonPath ref path => simp [hop, Workflow.Op.ref?] at href
  obtain ⟨htext, herror⟩ := ExpressionEngine.flatMap_pieceOf_of_literals w e input hliteral
  simp only [ExpressionEngine.evaluate, herror, htext]

/-- What the engine does with a condition behind its negation. -/
def engineCompare (w : World) (evaluated input : Str) : Except Str Bool :=
  match cut (str ":") evaluated with
  | some (op, value) => compareCondition w (trimSpace op) (trimSpace value) input
  | none => compareCondition w (trimSpace evaluated) [] input

theorem toOption_evaluateCondition (hne : cond ≠ []) (h : templateExprs cond = []) {negate : Bool}
    (hnegate : hasPrefix cond (str "not ") = negate) :
    (Workflow.evaluateCondition w e cond input).toOption =
      (engineCompare w (if negate then cond.drop 4 else cond) input).toOption.map
        (negate ^^ ·) := by
  simp only [Workflow.evaluateCondition, if_neg hne, evaluate_of_templateExprs h, hnegate,
    engineCompare]
  generalize (if negate then cond.drop 4 else cond) = rest
  rcases cut (str ":") rest with - | ⟨op, value⟩
  · cases compareCondition w (trimSpace rest) [] input <;> cases negate <;> simp [Except.toOption]
  · dsimp only
    cases compareCondition w (trimSpace op) (trimSpace value) input <;> cases negate <;>
      simp [Except.toOption]

theorem str_colon : str ":" = [58] := by decide

variable {word : Str}

theorem engineCompare_word (h : Word word) (lead gap : List SpaceForm) (value : Option Str) :
    engineCompare w (spaces lead ++ (word ++ (spaces gap ++ tail value))) input =
      compareCondition w word (trimSpace (value.getD [])) input := by
  have hcolon : 58 ∉ spaces lead ++ (word ++ spaces gap) := by
    simp [colon_notMem_spaces, h.colon]
  cases value with
  | none =>
    simp only [tail, append_nil, engineCompare, str_colon, cut_singleton_of_notMem hcolon,
      h.trimSpace_eq]
    rfl
  | some v =>
    have hcut := cut_singleton_append hcolon v
    rw [append_assoc, append_assoc] at hcut
    simp only [tail, engineCompare, str_colon, hcut, h.trimSpace_eq, Option.getD_some]

/-! ### Where a negation is found -/

theorem str_not : str "not " = [110, 111, 116, 32] := by decide

theorem hasPrefix_not_name (op : Operator) (t : Str) :
    hasPrefix (op.name ++ t) (str "not ") = false := by
  cases op <;> simp [hasPrefix, Operator.name, str, String.utf8EncodeChar, List.isPrefixOf]

theorem hasPrefix_not_spaces (more : List SpaceForm) (t : Str) :
    hasPrefix (spaces (form :: more) ++ t) (str "not ") = false := by
  have hforms : ∀ form ∈ spaceForms, ∃ b ∈ form.head?, b ≠ 110 := by decide
  obtain ⟨b, hb, hne⟩ := hforms form.val form.2
  obtain ⟨rest, hrest⟩ := head?_eq_some_iff.mp hb
  simp [hasPrefix, str_not, spaces, hrest, List.isPrefixOf, hne.symm]

variable (more : List SpaceForm)

theorem hasPrefix_not_negText (t : Str) :
    hasPrefix (negText (some (form, more)) ++ t) (str "not ") = decide (form.val = [32]) := by
  have hforms : ∀ form ∈ spaceForms, ∃ b ∈ form.head?, 32 = b ↔ form = [32] := by decide
  obtain ⟨b, hb, hblank⟩ := hforms form.val form.2
  obtain ⟨rest, hrest⟩ := head?_eq_some_iff.mp hb
  have hnot : str "not" = [110, 111, 116] := by decide
  rw [Bool.eq_iff_iff, decide_eq_true_iff, ← hblank]
  simp [hasPrefix, negText, str_not, hnot, hrest, List.isPrefixOf]

theorem drop_negText (h : form.val = [32]) (t : Str) :
    (negText (some (form, more)) ++ t).drop 4 = spaces more ++ t := by
  simp [negText, h, str, String.utf8EncodeChar]

theorem spaced_negText (t : Str) : Spaced (negText (some (form, more)) ++ t) :=
  ((spaced_spaces form more).append_left _).append_right _

variable (c : Condition)

theorem text_eq : c.text =
    spaces c.lead ++ ((negText c.neg ++ c.op.name) ++ (spaces c.gap ++ tail c.value)) := by
  simp [text]

/-- Where the engine finds a negation. -/
theorem hasPrefix_not_text :
    hasPrefix c.text (str "not ") = (c.neg.isSome && decide c.ReadByWorkflow) := by
  obtain ⟨lead, neg, op, gap, value⟩ := c
  rcases lead with - | ⟨first, lead⟩
  · rcases neg with - | ⟨form, more⟩
    · exact hasPrefix_not_name op _
    · exact (hasPrefix_not_negText form more _).trans (by simp [ReadByWorkflow])
  · refine (hasPrefix_not_spaces first lead _).trans ?_
    cases neg <;> simp [ReadByWorkflow]

/-- The result of the engine. -/
theorem toOption_workflow (h : templateExprs c.text = []) :
    (Workflow.evaluateCondition w e c.text input).toOption =
      if c.ReadByWorkflow then
        some (c.neg.isSome ^^ c.op.holds input (trimSpace (c.value.getD [])))
      else none := by
  have hne : c.text ≠ [] := by
    simp [text, c.op.name_ne_nil]
  rw [toOption_evaluateCondition hne h c.hasPrefix_not_text]
  obtain ⟨lead, neg, op, gap, value⟩ := c
  rcases neg with - | ⟨form, more⟩
  · simp only [text, negText, nil_append, Option.isSome_none, Bool.false_and, Bool.false_eq_true,
      if_false, engineCompare_word op.word_name, compareCondition_name, ReadByWorkflow]
    simp [Except.toOption]
  · by_cases hread : ReadByWorkflow ⟨lead, some (form, more), op, gap, value⟩
    · obtain ⟨rfl, hblank⟩ := hread (form, more) rfl
      have hdrop : (text ⟨[], some (form, more), op, gap, value⟩).drop 4 =
          spaces more ++ (op.name ++ (spaces gap ++ tail value)) := drop_negText form more hblank _
      simp only [hread, decide_true, Option.isSome_some, Bool.and_true, if_true, hdrop,
        engineCompare_word op.word_name, compareCondition_name]
      rfl
    · simp only [hread, decide_false, Bool.and_false, Bool.false_eq_true, if_false, text_eq,
        engineCompare_word (word_negText _ op),
        compareCondition_of_spaced (spaced_negText form more op.name)]
      rfl

/-! ## The node -/

/-- What the node's trimming leaves behind the operator. -/
def trimmedTail (gap : List SpaceForm) : Option Str → Str
  | none => []
  | some value => spaces gap ++ tail (some (trimRight value))

theorem trimSpace_word (h : Word word) (lead gap : List SpaceForm) (value : Option Str) :
    trimSpace (spaces lead ++ (word ++ (spaces gap ++ tail value))) =
      word ++ trimmedTail gap value := by
  rw [trimSpace_eq, h.trimLeft_append]
  cases value with
  | none =>
    simp only [tail, append_nil, trimmedTail]
    exact h.trimRight_eq gap
  | some v =>
    simp only [tail, trimmedTail]
    rw [← append_assoc, trimRight_solid (solid_of_between (by decide) (by decide)), append_assoc]

theorem trimSpace_trimmedTail (h : Word word) (lead gap : List SpaceForm) (value : Option Str) :
    trimSpace (spaces lead ++ (word ++ trimmedTail gap value)) = word ++ trimmedTail gap value := by
  cases value with
  | none => simpa [tail, trimmedTail, spaces] using trimSpace_word h lead [] none
  | some v =>
    rw [trimmedTail, trimSpace_word h, trimmedTail, trimRight_trimRight]

/-- No operator of the node has white space in it. -/
theorem toOption_evalPositive_of_spaced (h : Spaced word) (hcolon : 58 ∉ word)
    (value : Option Str) : (evalPositive w (word ++ tail value) input).toOption = none := by
  cases value with
  | none =>
    simp (disch := decide) only [tail, append_nil, evalPositive, h.ne, if_false, str_colon,
      cut_singleton_of_notMem hcolon]
    rfl
  | some v =>
    simp (disch := decide) only [tail, evalPositive, (h.append_right (58 :: v)).ne, h.ne, if_false,
      str_colon, cut_singleton_append hcolon]
    rfl

theorem toOption_evalPositive_name (op : Operator) (value : Option Str) :
    (evalPositive w (op.name ++ tail value) input).toOption =
      if op.takesValue = value.isSome then some (op.holds input (value.getD [])) else none := by
  cases value with
  | none =>
    have hcut := cut_singleton_of_notMem op.word_name.colon
    simp only [tail, append_nil, evalPositive, str_colon, hcut]
    cases op <;> simp [Operator.name, Operator.takesValue, Operator.holds, str,
      String.utf8EncodeChar, Except.toOption]
  | some v =>
    have hcut := cut_singleton_append op.word_name.colon v
    simp only [tail, evalPositive, str_colon, hcut]
    cases op <;> simp [Operator.name, Operator.takesValue, Operator.holds, str,
      String.utf8EncodeChar, Except.toOption]

theorem toOption_nodeCondition {cond expr : Str} (h : trimSpace cond = expr) {negate : Bool}
    (hnegate : hasPrefix expr (str "not ") = negate) :
    (evaluateCondition w cond input).toOption =
      (evalPositive w (if negate then trimSpace (expr.drop 4) else expr)
        (trimSpace input)).toOption.map (negate ^^ ·) := by
  simp only [evaluateCondition, h, hnegate]
  cases negate with
  | true =>
    simp only [if_true]
    cases evalPositive w (trimSpace (expr.drop 4)) (trimSpace input) <;> simp [Except.toOption]
  | false =>
    simp only [Bool.false_eq_true, if_false]
    cases evalPositive w expr (trimSpace input) <;> simp [Except.toOption]

theorem toOption_evalPositive_trimmed (op : Operator) (gap : List SpaceForm) (value : Option Str) :
    (evalPositive w (op.name ++ trimmedTail gap value) input).toOption =
      if op.takesValue = value.isSome ∧ (value.isSome → gap = []) then
        some (op.holds input (trimRight (value.getD [])))
      else none := by
  cases value with
  | none =>
    have h := @toOption_evalPositive_name w input op none
    simpa [trimmedTail, tail, show trimRight [] = [] from rfl] using h
  | some v =>
    rcases gap with - | ⟨form, gap⟩
    · have h := @toOption_evalPositive_name w input op (some (trimRight v))
      simpa [trimmedTail, spaces] using h
    · have h := @toOption_evalPositive_of_spaced w input _
        ((spaced_spaces form gap).append_left op.name)
        (by simp [op.word_name.colon, colon_notMem_spaces]) (some (trimRight v))
      simpa [trimmedTail] using h

/-- The result of the node. -/
theorem toOption_node :
    (evaluateCondition w c.text input).toOption =
      if c.ReadByNode then
        some (c.neg.isSome ^^ c.op.holds (trimSpace input) (trimRight (c.value.getD [])))
      else none := by
  obtain ⟨lead, neg, op, gap, value⟩ := c
  rcases neg with - | ⟨form, more⟩
  · have hexpr : trimSpace (text ⟨lead, none, op, gap, value⟩) = op.name ++ trimmedTail gap value :=
      trimSpace_word op.word_name lead gap value
    rw [toOption_nodeCondition hexpr (hasPrefix_not_name op _), if_neg Bool.false_ne_true,
      toOption_evalPositive_trimmed]
    simp [ReadByNode]
  · have hword := word_negText (form, more) op
    have hexpr : trimSpace (text ⟨lead, some (form, more), op, gap, value⟩) =
        negText (some (form, more)) ++ (op.name ++ trimmedTail gap value) := by
      rw [text_eq, trimSpace_word hword, append_assoc]
    rw [toOption_nodeCondition hexpr (hasPrefix_not_negText form more _)]
    by_cases hblank : form.val = [32]
    · simp only [hblank, decide_true, if_true, drop_negText form more hblank,
        trimSpace_trimmedTail op.word_name, toOption_evalPositive_trimmed, ReadByNode,
        Option.mem_def, Option.some.injEq, forall_eq', true_and, Option.isSome_some]
      split <;> rfl
    · have hnone :
        (evalPositive w (negText (some (form, more)) ++ (op.name ++ trimmedTail gap value))
          (trimSpace input)).toOption = none := by
        cases value with
        | none =>
          rw [← append_assoc]
          exact toOption_evalPositive_of_spaced (spaced_negText form more _) hword.colon none
        | some v =>
          rw [trimmedTail, ← append_assoc, ← append_assoc]
          refine toOption_evalPositive_of_spaced ((spaced_negText form more _).append_right _) ?_ _
          exact fun hmem => (mem_append.mp hmem).elim hword.colon (colon_notMem_spaces gap)
      simp only [hblank, decide_false, Bool.false_eq_true, if_false, hnone]
      exact (if_neg fun hread => hblank (hread.1 _ rfl)).symm

end Condition

/-- For every condition without template expressions and every input: the engine's evaluation and
the node's give the same result or both fail iff neither of them reads the condition, or both do and
the operator says the same of the input and the trimmed value as of the trimmed input and the value
that is trimmed at its end. -/
theorem conditions_agree_iff (w : World) (e : ExpressionEngine) (c : Condition) (input : Str)
    (h : templateExprs c.text = []) :
    (Workflow.evaluateCondition w e c.text input).toOption =
        (evaluateCondition w c.text input).toOption ↔
      (¬ c.ReadByWorkflow ∧ ¬ c.ReadByNode) ∨
        (c.ReadByWorkflow ∧ c.ReadByNode ∧
          c.op.holds input (trimSpace (c.value.getD [])) =
            c.op.holds (trimSpace input) (trimRight (c.value.getD []))) := by
  rw [c.toOption_workflow h, c.toOption_node]
  by_cases hw : c.ReadByWorkflow <;> by_cases hn : c.ReadByNode <;> simp [hw, hn]

theorem blank_mem_spaceForms : [32] ∈ spaceForms := by decide

/-- The condition `not contains:a`. -/
def tidyCondition : Condition :=
  ⟨[], some (⟨[32], blank_mem_spaceForms⟩, []), .contains, [], some [97]⟩

/-- It is evaluated alike on the input `b`. -/
theorem conditions_agree_tidy : tidyCondition.text = str "not contains:a" ∧
    (Workflow.evaluateCondition Workflow.echoWorld Workflow.newExpressionEngine tidyCondition.text
      [98]).toOption = (evaluateCondition Workflow.echoWorld tidyCondition.text [98]).toOption := by
  refine ⟨by decide, ?_⟩
  exact (conditions_agree_iff Workflow.echoWorld Workflow.newExpressionEngine tidyCondition [98]
    (by decide)).mpr (by decide)

/-- The engine finds `x` in `ax` for the condition `contains: x`, and the node does not, since it
keeps the blank. -/
theorem not_conditions_agree :
    (Workflow.evaluateCondition Workflow.echoWorld Workflow.newExpressionEngine
      (str "contains: x") (str "ax")).toOption = some true ∧
    (evaluateCondition Workflow.echoWorld (str "contains: x") (str "ax")).toOption =
      some false := by
  decide

end Nodes
