import Aflare.Go.Text
import Aflare.Workflow.Engine
import Aflare.Workflow.Types

/-!
# Template expressions

A template is cut into literal texts and `\x7b\x7b...\x7d\x7d` expressions, each compiled to an
instruction. An expression that cannot be resolved is left in the text; it is an error only when
its first word is one that the engine knows.
-/

namespace Workflow

open Go List

/-- What a run reads from outside: the environment, files, secrets, nodes, and the parts of Go's
library that are not modelled. -/
structure World where
  evalEnvVar : Str → Except Str Str
  evalFileContents : Str → Except Str Str
  /-- The secret getter of the engine, by group and key. -/
  secret : Str → Str → Except Str Str
  /-- `extractJSONPath`, by text and path. A path with `$..` walks the members of an object in the
  order of a Go map, which is taken as fixed here. -/
  extractJSONPath : Str → Str → Except Str Str
  /-- `SafeRegexMatch`, by pattern and input. -/
  safeRegexMatch : Str → Str → Except Str Bool
  /-- `compareNumeric`, by operator, input and value. -/
  compareNumeric : Str → Str → Str → Bool
  /-- Go's `%q`. -/
  quote : Str → Str
  /-- The order in which the entries of a parameter map are ranged over. -/
  rangeParams : GoMap Str Str → List (Str × Str)
  /-- The order in which the entries of a map of step outputs are ranged over. -/
  rangeOutputs : GoMap ℤ Str → List (ℤ × Str)
  /-- The registered nodes: the output and the error of `Execute`, by input and parameters. -/
  node : Str → Option (Str → StringMap → Str × Option Str)
  /-- The output and the error of a whole step, retries and sub-steps included. The sequential
  executor also applies `preview_input` and `output_schema`, which steps do not have here. -/
  executeStep : WorkflowStep → Str → StringMap → Str × Option Str
  /-- `executeCaptureErrorBranch`, by sub-steps, error text and variables. -/
  captureErrorBranch : List WorkflowStep → Str → GoMap Str Str → Except Str Str
  rangeParams_perm : ∀ m, (rangeParams m).Perm m.toList
  rangeOutputs_perm : ∀ m, (rangeOutputs m).Perm m.toList

/-! ## Compilation -/

/-- A compiled reference. -/
inductive Expr
  | bareName (name : Str)
  | input
  | step (name : Str)
  | var (name : Str)
  | env (name : Str)
  | file (name : Str)
  | loop (name : Str)
  | secret (name : Str)
  | unknown (inner : Str)
  deriving DecidableEq

inductive Op
  | literal (text : Str)
  | expr (ref : Expr)
  | jsonPath (ref : Expr) (path : Str)
  deriving DecidableEq

/-- An instruction: its operation, whether its first word is known, the text it came from and the
trimmed text between the braces. -/
structure Instruction where
  op : Op
  known : Bool
  fullMatch : Str
  inner : Str
  deriving DecidableEq

def isKnownExpressionPrefix (expr : Str) : Bool :=
  match cut (str ".") expr with
  | none => expr = str "input"
  | some (first, _) =>
    ([str "step", str "var", str "env", str "file", str "input", str "loop", str "secret"].contains
      (trimSpace first))

/-- `compileExpr` on a text without a `.jsonpath:` modifier. -/
def compileExpr (inner : Str) : Expr :=
  match cut (str ".") inner with
  | none => .bareName inner
  | some (first, second) =>
    let word := trimSpace first
    let name := trimSpace second
    if word = str "input" then .input
    else if word = str "step" then .step name
    else if word = str "var" then .var name
    else if word = str "env" then .env name
    else if word = str "file" then .file name
    else if word = str "loop" then .loop name
    else if word = str "secret" then .secret name
    else .unknown inner

/-- The operation of `compileExprToInstr`. What stands before the first `.jsonpath:` holds no
other one, so that the reference compiles without a modifier. -/
def compileOp (inner : Str) : Op :=
  match indexOf (str ".jsonpath:") inner with
  | some (i + 1) =>
    .jsonPath (compileExpr (inner.take (i + 1)))
      (inner.drop (i + 1 + (str ".jsonpath:").length))
  | _ => .expr (compileExpr inner)

/-- `compileExprToInstr`, with the texts that the parser fills in. -/
def compileExprToInstr (fullMatch inner : Str) : Instruction where
  op := compileOp inner
  known := isKnownExpressionPrefix inner
  fullMatch := fullMatch
  inner := inner

/-- An expression at the front of a text: two opening braces, at least one byte that is not a
closing brace, and two closing braces. The content and the rest of the text. -/
def matchExpr (s : Str) : Option (Str × Str) :=
  match s with
  | 123 :: 123 :: rest =>
    let content := rest.takeWhile (· ≠ 125)
    match rest.dropWhile (· ≠ 125) with
    | 125 :: 125 :: after => if content ≠ [] then some (content, after) else none
    | _ => none
  | _ => none

/-- The literal instruction of the collected bytes, if there are any. -/
def flushLit (lit : Str) : List Instruction :=
  if lit = [] then [] else [⟨.literal lit, false, [], []⟩]

/-- The scanning loop of `parseTemplate`; `lit` holds the bytes collected so far. -/
def scanTemplate : ℕ → Str → Str → List Instruction
  | 0, lit, _ => flushLit lit
  | _ + 1, lit, [] => flushLit lit
  | fuel + 1, lit, b :: rest =>
    match matchExpr (b :: rest) with
    | some (content, after) =>
      flushLit lit ++
        compileExprToInstr ([123, 123] ++ content ++ [125, 125]) (trimSpace content) ::
          scanTemplate fuel [] after
    | none => scanTemplate fuel (lit ++ [b]) rest

/-- `parseTemplate`. A template without expressions is a single literal. -/
def parseTemplate (s : Str) : List Instruction := scanTemplate s.length [] s

/-! ## Evaluation -/

namespace ExpressionEngine

/-- `evalStepRef`: by index, by name, and by the raw key. -/
def evalStepRef (e : ExpressionEngine) (name : Str) : Except Str Str :=
  match e.stepOutputs[str "idx:" ++ name]? with
  | some output => .ok output
  | none =>
    match e.stepOutputs[nameKey name]? with
    | some output => .ok output
    | none =>
      match e.stepOutputs[name]? with
      | some output => .ok output
      | none => .error (str "step reference not found: " ++ name)

/-- The value of a reference. -/
def evalExpr (w : World) (e : ExpressionEngine) (input : Str) :
    Expr → Except Str Str
  | .bareName name =>
    match e.vars[name]? with
    | some v => .ok v
    | none => if name = str "input" then .ok input else .error (str "unknown expression: " ++ name)
  | .input => .ok input
  | .step name => e.evalStepRef name
  | .var name =>
    match e.vars[name]? with
    | some v => .ok v
    | none => .error (str "variable not found: " ++ name)
  | .env name => w.evalEnvVar name
  | .file name => w.evalFileContents name
  | .loop name =>
    match e.loopVars with
    | none => .error (str "not in a loop context")
    | some vars =>
      match vars[name]? with
      | some v => .ok v
      | none => .error (str "loop variable not found: " ++ name)
  | .secret name =>
    match cut (str ".") name with
    | none => .error (str "secret expression requires format: secret.GROUP.KEY")
    | some (group, key) => w.secret (trimSpace group) (trimSpace key)
  | .unknown inner => .error (str "unknown expression: " ++ inner)

def resolveInstr (w : World) (e : ExpressionEngine) (input : Str) (ins : Instruction) :
    Except Str Str :=
  match ins.op with
  | .literal text => .ok text
  | .expr ref => e.evalExpr w input ref
  | .jsonPath ref path =>
    match e.evalExpr w input ref with
    | .error err => .error err
    | .ok value => w.extractJSONPath value path

/-- What an instruction adds to the text. -/
def pieceOf (w : World) (e : ExpressionEngine) (input : Str) (ins : Instruction) : Str :=
  match e.resolveInstr w input ins with
  | .ok v => v
  | .error _ => ins.fullMatch

/-- The error of an instruction, if it is one to report. -/
def errorOf (w : World) (e : ExpressionEngine) (input : Str) (ins : Instruction) : Option Str :=
  match e.resolveInstr w input ins with
  | .ok _ => none
  | .error err =>
    if ins.known then
      some (str "expression '" ++ [123, 123] ++ ins.inner ++ [125, 125] ++ str "': " ++ err)
    else none

def evaluate (w : World) (e : ExpressionEngine) (template input : Str) : Except Str Str :=
  match (parseTemplate template).findSome? (e.errorOf w input) with
  | some err => .error err
  | none => .ok ((parseTemplate template).flatMap (e.pieceOf w input))

/-- The loop of `EvaluateParams` over the entries in the order of the range. -/
def evaluateEntries (w : World) (e : ExpressionEngine) (input : Str) :
    List (Str × Str) → Except Str (List (Str × Str))
  | [] => .ok []
  | (k, template) :: rest =>
    match e.evaluate w template input with
    | .error err => .error (str "failed to evaluate param " ++ w.quote k ++ str ": " ++ err)
    | .ok v =>
      match e.evaluateEntries w input rest with
      | .error err => .error err
      | .ok entries => .ok ((k, v) :: entries)

def evaluateParams (w : World) (e : ExpressionEngine) (params : StringMap)
    (input : Str) : Except Str StringMap :=
  match params with
  | none => .ok none
  | some params =>
    match e.evaluateEntries w input (w.rangeParams params) with
    | .error err => .error err
    | .ok entries => .ok (some (GoMap.assignAll ∅ entries))

/-- The rendered parts of an `input:` override. -/
def renderParts (w : World) (e : ExpressionEngine) (defaultInput : Str) :
    List Str → Except Str (List Str)
  | [] => .ok []
  | part :: rest =>
    match e.evaluate w part defaultInput with
    | .error err => .error (str "step input evaluation failed: " ++ err)
    | .ok v =>
      match e.renderParts w defaultInput rest with
      | .error err => .error err
      | .ok vs => .ok (v :: vs)

end ExpressionEngine

/-- The separator between the outputs of several dependencies, and between rendered parts. -/
def partSeparator : Str := str "\n---\n"

def resolveStepInput (w : World) (e : ExpressionEngine) (input : Option (List Str))
    (defaultInput : Str) : Except Str Str :=
  match input.getD [] with
  | [] => .ok defaultInput
  | parts =>
    match e.renderParts w defaultInput parts with
    | .error err => .error err
    | .ok rendered => .ok (joinWith partSeparator rendered)

/-- The comparison of `evaluateCondition` once its expressions are replaced. -/
def compareCondition (w : World) (op value input : Str) : Except Str Bool :=
  if op = str "true" then .ok true
  else if op = str "false" then .ok false
  else if op = str "contains" then .ok (contains input value)
  else if op = str "equals" then .ok (input = value)
  else if op = str "starts_with" then .ok (hasPrefix input value)
  else if op = str "ends_with" then .ok (hasSuffix input value)
  else if op = str "regex" then
    match w.safeRegexMatch value input with
    | .error err => .error (str "regex evaluation failed: " ++ err)
    | .ok matched => .ok matched
  else if op = str "empty" then .ok (input = [])
  else if op = str "not_empty" then .ok (input ≠ [])
  else if op = str "ne" then .ok (input ≠ value)
  else if [str "gt", str "lt", str "gte", str "lte"].contains op then
    .ok (w.compareNumeric op input value)
  else .error (str "unknown condition operator: " ++ op)

def evaluateCondition (w : World) (e : ExpressionEngine) (cond input : Str) : Except Str Bool :=
  if cond = [] then .ok true
  else
    match e.evaluate w cond input with
    | .error err => .error (str "failed to evaluate condition expression: " ++ err)
    | .ok evaluated =>
      let negate := hasPrefix evaluated (str "not ")
      let evaluated := if negate then evaluated.drop 4 else evaluated
      let (op, value) :=
        match cut (str ":") evaluated with
        | some (op, value) => (trimSpace op, trimSpace value)
        | none => (trimSpace evaluated, [])
      match compareCondition w op value input with
      | .error err => .error err
      | .ok result => .ok (if negate then !result else result)

/-! ## What evaluation reads -/

/-- The step reference of an expression. -/
def Expr.refs : Expr → List Str
  | .step name => [name]
  | _ => []

/-- Whether an expression can read the input. -/
def Expr.readsInput : Expr → Bool
  | .input => true
  | .bareName name => name = str "input"
  | _ => false

/-- The reference inside an operation. -/
def Op.ref? : Op → Option Expr
  | .literal _ => none
  | .expr ref => some ref
  | .jsonPath ref _ => some ref

variable (template : Str)

/-- The references of a template. -/
def templateExprs : List Expr := (parseTemplate template).filterMap fun ins => ins.op.ref?

/-- The step references of a template. -/
def templateRefs : List Str := (templateExprs template).flatMap Expr.refs

/-- Whether a template can read the input. -/
def templateReadsInput : Bool := (templateExprs template).any Expr.readsInput

variable {entries : List (Str × Str)} {e e' : ExpressionEngine}

namespace ExpressionEngine

/-- Two engines have the same variables and loop context, and the same outputs under the given step
references. -/
structure AgreeOn (refs : List Str) (e e' : ExpressionEngine) : Prop where
  vars : e.vars = e'.vars
  loopVars : e.loopVars = e'.loopVars
  evalStepRef : ∀ ref ∈ refs, e.evalStepRef ref = e'.evalStepRef ref

theorem AgreeOn.mono {refs refs' : List Str}
    (h : AgreeOn refs e e') (hsub : refs' ⊆ refs) : AgreeOn refs' e e' where
  vars := h.vars
  loopVars := h.loopVars
  evalStepRef ref href := h.evalStepRef ref (hsub href)

variable {w : World} {e e' : ExpressionEngine} {input input' : Str}

/-- An expression depends on the engine only through its references. -/
theorem evalExpr_congr {ref : Expr} (h : AgreeOn ref.refs e e')
    (hinput : ref.readsInput = true → input = input') :
    e.evalExpr w input ref = e'.evalExpr w input' ref := by
  cases ref with
  | step name => exact h.evalStepRef name (mem_singleton.mpr rfl)
  | bareName name =>
    simp only [evalExpr, h.vars]
    split
    · rfl
    · split
      · rename_i hname
        rw [hinput (by simpa [Expr.readsInput] using hname)]
      · rfl
  | input => simp only [evalExpr, hinput rfl]
  | var name => simp only [evalExpr, h.vars]
  | loop name => simp only [evalExpr, h.loopVars]
  | env name | file name | secret name | unknown inner => rfl

theorem resolveInstr_congr {ins : Instruction}
    (h : ∀ ref ∈ ins.op.ref?, e.evalExpr w input ref = e'.evalExpr w input' ref) :
    e.resolveInstr w input ins = e'.resolveInstr w input' ins := by
  unfold resolveInstr
  cases hop : ins.op with
  | literal text => rfl
  | expr ref => exact h ref (by rw [hop]; rfl)
  | jsonPath ref path => simp only [h ref (by rw [hop]; rfl)]

/-- Evaluation reads the variables, the loop context, the outputs of the steps that the template
refers to, and the input only if the template does. -/
theorem evaluate_congr {template : Str} (h : AgreeOn (templateRefs template) e e')
    (hinput : templateReadsInput template = true → input = input') :
    e.evaluate w template input = e'.evaluate w template input' := by
  have hresolve : ∀ ins ∈ parseTemplate template,
      e.resolveInstr w input ins = e'.resolveInstr w input' ins := by
    intro ins hins
    apply resolveInstr_congr
    intro ref href
    have hmem : ref ∈ templateExprs template := mem_filterMap.mpr ⟨ins, hins, href⟩
    apply evalExpr_congr
    · exact h.mono fun r hr => mem_flatMap.mpr ⟨ref, hmem, hr⟩
    · exact fun hreads => hinput (any_eq_true.mpr ⟨ref, hmem, hreads⟩)
  have herror : (parseTemplate template).findSome? (e.errorOf w input) =
      (parseTemplate template).findSome? (e'.errorOf w input') := by
    rw [← head?_filterMap, ← head?_filterMap]
    refine congrArg head? (filterMap_congr fun ins hins => ?_)
    simp only [errorOf, hresolve ins hins]
  have hpiece : (parseTemplate template).flatMap (e.pieceOf w input) =
      (parseTemplate template).flatMap (e'.pieceOf w input') := by
    apply flatMap_congr
    intro ins hins
    simp only [pieceOf, hresolve ins hins]
  simp only [evaluate, herror, hpiece]

/-- The step references of a parameter map. -/
def paramsRefs (params : StringMap) : List Str :=
  ((params.getD ∅).toList.map Prod.snd).flatMap templateRefs

theorem evaluateEntries_congr (h : AgreeOn ((entries.map Prod.snd).flatMap templateRefs) e e') :
    e.evaluateEntries w input entries = e'.evaluateEntries w input entries := by
  induction entries with
  | nil => rfl
  | cons entry rest ih =>
    obtain ⟨k, template⟩ := entry
    have hhead : e.evaluate w template input = e'.evaluate w template input :=
      evaluate_congr (h.mono (by simp)) fun _ => rfl
    have htail := ih (h.mono (by simp))
    simp only [evaluateEntries, hhead, htail]

theorem evaluateParams_congr {params : StringMap} (h : AgreeOn (paramsRefs params) e e') :
    e.evaluateParams w params input = e'.evaluateParams w params input := by
  cases params with
  | none => rfl
  | some params =>
    have hentries : e.evaluateEntries w input (w.rangeParams params) =
        e'.evaluateEntries w input (w.rangeParams params) := by
      apply evaluateEntries_congr
      apply h.mono
      intro ref href
      obtain ⟨template, htemplate, href⟩ := mem_flatMap.mp href
      obtain ⟨entry, hentry, rfl⟩ := mem_map.mp htemplate
      exact mem_flatMap.mpr ⟨entry.2, mem_map.mpr
        ⟨entry, (w.rangeParams_perm params).mem_iff.mp hentry, rfl⟩, href⟩
    simp only [evaluateParams, hentries]

theorem renderParts_congr {parts : List Str} (h : AgreeOn (parts.flatMap templateRefs) e e') :
    e.renderParts w input parts = e'.renderParts w input parts := by
  induction parts with
  | nil => rfl
  | cons part rest ih =>
    have hhead : e.evaluate w part input = e'.evaluate w part input :=
      evaluate_congr (h.mono (by simp)) fun _ => rfl
    have htail := ih (h.mono (by simp))
    simp only [renderParts, hhead, htail]

end ExpressionEngine

variable {w : World} {input : Str}

theorem resolveStepInput_congr {override : Option (List Str)}
    (h : ExpressionEngine.AgreeOn ((override.getD []).flatMap templateRefs) e e') :
    resolveStepInput w e override input = resolveStepInput w e' override input := by
  unfold resolveStepInput
  cases hparts : override.getD [] with
  | nil => rfl
  | cons part rest =>
    rw [hparts] at h
    simp only [ExpressionEngine.renderParts_congr h]

theorem evaluateCondition_congr {cond input : Str}
    (h : ExpressionEngine.AgreeOn (templateRefs cond) e e') :
    evaluateCondition w e cond input = evaluateCondition w e' cond input := by
  have heval : e.evaluate w cond input = e'.evaluate w cond input :=
    ExpressionEngine.evaluate_congr h fun _ => rfl
  simp only [evaluateCondition, heval]

/-! ## The order of ranges -/

/-- The orders in which maps are ranged over. -/
structure RangeOrder where
  params : GoMap Str Str → List (Str × Str)
  outputs : GoMap ℤ Str → List (ℤ × Str)
  params_perm : ∀ m, (params m).Perm m.toList
  outputs_perm : ∀ m, (outputs m).Perm m.toList

/-- The same world, where maps are ranged over in other orders. -/
def World.withOrder (w : World) (order : RangeOrder) : World :=
  { w with
    rangeParams := order.params
    rangeOutputs := order.outputs
    rangeParams_perm := order.params_perm
    rangeOutputs_perm := order.outputs_perm }

variable (order : RangeOrder)

namespace ExpressionEngine

variable {w : World} {e : ExpressionEngine} {input : Str}

theorem evaluate_withOrder (template : Str) :
    e.evaluate (w.withOrder order) template input = e.evaluate w template input := rfl

/-- The value of a template that evaluates without error. -/
def valueOf (w : World) (e : ExpressionEngine) (input template : Str) : Str :=
  (e.evaluate w template input).toOption.getD []

private theorem evaluateEntries_eq_ok
    (h : ∀ entry ∈ entries, (e.evaluate w entry.2 input).isOk = true) :
    e.evaluateEntries w input entries =
      .ok (entries.map fun entry => (entry.1, e.valueOf w input entry.2)) := by
  induction entries with
  | nil => rfl
  | cons entry rest ih =>
    obtain ⟨k, template⟩ := entry
    have hrest := ih (forall_mem_of_forall_mem_cons h)
    have hhead := h _ mem_cons_self
    cases hv : e.evaluate w template input with
    | error err => simp [hv, Except.isOk, Except.toBool] at hhead
    | ok v => simp [evaluateEntries, valueOf, hv, hrest, Except.toOption]

private theorem evaluateEntries_eq_error
    (h : ∃ entry ∈ entries, (e.evaluate w entry.2 input).isOk = false) :
    (e.evaluateEntries w input entries).toOption = none := by
  induction entries with
  | nil => simp at h
  | cons entry rest ih =>
    obtain ⟨k, template⟩ := entry
    cases hv : e.evaluate w template input with
    | error err => simp [evaluateEntries, hv, Except.toOption]
    | ok v =>
      obtain ⟨bad, hbad, herr⟩ := h
      rcases mem_cons.mp hbad with rfl | hbad
      · simp [hv, Except.isOk, Except.toBool] at herr
      · have hrest := ih ⟨bad, hbad, herr⟩
        cases hr : e.evaluateEntries w input rest with
        | error err => simp [evaluateEntries, hv, hr, Except.toOption]
        | ok entries => simp [hr, Except.toOption] at hrest

/-- Parameters evaluate if all their templates do, whatever the order. -/
theorem toOption_evaluateParams (params : GoMap Str Str) :
    (e.evaluateParams w (some params) input).toOption =
      if ∀ entry ∈ params.toList, (e.evaluate w entry.2 input).isOk = true then
        some (some (params.map fun _ template => e.valueOf w input template))
      else none := by
  have hperm := w.rangeParams_perm params
  simp only [evaluateParams]
  by_cases h : ∀ entry ∈ params.toList, (e.evaluate w entry.2 input).isOk = true
  · rw [if_pos h, evaluateEntries_eq_ok fun entry hentry => h entry (hperm.mem_iff.mp hentry)]
    have hentries : ((w.rangeParams params).map fun entry =>
        (entry.1, e.valueOf w input entry.2)).Perm
          (params.map fun _ template => e.valueOf w input template).toList := by
      rw [Std.ExtTreeMap.toList_map]
      exact hperm.map _
    simp only [Except.toOption, GoMap.assignAll_eq_union hentries, GoMap.empty_union]
  · rw [if_neg h]
    simp only [not_forall, Bool.not_eq_true] at h
    obtain ⟨entry, hentry, hbad⟩ := h
    have hnone : (e.evaluateEntries w input (w.rangeParams params)).toOption = none :=
      evaluateEntries_eq_error ⟨entry, hperm.mem_iff.mpr hentry, hbad⟩
    cases hr : e.evaluateEntries w input (w.rangeParams params) with
    | error err => rfl
    | ok entries => simp [hr, Except.toOption] at hnone

theorem evaluateParams_withOrder (params : StringMap) (input : Str) :
    (e.evaluateParams (w.withOrder order) params input).toOption =
      (e.evaluateParams w params input).toOption := by
  cases params with
  | none => rfl
  | some params =>
    rw [toOption_evaluateParams, toOption_evaluateParams]
    rfl

theorem renderParts_withOrder (parts : List Str) :
    e.renderParts (w.withOrder order) input parts = e.renderParts w input parts := by
  induction parts with
  | nil => rfl
  | cons part rest ih => simp only [renderParts, evaluate_withOrder, ih]

end ExpressionEngine

theorem resolveStepInput_withOrder {e : ExpressionEngine} (override : Option (List Str)) :
    resolveStepInput (w.withOrder order) e override input =
      resolveStepInput w e override input := by
  simp only [resolveStepInput, ExpressionEngine.renderParts_withOrder]

/-- A world without environment, files, secrets and nodes, whose steps give their input. -/
def echoWorld : World where
  evalEnvVar _ := .error []
  evalFileContents _ := .error []
  secret _ _ := .error []
  extractJSONPath text _ := .ok text
  safeRegexMatch _ _ := .ok false
  compareNumeric _ _ _ := false
  quote s := s
  rangeParams m := m.toList
  rangeOutputs m := m.toList
  node _ := none
  executeStep _ input _ := (input, none)
  captureErrorBranch _ err _ := .ok err
  rangeParams_perm _ := List.Perm.refl _
  rangeOutputs_perm _ := List.Perm.refl _

/-- A world with one node under every name, which gives its input. -/
def nodeWorld : World := { echoWorld with node := fun _ => some fun input _ => (input, none) }

/-! ## Conditions on a variable -/

section Target

/-- The reference to the workflow variable `target`. -/
def targetRef : Str := str "\x7b\x7bvar.target\x7d\x7d"

variable (w : World) (e : ExpressionEngine) (v input : Str)

theorem evaluate_target (cond front : Str)
    (hparse : parseTemplate cond =
      [⟨.literal front, false, [], []⟩, compileExprToInstr targetRef (str "var.target")]) :
    (e.setVariable (str "target") v).evaluate w cond input = .ok (front ++ v) := by
  have hop : compileOp (str "var.target") = .expr (.var (str "target")) := by decide
  simp [ExpressionEngine.evaluate, List.findSome?, ExpressionEngine.errorOf,
    ExpressionEngine.pieceOf, ExpressionEngine.resolveInstr, ExpressionEngine.evalExpr,
    ExpressionEngine.setVariable, compileExprToInstr, hparse, hop]

theorem evaluateCondition_equals_target :
    evaluateCondition w (e.setVariable (str "target") v) (str "equals:" ++ targetRef) input =
      .ok (input = trimSpace v) := by
  have hvalue := evaluate_target w e v input (str "equals:" ++ targetRef) (str "equals:")
    (by decide)
  have hcut : cut (str ":") (str "equals:" ++ v) = some (str "equals", v) := rfl
  have hneg : hasPrefix (str "equals:" ++ v) (str "not ") = false := rfl
  have hop : trimSpace (str "equals") = str "equals" := by decide
  have hcompare (value : Str) : compareCondition w (str "equals") value input =
    .ok (input = value) := rfl
  have hne : str "equals:" ++ targetRef ≠ [] := by decide
  simp [evaluateCondition, hvalue, hneg, hcut, hop, hcompare, hne]

theorem evaluateCondition_not_contains_target :
    evaluateCondition w (e.setVariable (str "target") v) (str "not contains:" ++ targetRef) input =
      .ok !contains input (trimSpace v) := by
  have hvalue := evaluate_target w e v input (str "not contains:" ++ targetRef)
    (str "not contains:") (by decide)
  have hcut : cut (str ":") ((str "not contains:" ++ v).drop 4) = some (str "contains", v) := rfl
  have hneg : hasPrefix (str "not contains:" ++ v) (str "not ") = true := rfl
  have hop : trimSpace (str "contains") = str "contains" := by decide
  have hcompare (value : Str) : compareCondition w (str "contains") value input =
    .ok (contains input value) := rfl
  have hne : str "not contains:" ++ targetRef ≠ [] := by decide
  simp [evaluateCondition, hvalue, hneg, hcut, hop, hcompare, hne]

/-- The two conditions say what they seem to say of every input exactly if the value of the variable
has no white space at its ends: it becomes a part of the condition, and is trimmed with it. -/
theorem target_condition_iff :
    (∀ input,
      (evaluateCondition w (e.setVariable (str "target") v) (str "equals:" ++ targetRef) input =
        .ok true ↔ input = v) ∧
      (evaluateCondition w (e.setVariable (str "target") v)
        (str "not contains:" ++ targetRef) input =
        .ok true ↔ contains input v = false)) ↔
      trimSpace v = v := by
  simp only [evaluateCondition_equals_target, evaluateCondition_not_contains_target]
  constructor
  · intro h
    have hself := (h v).1
    simpa [eq_comm] using hself
  · intro h input
    simp [h]

/-- An input and a value that are the same text with a blank in front. -/
theorem not_target_condition :
    let e := newExpressionEngine.setVariable (str "target") (str " a")
    evaluateCondition echoWorld e (str "equals:" ++ targetRef) (str " a") = .ok false ∧
      evaluateCondition echoWorld e (str "not contains:" ++ targetRef) (str "bab") = .ok false := by
  refine ⟨?_, ?_⟩
  · rw [evaluateCondition_equals_target]
    decide
  · rw [evaluateCondition_not_contains_target]
    decide

end Target

end Workflow
