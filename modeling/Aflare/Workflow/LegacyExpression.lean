import Aflare.Go.Regexp
import Aflare.Go.Search
import Aflare.Workflow.Template

/-!
# The interpreter that compiled templates replaced

Before templates were compiled, `Evaluate` replaced the matches of a regular expression one by one.
The tests keep this interpreter as `legacyEvaluate`.
-/

namespace Workflow

open Go List

/-! ## The interpreter -/

/-- What the interpreter and `Evaluate` read from the process: the environment, the files, and the
secret getter of the engine, which can be missing. -/
structure Host where
  isAllowedEnvVar : Str → Bool
  lookupEnv : Str → Option Str
  validateExprFilePath : Str → Except Str Str
  /-- The size that `os.Stat` gives. -/
  stat : Str → Except Str ℤ
  readFile : Str → Except Str Str
  secretGetter : Option (Str → Str → Except Str Str)

def maxExprFileSize : ℤ := 10 * 1024 * 1024

namespace Host

def evalEnvVar (host : Host) (quote : Str → Str) (name : Str) : Except Str Str :=
  if !host.isAllowedEnvVar name then
    .error (str "access to environment variable " ++ quote name ++ str " is not allowed")
  else
    match host.lookupEnv name with
    | some v => .ok v
    | none => .error (str "environment variable not found: " ++ name)

def evalFileContents (host : Host) (name : Str) : Except Str Str :=
  match host.validateExprFilePath name with
  | .error err => .error (str "file path validation failed: " ++ err)
  | .ok safePath =>
    match host.stat safePath with
    | .error err => .error (str "failed to stat file '" ++ name ++ str "': " ++ err)
    | .ok size =>
      if size > maxExprFileSize then
        .error (str "file '" ++ name ++ str "' too large (max " ++ itoa maxExprFileSize ++
          str " bytes)")
      else
        match host.readFile safePath with
        | .error err => .error (str "failed to read file '" ++ name ++ str "': " ++ err)
        | .ok content => .ok content

/-- The secret getter of `evalSecretRef`. -/
def secret (host : Host) (group key : Str) : Except Str Str :=
  match host.secretGetter with
  | none =>
    .error (str "secrets not available - use 'aflare secrets add' to store secrets first")
  | some getter => getter group key

end Host

variable (w : World) (host : Host)

/-- The world of an engine that runs in the given process. -/
def World.onHost : World :=
  { w with
    evalEnvVar := host.evalEnvVar w.quote
    evalFileContents := host.evalFileContents
    secret := host.secret }

/-- `varPattern`: two opening braces, one or more characters that are no closing brace, and two
closing braces. -/
def varPattern : Regex.Pattern Chunk :=
  .seq (Regexp.byte 123) (.seq (Regexp.byte 123)
    (.seq (.plus (Regexp.anyBut 125)) (.seq (Regexp.byte 125) (Regexp.byte 125))))

def legacyIsKnown (expr : Str) : Bool :=
  match cut (str ".") expr with
  | none => expr = str "input"
  | some (first, _) =>
    ([str "step", str "var", str "env", str "file", str "input", str "loop", str "secret"].contains
      (trimSpace first))

/-- The part of `legacyEvalSingle` behind the test for a `.jsonpath:` modifier. -/
def legacyEvalPlain (e : ExpressionEngine) (input expr : Str) : Except Str Str :=
  match cut (str ".") expr with
  | none =>
    match e.vars[expr]? with
    | some v => .ok v
    | none => if expr = str "input" then .ok input else .error (str "unknown expression: " ++ expr)
  | some (first, second) =>
    let word := trimSpace first
    let name := trimSpace second
    if word = str "input" then .ok input
    else if word = str "step" then e.evalStepRef name
    else if word = str "var" then
      match e.vars[name]? with
      | some v => .ok v
      | none => .error (str "variable not found: " ++ name)
    else if word = str "env" then
      if !host.isAllowedEnvVar name then
        .error (str "access to environment variable " ++ w.quote name ++ str " is not allowed")
      else
        match host.lookupEnv name with
        | some v => .ok v
        | none => .error (str "environment variable not found: " ++ name)
    else if word = str "file" then
      match host.validateExprFilePath name with
      | .error err => .error (str "file path validation failed: " ++ err)
      | .ok safePath =>
        match host.stat safePath with
        | .error err => .error (str "failed to stat file '" ++ name ++ str "': " ++ err)
        | .ok size =>
          if size > maxExprFileSize then
            .error (str "file '" ++ name ++ str "' too large (max " ++ itoa maxExprFileSize ++
              str " bytes)")
          else
            match host.readFile safePath with
            | .error err => .error (str "failed to read file '" ++ name ++ str "': " ++ err)
            | .ok content => .ok content
    else if word = str "loop" then
      match e.loopVars with
      | none => .error (str "not in a loop context")
      | some vars =>
        match vars[name]? with
        | some v => .ok v
        | none => .error (str "loop variable not found: " ++ name)
    else if word = str "secret" then
      match host.secretGetter with
      | none =>
        .error (str "secrets not available - use 'aflare secrets add' to store secrets first")
      | some getter =>
        match cut (str ".") name with
        | none => .error (str "secret expression requires format: secret.GROUP.KEY")
        | some (group, key) => getter (trimSpace group) (trimSpace key)
    else .error (str "unknown expression: " ++ expr)

/-- `legacyEvalSingle`, for at most `fuel` nested modifiers. -/
def legacyEvalAux (w : World) (host : Host) (e : ExpressionEngine) (input : Str) :
    ℕ → Str → Except Str Str
  | 0, expr => legacyEvalPlain w host e input expr
  | fuel + 1, expr =>
    match indexOf (str ".jsonpath:") expr with
    | some (i + 1) =>
      match legacyEvalAux w host e input fuel (expr.take (i + 1)) with
      | .error err => .error err
      | .ok refValue =>
        w.extractJSONPath refValue (expr.drop (i + 1 + (str ".jsonpath:").length))
    | _ => legacyEvalPlain w host e input expr

/-- `legacyEvalSingle`. Each modifier shortens the text, so its length is fuel enough. -/
def legacyEvalSingle (e : ExpressionEngine) (expr input : Str) :
    Except Str Str := legacyEvalAux w host e input expr.length expr

/-- The text between the braces of a match, trimmed. -/
def innerText (text : Str) : Str := trimSpace ((text.take (text.length - 2)).drop 2)

/-- What `legacyEvaluate` does with a piece of the text, with the text and the first error so far:
characters outside of the matches are kept. -/
def legacyReplace (e : ExpressionEngine) (input : Str) :
    Str × Option Str → Regex.Piece Chunk → Str × Option Str
  | (result, firstErr), .skip c => (result ++ c.bytes, firstErr)
  | (result, firstErr), .hit text =>
    let inner := innerText (chunkBytes text)
    match legacyEvalSingle w host e inner input with
    | .ok value => (result ++ value, firstErr)
    | .error err =>
      (result ++ chunkBytes text,
        if legacyIsKnown inner && firstErr.isNone then
          some (str "expression '" ++ [123, 123] ++ inner ++ [125, 125] ++ str "': " ++ err)
        else firstErr)

/-- `legacyEvaluate`: the matches are replaced from left to right; the text and the first error. -/
def legacyEvaluate (e : ExpressionEngine) (expr input : Str) : Str × Option Str :=
  if expr = [] then ([], none)
  else
    (varPattern.pieces (chunks expr)).foldl (legacyReplace w host e input) ([], none)

/-! ## The interpreter and the compiler agree -/

/-- What stands before the first occurrence of a text does not contain it. -/
theorem indexOf_take {sub s : Str} (hsub : sub ≠ []) {i : ℕ} (h : indexOf sub s = some i) :
    i < s.length ∧ indexOf sub (s.take i) = none := by
  have hpos := length_pos_iff.mpr hsub
  refine ⟨by have := (indexOf_append_of_some h []).2; omega, ?_⟩
  cases hfound : indexOf sub (s.take i) with
  | none => rfl
  | some j =>
    obtain ⟨hsame, hle⟩ := indexOf_append_of_some hfound (s.drop i)
    rw [take_append_drop, h, Option.some.injEq] at hsame
    rw [length_take] at hle
    omega

section Agreement

variable {w : World} {host : Host} {e : ExpressionEngine} {input : Str}

variable (w host e input) in
/-- A missing secret getter fails before the format of the reference is checked, and after it in
the compiled form; both fail. -/
theorem toOption_legacyEvalPlain (expr : Str) :
    (legacyEvalPlain w host e input expr).toOption =
      (e.evalExpr (w.onHost host) input (compileExpr expr)).toOption := by
  unfold legacyEvalPlain compileExpr
  cases cut (str ".") expr with
  | none => rfl
  | some parts =>
    simp only
    split_ifs with hinput hstep hvar henv hallowed hfile hloop hsecret <;> try rfl
    · simp [ExpressionEngine.evalExpr, World.onHost, Host.evalEnvVar, hallowed]
    · simp [ExpressionEngine.evalExpr, World.onHost, Host.evalEnvVar, hallowed]
    · simp only [ExpressionEngine.evalExpr, World.onHost, Host.secret]
      cases host.secretGetter <;> cases cut (str ".") (trimSpace parts.2) <;>
        simp only [Except.toOption]

variable (w host e input) in
/-- An expression has the value of its compiled form. -/
theorem toOption_legacyEvalSingle (fullMatch expr : Str) :
    (legacyEvalSingle w host e expr input).toOption =
      (e.resolveInstr (w.onHost host) input (compileExprToInstr fullMatch expr)).toOption := by
  have hne : str ".jsonpath:" ≠ [] := by decide
  unfold legacyEvalSingle ExpressionEngine.resolveInstr compileExprToInstr compileOp
  rcases hidx : indexOf (str ".jsonpath:") expr with - | - | i
  · cases hlen : expr.length <;> simp only [legacyEvalAux, hidx] <;>
      exact toOption_legacyEvalPlain w host e input expr
  · cases hlen : expr.length <;> simp only [legacyEvalAux, hidx] <;>
      exact toOption_legacyEvalPlain w host e input expr
  · obtain ⟨hlt, htake⟩ := indexOf_take hne hidx
    obtain ⟨n, hn⟩ : ∃ n, expr.length = n + 1 := ⟨expr.length - 1, by omega⟩
    have hinner : legacyEvalAux w host e input n (expr.take (i + 1)) =
        legacyEvalPlain w host e input (expr.take (i + 1)) := by
      cases n with
      | zero => rfl
      | succ n => simp only [legacyEvalAux, htake]
    have href := toOption_legacyEvalPlain w host e input (expr.take (i + 1))
    simp only [hn, legacyEvalAux, hidx, hinner]
    cases hlegacy : legacyEvalPlain w host e input (expr.take (i + 1)) <;>
      cases hcompiled : e.evalExpr (w.onHost host) input (compileExpr (expr.take (i + 1))) <;>
      simp_all [Except.toOption]
    rfl

/-- What the interpreter puts in the place of a piece. -/
def legacyPiece (w : World) (host : Host) (e : ExpressionEngine) (input : Str) :
    Regex.Piece Chunk → Str
  | .skip c => c.bytes
  | .hit text =>
    match legacyEvalSingle w host e (innerText (chunkBytes text)) input with
    | .ok value => value
    | .error _ => chunkBytes text

/-- The error of a piece, if it is one to report. -/
def legacyError (w : World) (host : Host) (e : ExpressionEngine) (input : Str) :
    Regex.Piece Chunk → Option Str
  | .skip _ => none
  | .hit text =>
    let inner := innerText (chunkBytes text)
    match legacyEvalSingle w host e inner input with
    | .ok _ => none
    | .error err =>
      if legacyIsKnown inner then
        some (str "expression '" ++ [123, 123] ++ inner ++ [125, 125] ++ str "': " ++ err)
      else none

theorem legacyReplace_eq (result : Str) (firstErr : Option Str) (piece : Regex.Piece Chunk) :
    legacyReplace w host e input (result, firstErr) piece =
      (result ++ legacyPiece w host e input piece,
        firstErr.or (legacyError w host e input piece)) := by
  cases piece with
  | skip c => simp [legacyReplace, legacyPiece, legacyError]
  | hit text =>
    simp only [legacyReplace, legacyPiece, legacyError]
    cases hres : legacyEvalSingle w host e (innerText (chunkBytes text)) input with
    | ok value => simp
    | error err => cases firstErr <;> cases legacyIsKnown (innerText (chunkBytes text)) <;> simp

/-- The runes of an expression with its braces. -/
def braced (content : List Chunk) : List Chunk :=
  [.rune [123], .rune [123]] ++ content ++ [.rune [125], .rune [125]]

@[simp] theorem chunkBytes_braced (content : List Chunk) :
    chunkBytes (braced content) = [123, 123] ++ chunkBytes content ++ [125, 125] := by
  simp [braced]

/-- The ways in which `varPattern` matches. -/
theorem mem_ends_varPattern {cs rest : List Chunk} :
    rest ∈ varPattern.ends cs ↔
      ∃ content, content ≠ [] ∧ Chunk.rune [125] ∉ content ∧
        cs = braced content ++ rest := by
  simp only [varPattern, Regexp.byte, Regexp.anyBut, Regex.Pattern.mem_ends_seq,
    Regex.Pattern.mem_ends_one, Regex.Pattern.mem_ends_plus_one, decide_eq_true_eq]
  constructor
  · rintro ⟨_, ⟨_, rfl, rfl⟩, _, ⟨_, rfl, rfl⟩, _, ⟨content, hne, hall, rfl⟩, _, ⟨_, rfl, rfl⟩, _,
      rfl, rfl⟩
    exact ⟨content, hne, fun hmem => hall _ hmem rfl, by simp [braced]⟩
  · rintro ⟨content, hne, hnot, rfl⟩
    have hall : ∀ c ∈ content, c ≠ Chunk.rune [125] := by
      rintro c hc rfl
      exact hnot hc
    refine ⟨.rune [123] :: (content ++ .rune [125] :: .rune [125] :: rest),
      ⟨_, rfl, by simp [braced]⟩, content ++ .rune [125] :: .rune [125] :: rest, ⟨_, rfl, rfl⟩,
      .rune [125] :: .rune [125] :: rest, ⟨content, hne, hall, rfl⟩,
      .rune [125] :: rest, ⟨_, rfl, rfl⟩, _, rfl, rfl⟩

/-- In the bytes of clear pieces the scanner finds the matches of `varPattern`. -/
theorem matchExpr_chunkBytes {cs : List Chunk} (hcs : ∀ c ∈ cs, c.Clear) {found : Str × Str} :
    matchExpr (chunkBytes cs) = some found ↔
      ∃ content after, content ≠ [] ∧ Chunk.rune [125] ∉ content ∧
        cs = braced content ++ after ∧
        found = (chunkBytes content, chunkBytes after) := by
  have hopen : (123 : UInt8) < 0x80 := by decide
  have hclose : (125 : UInt8) < 0x80 := by decide
  obtain ⟨content', after'⟩ := found
  rw [matchExpr_eq_some_iff]
  constructor
  · rintro ⟨hne, hnot, hbytes⟩
    obtain ⟨cs₁, rfl, hbytes₁⟩ := exists_cons_of_chunkBytes hcs hopen hbytes
    have hcs₁ : ∀ c ∈ cs₁, c.Clear := fun c hc => hcs c (by simp [hc])
    obtain ⟨cs₂, rfl, hbytes₂⟩ := exists_cons_of_chunkBytes hcs₁ hopen hbytes₁
    have hcs₂ : ∀ c ∈ cs₂, c.Clear := fun c hc => hcs₁ c (by simp [hc])
    obtain ⟨content, cs₃, rfl, hcontent, rfl, hbytes₃⟩ :=
      exists_cut_of_chunkBytes hcs₂ hclose hnot hbytes₂
    have hcs₃ : ∀ c ∈ cs₃, c.Clear := fun c hc => hcs₂ c (by simp [hc])
    obtain ⟨after, rfl, rfl⟩ := exists_cons_of_chunkBytes hcs₃ hclose hbytes₃
    refine ⟨content, after, ?_, hcontent, by simp [braced], rfl⟩
    rintro rfl
    exact hne rfl
  · rintro ⟨content, after, hne, hnot, rfl, hfound⟩
    obtain ⟨rfl, rfl⟩ := Prod.mk.inj hfound
    have hcontent : ∀ c ∈ content, c.Clear := fun c hc => hcs c (by simp [braced, hc])
    refine ⟨?_, ?_, by simp⟩
    · rwa [ne_eq, chunkBytes_eq_nil_iff hcontent]
    · rwa [mem_chunkBytes_iff hcontent hclose]

variable (w host e input) in
/-- A match gives what the instruction gives that it is compiled to. -/
theorem compiled_agrees (text : List Chunk) :
    let ins := compileExprToInstr (chunkBytes text) (innerText (chunkBytes text))
    e.pieceOf (w.onHost host) input ins = legacyPiece w host e input (.hit text) ∧
      (e.errorOf (w.onHost host) input ins).isSome =
        (legacyError w host e input (.hit text)).isSome := by
  intro ins
  have hvalue :=
    toOption_legacyEvalSingle w host e input (chunkBytes text) (innerText (chunkBytes text))
  have hsource : ins.fullMatch = chunkBytes text := rfl
  have hknown : ins.known = legacyIsKnown (innerText (chunkBytes text)) := rfl
  simp only [ExpressionEngine.pieceOf, ExpressionEngine.errorOf, legacyPiece, legacyError, hsource,
    hknown]
  cases hlegacy : legacyEvalSingle w host e (innerText (chunkBytes text)) input <;>
    cases hcompiled : e.resolveInstr (w.onHost host) input ins <;>
    cases legacyIsKnown (innerText (chunkBytes text)) <;>
    simp_all [Except.toOption, ins]

theorem flatMap_pieceOf_flushLit (lit : Str) :
    (flushLit lit).flatMap (e.pieceOf w input) = lit := by
  unfold flushLit
  split
  · rename_i hlit
    rw [hlit, flatMap_nil]
  · simp [ExpressionEngine.pieceOf, ExpressionEngine.resolveInstr]

theorem findSome?_errorOf_flushLit (lit : Str) :
    (flushLit lit).findSome? (e.errorOf w input) = none := by
  unfold flushLit
  split
  · rfl
  · simp [ExpressionEngine.errorOf, ExpressionEngine.resolveInstr]

/-- The search takes a match of `varPattern` as a whole. -/
theorem pieces_varPattern {content after : List Chunk} (hne : content ≠ [])
    (hnot : Chunk.rune [125] ∉ content) :
    varPattern.pieces (braced content ++ after) =
      .hit (braced content) :: varPattern.pieces after := by
  -- the rest behind the first closing brace is the same for every way to match
  have hbehind (content after : List Chunk) (hnot : Chunk.rune [125] ∉ content) :
      (braced content ++ after).dropWhile (· ≠ Chunk.rune [125]) =
        .rune [125] :: .rune [125] :: after := by
    have hall : ∀ c ∈ [Chunk.rune [123], .rune [123]] ++ content,
        decide (c ≠ Chunk.rune [125]) = true := by
      intro c hc
      rw [decide_eq_true_eq]
      rintro rfl
      exact hnot (by simpa using hc)
    rw [braced, append_assoc, dropWhile_append_of_pos hall]
    simp
  apply Regex.Pattern.pieces_of_unique
  · exact mem_ends_varPattern.mpr ⟨content, hne, hnot, rfl⟩
  · intro other hother
    obtain ⟨content', -, hnot', heq⟩ := mem_ends_varPattern.mp hother
    have hrest := congrArg (List.dropWhile (· ≠ Chunk.rune [125])) heq
    rw [hbehind _ _ hnot, hbehind _ _ hnot'] at hrest
    simpa using hrest.symm

/-- Where there is no match, the scanner takes a whole rune to the literal. -/
theorem scanTemplate_chunk {c : Chunk} (hc : c.Clear) {t : Str}
    (h : matchExpr (c.bytes ++ t) = none) {fuel : ℕ} (hfuel : c.bytes.length ≤ fuel) (lit : Str) :
    scanTemplate fuel lit (c.bytes ++ t) =
      scanTemplate (fuel - c.bytes.length) (lit ++ c.bytes) t := by
  rcases hc with ⟨b, -, rfl⟩ | ⟨-, hge⟩
  · obtain ⟨fuel, rfl⟩ : ∃ k, fuel = k + 1 := ⟨fuel - 1, by simp at hfuel; omega⟩
    simp only [bytes_rune, singleton_append] at h ⊢
    simp only [scanTemplate, h, length_singleton, Nat.add_sub_cancel]
  · obtain ⟨more, rfl⟩ := Nat.exists_eq_add_of_le hfuel
    have hbs : ∀ b ∈ c.bytes, b ≠ 123 := by
      rintro b hb rfl
      exact absurd (hge _ hb) (by decide)
    rw [scanTemplate_skip hbs, Nat.add_sub_cancel_left]

variable (w host e input) in
/-- Scanning the bytes and replacing the matches among the runes give the same text, and both or
none have an error to report. -/
theorem scanTemplate_agrees (cs : List Chunk) (hcs : ∀ c ∈ cs, c.Clear) (fuel : ℕ)
    (hfuel : (chunkBytes cs).length ≤ fuel) (lit : Str) :
    (scanTemplate fuel lit (chunkBytes cs)).flatMap (e.pieceOf (w.onHost host) input) =
        lit ++ (varPattern.pieces cs).flatMap (legacyPiece w host e input) ∧
      ((scanTemplate fuel lit (chunkBytes cs)).findSome?
          (e.errorOf (w.onHost host) input)).isSome =
        ((varPattern.pieces cs).findSome? (legacyError w host e input)).isSome := by
  induction hlen : cs.length using Nat.strong_induction_on generalizing cs fuel lit with
  | _ n ih =>
    subst hlen
    rcases cs with - | ⟨c, cs⟩
    · simp [flatMap_pieceOf_flushLit, findSome?_errorOf_flushLit]
    cases hmatch : matchExpr (chunkBytes (c :: cs)) with
    | some found =>
      -- a match: both go on behind it
      obtain ⟨content, after, hne, hnot, hsplit, rfl⟩ := (matchExpr_chunkBytes hcs).mp hmatch
      have hshort : after.length < (c :: cs).length := by simp [hsplit, braced]; omega
      rw [hsplit] at hcs hfuel hmatch ⊢
      have hlong : (chunkBytes after).length + 4 ≤ fuel := by
        simp only [chunkBytes_append, chunkBytes_braced, length_append, length_cons,
          length_nil] at hfuel
        omega
      obtain ⟨fuel, rfl⟩ : ∃ k, fuel = k + 1 := ⟨fuel - 1, by omega⟩
      obtain ⟨htext, herror⟩ := ih after.length hshort after
        (fun c hc => hcs c (by simp [hc])) fuel (by omega) [] rfl
      have hinner : trimSpace (chunkBytes content) = innerText (chunkBytes (braced content)) := by
        simp [innerText]
      rw [scanTemplate_match hmatch, pieces_varPattern hne hnot, ← chunkBytes_braced, hinner]
      obtain ⟨hpiece, hfails⟩ := compiled_agrees w host e input (braced content)
      refine ⟨?_, ?_⟩
      · rw [flatMap_append, flatMap_cons, flatMap_cons, flatMap_pieceOf_flushLit, hpiece, htext,
          nil_append]
      · rw [findSome?_append, findSome?_errorOf_flushLit, Option.none_or]
        simp only [findSome?_cons]
        split <;> split <;> simp_all
    | none =>
      -- no match: both keep the next character
      have hnone : ∀ rest, rest ∉ varPattern.ends (c :: cs) := by
        intro rest hrest
        obtain ⟨content, hne, hnot, hsplit⟩ := mem_ends_varPattern.mp hrest
        rw [(matchExpr_chunkBytes hcs).mpr ⟨content, rest, hne, hnot, hsplit, rfl⟩] at hmatch
        cases hmatch
      rw [chunkBytes_cons] at hfuel hmatch ⊢
      rw [length_append] at hfuel
      obtain ⟨htext, herror⟩ := ih cs.length (by simp) cs
        (forall_mem_of_forall_mem_cons hcs) (fuel - c.bytes.length) (by omega)
        (lit ++ c.bytes) rfl
      rw [Regex.Pattern.pieces_of_none hnone,
        scanTemplate_chunk (hcs c mem_cons_self) hmatch (by omega)]
      refine ⟨?_, ?_⟩
      · rw [htext, flatMap_cons, append_assoc]
        rfl
      · rw [herror, findSome?_cons]
        rfl

end Agreement

/-! ## Another order -/

/-- An object with two members that each have a field `x`. -/
def twoFields : Str := str "\x7b\"a\":\x7b\"x\":1\x7d,\"b\":\x7b\"x\":2\x7d\x7d"

/-- A world in which the path `$..x` finds the two fields in some order. -/
def walkWorld (found : Str) : World :=
  { echoWorld with
    extractJSONPath := fun text path =>
      if text = twoFields ∧ path = str "$..x" then .ok found else .error [] }

/-- A process without environment variables, files and secrets. -/
def emptyHost : Host := ⟨fun _ => false, fun _ => none, .error, fun _ => .ok 0, .error, none⟩

end Workflow
