import Aflare.Go.Text

/-!
# The policy engine

The rules that a workflow is checked against before it runs: an action with a text that details it
is allowed, denied, or left to a human to approve.
-/

namespace Policy

open Go

/-- What a check comes to, apart from denials. -/
inductive Decision
  | allowed
  | approval
  deriving DecidableEq

inductive Action
  | fileRead
  | fileWrite
  | fileDelete
  | networkHTTP
  | shellExec
  | financial
  deriving DecidableEq

def Action.text : Action → Str
  | .fileRead => str "filesystem:read"
  | .fileWrite => str "filesystem:write"
  | .fileDelete => str "filesystem:delete"
  | .networkHTTP => str "network:http"
  | .shellExec => str "shell:exec"
  | .financial => str "financial:transfer"

structure FilesystemPolicy where
  read : Str
  write : Str
  delete : Str

structure NetworkPolicy where
  outbound : Str
  allowlist : List Str := []
  denylist : List Str := []

structure ShellPolicy where
  enabled : Bool
  approvalRequired : Bool := false
  allowlist : List Str := []
  denylist : List Str := []

structure FinancialPolicy where
  transfer : Str

/-- The security rules, as far as checks read them. -/
structure Rules where
  filesystem : FilesystemPolicy
  network : NetworkPolicy
  shell : ShellPolicy
  financial : FinancialPolicy

def defaultPolicy : Rules where
  filesystem := ⟨str "allowed", str "allowed", str "approval"⟩
  network := { outbound := str "allowed" }
  shell := { enabled := true }
  financial := ⟨str "approval_required"⟩

def strictPolicy : Rules where
  filesystem := ⟨str "allowed", str "approval", str "denied"⟩
  network :=
    { outbound := str "allowlist"
      allowlist := [str "api.github.com", str "api.openai.com", str "api.anthropic.com"] }
  shell := { enabled := false }
  financial := ⟨str "approval_required"⟩

/-- The engine, with the approval function if there is one and the parts of Go's library that are
not modelled. -/
structure Engine where
  policy : Rules
  /-- `HumanApprovalFunc`: whether the action is approved, or why that is not known. -/
  approval : Option (Action → Str → Except Str Bool)
  toLower : Str → Str
  /-- Go's `%q`. -/
  quote : Str → Str

/-- The text of an error with a code. -/
def coded (code : String) (message : Str) : Str := str ("[" ++ code ++ "] ") ++ message

/-- The first word of a text: the first of `strings.Fields`, or nothing. -/
def firstField (s : Str) : Str :=
  let s := dropForms spaceForms s.length s
  s.take (((List.range s.length).find? fun i =>
    spaceForms.any fun form => form.isPrefixOf (s.drop i)).getD s.length)

namespace Engine

variable (e : Engine)

/-- `parseRule`: allowed at all, and only with approval. -/
def parseRule (rule : Str) : Except Str (Bool × Bool) :=
  if rule = str "allowed" then .ok (true, false)
  else if rule = str "denied" then .ok (false, false)
  else if rule = str "approval" ∨ rule = str "approval_required" then .ok (true, true)
  else .error (coded "POLICY_DENIED" (str "unknown policy rule: " ++ rule))

def matchDomain (host pattern : Str) : Bool :=
  let host := e.toLower host
  let pattern := e.toLower pattern
  if pattern = str "*" then true
  else if hasPrefix pattern (str "*.") then
    hasSuffix host (pattern.drop 1) || host = pattern.drop 2
  else host = pattern

def evaluateNetwork (details : Str) : Except Str (Bool × Bool) :=
  let rule := e.policy.network.outbound
  if rule = str "denied" then .ok (false, false)
  else if rule = str "allowed" then
    if e.policy.network.denylist.any (e.matchDomain details) then
      .error (coded "POLICY_DENIED"
        (str "network access to " ++ details ++ str " is blocked by denylist"))
    else .ok (true, false)
  else if rule = str "allowlist" then
    if e.policy.network.allowlist.any (e.matchDomain details) then .ok (true, false)
    else
      .error (coded "POLICY_DENIED"
        (str "network access to " ++ details ++ str " is not in allowlist"))
  else .error (coded "POLICY_DENIED" (str "unknown network policy: " ++ rule))

def evaluateShell (details : Str) : Except Str (Bool × Bool) :=
  let shell := e.policy.shell
  let cmdName := firstField details
  if !shell.enabled then
    .error (coded "POLICY_DENIED" (str "shell execution is disabled by policy"))
  else if shell.denylist.any fun blocked => cmdName = blocked || hasPrefix details blocked then
    .error (coded "POLICY_DENIED"
      (str "shell command " ++ e.quote cmdName ++ str " is blocked by denylist"))
  else if !shell.allowlist.isEmpty && !shell.allowlist.contains cmdName then
    .error (coded "POLICY_DENIED"
      (str "shell command " ++ e.quote cmdName ++ str " is not in allowlist"))
  else .ok (true, shell.approvalRequired)

/-- `evaluate`. The rule `approval_required` for transfers is the rule `approval`. -/
def evaluate (action : Action) (details : Str) : Except Str (Bool × Bool) :=
  match action with
  | .fileRead => parseRule e.policy.filesystem.read
  | .fileWrite => parseRule e.policy.filesystem.write
  | .fileDelete => parseRule e.policy.filesystem.delete
  | .networkHTTP => e.evaluateNetwork details
  | .shellExec => e.evaluateShell details
  | .financial => parseRule (joinWith (str "approval")
      (split e.policy.financial.transfer (str "approval_required")))

def check (action : Action) (details : Str) : Except Str Decision :=
  match e.evaluate action details with
  | .error err => .error err
  | .ok (false, _) =>
    .error (coded "POLICY_DENIED"
      (str "policy denies " ++ action.text ++ str ": " ++ details))
  | .ok (true, false) => .ok .allowed
  | .ok (true, true) =>
    match e.approval with
    | none =>
      .error (coded "POLICY_APPROVAL_REQUIRED" (str "policy requires approval for " ++
        action.text ++ str " but no approval function configured"))
    | some approve =>
      match approve action details with
      | .error err => .error (coded "POLICY_DENIED" (str "approval check failed: " ++ err))
      | .ok false =>
        .error (coded "POLICY_APPROVAL_DENIED"
          (str "human approval denied for " ++ action.text ++ str ": " ++ details))
      | .ok true => .ok .approval

end Engine

end Policy
