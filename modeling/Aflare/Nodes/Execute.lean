import Aflare.Go.Filepath
import Aflare.Go.Maps
import Aflare.Go.Spaces

/-!
# The command allowlist of the execute node

A command that passes the metacharacter filter is judged by its first word, as `strings.Fields`
finds it, and is then handed to the shell. `strings.Fields` ends a word at any white space, the
shell only at a space, a tab or a newline.
-/

namespace Nodes

open Go Go.Filepath List

def shellMetachars : Str := str ";|&$\x60()\x7b\x7d<>\\*?!~='\"\n\r"

def safeCommandWhitelist : List Str :=
  ["ls", "cat", "head", "tail", "wc", "grep", "awk", "sed", "find", "sort", "uniq", "cut", "tr",
    "echo", "date", "pwd", "whoami", "uname", "df", "du"].map str

/-- The program is one of those whose flags are checked. -/
def FlagsChecked (cmdName : Str) : Prop := cmdName = str "sed" ∨ cmdName = str "awk"

instance : DecidablePred FlagsChecked := fun _ => inferInstanceAs (Decidable (_ ∨ _))

/-- Which check of `Execute` fails. -/
inductive ExecuteError
  | safeMode
  | commandRequired
  | commandTooLong
  | tooManyParams
  | paramTooLong
  | metachar (position : ℕ)
  | notListed (cmdName : Str)
  | inPlaceEdit (cmdName : Str)
  | scriptFile (cmdName : Str)
  | auditLog
  deriving DecidableEq

/-- What `Execute` does with a command that passes. -/
inductive ExecuteAction
  | dryRun (command : Str)
  | shell (command : Str)
  deriving DecidableEq

structure ExecuteHost where
  isSafeMode : Bool
  allowListEnabled : Bool
  /-- The command is written to the audit log. -/
  auditLog : Str → Bool

def getParam (params : GoMap Str Str) (key defaultVal : Str) : Str :=
  match params[key]? with
  | none | some [] => defaultVal
  | some v => v

/-- The loop over the arguments of `sed` and `awk`. -/
def checkArgs (cmdName : Str) : List Str → Except ExecuteError Unit
  | [] => .ok ()
  | arg :: args =>
    if arg = str "-i" ∨ hasPrefix arg (str "-i") then .error (.inPlaceEdit cmdName)
    else if arg = str "-f" ∨ arg = str "--file" ∨ hasPrefix arg (str "-f") then
      .error (.scriptFile cmdName)
    else checkArgs cmdName args

variable (command : Str)

/-- The checks under the allowlist. -/
def checkAllowlist : Except ExecuteError Unit :=
  match command.findIdx? (shellMetachars.contains ·) with
  | some position => .error (.metachar position)
  | none =>
    match Go.fields command with
    | [] => .ok ()
    | first :: args =>
      if base first ∉ safeCommandWhitelist then .error (.notListed (base first))
      else if FlagsChecked (base first) then checkArgs (base first) args
      else .ok ()

/-- `ExecuteNode.Execute`, up to the command it runs. -/
def execute (host : ExecuteHost) (params : GoMap Str Str) : Except ExecuteError ExecuteAction :=
  if host.isSafeMode then .error .safeMode
  else
    match params[str "command"]? with
    | none | some [] => .error .commandRequired
    | some command =>
      if 4096 < command.length then .error .commandTooLong
      else if 10 < params.size then .error .tooManyParams
      else if params.toList.any fun e => 50 < e.1.length ∨ 1000 < e.2.length then
        .error .paramTooLong
      else
        match if host.allowListEnabled then checkAllowlist command else .ok () with
        | .error err => .error err
        | .ok () =>
          if !host.auditLog command then .error .auditLog
          else if getParam params (str "dry_run") (str "false") = str "true" then
            .ok (.dryRun command)
          else .ok (.shell command)

/-! ## The words of the shell -/

/-- A byte at which the shell ends a word. -/
def isBlank (b : UInt8) : Bool := b = 32 ∨ b = 9 ∨ b = 10

def shellWords : List Str := (command.splitOnP isBlank).filter (· ≠ [])

theorem fields_append_blank {b : UInt8} (hb : isBlank b) (s t : Str) :
    Go.fields (s ++ b :: t) = Go.fields s ++ Go.fields t := by
  refine fieldsAux_append_blank ?_ t
  simp only [isBlank, decide_eq_true_eq] at hb
  rcases hb with rfl | rfl | rfl <;> decide

theorem flatMap_filter_fields (parts : List Str) :
    (parts.filter (· ≠ [])).flatMap Go.fields = parts.flatMap Go.fields := by
  induction parts with
  | nil => rfl
  | cons p parts ih => cases p <;> simp_all [Go.fields, fieldsAux]

/-- Go splits the words of the shell further. -/
theorem fields_eq_flatMap :
    Go.fields command = (shellWords command).flatMap Go.fields := by
  suffices h : ∀ s : Str, (∀ b ∈ s, isBlank b = false) →
      Go.fields (s ++ command) = ((s ++ command).splitOnP isBlank).flatMap Go.fields by
    rw [shellWords, flatMap_filter_fields]
    exact h [] (by simp)
  induction command with
  | nil =>
    intro s hs
    rw [append_nil, splitOnP_eq_singleton hs]
    simp
  | cons b command ih =>
    intro s hs
    by_cases hb : isBlank b = true
    · rw [fields_append_blank hb, splitOnP_append_cons _ _ hb, splitOnP_eq_singleton hs]
      simpa using ih [] (by simp)
    · have hstep := ih (s ++ [b]) (by simp_all [or_imp])
      simpa using hstep

/-- A word of the shell that Go takes for more than one, or for none. -/
def Divided (word : Str) : Prop := ∃ form ∈ spaceForms, form <:+: word

instance : DecidablePred Divided := fun _ => inferInstanceAs (Decidable (∃ form ∈ _, _))

/-- The word starts with one of the flags that `sed` and `awk` may not have. -/
def Flagged (word : Str) : Prop := hasPrefix word (str "-i") ∨ hasPrefix word (str "-f")

instance : DecidablePred Flagged := fun _ => inferInstanceAs (Decidable (_ ∨ _))

/-- What the allowlist asks of the words of a command. -/
def Allowed (word : Str) (args : List Str) : Prop :=
  base word ∈ safeCommandWhitelist ∧ (FlagsChecked (base word) → ∀ arg ∈ args, ¬ Flagged arg)
  deriving Decidable

/-- Whatever program the shell runs is allowed. -/
def RunsAllowed : Prop := ∀ word args, shellWords command = word :: args → Allowed word args

/-! ## What passes -/

theorem not_flagged_of_checkArgs {cmdName : Str} {args : List Str}
    (h : checkArgs cmdName args = .ok ()) : ∀ arg ∈ args, ¬ Flagged arg := by
  induction args with
  | nil => simp
  | cons arg args ih => grind [checkArgs, Flagged]

theorem allowed_of_checkAllowlist {command first : Str} {args : List Str}
    (h : checkAllowlist command = .ok ()) (hfields : Go.fields command = first :: args) :
    Allowed first args := by
  grind [checkAllowlist, Allowed, not_flagged_of_checkArgs]

/-- A flag begins a word for Go as well. -/
theorem Flagged.field {arg : Str} (h : Flagged arg) : ∃ field ∈ Go.fields arg, Flagged field := by
  suffices hword : ∀ flag ∈ [str "-i", str "-f"], hasPrefix arg flag →
      ∃ field ∈ Go.fields arg, hasPrefix field flag by
    rcases h with h | h
    · obtain ⟨field, hfield, hflag⟩ := hword _ (by simp) h
      exact ⟨field, hfield, .inl hflag⟩
    · obtain ⟨field, hfield, hflag⟩ := hword _ (by simp) h
      exact ⟨field, hfield, .inr hflag⟩
  intro flag hmem hflag
  obtain ⟨rest, rfl⟩ := isPrefixOf_iff_prefix.mp hflag
  have hsolid : ∀ flag ∈ [str "-i", str "-f"], flag ≠ [] ∧ ∀ b ∈ flag, Solid b := by
    decide
  obtain ⟨t, others, heq⟩ := fieldsAux_word (s := rest) (hsolid flag hmem).1
  refine ⟨flag ++ t, ?_, isPrefixOf_iff_prefix.mpr ⟨t, rfl⟩⟩
  rw [Go.fields, fieldsAux_solid (hsolid flag hmem).2, nil_append, heq]
  exact mem_cons_self

variable {host : ExecuteHost} {params : GoMap Str Str} {command : Str}

theorem checkAllowlist_of_shell (hallow : host.allowListEnabled = true)
    (h : execute host params = .ok (.shell command)) : checkAllowlist command = .ok () := by
  grind [execute]

/-- A command that is handed to the shell under the allowlist runs an allowed program if the first
word of the shell is not divided, and only if its base name is not. -/
theorem runsAllowed_of_not_divided (hallow : host.allowListEnabled = true)
    (h : execute host params = .ok (.shell command)) :
    ((∀ word ∈ (shellWords command).head?, ¬ Divided word) → RunsAllowed command) ∧
      (RunsAllowed command → ∀ word ∈ (shellWords command).head?, ¬ Divided (base word)) := by
  constructor
  · intro hundivided word args hwords
    have hdivided : ¬ Divided word := hundivided word (by simp [hwords])
    have hword : Go.fields word = [word] := by
      refine fieldsAux_of_no_form (fun form hform hs => hdivided ⟨form, hform, hs⟩) ?_
      have hmem : word ∈ shellWords command := hwords ▸ mem_cons_self
      simpa [shellWords] using (mem_filter.mp hmem).2
    have hfields : Go.fields command = word :: args.flatMap Go.fields := by
      rw [fields_eq_flatMap, hwords, flatMap_cons, hword, singleton_append]
    obtain ⟨hlisted, hflags⟩ := allowed_of_checkAllowlist (checkAllowlist_of_shell hallow h) hfields
    refine ⟨hlisted, fun hchecked arg harg hflag => ?_⟩
    obtain ⟨field, hfield, hflagged⟩ := hflag.field
    exact hflags hchecked field (mem_flatMap_of_mem harg hfield) hflagged
  · intro hrun word hword
    obtain ⟨args, hwords⟩ := head?_eq_some_iff.mp hword
    -- no name of the list has white space in it
    have hnames : ∀ name ∈ safeCommandWhitelist, ¬ Divided name := by decide
    exact hnames _ (hrun word args hwords).1

/-- A host with the allowlist whose audit log can be written. -/
def listedHost : ExecuteHost := ⟨false, true, fun _ => true⟩

/-- The parameters of a node with a command only. -/
def commandOnly (command : Str) : GoMap Str Str :=
  (∅ : GoMap Str Str).insert (str "command") command

theorem runsAllowed_echo :
    execute listedHost (commandOnly (str "echo hello")) = .ok (.shell (str "echo hello")) ∧
      RunsAllowed (str "echo hello") := by
  have h : execute listedHost (commandOnly (str "echo hello")) =
      .ok (.shell (str "echo hello")) := by decide
  exact ⟨h, (runsAllowed_of_not_divided rfl h).1 (by decide)⟩

/-- A vertical tab ends the name of the program for Go only. -/
theorem not_runsAllowed :
    ∃ command, execute listedHost (commandOnly command) = .ok (.shell command) ∧
      ¬ RunsAllowed command := by
  refine ⟨str "ls\x0b/tmp/evil", by decide, fun h => ?_⟩
  exact absurd (h _ _ rfl) (by decide)

end Nodes
