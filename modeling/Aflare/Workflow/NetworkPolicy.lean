import Aflare.Workflow.PolicyExecutor

/-!
# The network policy and the hosts of URLs

The patterns of an allowlist or a denylist are domains, but what they are compared with is the whole
`url` parameter of a step. A plain domain then never matches, and a pattern `*.d` is decided by the
end of the text: by the host when nothing follows it, and otherwise by what follows it.
-/

namespace Workflow

open Go List

/-! ## Domains and patterns -/

/-- The bytes of domain names. -/
def domainByte (b : UInt8) : Bool :=
  (97 ≤ b && b ≤ 122) || (65 ≤ b && b ≤ 90) || (48 ≤ b && b ≤ 57) || b == 45 || b == 46 || b == 95

structure Domain where
  bytes : Str
  valid : bytes ≠ [] ∧ ∀ b ∈ bytes, domainByte b = true

/-- A domain, or `*.d` for the strict subdomains of `d`. -/
inductive Pattern
  | domain (d : Domain)
  | subdomains (d : Domain)

namespace Pattern

/-- The pattern as it stands in a policy. -/
def text : Pattern → Str
  | .domain d => d.bytes
  | .subdomains d => str "*." ++ d.bytes

/-- The text ends in a dot and the domain, in any case. -/
def EndsUnder (s : Str) (d : Domain) : Prop := 46 :: asciiLower d.bytes <:+ asciiLower s
  deriving Decidable

/-- The hosts that a pattern stands for. -/
def Matches (host : Str) : Pattern → Prop
  | .domain d => asciiLower host = asciiLower d.bytes
  | .subdomains d => EndsUnder host d

end Pattern

/-! ## URLs -/

/-- A part that starts with a separator, if it is there. -/
def optPart (sep : UInt8) : Option Str → Str
  | none => []
  | some s => sep :: s

/-- The parts of a URL. -/
structure URLParts where
  scheme : Str
  userinfo : Option Str
  host : Str
  port : Option Str
  path : Str
  query : Option Str
  fragment : Option Str

namespace URLParts

variable (u : URLParts)

/-- What follows the host. -/
def rest : Str := optPart 58 u.port ++ (u.path ++ (optPart 63 u.query ++ optPart 35 u.fragment))

/-- The user information, with the sign that ends it. -/
def user : Str := (u.userinfo.map (· ++ [64])).getD []

def text : Str := u.scheme ++ str "://" ++ u.user ++ (u.host ++ u.rest)

/-- The end of the text: what follows the host, or the host itself. -/
def ending : Str := if u.rest = [] then u.host else u.rest

end URLParts

/-- An absolute http(s) URL: no part holds a byte that would end it. -/
structure URL extends URLParts where
  http : asciiLower scheme = str "http" ∨ asciiLower scheme = str "https"
  userinfo_valid : ∀ i ∈ userinfo, ∀ b ∈ i, b ∉ str "/?#@"
  /-- A name or an IPv4 address, or an address in brackets. -/
  host_valid : host ≠ [] ∧ ((∀ b ∈ host, b ∉ str ":/?#@[]") ∨
    ∃ addr, host = str "[" ++ addr ++ str "]" ∧ ∀ b ∈ addr, b ∉ str "/?#@[]")
  port_valid : ∀ p ∈ port, ∀ b ∈ p, 48 ≤ b ∧ b ≤ 57
  path_valid : (path = [] ∨ path.head? = some 47) ∧ ∀ b ∈ path, b ∉ str "?#"
  query_valid : ∀ q ∈ query, ∀ b ∈ q, b ∉ str "#"
  ascii : ∀ b ∈ toURLParts.text, b < 0x80

/-- Some pattern stands for the host. -/
def HostMatches (host : Str) (patterns : List Pattern) : Prop := ∃ p ∈ patterns, p.Matches host

/-- The end of the URL is under the domain of a pattern `*.d` exactly if a pattern stands for the
host. -/
def DecidedByHost (u : URLParts) (patterns : List Pattern) : Prop :=
  (∃ d, .subdomains d ∈ patterns ∧ Pattern.EndsUnder u.ending d) ↔ HostMatches u.host patterns

/-! ## Where the end of a URL is found -/

/-- A word without the byte `b` ends a text exactly if it ends what follows `b`. -/
theorem isSuffix_append_cons_iff {α : Type} {w x y : List α} {b : α} (hb : b ∉ w) :
    w <:+ x ++ b :: y ↔ w <:+ y := by
  constructor
  · intro h
    rcases suffix_or_suffix_of_suffix h (suffix_append x (b :: y)) with hw | hw
    · rcases suffix_cons_iff.mp hw with rfl | hw
      · exact absurd mem_cons_self hb
      · exact hw
    · -- a longer word would reach over the byte
      exact absurd (hw.subset mem_cons_self) hb
  · intro h
    exact h.trans ((suffix_cons b y).trans (suffix_append x _))

@[simp] theorem asciiLower_append (s t : Str) :
    asciiLower (s ++ t) = asciiLower s ++ asciiLower t := map_append

variable {b : UInt8}

theorem asciiLower_cons_of_not_letter (hb : ¬ (65 ≤ b ∧ b ≤ 90)) (s : Str) :
    asciiLower (b :: s) = b :: asciiLower s := by
  simp only [asciiLower, map_cons, if_neg hb]

theorem domainByte_lower (c : UInt8) :
    domainByte c = true → domainByte (if 65 ≤ c ∧ c ≤ 90 then c + 32 else c) = true := by
  revert c
  decide +kernel

variable (d : Domain)

theorem Domain.notMem_under (hb : domainByte b = false) : b ∉ 46 :: asciiLower d.bytes := by
  intro hmem
  rcases mem_cons.mp hmem with rfl | hmem
  · cases hb
  · obtain ⟨c, hc, rfl⟩ := mem_map.mp hmem
    rw [domainByte_lower c (d.valid.2 c hc)] at hb
    cases hb

theorem Pattern.endsUnder_append_cons (hb : domainByte b = false) (x y : Str)
    (d : Domain) : EndsUnder (x ++ b :: y) d ↔ EndsUnder y d := by
  -- a byte that is not a domain byte is not a letter
  have hletter : ¬ (65 ≤ b ∧ b ≤ 90) := by
    rintro ⟨h1, h2⟩
    simp [domainByte, h1, h2] at hb
  rw [EndsUnder, EndsUnder, asciiLower_append, asciiLower_cons_of_not_letter hletter]
  exact isSuffix_append_cons_iff (d.notMem_under hb)

namespace URL

variable (u : URL)

theorem text_eq : ∃ x b, u.text = x ++ b :: (u.host ++ u.rest) ∧ domainByte b = false := by
  cases huser : u.userinfo with
  | none =>
    refine ⟨u.scheme ++ [58, 47], 47, ?_, by decide⟩
    have hslashes : str "://" = [58, 47, 47] := by decide
    simp [URLParts.text, URLParts.user, huser, hslashes]
  | some i =>
    refine ⟨u.scheme ++ str "://" ++ i, 64, ?_, by decide⟩
    simp [URLParts.text, URLParts.user, huser]

theorem rest_cases : u.rest = [] ∨ ∃ b y, u.rest = b :: y ∧ domainByte b = false := by
  unfold URLParts.rest
  cases u.port with
  | some p => exact .inr ⟨58, _, rfl, by decide⟩
  | none =>
    rcases hpath : u.path with _ | ⟨c, path⟩
    · cases u.query with
      | some q => exact .inr ⟨63, _, rfl, by decide⟩
      | none =>
        cases u.fragment with
        | some f => exact .inr ⟨35, _, rfl, by decide⟩
        | none => exact .inl rfl
    · have hslash : c = 47 := by
        rcases u.path_valid.1 with h | h
        · simp [hpath] at h
        · simpa [hpath] using h
      exact .inr ⟨c, _, rfl, by rw [hslash]; decide⟩

theorem endsUnder_text : Pattern.EndsUnder u.text d ↔ Pattern.EndsUnder u.ending d := by
  obtain ⟨x, b, htext, hb⟩ := u.text_eq
  rw [htext, Pattern.endsUnder_append_cons hb, URLParts.ending]
  rcases u.rest_cases with hrest | ⟨c, y, hrest, hc⟩
  · rw [if_pos hrest, hrest, append_nil]
  · rw [hrest, if_neg (cons_ne_nil c y), Pattern.endsUnder_append_cons hc]
    exact (Pattern.endsUnder_append_cons hc [] y d).symm

theorem lower_text_ne : asciiLower u.text ≠ asciiLower d.bytes := by
  intro h
  have hslash : (47 : UInt8) ∈ asciiLower u.text := by
    have hslashes : str "://" = [58, 47, 47] := by decide
    simp [URLParts.text, hslashes, asciiLower]
  rw [h] at hslash
  exact d.notMem_under (by decide) (mem_cons_of_mem 46 hslash)

end URL

/-! ## The matcher on URLs -/

/-- `strings.ToLower` on ASCII texts. -/
def LowersAscii (e : Policy.Engine) : Prop :=
  ∀ s : Str, (∀ b ∈ s, b < 0x80) → e.toLower s = asciiLower s

theorem domainByte_ascii (b : UInt8) : domainByte b = true → b < 0x80 := by
  revert b
  decide +kernel

theorem Pattern.ascii_text (p : Pattern) : ∀ b ∈ p.text, b < 0x80 := by
  intro b hb
  cases p with
  | domain d => exact domainByte_ascii b (d.valid.2 b hb)
  | subdomains d =>
    rcases mem_append.mp hb with hb | hb
    · have hstar : ∀ b ∈ str "*.", b < 0x80 := by decide
      exact hstar b hb
    · exact domainByte_ascii b (d.valid.2 b hb)

section Matcher

variable {e : Policy.Engine} (hlower : LowersAscii e) (u : URL)

include hlower

/-- A plain domain never matches a URL, and `*.d` matches by the end of the URL. -/
theorem matchDomain_text (p : Pattern) :
    e.matchDomain u.text p.text = true ↔
      ∃ d, p = .subdomains d ∧ Pattern.EndsUnder u.ending d := by
  have hne := u.lower_text_ne
  rw [Policy.Engine.matchDomain, hlower _ u.ascii, hlower _ p.ascii_text]
  cases p with
  | domain d =>
    -- the pattern has no star, so the texts are compared as a whole
    have hstar : (42 : UInt8) ∉ asciiLower d.bytes :=
      fun h => d.notMem_under (by decide) (mem_cons_of_mem 46 h)
    have hany : asciiLower d.bytes ≠ str "*" := by
      intro h
      exact hstar (by rw [h]; decide)
    have hwild : hasPrefix (asciiLower d.bytes) (str "*.") = false := by
      rw [hasPrefix, Bool.eq_false_iff]
      intro h
      obtain ⟨t, ht⟩ := isPrefixOf_iff_prefix.mp h
      exact hstar (by rw [← ht]; exact mem_append_left t (by decide))
    simp [Pattern.text, hany, hwild, hne d]
  | subdomains d =>
    have htext : asciiLower (Pattern.subdomains d).text = 42 :: 46 :: asciiLower d.bytes := by
      rw [Pattern.text, asciiLower_append]
      have hstar : asciiLower (str "*.") = [42, 46] := by decide
      rw [hstar]
      rfl
    have hany : (42 : UInt8) :: 46 :: asciiLower d.bytes ≠ str "*" := by
      intro h
      have hstar : str "*" = [42] := by decide
      rw [hstar] at h
      simp at h
    have hwild : hasPrefix (42 :: 46 :: asciiLower d.bytes) (str "*.") = true := by
      have hstar : str "*." = [42, 46] := by decide
      simp [hasPrefix, hstar]
    simp only [htext, hany, hwild, if_false, if_true, drop_succ_cons, drop_zero,
      Bool.or_eq_true, decide_eq_true_eq, hne d, or_false, hasSuffix,
      isSuffixOf_iff_suffix, Pattern.subdomains.injEq, exists_eq_left']
    exact u.endsUnder_text d

theorem any_matchDomain_text (patterns : List Pattern) :
    (patterns.map Pattern.text).any (e.matchDomain u.text) = true ↔
      ∃ d, .subdomains d ∈ patterns ∧ Pattern.EndsUnder u.ending d := by
  rw [any_map, any_eq_true]
  constructor
  · rintro ⟨p, hp, hmatch⟩
    obtain ⟨d, rfl, hd⟩ := (matchDomain_text hlower u p).mp hmatch
    exact ⟨d, hp, hd⟩
  · rintro ⟨d, hd, hends⟩
    exact ⟨_, hd, (matchDomain_text hlower u _).mpr ⟨d, rfl, hends⟩⟩

end Matcher

/-! ## The validation of a step -/

variable (e : Policy.Engine)

theorem err_validateStep_leaf (place : Place) {core : StepCore}
    (hparallel : core.parallel = []) (map : Option (MapConfig WorkflowStep))
    (reduce : Option (ReduceConfig WorkflowStep)) (captureError : List WorkflowStep) :
    (validateStep e place ⟨core, none, map, reduce, none, captureError⟩).err = none ↔
      (checkNode e place core.node core.params).err = none := by
  simp [validateStep, hparallel, validateParallel, validateSaga, validateIf, Validation.pass]

theorem err_checkNode_request (place : Place) {node : Str}
    (hnode : node = str "http_request" ∨ node = str "fetch_url") (params : StringMap) :
    (checkNode e place node params).err = none ↔
      ∃ decision, e.check .networkHTTP (paramOf params "url") = .ok decision := by
  have hcheck : nodeCheck node params =
      some (⟨.networkHTTP, paramOf params "url"⟩, str "network access not allowed: ") := by
    have hshell : ¬ (node = str "shell" ∨ node = str "exec" ∨ node = str "execute") := by
      rcases hnode with rfl | rfl <;> decide
    rw [nodeCheck, if_neg hshell, if_pos hnode]
  simp only [checkNode, hcheck]
  cases h : e.check .networkHTTP (paramOf params "url") with
  | error err => simp
  | ok decision => simp

variable {e : Policy.Engine}

theorem check_allowlist (hrule : e.policy.network.outbound = str "allowlist") (details : Str) :
    (∃ decision, e.check .networkHTTP details = .ok decision) ↔
      e.policy.network.allowlist.any (e.matchDomain details) = true := by
  have hdenied : str "allowlist" ≠ str "denied" := by decide
  have hallowed : str "allowlist" ≠ str "allowed" := by decide
  simp only [Policy.Engine.check, Policy.Engine.evaluate, Policy.Engine.evaluateNetwork, hrule,
    if_neg hdenied, if_neg hallowed, if_true]
  cases e.policy.network.allowlist.any (e.matchDomain details) <;> simp

theorem check_denylist (hrule : e.policy.network.outbound = str "allowed") (details : Str) :
    (∃ decision, e.check .networkHTTP details = .ok decision) ↔
      ¬ e.policy.network.denylist.any (e.matchDomain details) = true := by
  have hdenied : str "allowed" ≠ str "denied" := by decide
  simp only [Policy.Engine.check, Policy.Engine.evaluate, Policy.Engine.evaluateNetwork, hrule,
    if_neg hdenied, if_true]
  cases e.policy.network.denylist.any (e.matchDomain details) <;> simp

/-- A request step is permitted under an allowlist exactly when the host matches, and blocked under
a denylist exactly when the host matches, if and only if the end of its URL decides like its
host. -/
theorem network_by_host_iff {e : Policy.Engine} (hlower : LowersAscii e) (u : URL)
    (patterns : List Pattern) {core : StepCore} (hparallel : core.parallel = [])
    (hnode : core.node = str "http_request" ∨ core.node = str "fetch_url")
    (hurl : paramOf core.params "url" = u.text) (place : Place)
    (map : Option (MapConfig WorkflowStep)) (reduce : Option (ReduceConfig WorkflowStep))
    (captureError : List WorkflowStep) :
    (e.policy.network.outbound = str "allowlist" →
      e.policy.network.allowlist = patterns.map Pattern.text →
        (((validateStep e place ⟨core, none, map, reduce, none, captureError⟩).err = none ↔
          HostMatches u.host patterns) ↔ DecidedByHost u.toURLParts patterns)) ∧
    (e.policy.network.outbound = str "allowed" →
      e.policy.network.denylist = patterns.map Pattern.text →
        (((validateStep e place ⟨core, none, map, reduce, none, captureError⟩).err ≠ none ↔
          HostMatches u.host patterns) ↔ DecidedByHost u.toURLParts patterns)) := by
  have hany := any_matchDomain_text hlower u patterns
  rw [Ne, err_validateStep_leaf e place hparallel, err_checkNode_request e place hnode, hurl]
  constructor
  · intro hrule hlist
    rw [check_allowlist hrule, hlist, hany, DecidedByHost]
  · intro hrule hlist
    rw [check_denylist hrule, hlist, hany, not_not, DecidedByHost]

/-! ## Requests that are judged wrongly -/

instance Pattern.decidableMatches (host : Str) : (p : Pattern) → Decidable (p.Matches host)
  | .domain _ => inferInstanceAs (Decidable (_ = _))
  | .subdomains d => inferInstanceAs (Decidable (Pattern.EndsUnder host d))

instance HostMatches.decidable (host : Str) (patterns : List Pattern) :
    Decidable (HostMatches host patterns) :=
  inferInstanceAs (Decidable (∃ p ∈ patterns, p.Matches host))

/-- The engine for a network policy. -/
def networkEngine (network : Policy.NetworkPolicy) : Policy.Engine :=
  ⟨{ Policy.defaultPolicy with network := network }, none, asciiLower, id⟩

/-- The fields of a step that requests a URL. -/
def request (url : Str) : StepCore :=
  { node := str "http_request"
    params := some ((∅ : GoMap Str Str).insert (str "url") url) }

def internalDomain : Domain := ⟨str "internal.test", by decide⟩

def apiDomain : Domain := ⟨str "api.internal.test", by decide⟩

def bareURL : URL where
  scheme := str "https"
  userinfo := none
  host := str "api.internal.test"
  port := none
  path := []
  query := none
  fragment := none
  http := .inr rfl
  userinfo_valid := nofun
  host_valid := ⟨by decide, .inl (by decide)⟩
  port_valid := nofun
  path_valid := ⟨.inl rfl, nofun⟩
  query_valid := nofun
  ascii := by decide

def pathURL : URL :=
  { bareURL with
    path := str "/v1"
    path_valid := ⟨.inr rfl, by decide⟩
    ascii := by decide }

def evilURL : URL :=
  { bareURL with
    host := str "evil.test"
    path := str "/x.internal.test"
    host_valid := ⟨by decide, .inl (by decide)⟩
    path_valid := ⟨.inr rfl, by decide⟩
    ascii := by decide }

/-- A bare URL is permitted by the pattern for its host. -/
theorem network_by_host_bareURL :
    (validateStep
        (networkEngine { outbound := str "allowlist", allowlist := [str "*.internal.test"] })
        [] ⟨request bareURL.text, none, none, none, none, []⟩).err = none ↔
      HostMatches bareURL.host [.subdomains internalDomain] := by
  have hlower : LowersAscii
      (networkEngine { outbound := str "allowlist", allowlist := [str "*.internal.test"] }) :=
    fun _ _ => rfl
  have hparallel : (request bareURL.text).parallel = [] := rfl
  have hurl : paramOf (request bareURL.text).params "url" = bareURL.text := by
    simp [paramOf, request]
  have hboth := network_by_host_iff hlower bareURL [.subdomains internalDomain] hparallel (.inl rfl)
    hurl [] none none []
  refine (hboth.1 rfl (by decide)).mpr ?_
  -- nothing follows the host, so the end of the URL is the host
  have hunder : Pattern.EndsUnder bareURL.ending internalDomain := by decide
  have hhost : HostMatches bareURL.host [.subdomains internalDomain] := by decide
  exact ⟨fun _ => hhost, fun _ => ⟨internalDomain, by simp, hunder⟩⟩

/-- A path keeps an allowed host out, lets a foreign host in, and hides a denied host. -/
theorem not_network_by_host :
    (HostMatches pathURL.host [.domain apiDomain] ∧
      (validateStep
        (networkEngine { outbound := str "allowlist", allowlist := [str "api.internal.test"] })
        [] ⟨request pathURL.text, none, none, none, none, []⟩).err ≠ none) ∧
    (¬ HostMatches evilURL.host [.subdomains internalDomain] ∧
      (validateStep
        (networkEngine { outbound := str "allowlist", allowlist := [str "*.internal.test"] })
        [] ⟨request evilURL.text, none, none, none, none, []⟩).err = none) ∧
    (HostMatches pathURL.host [.subdomains internalDomain] ∧
      (validateStep
        (networkEngine { outbound := str "allowed", denylist := [str "*.internal.test"] })
        [] ⟨request pathURL.text, none, none, none, none, []⟩).err = none) := by
  decide

end Workflow
