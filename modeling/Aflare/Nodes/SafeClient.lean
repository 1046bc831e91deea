import Aflare.Go.Net
import Aflare.Go.Text

/-!
# Outbound requests and the addresses they may reach

Models the address checks of `internal/httpclient/client.go` and `internal/nodes/core/security.go`.
`ValidateURL` looks a host up before a request is made and refuses the request if an answer lies
in a blocked class. A host can answer differently a moment later, so the transport of
`SafeHTTPClient` looks it up again when it dials and checks every answer once more.

Each validator goes through classes of addresses in a fixed order and refuses with the first that
an address belongs to. Which validator is in force depends on `AFLARE_ALLOW_LOOPBACK`, and the two
places choose differently: with loopback allowed, the one that `ValidateURL` takes still refuses
private addresses, and the one that the transport takes does not look at them.
-/

open Go Go.Net

namespace Nodes

/-! ## Validators -/

/-- A class of addresses that a validator refuses, and the word for it in the error. -/
structure AddressClass where
  kind : Str
  holds : IP → Bool

/-- The error of the first class that an address belongs to. -/
def refusal (classes : List AddressClass) (ip : IP) (displayHost : Str) : Option Str :=
  (classes.find? fun c => c.holds ip).map fun c =>
    str "access to " ++ c.kind ++ str " address " ++ displayHost ++ str " is not allowed"

variable {ip : IP} {displayHost : Str}

theorem refusal_eq_none_iff {classes : List AddressClass} :
    refusal classes ip displayHost = none ↔ ∀ c ∈ classes, c.holds ip = false := by
  simp [refusal, List.find?_eq_none]

/-- The ranges of IPv4 that `IsReservedIP` lists: `0.0.0.0/8`, link-local, the three test
networks and the shared address space of carriers. -/
def Quad.isReserved (q : Quad) : Bool :=
  q.a == 0 ||
  (q.a == 169 && q.b == 254) ||
  (q.a == 192 && q.b == 0 && q.c == 2) ||
  (q.a == 198 && q.b == 51 && q.c == 100) ||
  (q.a == 203 && q.b == 0 && q.c == 113) ||
  (q.a == 100 && 64 ≤ q.b && q.b ≤ 127)

def isReservedIP (ip : IP) : Bool :=
  match to4 ip with
  | none => isUniqueLocal ip
  | some q => Quad.isReserved q

def loopbackClass : AddressClass := ⟨str "loopback", isLoopback⟩
def privateClass : AddressClass := ⟨str "private", isPrivate⟩
def linkLocalClass : AddressClass :=
  ⟨str "link-local", fun ip => isLinkLocalUnicast ip || isLinkLocalMulticast ip⟩
def unspecifiedClass : AddressClass := ⟨str "unspecified", isUnspecified⟩
def multicastClass : AddressClass := ⟨str "multicast", isMulticast⟩
def reservedClass : AddressClass := ⟨str "reserved", isReservedIP⟩

/-- The classes besides loopback, in the order in which they are tested. -/
def nonLoopbackClasses : List AddressClass :=
  [privateClass, linkLocalClass, unspecifiedClass, multicastClass, reservedClass]

def validateNonLoopback : IP → Str → Option Str := refusal nonLoopbackClasses

def validatePublic (ip : IP) (displayHost : Str) : Option Str :=
  (refusal [loopbackClass] ip displayHost).or (validateNonLoopback ip displayHost)

def validateIP : IP → Str → Option Str := validatePublic

/-- `ValidateLMLEndpointIP`: a loopback address passes before anything else is looked at. -/
def validateLMLEndpointIP (ip : IP) (displayHost : Str) : Option Str :=
  if isLoopback ip then none else refusal nonLoopbackClasses ip displayHost

/-- `ValidateLMLEndpointIPAllowLoopback`, which has no test for private addresses. -/
def validateLMLEndpointIPAllowLoopback : IP → Str → Option Str :=
  refusal [linkLocalClass, unspecifiedClass, multicastClass, reservedClass]

/-! ## The two checks -/

/-- The parts of a URL that the check reads. -/
structure RequestURL where
  scheme : Str
  hasUser : Bool
  hostname : Str

/-- The answer of the resolver to a host name. -/
abbrev Resolver := Str → Except Str (List IP)

/-- What the checks take from the process and the standard library. -/
structure NetHost where
  getenv : Str → Str
  toLower : Str → Str
  equalFold : Str → Str → Bool
  parseURL : Str → Except Str RequestURL
  parseIP : Str → Option IP
  /-- Host and port of the proxy that the environment names, both empty if there is none. -/
  proxyHostPort : Str × Str

namespace NetHost

variable (net : NetHost)

def loopbackAllowed : Bool :=
  let v := net.toLower (trimSpace (net.getenv (str "AFLARE_ALLOW_LOOPBACK")))
  v = str "1" || v = str "true" || v = str "yes"

/-- The validator that `ValidateURL` applies to an address. -/
def urlValidator : IP → Str → Option Str :=
  if net.loopbackAllowed then validateLMLEndpointIP else validateIP

/-- The validator of `SafeHTTPClient`. -/
def dialValidator : IP → Str → Option Str :=
  if net.loopbackAllowed then validateLMLEndpointIPAllowLoopback else validateIP

/-- The names of the local host. -/
def localhostVariants : List Str :=
  ["localhost", "localhost.localdomain", "ip6-localhost", "ip6-loopback"].map str

/-- `ValidateURL`, with the answers that the resolver gives at the time. -/
def validateURL (lookupIP : Resolver) (rawURL : Str) : Option Str :=
  match net.parseURL rawURL with
  | .error err => some (str "invalid URL: " ++ err)
  | .ok u =>
    if u.scheme ≠ str "http" ∧ u.scheme ≠ str "https" then
      some (str "only http and https URLs are allowed, got: " ++ u.scheme)
    else if u.hasUser then some (str "URLs with userinfo (credentials) are not allowed")
    else if u.hostname = [] then some (str "URL has no host")
    else if net.toLower u.hostname ∈ localhostVariants ∧ net.loopbackAllowed = false then
      some (str "access to localhost is not allowed")
    else
      match net.parseIP u.hostname with
      | some ip => net.urlValidator ip u.hostname
      | none =>
        match lookupIP u.hostname with
        | .error err => some (str "failed to resolve host " ++ u.hostname ++ str ": " ++ err)
        | .ok ips => ips.findSome? fun ip => net.urlValidator ip u.hostname

/-- What a connection is made to: the proxy, an address of the host, or the host by name. -/
inductive DialTarget
  | proxy (host port : Str)
  | address (ip : IP) (port : Str)
  | name (host port : Str)
deriving DecidableEq

/-- The `DialContext` of the transport: the user's own proxy is dialed as it is, and otherwise
the first answer of the resolver if no answer is refused. -/
def dialContext (validator : IP → Str → Option Str) (lookupIP : Resolver)
    (host port : Str) : Except Str DialTarget :=
  let proxy := net.proxyHostPort
  if proxy.1 ≠ [] ∧ net.equalFold host proxy.1 ∧ (proxy.2 = [] ∨ proxy.2 = port) then
    .ok (.proxy host port)
  else
    match lookupIP host with
    | .error err => .error err
    | .ok ips =>
      match ips.findSome? fun ip => validator ip host with
      | some err => .error err
      | none =>
        match ips with
        | ip :: _ => .ok (.address ip port)
        | [] => .ok (.name host port)

/-- Dialing with `SafeHTTPClient`. -/
def safeDial : Resolver → Str → Str → Except Str DialTarget := net.dialContext net.dialValidator

end NetHost

/-! ## Private addresses -/

theorem classes_of_isRFC1918 (h : isRFC1918 ip = true) :
    isLoopback ip = false ∧
      ∀ c ∈ [linkLocalClass, unspecifiedClass, multicastClass, reservedClass],
        c.holds ip = false := by
  obtain ⟨⟨a, b, c, d⟩, hq, hrange⟩ := isRFC1918_iff.mp h
  have hunspecified : isUnspecified ip = false := by
    by_contra htrue
    have hzero := to4_of_isUnspecified (by simpa using htrue) hq
    cases hzero
    cases hrange
  simp only [Quad.isRFC1918, Bool.or_eq_true, Bool.and_eq_true, beq_iff_eq] at hrange
  -- The first byte decides, except that two ranges share 192 and differ in the second.
  rcases hrange with (rfl | ⟨rfl, -⟩) | ⟨rfl, rfl⟩
  all_goals
    simp [isLoopback, linkLocalClass, unspecifiedClass, multicastClass, reservedClass,
      isLinkLocalUnicast, isLinkLocalMulticast, isMulticast, isReservedIP, Quad.isReserved, hq,
      hunspecified]
    decide

theorem validateLMLEndpointIPAllowLoopback_of_isRFC1918 (h : isRFC1918 ip = true)
    (displayHost : Str) : validateLMLEndpointIPAllowLoopback ip displayHost = none :=
  refusal_eq_none_iff.mpr (classes_of_isRFC1918 h).2

theorem validateLMLEndpointIP_of_isRFC1918 (h : isRFC1918 ip = true)
    (displayHost : Str) : validateLMLEndpointIP ip displayHost ≠ none := by
  intro hnone
  rw [validateLMLEndpointIP, (classes_of_isRFC1918 h).1] at hnone
  have hprivate : isPrivate ip = false :=
    refusal_eq_none_iff.mp hnone privateClass (by simp [nonLoopbackClasses])
  rw [isPrivate_iff.mpr (.inl h)] at hprivate
  cases hprivate

/-- Of the private addresses the transport refuses those of IPv6, which count as reserved. -/
theorem validateLMLEndpointIP_of_allowLoopback (hv4 : isRFC1918 ip = false)
    (h : validateLMLEndpointIPAllowLoopback ip displayHost = none) :
    validateLMLEndpointIP ip displayHost = none := by
  have hclasses := refusal_eq_none_iff.mp h
  have hreserved : isReservedIP ip = false := hclasses reservedClass (by simp)
  have hprivate : isPrivate ip = false := by
    by_contra htrue
    rcases isPrivate_iff.mp (by simpa using htrue) with hrange | ⟨hnone, hlocal⟩
    · rw [hrange] at hv4
      cases hv4
    · rw [isReservedIP, hnone, hlocal] at hreserved
      cases hreserved
  rw [validateLMLEndpointIP]
  split
  next => rfl
  next =>
    apply refusal_eq_none_iff.mpr
    intro c hc
    rcases List.mem_cons.mp hc with rfl | hc
    · exact hprivate
    · exact hclasses c hc

namespace NetHost

variable {net : NetHost}

/-- An address that the transport admits is admitted by the check before the request exactly if
it is not a private IPv4 address let through by the loopback setting. -/
theorem urlValidator_eq_none_iff (h : net.dialValidator ip displayHost = none) :
    net.urlValidator ip displayHost = none ↔
      ¬ (net.loopbackAllowed = true ∧ isRFC1918 ip = true) := by
  rw [dialValidator] at h
  rw [urlValidator]
  cases hallow : net.loopbackAllowed with
  | false =>
    rw [hallow] at h
    simpa using h
  | true =>
    rw [hallow] at h
    constructor
    · rintro hurl ⟨-, hrange⟩
      exact validateLMLEndpointIP_of_isRFC1918 hrange displayHost hurl
    · intro hrange
      exact validateLMLEndpointIP_of_allowLoopback (by simpa using hrange) h

/-- What a direct dial reaches has passed the validator, with every other answer. -/
theorem validated_of_dialContext {validator : IP → Str → Option Str} {lookupIP : Resolver}
    {host port port' : Str}
    (h : net.dialContext validator lookupIP host port = .ok (.address ip port')) :
    ∃ ips, lookupIP host = .ok ips ∧ ip ∈ ips ∧ ∀ a ∈ ips, validator a host = none := by
  grind [dialContext]

/-- The transport admits only what the check before the request admits, for every address except
the private ones of IPv4 under the loopback setting, and a direct dial reaches an address that
the check would have refused exactly if it is one of those. -/
theorem dialValidator_strict_iff (net : NetHost) (ip : IP) :
    ((∀ displayHost, net.dialValidator ip displayHost = none →
        net.urlValidator ip displayHost = none) ↔
      ¬ (net.loopbackAllowed = true ∧ isRFC1918 ip = true)) ∧
    ∀ lookupIP host port port', net.safeDial lookupIP host port = .ok (.address ip port') →
      (net.urlValidator ip host = none ↔
        ¬ (net.loopbackAllowed = true ∧ isRFC1918 ip = true)) := by
  constructor
  · constructor
    · rintro hstrict ⟨hallow, hrange⟩
      have hdial : net.dialValidator ip [] = none := by
        rw [dialValidator, hallow]
        exact validateLMLEndpointIPAllowLoopback_of_isRFC1918 hrange []
      exact (urlValidator_eq_none_iff hdial).mp (hstrict [] hdial) ⟨hallow, hrange⟩
    · intro hrange displayHost hdial
      exact (urlValidator_eq_none_iff hdial).mpr hrange
  · intro lookupIP host port port' hdial
    obtain ⟨ips, -, hip, hvalid⟩ := validated_of_dialContext hdial
    exact urlValidator_eq_none_iff (hvalid ip hip)

/-- A process with loopback allowed and no proxy, in which every URL has the host
`rebind.test`. -/
def demoHost : NetHost where
  getenv name := if name = str "AFLARE_ALLOW_LOOPBACK" then str "1" else []
  toLower := asciiLower
  equalFold s t := asciiLower s == asciiLower t
  parseURL _ := .ok ⟨str "http", false, str "rebind.test"⟩
  parseIP _ := none
  proxyHostPort := ([], [])

/-- A loopback address under the setting made for it: both checks let it through. -/
theorem dialValidator_strict_loopback :
    demoHost.loopbackAllowed = true ∧
      demoHost.dialValidator [127, 0, 0, 1] (str "rebind.test") = none ∧
      demoHost.urlValidator [127, 0, 0, 1] (str "rebind.test") = none := by
  have hdial : demoHost.dialValidator [127, 0, 0, 1] (str "rebind.test") = none := by
    decide
  exact ⟨by decide, hdial,
    (dialValidator_strict_iff demoHost [127, 0, 0, 1]).1.mpr (by decide) _ hdial⟩

/-- A host that answers with a public address first and with `10.0.0.5` when it is dialed: the
request passes, the connection is made to the private address, and asked about that address the
first check refuses. -/
theorem not_dialValidator_strict :
    demoHost.validateURL (fun _ => .ok [[93, 184, 216, 34]]) (str "http://rebind.test/") = none ∧
      demoHost.safeDial (fun _ => .ok [[10, 0, 0, 5]]) (str "rebind.test") (str "80") =
        .ok (.address [10, 0, 0, 5] (str "80")) ∧
      demoHost.dialValidator [10, 0, 0, 5] (str "rebind.test") = none ∧
      demoHost.urlValidator [10, 0, 0, 5] (str "rebind.test") =
        some (str "access to private address rebind.test is not allowed") := by
  decide

end NetHost

end Nodes
