import Aflare.Go.Crypto
import Aflare.Go.Text

/-!
# The webhook server

A request that triggers a workflow is authenticated by a message authentication code in a header, in
one of two schemes that share the key and the header. In the timestamped scheme the code is that of
a timestamp, a dot and the body, and the timestamp has to be close to the server's time. In the
scheme of the forges the code is that of the body alone, and the delivery id of another header is
remembered for a day.

The code is a parameter: nothing is known of it here.
-/

namespace Webhook

open Go

/-! ## Requests -/

/-- A request; the headers are given by `Header.Get`. -/
structure Request where
  method : Str
  path : Str
  header : Str → Str
  body : Str

/-- What else decides about a request at the moment it is served. -/
structure Site where
  rateAllows : Bool
  findsWorkflow : Str → Bool
  slotFree : Bool

inductive Response
  | healthy
  | taskStatus
  | pageNotFound
  | methodNotAllowed
  | rateLimited
  | invalidWorkflowName
  | bodyTooLarge
  | unauthorized
  | replayedDelivery
  | signatureRequiresTimestamp
  | workflowNotFound
  | tooBusy
  | accepted
  deriving DecidableEq

def maxBodySize : ℕ := 1 * 1024 * 1024

/-- `signatureMaxAge`, in seconds. -/
def signatureMaxAge : ℤ := 5 * 60

/-- `deliveryDedupWindow`, in nanoseconds. -/
def deliveryDedupWindow : ℤ := 24 * 3600 * 1000000000

def deliveryCacheLimit : ℕ := 8192

/-! ## The delivery cache -/

/-- `deliveryCache`: the delivery ids with the times at which they were seen last. -/
abbrev DeliveryCache := GoMap Str ℤ

def sweep (seen : DeliveryCache) (now : ℤ) : DeliveryCache :=
  seen.filter fun _ ts => now - ts < deliveryDedupWindow

/-- `Record`: whether the id is new, and the cache after it. -/
def record (seen : DeliveryCache) (id : Str) (now : ℤ) : Bool × DeliveryCache :=
  if seen[id]?.any fun ts => now - ts < deliveryDedupWindow then (false, seen.insert id now)
  else
    let seen := if deliveryCacheLimit ≤ seen.size then sweep seen now else seen
    (true, seen.insert id now)

/-! ## Signatures -/

def parseSignatureHeader (header : Str) : Option (List UInt8) :=
  if hasPrefix header (str "sha256=") then
    (hexDecode (trimPrefix header (str "sha256="))).filter (· ≠ [])
  else none

def platformDeliveryID (r : Request) : Str :=
  (([str "X-GitHub-Delivery", str "X-Gitea-Delivery", str "X-Gogs-Delivery"].map
    fun h => trimSpace (r.header h)).find? (· ≠ [])).getD []

/-- What the code of the timestamped scheme covers. -/
def stamped (ts : ℤ) (body : Str) : Str := itoa ts ++ str "." ++ body

/-- The distance of a timestamp from the server's time in seconds, as it is computed. -/
def drift (unix ts : ℤ) : ℤ :=
  let d := wrapInt64 (unix - ts)
  if d < 0 then wrapInt64 (-d) else d

/-- Why a timestamped signature is refused. -/
inductive SignatureError
  | invalidTimestamp (text : Str)
  | tooFar (ts drift : ℤ)
  | malformed
  | mismatch
  deriving DecidableEq

variable (mac : Str → Str → List UInt8)

def verifyWebhookSignature (body secret header : Str) : Bool :=
  match parseSignatureHeader header with
  | none => false
  | some got => got = mac secret body

/-- `verifyTimestampedSignature`, at a time in nanoseconds. -/
def verifyTimestampedSignature (body secret header tsHeader : Str) (now : ℤ) :
    Except SignatureError Unit :=
  match atoi (trimSpace tsHeader) with
  | none => .error (.invalidTimestamp tsHeader)
  | some ts =>
    let d := drift (now / 1000000000) ts
    if signatureMaxAge < d then .error (.tooFar ts d)
    else
      match parseSignatureHeader header with
      | none => .error .malformed
      | some got => if got = mac secret (stamped ts body) then .ok () else .error .mismatch

/-! ## Authentication -/

/-- `verifySignature`: the answer to a request that is refused, and the cache. -/
def verifySignature (secret : Str) (r : Request) (sig : Str) (now : ℤ)
    (seen : DeliveryCache) : Option Response × DeliveryCache :=
  if r.header (str "X-Timestamp") ≠ [] then
    match verifyTimestampedSignature mac r.body secret sig (r.header (str "X-Timestamp")) now with
    | .ok _ => (none, seen)
    | .error _ => (some .unauthorized, seen)
  else if platformDeliveryID r ≠ [] then
    if verifyWebhookSignature mac r.body secret sig then
      let (isNew, seen) := record seen (platformDeliveryID r) now
      (if isNew then none else some .replayedDelivery, seen)
    else (some .unauthorized, seen)
  else (some .signatureRequiresTimestamp, seen)

def requireSecret (secret : Str) (r : Request) : Option Response :=
  if secret = [] ∨ r.header (str "X-Webhook-Secret") = secret then none else some .unauthorized

def requireAuth (secret : Str) (r : Request) (now : ℤ) (seen : DeliveryCache) :
    Option Response × DeliveryCache :=
  if secret = [] then (none, seen)
  else if r.header (str "X-Hub-Signature-256") ≠ [] then
    verifySignature mac secret r (r.header (str "X-Hub-Signature-256")) now seen
  else (requireSecret secret r, seen)

/-! ## The handler -/

def isValidWorkflowName (name : Str) : Bool :=
  name ≠ [] && name.length ≤ 100 && name.all fun c =>
    (97 ≤ c && c ≤ 122) || (65 ≤ c && c ≤ 90) || isDigit c || c = 45 || c = 95

def handleWebhook (secret : Str) (r : Request) (site : Site) (now : ℤ) (seen : DeliveryCache) :
    Response × DeliveryCache :=
  let workflowName := trimPrefix r.path (str "/webhook/")
  if ¬ site.rateAllows then (.rateLimited, seen)
  else if ¬ isValidWorkflowName workflowName then (.invalidWorkflowName, seen)
  else if maxBodySize < r.body.length then (.bodyTooLarge, seen)
  else
    match requireAuth mac secret r now seen with
    | (some refusal, seen) => (refusal, seen)
    | (none, seen) =>
      if ¬ site.findsWorkflow workflowName then (.workflowNotFound, seen)
      else if ¬ site.slotFree then (.tooBusy, seen)
      else (.accepted, seen)

/-- The handler: the pattern of the mux and `routeWebhook`. -/
def serve (secret : Str) (r : Request) (site : Site) (now : ℤ) (seen : DeliveryCache) :
    Response × DeliveryCache :=
  if ¬ hasPrefix r.path (str "/webhook/") then (.pageNotFound, seen)
  else if r.path = str "/webhook/health" then
    (if r.method = str "GET" then .healthy else .methodNotAllowed, seen)
  else if hasPrefix r.path (str "/webhook/status/") then
    (if r.method = str "GET" then (requireSecret secret r).getD .taskStatus else .methodNotAllowed,
      seen)
  else if r.method ≠ str "POST" then (.methodNotAllowed, seen)
  else handleWebhook mac secret r site now seen

/-! ## What the cache remembers -/

section Record

variable {seen : DeliveryCache} {id id' : Str} {now ts : ℤ}

theorem record_fst_iff :
    (record seen id now).1 = true ↔
      ∀ ts, seen[id]? = some ts → deliveryDedupWindow ≤ now - ts := by
  rw [record]
  cases seen[id]? with
  | none => simp
  | some ts => by_cases h : now - ts < deliveryDedupWindow <;> simp [h, not_lt.mp, not_le.mpr]

@[simp] theorem getElem?_record_self : (record seen id now).2[id]? = some now := by
  rw [record]
  split <;> exact Std.ExtTreeMap.getElem?_insert_self

theorem getElem?_record_of_ne (hne : id ≠ id') (hseen : seen[id']? = some ts)
    (hrecent : now - ts < deliveryDedupWindow) : (record seen id now).2[id']? = some ts := by
  grind [record, sweep]

end Record

/-! ## What a request has to meet -/

section Serve

variable {mac} {secret : Str} {r : Request} {site : Site} {now : ℤ} {seen : DeliveryCache}
variable {digest : List UInt8}

theorem verifyWebhookSignature_eq_true_iff {body header : Str}
    (hsig : parseSignatureHeader header = some digest) :
    verifyWebhookSignature mac body secret header = true ↔ digest = mac secret body := by
  simp [verifyWebhookSignature, hsig]

theorem verifyTimestampedSignature_eq_ok_iff {body header tsHeader : Str}
    (hsig : parseSignatureHeader header = some digest) :
    verifyTimestampedSignature mac body secret header tsHeader now = .ok () ↔
      ∃ ts, atoi (trimSpace tsHeader) = some ts ∧
        drift (now / 1000000000) ts ≤ signatureMaxAge ∧ digest = mac secret (stamped ts body) := by
  grind [verifyTimestampedSignature]

/-- A signed request passes in the timestamped scheme or in that of the forges. -/
theorem requireAuth_passes_iff (hsecret : secret ≠ [])
    (hsig : parseSignatureHeader (r.header (str "X-Hub-Signature-256")) = some digest) :
    (requireAuth mac secret r now seen).1 = none ↔
      (∃ ts, atoi (trimSpace (r.header (str "X-Timestamp"))) = some ts ∧
        drift (now / 1000000000) ts ≤ signatureMaxAge ∧ digest = mac secret (stamped ts r.body)) ∨
      (r.header (str "X-Timestamp") = [] ∧ platformDeliveryID r ≠ [] ∧
        digest = mac secret r.body ∧ (record seen (platformDeliveryID r) now).1 = true) := by
  have hheader : r.header (str "X-Hub-Signature-256") ≠ [] := by
    intro hnil
    rw [hnil] at hsig
    cases hsig
  rw [requireAuth, if_neg hsecret, if_pos hheader, verifySignature,
    ← verifyTimestampedSignature_eq_ok_iff hsig, ← verifyWebhookSignature_eq_true_iff hsig]
  by_cases hts : r.header (str "X-Timestamp") = []
  · -- without a timestamp the header cannot be read as one
    have hnone : verifyTimestampedSignature mac r.body secret
        (r.header (str "X-Hub-Signature-256")) [] now ≠ .ok () := by
      rw [verifyTimestampedSignature, show atoi (trimSpace []) = none by decide]
      simp
    rw [if_neg (not_not.mpr hts), hts]
    simp only [hnone, false_or, true_and]
    split
    · rename_i hid
      split <;> simp_all
    · rename_i hid
      simp_all
  · rw [if_pos hts]
    simp only [hts, false_and, or_false]
    split <;> simp_all

theorem requireAuth_snd_of_delivery (hsecret : secret ≠ [])
    (hsig : parseSignatureHeader (r.header (str "X-Hub-Signature-256")) = some (mac secret r.body))
    (hts : r.header (str "X-Timestamp") = []) (hid : platformDeliveryID r ≠ []) :
    (requireAuth mac secret r now seen).2 = (record seen (platformDeliveryID r) now).2 := by
  have hheader : r.header (str "X-Hub-Signature-256") ≠ [] := by
    intro hnil
    rw [hnil] at hsig
    cases hsig
  rw [requireAuth, if_neg hsecret, if_pos hheader, verifySignature, if_neg (not_not.mpr hts),
    if_pos hid, if_pos ((verifyWebhookSignature_eq_true_iff hsig).mpr rfl)]

theorem requireAuth_snd :
    (requireAuth mac secret r now seen).2 = seen ∨
      ∃ id, (requireAuth mac secret r now seen).2 = (record seen id now).2 := by
  rw [requireAuth]
  split
  · exact .inl rfl
  · split
    · rw [verifySignature]
      split
      · split <;> exact .inl rfl
      · split
        · split
          · exact .inr ⟨_, rfl⟩
          · exact .inl rfl
        · exact .inl rfl
    · exact .inl rfl

/-- Nothing but the authentication is in the way of a request. -/
structure Open (r : Request) (site : Site) : Prop where
  triggers : hasPrefix r.path (str "/webhook/") = true ∧ r.path ≠ str "/webhook/health" ∧
    hasPrefix r.path (str "/webhook/status/") = false ∧ r.method = str "POST"
  rateAllows : site.rateAllows = true
  name : isValidWorkflowName (trimPrefix r.path (str "/webhook/")) = true
  size : r.body.length ≤ maxBodySize
  finds : site.findsWorkflow (trimPrefix r.path (str "/webhook/")) = true
  slot : site.slotFree = true

theorem requireAuth_fst_ne_accepted : (requireAuth mac secret r now seen).1 ≠ some .accepted := by
  rw [requireAuth]
  split
  · simp
  · split
    · rw [verifySignature]
      split
      · split <;> simp
      · split
        · split
          · simp only
            split <;> simp
          · simp
        · simp
    · rw [requireSecret]
      split <;> simp

/-- The cache after a request that is not refused before its authentication. -/
theorem handleWebhook_snd :
    (handleWebhook mac secret r site now seen).2 =
      if site.rateAllows = true ∧ isValidWorkflowName (trimPrefix r.path (str "/webhook/")) = true ∧
        r.body.length ≤ maxBodySize then (requireAuth mac secret r now seen).2 else seen := by
  grind [handleWebhook]

theorem handleWebhook_fst_eq_accepted_iff :
    (handleWebhook mac secret r site now seen).1 = .accepted ↔
      site.rateAllows = true ∧ isValidWorkflowName (trimPrefix r.path (str "/webhook/")) = true ∧
        r.body.length ≤ maxBodySize ∧ (requireAuth mac secret r now seen).1 = none ∧
        site.findsWorkflow (trimPrefix r.path (str "/webhook/")) = true ∧ site.slotFree = true := by
  have hrefusal : (requireAuth mac secret r now seen).1 ≠ some .accepted :=
    requireAuth_fst_ne_accepted
  rw [handleWebhook]
  cases hauth : requireAuth mac secret r now seen with
  | mk refusal seen' =>
    rw [hauth] at hrefusal
    cases refusal with
    | some refusal =>
      simp only [ne_eq, Option.some.injEq] at hrefusal
      split_ifs <;> simp [hrefusal]
    | none => split_ifs <;> simp_all

/-- A request is accepted if the server is open to it and it is authenticated. -/
theorem accepted_iff :
    (serve mac secret r site now seen).1 = .accepted ↔
      Open r site ∧ (requireAuth mac secret r now seen).1 = none := by
  constructor
  · intro h
    rw [serve] at h
    split at h
    · cases h
    · rename_i hpath
      split at h
      · simp only at h
        split at h <;> cases h
      · rename_i hhealth
        split at h
        · simp only [requireSecret] at h
          split at h
          · split at h <;> cases h
          · cases h
        · rename_i hstatus
          split at h
          · cases h
          · rename_i hmethod
            obtain ⟨hrate, hname, hsize, hpass, hfinds, hslot⟩ :=
              handleWebhook_fst_eq_accepted_iff.mp h
            exact ⟨⟨⟨not_not.mp hpath, hhealth, by simpa using hstatus, not_not.mp hmethod⟩, hrate,
              hname, hsize, hfinds, hslot⟩, hpass⟩
  · rintro ⟨⟨⟨hpath, hhealth, hstatus, hmethod⟩, hrate, hname, hsize, hfinds, hslot⟩, hpass⟩
    rw [serve, if_neg (not_not.mpr hpath), if_neg hhealth, if_neg (by simp [hstatus]),
      if_neg (not_not.mpr hmethod)]
    exact handleWebhook_fst_eq_accepted_iff.mpr ⟨hrate, hname, hsize, hpass, hfinds, hslot⟩

theorem serve_snd :
    (serve mac secret r site now seen).2 = seen ∨
      ∃ id, (serve mac secret r site now seen).2 = (record seen id now).2 := by
  rw [serve]
  split
  · exact .inl rfl
  · split
    · exact .inl rfl
    · split
      · exact .inl rfl
      · split
        · exact .inl rfl
        · rw [handleWebhook_snd]
          split
          · exact requireAuth_snd
          · exact .inl rfl

theorem serve_snd_of_open (h : Open r site) :
    (serve mac secret r site now seen).2 = (requireAuth mac secret r now seen).2 := by
  obtain ⟨⟨hpath, hhealth, hstatus, hmethod⟩, hrate, hname, hsize, -, -⟩ := h
  rw [serve, if_neg (not_not.mpr hpath), if_neg hhealth, if_neg (by simp [hstatus]),
    if_neg (not_not.mpr hmethod), handleWebhook_snd, if_pos ⟨hrate, hname, hsize⟩]

end Serve

end Webhook
