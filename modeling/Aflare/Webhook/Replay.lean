import Aflare.Webhook.Server

/-!
# Replayed requests

What an attacker can do with a code that was sent before. It is assumed that the code of a message
is not that of another message which the server looks at (`Unforged`); the attacker chooses
everything else.

The scheme of the forges covers the body, but not the delivery id by which a replay is noticed. And
the two schemes are told apart by a header that neither covers, so that the code of a timestamp and
a body is also that of a longer body without a timestamp. -/

namespace Webhook

open Go List

variable {mac : Str → Str → List UInt8} {secret body : Str}

/-! ## The attacker -/

/-- The messages whose codes the server compares with that of a request. -/
def macInputs (r : Request) : List Str :=
  r.body :: ((atoi (trimSpace (r.header (str "X-Timestamp")))).map (stamped · r.body)).toList

variable (mac secret) in
/-- Of the messages that the server looks at for a request, no other one has the code of a message.
-/
def Unforged (message : Str) (r : Request) : Prop :=
  ∀ m ∈ macInputs r, mac secret m = mac secret message → m = message

variable {r : Request} {message : Str}

theorem Unforged.body_eq (h : Unforged mac secret message r)
    (hmac : mac secret message = mac secret r.body) : r.body = message :=
  h r.body mem_cons_self hmac.symm

theorem Unforged.stamped_eq (h : Unforged mac secret message r)
    {ts : ℤ} (hts : atoi (trimSpace (r.header (str "X-Timestamp"))) = some ts)
    (hmac : mac secret message = mac secret (stamped ts r.body)) : stamped ts r.body = message := by
  refine h _ ?_ hmac.symm
  simp [macInputs, hts]

theorem stamped_ne (ts : ℤ) (body : Str) : stamped ts body ≠ body := by
  intro h
  have hlength := congrArg List.length h
  simp only [stamped, length_append] at hlength
  have hdot : (str ".").length = 1 := by decide
  omega

/-! ## Deliveries -/

/-- A request that is served, with what else decides about it. -/
structure Call where
  request : Request
  site : Site
  now : ℤ

variable (mac secret body) in
/-- The request carries a body with its code. -/
def Carries (r : Request) : Prop :=
  r.body = body ∧
    parseSignatureHeader (r.header (str "X-Hub-Signature-256")) = some (mac secret body)

instance : DecidablePred (Carries mac secret body) := fun _ => inferInstanceAs (Decidable (_ ∧ _))

variable (mac secret body) in
/-- How many of the requests that carry a body with its code are accepted. -/
def acceptances : DeliveryCache → List Call → ℕ
  | _, [] => 0
  | seen, c :: calls =>
    let served := serve mac secret c.request c.site c.now seen
    (if Carries mac secret body c.request ∧ served.1 = .accepted then 1 else 0) +
      acceptances served.2 calls

/-- Every request is served less than a day after those before it. -/
def WithinWindow (calls : List Call) : Prop :=
  calls.Pairwise fun c d => d.now - c.now < deliveryDedupWindow
  deriving Decidable

/-- An id is remembered for some calls. -/
def Remembered (id : Str) (calls : List Call) (seen : DeliveryCache) : Prop :=
  ∃ ts, seen[id]? = some ts ∧ ∀ c ∈ calls, c.now - ts < deliveryDedupWindow

section Remembered

variable {id : Str} {c : Call} {calls : List Call} {seen : DeliveryCache}

theorem remembered_record (hwindow : ∀ d ∈ calls, d.now - c.now < deliveryDedupWindow) :
    Remembered id calls (record seen id c.now).2 :=
  ⟨c.now, getElem?_record_self, hwindow⟩

theorem Remembered.serve (h : Remembered id (c :: calls) seen)
    (hwindow : ∀ d ∈ calls, d.now - c.now < deliveryDedupWindow) :
    Remembered id calls (serve mac secret c.request c.site c.now seen).2 := by
  obtain ⟨ts, hseen, hrecent⟩ := h
  obtain ⟨hnow, hlater⟩ := forall_mem_cons.mp hrecent
  have hsnd : (Webhook.serve mac secret c.request c.site c.now seen).2 = seen ∨
      ∃ id', (Webhook.serve mac secret c.request c.site c.now seen).2 = (record seen id' c.now).2 :=
    serve_snd
  rcases hsnd with hsame | ⟨id', hrecord⟩
  · exact ⟨ts, by rw [hsame, hseen], hlater⟩
  · rw [hrecord]
    by_cases hid : id' = id
    · subst hid
      exact remembered_record hwindow
    · exact ⟨ts, getElem?_record_of_ne hid hseen hnow, hlater⟩

end Remembered

variable (mac secret body) in
/-- The condition on a request that carries the body with its code: if it is looked at in the scheme
of the forges, it has this delivery id. -/
def UnderId (id : Str) (r : Request) : Prop :=
  Carries mac secret body r → r.header (str "X-Timestamp") = [] →
    platformDeliveryID r ≠ [] → platformDeliveryID r = id

variable {seen : DeliveryCache} {id : Str}

/-- An accepted request that carries the body with its code has the delivery id, and it was new. -/
theorem record_of_accepted {c : Call} (hsecret : secret ≠ [])
    (hforge : Unforged mac secret body c.request) (hid : UnderId mac secret body id c.request)
    (hcarries : Carries mac secret body c.request)
    (h : (serve mac secret c.request c.site c.now seen).1 = .accepted) :
    (record seen id c.now).1 = true ∧
      (serve mac secret c.request c.site c.now seen).2 = (record seen id c.now).2 := by
  obtain ⟨hbody, hsig⟩ := hcarries
  obtain ⟨hopen, hpass⟩ := accepted_iff.mp h
  rcases (requireAuth_passes_iff hsecret hsig).mp hpass with
    ⟨ts, hts, -, hmac⟩ | ⟨hts, hdelivery, -, hnew⟩
  · -- the code of the body is not that of a timestamp and the body
    have hstamped := hforge.stamped_eq hts hmac
    rw [hbody] at hstamped
    exact absurd hstamped (stamped_ne ts body)
  · obtain rfl := hid ⟨hbody, hsig⟩ hts hdelivery
    refine ⟨hnew, ?_⟩
    rw [serve_snd_of_open hopen]
    exact requireAuth_snd_of_delivery hsecret (hbody ▸ hsig) hts hdelivery

/-- While its id is remembered, the body is not accepted. -/
theorem acceptances_eq_zero (hsecret : secret ≠ []) {calls : List Call}
    (hwindow : WithinWindow calls) (hforge : ∀ c ∈ calls, Unforged mac secret body c.request)
    (hid : ∀ c ∈ calls, UnderId mac secret body id c.request)
    (hremembered : Remembered id calls seen) : acceptances mac secret body seen calls = 0 := by
  induction calls generalizing seen with
  | nil => rfl
  | cons c calls ih =>
    obtain ⟨hforgeNow, hforge⟩ := forall_mem_cons.mp hforge
    obtain ⟨hidNow, hid⟩ := forall_mem_cons.mp hid
    obtain ⟨hlater, hwindow⟩ := pairwise_cons.mp hwindow
    rw [acceptances, ih hwindow hforge hid (hremembered.serve hlater), if_neg]
    rintro ⟨hcarries, haccepted⟩
    obtain ⟨hnew, -⟩ := record_of_accepted hsecret hforgeNow hidNow hcarries haccepted
    obtain ⟨ts, hseen, hrecent⟩ := hremembered
    have hold := record_fst_iff.mp hnew ts hseen
    have hnow := hrecent c mem_cons_self
    omega

/-- Within a day, a body with its code is accepted at most once, if it is always delivered under the
same id. -/
theorem delivery_accepted_once (id : Str) (hsecret : secret ≠ []) {calls : List Call}
    {seen : DeliveryCache} (hwindow : WithinWindow calls)
    (hforge : ∀ c ∈ calls, Unforged mac secret body c.request)
    (hid : ∀ c ∈ calls, UnderId mac secret body id c.request) :
    acceptances mac secret body seen calls ≤ 1 := by
  induction calls generalizing seen with
  | nil => exact Nat.zero_le 1
  | cons c calls ih =>
    obtain ⟨hforgeNow, hforge⟩ := forall_mem_cons.mp hforge
    obtain ⟨hidNow, hid⟩ := forall_mem_cons.mp hid
    obtain ⟨hlater, hwindow⟩ := pairwise_cons.mp hwindow
    rw [acceptances]
    split
    · -- the id is recorded, and remembered for the other requests
      rename_i hfirst
      obtain ⟨-, hrecord⟩ := record_of_accepted hsecret hforgeNow hidNow hfirst.1 hfirst.2
      rw [hrecord, acceptances_eq_zero hsecret hwindow hforge hid (remembered_record hlater)]
    · rw [Nat.zero_add]
      exact ih hwindow hforge hid

/-! ## A captured delivery -/

def trigger (header : Str → Str) (body : Str) : Request :=
  ⟨str "POST", str "/webhook/flow", header, body⟩

/-- Nothing is in the way, and the workflow exists. -/
def freeSite : Site := ⟨true, fun _ => true, true⟩

theorem open_trigger (header : Str → Str) (hsize : body.length ≤ maxBodySize) :
    Open (trigger header body) freeSite where
  triggers := by
    simp only [trigger]
    decide
  rateAllows := rfl
  name := by
    simp only [trigger]
    decide
  size := hsize
  finds := rfl
  slot := rfl

variable (digest : List UInt8)

/-- The headers of a delivery with a code and an id. -/
def deliveryHeaders (id name : Str) : Str :=
  if name = str "X-Hub-Signature-256" then str "sha256=" ++ hexEncode digest
  else if name = str "X-GitHub-Delivery" then id
  else []

/-- A delivery to a workflow that exists, when nothing is in the way. -/
def delivery (id body : Str) (now : ℤ) : Call where
  request := trigger (deliveryHeaders digest id) body
  site := freeSite
  now := now

/-- A code from which the message can be read, to evaluate the model with: no two messages share it.
-/
def plainCode (secret message : Str) : List UInt8 := secret ++ message

theorem unforged_plainCode (secret message : Str) (r : Request) :
    Unforged plainCode secret message r := fun _ _ h => append_cancel_left h

theorem delivery_accepted_once_verbatim :
    acceptances plainCode (str "key") (str "push") ∅
        [delivery (str "keypush") (str "genuine") (str "push") 0,
          delivery (str "keypush") (str "genuine") (str "push") 1] = 1 ∧
      acceptances plainCode (str "key") (str "push") ∅
        [delivery (str "keypush") (str "genuine") (str "push") 0,
          delivery (str "keypush") (str "genuine") (str "push") 1] ≤ 1 := by
  refine ⟨by decide, delivery_accepted_once (str "genuine") (by decide) (by decide)
    (fun c _ => unforged_plainCode _ _ c.request) ?_⟩
  simp only [forall_mem_cons]
  exact ⟨fun _ _ _ => by decide, fun _ _ _ => by decide, forall_mem_nil _⟩

theorem not_delivery_accepted_once :
    ∃ calls, WithinWindow calls ∧
      (∀ c ∈ calls, Unforged plainCode (str "key") (str "push") c.request) ∧
      acceptances plainCode (str "key") (str "push") ∅ calls = 2 := by
  refine ⟨[delivery (str "keypush") (str "genuine") (str "push") 0,
    delivery (str "keypush") (str "fresh") (str "push") 1], ?_,
    fun c _ => unforged_plainCode _ _ c.request, by decide⟩
  simp [WithinWindow, delivery, deliveryDedupWindow]

/-! ## Old timestamps -/

theorem dot_notMem_itoa (n : ℤ) : 46 ∉ itoa n := fun h => by simpa [isDigit] using mem_itoa h

theorem stamped_inj {ts t : ℤ} {sent : Str} (h : stamped ts sent = stamped t body) :
    ts = t ∧ sent = body := by
  have hdot : ∀ (n : ℤ) (rest : Str), stamped n rest = itoa n ++ 46 :: rest := by
    intro n rest
    rw [stamped, append_assoc]
    rfl
  have hfront : ∀ (n : ℤ) (rest : Str),
      (stamped n rest).takeWhile (fun b => decide (b ≠ 46)) = itoa n := by
    intro n rest
    rw [hdot, takeWhile_append_of_pos, takeWhile_cons_of_neg (by simp), append_nil]
    intro b hb
    exact decide_eq_true fun hb46 => dot_notMem_itoa n (hb46 ▸ hb)
  obtain rfl : ts = t := by
    apply itoa_injective
    rw [← hfront ts sent, h, hfront]
  rw [hdot, hdot] at h
  exact ⟨rfl, (List.cons.inj (append_cancel_left h)).2⟩

/-- The computed distance of a timestamp that is far away is small only by an overflow: the real one
is close to a multiple of 2^64, or it is 2^63, whose negative does not exist. -/
theorem drift_le_iff {unix t : ℤ} (hfar : signatureMaxAge < |unix - t|) :
    drift unix t ≤ signatureMaxAge ↔
      (unix - t) % 2 ^ 64 = 2 ^ 63 ∨ ∃ k : ℤ, k ≠ 0 ∧
        |unix - t - k * 2 ^ 64| ≤ signatureMaxAge := by
  simp only [drift, wrapInt64, signatureMaxAge, lt_abs, abs_le] at hfar ⊢
  constructor
  · intro h
    by_cases hhalf : (unix - t) % 2 ^ 64 = 2 ^ 63
    · exact .inl hhalf
    · exact .inr ⟨(unix - t + 300) / 2 ^ 64, by omega, by omega, by omega⟩
  · rintro (hhalf | ⟨k, hk, hlow, hhigh⟩)
    · omega
    · omega

/-- The distance of a timestamp is not within the window, and the computed one is. -/
def DriftWraps (unix ts : ℤ) : Prop :=
  (unix - ts) % 2 ^ 64 = 2 ^ 63 ∨ ∃ k : ℤ, k ≠ 0 ∧ |unix - ts - k * 2 ^ 64| ≤ signatureMaxAge

/-- A request with the right code is accepted only within the window, unless the distance of its
timestamp overflows. -/
theorem timestamp_window_iff {header tsHeader : Str} {ts now : ℤ}
    (hts : atoi (trimSpace tsHeader) = some ts)
    (hsig : parseSignatureHeader header = some (mac secret (stamped ts body))) :
    (verifyTimestampedSignature mac body secret header tsHeader now = .ok () →
      |now / 1000000000 - ts| ≤ signatureMaxAge) ↔ ¬ DriftWraps (now / 1000000000) ts := by
  rw [verifyTimestampedSignature_eq_ok_iff hsig]
  by_cases hfar : signatureMaxAge < |now / 1000000000 - ts|
  · simp [hts, drift_le_iff hfar, not_le.mpr hfar, DriftWraps]
  · refine ⟨fun _ => ?_, fun _ _ => not_lt.mp hfar⟩
    -- a distance within the window is not close to another multiple of 2^64
    rw [not_lt] at hfar
    simp only [DriftWraps, signatureMaxAge, abs_le] at hfar ⊢
    omega

/-- The code of a timestamp and a body, presented as that of a delivery under a new id. -/
def Crosses (t : ℤ) (body : Str) (now : ℤ) (seen : DeliveryCache) (r : Request) : Prop :=
  r.header (str "X-Timestamp") = [] ∧ platformDeliveryID r ≠ [] ∧ r.body = stamped t body ∧
    ∀ ts, seen[platformDeliveryID r]? = some ts → deliveryDedupWindow ≤ now - ts

/-- The timestamp and the body themselves, at a distance that overflows. -/
def Overflows (t : ℤ) (body : Str) (now : ℤ) (r : Request) : Prop :=
  atoi (trimSpace (r.header (str "X-Timestamp"))) = some t ∧ r.body = body ∧
    ((now / 1000000000 - t) % 2 ^ 64 = 2 ^ 63 ∨
      ∃ k : ℤ, k ≠ 0 ∧ |now / 1000000000 - t - k * 2 ^ 64| ≤ signatureMaxAge)

/-- A request with the code of a timestamp and a body passes. -/
theorem requireAuth_stamped_iff (hsecret : secret ≠ []) {t now : ℤ}
    (hsig : parseSignatureHeader (r.header (str "X-Hub-Signature-256")) =
      some (mac secret (stamped t body)))
    (hforge : Unforged mac secret (stamped t body) r)
    (hfar : signatureMaxAge < |now / 1000000000 - t|) :
    (requireAuth mac secret r now seen).1 = none ↔
      Overflows t body now r ∨ Crosses t body now seen r := by
  rw [requireAuth_passes_iff hsecret hsig]
  constructor
  · rintro (⟨ts, hts, hdrift, hmac⟩ | ⟨hts, hid, hmac, hnew⟩)
    · obtain ⟨rfl, hbody⟩ := stamped_inj (hforge.stamped_eq hts hmac)
      exact .inl ⟨hts, hbody, (drift_le_iff hfar).mp hdrift⟩
    · exact .inr ⟨hts, hid, hforge.body_eq hmac, record_fst_iff.mp hnew⟩
  · rintro (⟨hts, rfl, hdrift⟩ | ⟨hts, hid, hbody, hnew⟩)
    · exact .inl ⟨t, hts, (drift_le_iff hfar).mpr hdrift, rfl⟩
    · exact .inr ⟨hts, hid, by rw [hbody], record_fst_iff.mpr hnew⟩

/-- No request with the headers and the body of this one is accepted, to whatever path it is sent
and whatever the state of the server is otherwise. -/
def Refused (mac : Str → Str → List UInt8) (secret : Str) (r : Request) (now : ℤ)
    (seen : DeliveryCache) : Prop :=
  ∀ method path site,
    (serve mac secret { r with method := method, path := path } site now seen).1 ≠ .accepted

/-- The code of a timestamp that is too old or too new is refused, unless it is presented as that of
a delivery whose body begins with the timestamp, or the distance of the timestamp overflows. -/
theorem stamped_signature_expires_iff (hsecret : secret ≠ []) {t now : ℤ} {seen : DeliveryCache}
    {r : Request}
    (hsig : parseSignatureHeader (r.header (str "X-Hub-Signature-256")) =
      some (mac secret (stamped t body)))
    (hforge : Unforged mac secret (stamped t body) r)
    (hfar : signatureMaxAge < |now / 1000000000 - t|) :
    Refused mac secret r now seen ↔
      ¬ (r.body.length ≤ maxBodySize ∧ (Overflows t body now r ∨ Crosses t body now seen r)) := by
  have hpass : ∀ method path,
      (requireAuth mac secret { r with method := method, path := path } now seen).1 = none ↔
        Overflows t body now r ∨ Crosses t body now seen r := fun method path =>
    requireAuth_stamped_iff (r := { r with method := method, path := path }) hsecret hsig hforge
      hfar
  constructor
  · rintro hrefused ⟨hsize, hway⟩
    exact hrefused _ _ freeSite (accepted_iff.mpr ⟨open_trigger r.header hsize,
      (hpass _ _).mpr hway⟩)
  · intro hnot method path site haccepted
    obtain ⟨hopen, hauth⟩ := accepted_iff.mp haccepted
    exact hnot ⟨hopen.size, (hpass method path).mp hauth⟩

/-- The headers of a request with a timestamp. -/
def stampedHeaders (ts name : Str) : Str :=
  if name = str "X-Hub-Signature-256" then str "sha256=" ++ hexEncode digest
  else if name = str "X-Timestamp" then ts
  else []

/-- A request with a timestamp and its code. -/
def stampedRequest (ts : ℤ) (body : Str) : Request :=
  trigger (stampedHeaders (plainCode (str "key") (stamped ts body)) (itoa ts)) body

private theorem signature_stampedRequest : parseSignatureHeader
    ((stampedRequest 0 (str "run")).header (str "X-Hub-Signature-256")) =
      some (plainCode (str "key") (stamped 0 (str "run"))) := by decide

/-- A request that is accepted in the last second of its window. -/
theorem timestamp_window_last_second :
    verifyTimestampedSignature plainCode (str "run") (str "key")
        ((stampedRequest 0 (str "run")).header (str "X-Hub-Signature-256")) (itoa 0)
        300999999999 = .ok () ∧
      |(300999999999 : ℤ) / 1000000000 - 0| ≤ signatureMaxAge := by
  have hts : atoi (trimSpace (itoa 0)) = some 0 := by decide
  have haccepted : verifyTimestampedSignature plainCode (str "run") (str "key")
      ((stampedRequest 0 (str "run")).header (str "X-Hub-Signature-256")) (itoa 0)
      300999999999 = .ok () := by decide
  refine ⟨haccepted, (timestamp_window_iff hts signature_stampedRequest).mpr ?_ haccepted⟩
  simp only [DriftWraps, signatureMaxAge, abs_le]
  omega

/-- The lowest timestamp is accepted at the beginning of the epoch. -/
theorem not_timestamp_window :
    verifyTimestampedSignature plainCode (str "run") (str "key")
        ((stampedRequest (-2 ^ 63) (str "run")).header (str "X-Hub-Signature-256"))
        (itoa (-2 ^ 63)) 0 = .ok () ∧
      signatureMaxAge < |(0 : ℤ) / 1000000000 - (-2 ^ 63)| := by
  decide

/-- A request with a timestamp, repeated a second too late. -/
theorem stamped_signature_expires_late :
    Refused plainCode (str "key") (stampedRequest 0 (str "run")) (301 * 1000000000) ∅ := by
  refine (stamped_signature_expires_iff (by decide) signature_stampedRequest
    (unforged_plainCode _ _ _) (by decide)).mpr ?_
  rintro ⟨-, ⟨-, -, hoverflow⟩ | ⟨hts, -⟩⟩
  · simp only [signatureMaxAge, abs_le] at hoverflow
    omega
  · exact absurd hts (by decide)

/-- The code of a timestamp and a body is accepted years later as that of a delivery, and at once as
that of a timestamp which is 2^63 seconds away. -/
theorem not_stamped_signature_expires :
    (signatureMaxAge < |(10 : ℤ) ^ 18 / 1000000000 - 0| ∧
      (serve plainCode (str "key")
        (trigger (deliveryHeaders (plainCode (str "key") (stamped 0 (str "run"))) (str "fresh"))
          (stamped 0 (str "run"))) freeSite (10 ^ 18) ∅).1 = .accepted) ∧
    signatureMaxAge < |(0 : ℤ) / 1000000000 - (-2 ^ 63)| ∧
      (serve plainCode (str "key") (stampedRequest (-2 ^ 63) (str "run")) freeSite 0 ∅).1 =
        .accepted := by
  decide

end Webhook
