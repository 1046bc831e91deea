import Aflare.Go.Clock
import Aflare.Go.Crypto
import Aflare.Go.JsonLines
import Aflare.Go.Spaces

/-!
# Audit records

The records of the audit log, their JSON lines and their hashes. Every record carries the hash of
the one before it and a message authentication code over that hash and its own content.
-/

namespace History

open Go List

/-- Why an audit record cannot be appended or checked. -/
inductive AuditError
  | hasHash
  | unknownMAC
  | invalidAlgo
  | parse
  | legacy
  | tooLong
  | emptyKeyFile
  | keyUnavailable
  | noCandidates
  deriving DecidableEq, Repr

/-- The hash that the first record of a chain refers to. -/
def auditZeroHash : Str := List.replicate 64 48

theorem isHex64_auditZeroHash : IsHex64 auditZeroHash :=
  ⟨rfl, fun b hb => by rw [eq_of_mem_replicate hb]; decide⟩

structure AuditLog where
  id : Str
  timestamp : ZonedTime
  action : Str
  user : Str
  resource : Str
  detail : Str
  success : Bool
  ip : Str
  userAgent : Str
  prevHash : Str
  currHash : Str
  macAlgo : Str
  deriving DecidableEq

variable {r : AuditLog}

namespace AuditLog

/-! ## JSON -/

def zero : AuditLog := ⟨[], .zero, [], [], [], [], false, [], [], [], [], []⟩

/-- The members of the JSON object of a record. -/
def members (r : AuditLog) : List (Str × Value) :=
  [(str "id", .str r.id), (str "timestamp", .str r.timestamp.text),
      (str "action", .str r.action)] ++
    (omitEmpty (str "user") r.user ++
      (omitEmpty (str "resource") r.resource ++
        (omitEmpty (str "detail") r.detail ++
          ([(str "success", .bool r.success)] ++
            (omitEmpty (str "ip") r.ip ++
              (omitEmpty (str "user_agent") r.userAgent ++
                (omitEmpty (str "prev_hash") r.prevHash ++
                  (omitEmpty (str "curr_hash") r.currHash ++
                    omitEmpty (str "mac_algo") r.macAlgo))))))))

def fields : List (StructField AuditLog) :=
  [.of (str "id") id (fun r x => { r with id := x }) decodeString,
    .of (str "timestamp") timestamp (fun r x => { r with timestamp := x }) decodeZonedTime,
    .of (str "action") action (fun r x => { r with action := x }) decodeString,
    .of (str "user") user (fun r x => { r with user := x }) decodeString,
    .of (str "resource") resource (fun r x => { r with resource := x }) decodeString,
    .of (str "detail") detail (fun r x => { r with detail := x }) decodeString,
    .of (str "success") success (fun r x => { r with success := x }) decodeBool,
    .of (str "ip") ip (fun r x => { r with ip := x }) decodeString,
    .of (str "user_agent") userAgent (fun r x => { r with userAgent := x }) decodeString,
    .of (str "prev_hash") prevHash (fun r x => { r with prevHash := x }) decodeString,
    .of (str "curr_hash") currHash (fun r x => { r with currHash := x }) decodeString,
    .of (str "mac_algo") macAlgo (fun r x => { r with macAlgo := x }) decodeString]

/-- `json.Marshal` of a record. -/
def marshal (r : AuditLog) : Str := (Value.obj r.members).marshal

/-- `json.Unmarshal` into a fresh record. -/
def unmarshal (bytes : Str) : Option AuditLog := (Value.parse bytes).bind (decodeStruct fields zero)

/-- A record after a round trip through JSON. -/
def clean (r : AuditLog) : AuditLog where
  id := coerce r.id
  timestamp := r.timestamp.wholeMinutes
  action := coerce r.action
  user := coerce r.user
  resource := coerce r.resource
  detail := coerce r.detail
  success := r.success
  ip := coerce r.ip
  userAgent := coerce r.userAgent
  prevHash := coerce r.prevHash
  currHash := coerce r.currHash
  macAlgo := coerce r.macAlgo

theorem shallow_members (r : AuditLog) : ∀ m ∈ r.members, m.2.Shallow := by
  simp only [members, omitEmpty, forall_mem_append, forall_mem_cons]
  simp

/-- What is read back from the line of a record is the clean record. -/
theorem unmarshal_marshal (r : AuditLog) : unmarshal r.marshal = some r.clean := by
  rw [unmarshal, marshal, Value.marshal, Value.parse_render_obj .compact (shallow_members r),
    Option.bind_some]
  change decodeMembers fields zero (Value.coerceMembers r.members) = some r.clean
  simp only [members, coerceMembers_append, Value.coerceMembers, cons_append, nil_append]
  -- the members fill the fields in order; those left out keep the zero value
  refine (decodeMembers_cons rfl rfl _).trans ?_
  refine (decodeMembers_cons rfl (decodeZonedTime_coerce _ _) _).trans ?_
  refine (decodeMembers_cons rfl rfl _).trans ?_
  iterate 3 refine (decodeMembers_omitEmpty rfl rfl _ _).trans ?_
  refine (decodeMembers_cons rfl rfl _).trans ?_
  iterate 4 refine (decodeMembers_omitEmpty rfl rfl _ _).trans ?_
  refine (decodeMembers_omitEmpty_last rfl rfl _).trans ?_
  rfl

/-! ## Which texts a round trip keeps -/

/-- The texts of a record are valid UTF-8, and its zone is written in the same way after a round
trip. The hashes and the name of the algorithm are left out, since the log sets them itself. -/
@[mk_iff]
structure KeepsText (r : AuditLog) : Prop where
  id : ValidUtf8 r.id
  timestamp : r.timestamp.KeepsText
  action : ValidUtf8 r.action
  user : ValidUtf8 r.user
  resource : ValidUtf8 r.resource
  detail : ValidUtf8 r.detail
  ip : ValidUtf8 r.ip
  userAgent : ValidUtf8 r.userAgent

instance (r : AuditLog) : Decidable r.KeepsText := decidable_of_iff' _ (keepsText_iff r)

/-- The hashes of a record are in hexadecimal form, and its algorithm is one that an append
chooses. -/
structure Written (r : AuditLog) : Prop where
  prevHash : IsHex64 r.prevHash
  currHash : IsHex64 r.currHash
  macAlgo : r.macAlgo = [] ∨ r.macAlgo = str "sm3"

theorem Written.validUtf8_macAlgo (h : r.Written) : ValidUtf8 r.macAlgo := by
  rcases h.macAlgo with hmac | hmac <;> rw [hmac]
  · exact validUtf8_nil
  · exact coerce_eq_self_iff.mp rfl

/-- A time is not written at greater length after a round trip, and at the same length only if
that keeps its text. -/
theorem length_escape_wholeMinutes (t : ZonedTime) :
    (escape t.wholeMinutes.text).length ≤ (escape t.text).length ∧
      ((escape t.wholeMinutes.text).length = (escape t.text).length → t.KeepsText) := by
  by_cases h : t.KeepsText
  · exact ⟨by rw [h.text_wholeMinutes], fun _ => h⟩
  · obtain ⟨front, hfront, htext, hround⟩ := ZonedTime.text_of_not_keepsText h
    have hlong : (escape (str "+00:00")).length = 6 := by decide
    have hshort : (escape (str "Z")).length = 1 := by decide
    rw [htext, hround, escape_append hfront, escape_append hfront, length_append,
      length_append, hlong, hshort]
    exact ⟨by omega, by omega⟩

theorem length_marshal (r : AuditLog) :
    r.marshal.length =
      memberLength (str "id", .str r.id) + memberLength (str "timestamp", .str r.timestamp.text) +
        memberLength (str "action", .str r.action) + omitLength (str "user") r.user +
        omitLength (str "resource") r.resource + omitLength (str "detail") r.detail +
        memberLength (str "success", .bool r.success) + omitLength (str "ip") r.ip +
        omitLength (str "user_agent") r.userAgent + omitLength (str "prev_hash") r.prevHash +
        omitLength (str "curr_hash") r.currHash + omitLength (str "mac_algo") r.macAlgo + 1 := by
  rw [marshal, length_marshal_obj (by simp [members])]
  simp only [members, map_append, map_cons, map_nil, sum_append, sum_cons, sum_nil, omitLength]
  omega

/-- A record is written in the same way after a round trip exactly if that keeps its texts. -/
theorem marshal_clean_iff (hprev : ValidUtf8 r.prevHash) (hcurr : ValidUtf8 r.currHash)
    (hmac : ValidUtf8 r.macAlgo) : r.clean.marshal = r.marshal ↔ r.KeepsText := by
  constructor
  · -- nothing is written at greater length than before, so that equal lines have equal parts
    intro heq
    have hlength := congrArg List.length heq
    rw [length_marshal, length_marshal] at hlength
    have hid := length_escape_coerce r.id
    have htime := length_escape_wholeMinutes r.timestamp
    have haction := length_escape_coerce r.action
    have huser := omitLength_coerce (str "user") r.user
    have hresource := omitLength_coerce (str "resource") r.resource
    have hdetail := omitLength_coerce (str "detail") r.detail
    have hip := omitLength_coerce (str "ip") r.ip
    have huserAgent := omitLength_coerce (str "user_agent") r.userAgent
    simp only [clean, hprev.coerce_eq, hcurr.coerce_eq, hmac.coerce_eq, memberLength, Value.render,
      quote, length_cons, length_append] at hlength
    exact ⟨hid.2 (by omega), htime.2 (by omega), haction.2 (by omega), huser.2 (by omega),
      hresource.2 (by omega), hdetail.2 (by omega), hip.2 (by omega), huserAgent.2 (by omega)⟩
  · intro h
    simp only [marshal, members, clean, h.id.coerce_eq, h.timestamp.text_wholeMinutes,
      h.action.coerce_eq, h.user.coerce_eq, h.resource.coerce_eq, h.detail.coerce_eq,
      h.ip.coerce_eq, h.userAgent.coerce_eq, hprev.coerce_eq, hcurr.coerce_eq, hmac.coerce_eq]

/-! ## What a line determines -/

/-- What the text of a string does not show: the string, if it is not valid UTF-8. -/
def hiddenText (s : Str) : Option Str := if ValidUtf8 s then none else some s

/-- What the line of a record does not show: texts that are not valid UTF-8, and the seconds of the
offset of its zone. -/
def hidden (r : AuditLog) : List (Option Str) × ℤ :=
  ([r.id, r.action, r.user, r.resource, r.detail, r.ip, r.userAgent, r.prevHash, r.currHash,
    r.macAlgo].map hiddenText, r.timestamp.offset.tmod 60)

private theorem eq_of_coerce_eq {s s' : Str} (hcoerce : coerce s = coerce s')
    (hhidden : hiddenText s = hiddenText s') : s = s' := by
  unfold hiddenText at hhidden
  split at hhidden
  · rename_i hs
    split at hhidden
    · rename_i hs'
      rwa [hs.coerce_eq, hs'.coerce_eq] at hcoerce
    · cases hhidden
  · split at hhidden
    · cases hhidden
    · exact Option.some.inj hhidden

private theorem eq_of_wholeMinutes_eq {t t' : ZonedTime} (h : t.wholeMinutes = t'.wholeMinutes)
    (hseconds : t.offset.tmod 60 = t'.offset.tmod 60) : t = t' := by
  have hclock := congrArg ZonedTime.clock h
  have hfrac := congrArg ZonedTime.frac h
  have hoffset := congrArg ZonedTime.offset h
  simp only [ZonedTime.wholeMinutes] at hclock hfrac hoffset
  have hsplit := Int.mul_tdiv_add_tmod t.offset 60
  have hsplit' := Int.mul_tdiv_add_tmod t'.offset 60
  cases t
  cases t'
  simp only [ZonedTime.mk.injEq]
  exact ⟨hclock, hfrac, by simp only at hsplit hsplit' hseconds hoffset; omega⟩

/-- Records with the same line are the same, apart from what the line does not show. -/
theorem eq_of_marshal_eq {r' : AuditLog} (h : r.marshal = r'.marshal)
    (hhidden : r.hidden = r'.hidden) : r = r' := by
  have hclean : r.clean = r'.clean := by
    have hread := congrArg unmarshal h
    rw [unmarshal_marshal, unmarshal_marshal] at hread
    exact Option.some.inj hread
  cases r
  cases r'
  simp only [clean, AuditLog.mk.injEq] at hclean
  simp only [hidden, map_cons, map_nil, Prod.mk.injEq, List.cons.injEq] at hhidden
  obtain ⟨hid, htime, haction, huser, hresource, hdetail, hsuccess, hip, hagent, hprev, hcurr,
    hmac⟩ := hclean
  obtain ⟨⟨gid, gaction, guser, gresource, gdetail, gip, gagent, gprev, gcurr, gmac, -⟩,
    gtime⟩ := hhidden
  simp only [AuditLog.mk.injEq]
  exact ⟨eq_of_coerce_eq hid gid, eq_of_wholeMinutes_eq htime gtime,
    eq_of_coerce_eq haction gaction, eq_of_coerce_eq huser guser,
    eq_of_coerce_eq hresource gresource, eq_of_coerce_eq hdetail gdetail, hsuccess,
    eq_of_coerce_eq hip gip, eq_of_coerce_eq hagent gagent, eq_of_coerce_eq hprev gprev,
    eq_of_coerce_eq hcurr gcurr, eq_of_coerce_eq hmac gmac⟩

/-! ## Lines -/

theorem Written.plainMembers (h : r.Written) : PlainMembers r.members := by
  have hcurr : (123 : UInt8) ∉ escape r.currHash := brace_not_mem_escape fun hmem =>
    absurd (h.currHash.2 _ hmem) (by decide)
  have hmac : (123 : UInt8) ∉ escape r.macAlgo := by
    rcases h.macAlgo with hmac | hmac <;> rw [hmac] <;> decide
  have hlast : PlainMembers (omitEmpty (str "mac_algo") r.macAlgo) := by
    rw [← append_nil (omitEmpty _ _)]
    exact PlainMembers.omitEmpty_append (by decide) (fun _ => hmac) trivial
  have hne : omitEmpty (str "curr_hash") r.currHash ++ omitEmpty (str "mac_algo") r.macAlgo ≠
      [] := by
    simp [omitEmpty, h.currHash.ne_nil]
  have hhashes : PlainMembers (omitEmpty (str "prev_hash") r.prevHash ++
      (omitEmpty (str "curr_hash") r.currHash ++ omitEmpty (str "mac_algo") r.macAlgo)) := by
    refine PlainMembers.omitEmpty_append (by decide) (fun hnil => absurd hnil hne) ?_
    exact PlainMembers.omitEmpty_append (by decide) (fun _ => hcurr) hlast
  refine PlainMembers.cons_str (by decide) (by simp) ?_
  refine PlainMembers.cons_str (by decide) (by simp) ?_
  refine PlainMembers.cons_str (by decide) (by simp) ?_
  refine PlainMembers.omitEmpty_append (by decide) (fun hnil => absurd hnil (by simp)) ?_
  refine PlainMembers.omitEmpty_append (by decide) (fun hnil => absurd hnil (by simp)) ?_
  refine PlainMembers.omitEmpty_append (by decide) (fun hnil => absurd hnil (by simp)) ?_
  refine PlainMembers.cons_bool (by decide) ?_
  refine PlainMembers.omitEmpty_append (by decide) (fun hnil => ?_) ?_
  · exact absurd (append_eq_nil_iff.mp (append_eq_nil_iff.mp hnil).2).2 hne
  refine PlainMembers.omitEmpty_append (by decide) (fun hnil => ?_) hhashes
  exact absurd (append_eq_nil_iff.mp hnil).2 hne

theorem Written.newline_not_mem (h : r.Written) : (10 : UInt8) ∉ r.marshal :=
  fun hmem => absurd (printable_marshal h.plainMembers 10 hmem) (by decide)

theorem marshal_braces (r : AuditLog) : ∃ body, r.marshal = 123 :: (body ++ [125]) :=
  marshal_obj_braces r.members

theorem marshal_ne_nil (r : AuditLog) : r.marshal ≠ [] := by
  obtain ⟨body, hbody⟩ := r.marshal_braces
  simp [hbody]

theorem trimSpace_marshal (r : AuditLog) : trimSpace r.marshal = r.marshal := by
  obtain ⟨body, hbody⟩ := r.marshal_braces
  rw [hbody]
  exact trimSpace_of_solid (by decide) (by decide) body

theorem dropCR_marshal (r : AuditLog) : dropCR r.marshal = r.marshal := by
  obtain ⟨body, hbody⟩ := r.marshal_braces
  have hlast : r.marshal.getLast? = some 125 := by
    rw [hbody, ← cons_append, getLast?_concat]
  simp [dropCR, hlast]

theorem Written.unmarshal_suffix (h : r.Written) {a t : Str} (ha : a ≠ []) (ht : t ≠ [])
    (hsuffix : r.marshal = a ++ t) : trimSpace t ≠ [] ∧ unmarshal (trimSpace t) = none := by
  obtain ⟨u, rfl⟩ : ∃ u, t = u ++ [125] := by
    obtain ⟨body, hbody⟩ := r.marshal_braces
    have hlast := congrArg List.getLast? (hsuffix.symm.trans hbody)
    rw [getLast?_append_of_ne_nil _ ht, ← cons_append, getLast?_concat] at hlast
    exact ⟨t.dropLast, (dropLast_append_getLast? 125 hlast).symm⟩
  obtain ⟨v, hv, w, rfl⟩ := trimSpace_append_solid (c := 125) (by decide) u
  have hwhole : (Value.obj r.members).marshal = (a ++ w) ++ (v ++ [125]) := by
    change r.marshal = _
    rw [hsuffix, append_assoc, append_assoc]
  rw [hv]
  exact ⟨by simp, decodeStruct_suffix fields zero h.plainMembers (by simp [ha]) hwhole⟩

end AuditLog

/-! ## Hashes -/

/-- `auditHash`: the hash function that a record names. -/
def hashAlgo (macAlgo : Str) : Option HashAlgo :=
  if macAlgo = [] ∨ macAlgo = str "sha256" then some .sha256
  else if macAlgo = str "sm3" then some .sm3
  else none

def computeAuditHash (c : Crypto) (secret : Str) (entry : AuditLog) : Except AuditError Str :=
  if entry.currHash ≠ [] then .error .hasHash
  else
    match hashAlgo entry.macAlgo with
    | none => .error .unknownMAC
    | some algo => .ok (c.hmac algo secret (entry.prevHash ++ entry.marshal))

namespace AuditLog

/-- What the hash of a record is computed from. -/
def message (r : AuditLog) : Str := r.prevHash ++ { r with currHash := [] }.marshal

end AuditLog

theorem computeAuditHash_cleared (c : Crypto) (secret : Str) (r : AuditLog) :
    computeAuditHash c secret { r with currHash := [] } =
      match hashAlgo r.macAlgo with
      | none => .error .unknownMAC
      | some algo => .ok (c.hmac algo secret r.message) := by
  simp only [computeAuditHash, ne_eq, not_true_eq_false, if_false]
  rfl

end History
