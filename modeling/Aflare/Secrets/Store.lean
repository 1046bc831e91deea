import Aflare.Go.Encoding
import Aflare.Go.Text

/-!
# The secrets store

Groups of secrets are written as one encrypted file. The file says how it was encrypted: by a header
with the cipher and the key derivation, by a shorter one with the cipher alone, or by none at all,
and then it starts with the salt. Which of the three is written follows from the cipher and the key
derivation that are configured when the store is saved; when it is loaded, the file decides.

Key derivation and the ciphers are parameters. All that is assumed of them is that a cipher opens
what it has sealed. The random bytes, the environment and the file are arguments. -/

namespace Secrets

open Go List Option

/-! ## Groups -/

structure Secret where
  key : Str
  value : Str
  type : Str
  description : Str
  createdAt : Time
  updatedAt : Time

/-- `SecretGroup`; the map may be nil. -/
structure SecretGroup where
  name : Str
  secrets : Option (GoMap Str Secret)

/-- The groups of a store; a pointer to a group may be nil. -/
abbrev Groups := GoMap Str (Option SecretGroup)

/-- The texts of a secret are valid UTF-8. -/
def Secret.Valid (s : Secret) : Prop :=
  ValidUtf8 s.key ∧ ValidUtf8 s.value ∧ ValidUtf8 s.type ∧ ValidUtf8 s.description

/-- The texts of a group are valid UTF-8. -/
def SecretGroup.Valid (g : SecretGroup) : Prop :=
  ValidUtf8 g.name ∧ ∀ m ∈ g.secrets, m.Forall fun k s => ValidUtf8 k ∧ s.Valid

/-- The texts of all groups are valid UTF-8. -/
def ValidGroups (groups : Groups) : Prop :=
  groups.Forall fun k g => ValidUtf8 k ∧ ∀ group ∈ g, group.Valid

/-! ## JSON -/

section MapJson

variable {T : Type}

/-- A map with texts as keys; a nil map is `null`. -/
def mapJson (toJson : T → Value) : Option (GoMap Str T) → Value
  | none => .null
  | some m => .obj (m.toList.map fun e => (e.1, toJson e.2))

/-- Decode the members of an object into the entries of a map. -/
def decodeEntriesOf (dec : Value → Option T) :
    GoMap Str T → List (Str × Value) → Option (GoMap Str T)
  | m, [] => some m
  | m, member :: members =>
    (dec member.2).bind fun x => decodeEntriesOf dec (m.insert member.1 x) members

def decodeMapOf (dec : Value → Option T) (cur : Option (GoMap Str T)) :
    Value → Option (Option (GoMap Str T))
  | .null => some none
  | .obj members => (decodeEntriesOf dec (cur.getD ∅) members).map some
  | _ => none

/-- The value is written without too much nesting, and read back as `x`. -/
structure ReadsAs (v : Value) (d : ℕ) (dec : Value → Option T) (x : T) : Prop where
  wellFormed : v.WellFormed
  depth_le : v.depth ≤ d
  decode : dec v.coerce = some x

variable {dec : Value → Option T} {toJson : T → Value}

theorem decodeEntriesOf_map {entries : List (Str × T)}
    (h : ∀ e ∈ entries, ValidUtf8 e.1 ∧ dec (toJson e.2).coerce = some e.2) (m : GoMap Str T) :
    decodeEntriesOf dec m (Value.coerceMembers (entries.map fun e => (e.1, toJson e.2))) =
      some (m.assignAll entries) := by
  induction entries generalizing m with
  | nil => rfl
  | cons e entries ih =>
    obtain ⟨hkey, hvalue⟩ := h e mem_cons_self
    have hrest := ih (forall_mem_of_forall_mem_cons h) (m.insert e.1 e.2)
    rw [coerceMembers_eq_map] at hrest ⊢
    simp only [map_cons, decodeEntriesOf, hvalue, hkey.coerce_eq, bind_some, hrest]
    rfl

/-- A map is read back if its entries are. -/
theorem readsAs_mapJson {d : ℕ} {m : Option (GoMap Str T)}
    (h : ∀ m' ∈ m, m'.Forall fun k x => ValidUtf8 k ∧ ReadsAs (toJson x) d dec x) :
    ReadsAs (mapJson toJson m) (d + 1) (decodeMapOf dec none) m := by
  cases m with
  | none => exact ⟨trivial, by simp [mapJson, Value.depth], rfl⟩
  | some m =>
    have hentries : ∀ e ∈ m.toList, ValidUtf8 e.1 ∧ ReadsAs (toJson e.2) d dec e.2 := fun e he =>
      h m rfl e.1 e.2 (Std.ExtTreeMap.mem_toList_iff_getElem?_eq_some.mp he)
    refine ⟨Value.wellFormedMembers_iff.mpr ?_, Nat.succ_le_succ (Value.depthMembers_le_iff.mpr ?_),
      ?_⟩
    · exact forall_mem_map.mpr fun e he => (hentries e he).2.wellFormed
    · exact forall_mem_map.mpr fun e he => (hentries e he).2.depth_le
    · have hdecode := decodeEntriesOf_map
        (fun e he => ⟨(hentries e he).1, (hentries e he).2.decode⟩) (∅ : GoMap Str T)
      rw [GoMap.assignAll_toList_empty] at hdecode
      simp only [mapJson, Value.coerce, decodeMapOf, getD_none, hdecode, map_some]

end MapJson

def Secret.members (s : Secret) : List (Str × Value) :=
  [(str "key", .str s.key), (str "value", .str s.value), (str "type", .str s.type)] ++
    omitEmpty (str "description") s.description ++
    [(str "created_at", .str s.createdAt.text), (str "updated_at", .str s.updatedAt.text)]

def secretFields : List (StructField Secret) :=
  [.of (str "key") Secret.key (fun s x => { s with key := x }) decodeString,
    .of (str "value") Secret.value (fun s x => { s with value := x }) decodeString,
    .of (str "type") Secret.type (fun s x => { s with type := x }) decodeString,
    .of (str "description") Secret.description
      (fun s x => { s with description := x }) decodeString,
    .of (str "created_at") Secret.createdAt (fun s x => { s with createdAt := x }) decodeTime,
    .of (str "updated_at") Secret.updatedAt (fun s x => { s with updatedAt := x }) decodeTime]

def zeroSecret : Secret := ⟨[], [], [], [], .zero, .zero⟩

theorem readsAs_secret {s : Secret} (h : s.Valid) :
    ReadsAs (.obj s.members) 2 (decodeStruct secretFields zeroSecret) s := by
  have hshallow : ∀ m ∈ s.members, m.2.Shallow := by
    simp only [Secret.members, omitEmpty, forall_mem_append, forall_mem_cons]
    simp
  refine ⟨Value.wellFormed_obj hshallow,
    Nat.succ_le_succ (Value.depthMembers_le_iff.mpr fun m hm => (hshallow m hm).2), ?_⟩
  obtain ⟨hkey, hvalue, htype, hdescription⟩ := h
  simp only [Value.coerce, decodeStruct, Secret.members, coerceMembers_append, append_assoc]
  iterate 3 refine (decodeMembers_cons rfl rfl _).trans ?_
  refine (decodeMembers_omitEmpty rfl rfl _ _).trans ?_
  iterate 2 refine (decodeMembers_cons rfl (decodeTime_coerce _ _) _).trans ?_
  simp [decodeMembers, Value.coerceMembers, hkey.coerce_eq, hvalue.coerce_eq, htype.coerce_eq,
    hdescription.coerce_eq]

def groupJson : Option SecretGroup → Value
  | none => .null
  | some g => .obj [(str "name", .str g.name),
      (str "secrets", mapJson (fun s : Secret => .obj s.members) g.secrets)]

def groupFields : List (StructField SecretGroup) :=
  [.of (str "name") SecretGroup.name (fun g x => { g with name := x }) decodeString,
    .of (str "secrets") SecretGroup.secrets (fun g x => { g with secrets := x })
      (decodeMapOf (decodeStruct secretFields zeroSecret))]

/-- Decode into a pointer to a group. -/
def decodeGroup : Value → Option (Option SecretGroup)
  | .null => some none
  | v => (decodeStruct groupFields ⟨[], none⟩ v).map some

theorem readsAs_group {g : Option SecretGroup} (h : ∀ group ∈ g, group.Valid) :
    ReadsAs (groupJson g) 4 decodeGroup g := by
  cases g with
  | none => exact ⟨trivial, by simp [groupJson, Value.depth], rfl⟩
  | some g =>
    obtain ⟨hname, hsecrets⟩ := h g rfl
    obtain ⟨hwellFormed, hdepth, hdecode⟩ := readsAs_mapJson fun m hm k s hget =>
      ⟨(hsecrets m hm k s hget).1, readsAs_secret (hsecrets m hm k s hget).2⟩
    refine ⟨⟨trivial, hwellFormed, trivial⟩, ?_, ?_⟩
    · simp only [groupJson, Value.depth, Value.depthMembers]
      omega
    · have hmembers : decodeStruct groupFields ⟨[], none⟩ (groupJson (some g)).coerce = some g := by
        simp only [groupJson, Value.coerce, decodeStruct]
        refine (decodeMembers_cons rfl rfl _).trans ?_
        refine (decodeMembers_cons rfl hdecode _).trans ?_
        simp [decodeMembers, Value.coerceMembers, hname.coerce_eq]
      have hobj : decodeGroup (groupJson (some g)).coerce =
          (decodeStruct groupFields ⟨[], none⟩ (groupJson (some g)).coerce).map some := rfl
      rw [hobj, hmembers, map_some]

/-- What the file of a store holds, before it is encrypted. -/
def plaintext (groups : Groups) : Str :=
  (Value.obj [(str "groups", mapJson groupJson (some groups))]).marshalIndent

def storedFields : List (StructField (Option Groups)) :=
  [.of (str "groups") id (fun _ x => x) (decodeMapOf decodeGroup)]

/-- `json.Unmarshal` of the stored groups; without groups the map stays empty. -/
def readGroups (text : Str) : Option Groups :=
  ((Value.parse text).bind (decodeStruct storedFields none)).map fun groups => groups.getD ∅

variable {groups : Groups}

/-- The groups are read back from their plain text. -/
theorem readGroups_plaintext (h : ValidGroups groups) :
    readGroups (plaintext groups) = some groups := by
  have hgroups : ReadsAs (mapJson groupJson (some groups)) 5 (decodeMapOf decodeGroup none)
      (some groups) := readsAs_mapJson fun m hm k g hget => by
    cases hm
    exact ⟨(h k g hget).1, readsAs_group (h k g hget).2⟩
  have hdepth : (Value.obj [(str "groups", mapJson groupJson (some groups))]).depth ≤
      Value.maxNestingDepth := by
    have hle := hgroups.depth_le
    simp only [Value.depth, Value.depthMembers, Value.maxNestingDepth]
    omega
  have hwellFormed : (Value.obj [(str "groups", mapJson groupJson (some groups))]).WellFormed :=
    ⟨hgroups.wellFormed, trivial⟩
  have hparse := Value.parse_render .indented hwellFormed hdepth 0
  have hmembers : decodeStruct storedFields none
      (Value.obj [(str "groups", mapJson groupJson (some groups))]).coerce =
        some (some groups) := by
    simp only [Value.coerce, decodeStruct]
    refine (decodeMembers_cons rfl hgroups.decode _).trans ?_
    simp [decodeMembers, Value.coerceMembers]
  rw [readGroups, plaintext, Value.marshalIndent, hparse, bind_some, hmembers]
  rfl

/-! ## Ciphers and key derivation -/

inductive Cipher
  | aesGCM
  | sm4GCM
  deriving DecidableEq

inductive KDF
  | argon2id
  | pbkdf2
  deriving DecidableEq

inductive StoreError
  | invalidCipher (value : Str)
  | invalidKDF (value : Str)
  | unknownCipherID (id : UInt8)
  | unknownKDFID (id : UInt8)
  | headerTruncated
  | unsupportedVersion (version : UInt8)
  | fileTooShort
  | decryptFailed
  | unmarshalFailed
  deriving DecidableEq

def Cipher.keySize : Cipher → ℕ
  | .aesGCM => 32
  | .sm4GCM => 16

def Cipher.id : Cipher → UInt8
  | .aesGCM => 1
  | .sm4GCM => 2

def cipherNameByID (id : UInt8) : Except StoreError Cipher :=
  if id = 1 then .ok .aesGCM else if id = 2 then .ok .sm4GCM else .error (.unknownCipherID id)

def kdfNameByID (id : UInt8) : Except StoreError KDF :=
  if id = 1 then .ok .pbkdf2 else if id = 2 then .ok .argon2id else .error (.unknownKDFID id)

/-- The size of the nonces of GCM. -/
def nonceSize : ℕ := 12

def saltSize : ℕ := 16

/-- The cryptographic functions, and `strings.ToLower`. A cipher opens what it has sealed. -/
structure Host where
  deriveKey : Str → List UInt8 → ℕ → KDF → List UInt8
  encrypt : Cipher → List UInt8 → List UInt8 → Str → List UInt8
  decrypt : Cipher → List UInt8 → List UInt8 → List UInt8 → Option Str
  decrypt_encrypt : ∀ cipher key nonce text, nonce.length = nonceSize →
    decrypt cipher key nonce (encrypt cipher key nonce text) = some text
  toLower : Str → Str

/-- The two environment variables. -/
structure Env where
  cipher : Str
  kdf : Str

variable (host : Host)

def configuredCipher (env : Env) : Except StoreError Cipher :=
  let value := host.toLower (trimSpace env.cipher)
  if value = [] ∨ value = str "aes-gcm" then .ok .aesGCM
  else if value = str "sm4-gcm" then .ok .sm4GCM
  else .error (.invalidCipher env.cipher)

def configuredKDF (env : Env) : Except StoreError KDF :=
  let value := host.toLower (trimSpace env.kdf)
  if value = [] ∨ value = str "argon2id" then .ok .argon2id
  else if value = str "pbkdf2" then .ok .pbkdf2
  else .error (.invalidKDF env.kdf)

/-- `SecretManager`. Its key is the one of its password and salt. -/
structure SecretManager where
  groups : Groups
  key : List UInt8
  salt : List UInt8
  masterPassword : Str
  cipher : Cipher
  kdf : KDF
  length_salt : salt.length = saltSize
  key_eq : key = host.deriveKey masterPassword salt cipher.keySize kdf

def newSecretManagerWithSalt (masterPassword : Str) (salt : List UInt8)
    (h : salt.length = saltSize) (cipher : Cipher) (kdf : KDF) : SecretManager host where
  groups := ∅
  key := host.deriveKey masterPassword salt cipher.keySize kdf
  salt := salt
  masterPassword := masterPassword
  cipher := cipher
  kdf := kdf
  length_salt := h
  key_eq := rfl

/-! ## Files -/

def secretsMagic : Str := str "AFLSEC"

variable (data : List UInt8)

def hasSecretsHeader : Bool := 8 ≤ data.length && data.take 6 = secretsMagic

/-- The cipher and the key derivation that a file names, and what follows its header: the part that
`LoadFromFile` and `InspectFile` have in common. -/
def readHeader : Except StoreError (Cipher × KDF × List UInt8) :=
  if hasSecretsHeader data then
    let version := data.getD 6 0
    if version = 1 then
      (cipherNameByID (data.getD 7 0)).map fun cipher => (cipher, .pbkdf2, data.drop 8)
    else if version = 2 then
      if data.length < 9 then .error .headerTruncated
      else
        (cipherNameByID (data.getD 7 0)).bind fun cipher =>
          (kdfNameByID (data.getD 8 0)).map fun kdf => (cipher, kdf, data.drop 9)
    else .error (.unsupportedVersion version)
  else .ok (.aesGCM, .pbkdf2, data)

/-- `InspectFile` of a file that exists: the cipher, the key derivation, and whether there is no
header. -/
def inspectFile : Except StoreError (Cipher × KDF × Bool) :=
  (readHeader data).map fun found => (found.1, found.2.1, !hasSecretsHeader data)

/-- `LoadFromFile` of a file that exists. -/
def loadFromFile (masterPassword : Str) : Except StoreError (SecretManager host) :=
  match readHeader data with
  | .error e => .error e
  | .ok (cipher, kdf, payload) =>
    if h : saltSize ≤ payload.length then
      let sm := newSecretManagerWithSalt host masterPassword (payload.take saltSize)
        (length_take_of_le h) cipher kdf
      let ciphertext := payload.drop saltSize
      if ciphertext.length < nonceSize then .error .decryptFailed
      else
        match host.decrypt cipher sm.key (ciphertext.take nonceSize)
          (ciphertext.drop nonceSize) with
        | none => .error .decryptFailed
        | some text =>
          match readGroups text with
          | none => .error .unmarshalFailed
          | some groups => .ok { sm with groups := groups }
    else .error .fileTooShort

/-- The header that `SaveToFile` writes. -/
def fileHeader (cipher : Cipher) (kdf : KDF) : List UInt8 :=
  if kdf = .argon2id then secretsMagic ++ [2, cipher.id, 2]
  else if cipher ≠ .aesGCM then secretsMagic ++ [1, cipher.id]
  else []

/-- `SaveToFile`: what is written. -/
def SecretManager.saveToFile {host : Host} (sm : SecretManager host) (env : Env)
    (nonce : List UInt8) : Except StoreError (List UInt8) :=
  match configuredCipher host env with
  | .error e => .error e
  | .ok cipher =>
    match configuredKDF host env with
    | .error e => .error e
    | .ok kdf =>
      let key :=
        if cipher ≠ sm.cipher ∨ kdf ≠ sm.kdf then
          host.deriveKey sm.masterPassword sm.salt cipher.keySize kdf
        else sm.key
      let ciphertext := nonce ++ host.encrypt cipher key nonce (plaintext sm.groups)
      .ok (fileHeader cipher kdf ++ sm.salt ++ ciphertext)

/-! ## Round trip -/

/-- Every header is read back; without one, the salt must not look like one. -/
theorem readHeader_fileHeader (cipher : Cipher) (kdf : KDF) {salt : List UInt8} (rest : List UInt8)
    (hlength : salt.length = saltSize) (hsalt : ¬ secretsMagic <+: salt) :
    readHeader (fileHeader cipher kdf ++ (salt ++ rest)) = .ok (cipher, kdf, salt ++ rest) := by
  have hmagic : secretsMagic = [65, 70, 76, 83, 69, 67] := by decide
  have htake : (salt ++ rest).take 6 ≠ secretsMagic := by
    rw [take_append_of_le_length (by rw [hlength]; decide)]
    exact fun heq => hsalt (heq ▸ take_prefix 6 salt)
  cases kdf with
  | argon2id =>
    cases cipher <;> simp [readHeader, fileHeader, hasSecretsHeader, hmagic, cipherNameByID,
      kdfNameByID, Cipher.id, Except.map, Except.bind]
  | pbkdf2 =>
    cases cipher with
    | aesGCM => simp [readHeader, fileHeader, hasSecretsHeader, htake]
    | sm4GCM => simp [readHeader, fileHeader, hasSecretsHeader, hmagic, cipherNameByID, Cipher.id,
        Except.map, hlength, saltSize]

/-- What was encrypted with the key of the header is loaded. -/
theorem loadFromFile_of_header {host : Host} {cipher : Cipher} {kdf : KDF}
    {data salt nonce : List UInt8} {masterPassword : Str}
    (hlength : salt.length = saltSize) (hnonce : nonce.length = nonceSize) (h : ValidGroups groups)
    (hheader : readHeader data = .ok (cipher, kdf, salt ++ (nonce ++ host.encrypt cipher
      (host.deriveKey masterPassword salt cipher.keySize kdf) nonce (plaintext groups)))) :
    ∃ sm, loadFromFile host data masterPassword = .ok sm ∧ sm.groups = groups := by
  obtain ⟨sealed, hsealed⟩ : ∃ sealed, sealed = host.encrypt cipher
    (host.deriveKey masterPassword salt cipher.keySize kdf) nonce (plaintext groups) := ⟨_, rfl⟩
  rw [← hsealed] at hheader
  have hle : saltSize ≤ (salt ++ (nonce ++ sealed)).length := by
    rw [length_append, hlength]
    exact Nat.le_add_right _ _
  have htake : (salt ++ (nonce ++ sealed)).take saltSize = salt := take_left' hlength
  have hdrop : (salt ++ (nonce ++ sealed)).drop saltSize = nonce ++ sealed := drop_left' hlength
  have hlong : ¬ (nonce ++ sealed).length < nonceSize := by
    rw [length_append, hnonce]
    omega
  have hopen : host.decrypt cipher (newSecretManagerWithSalt host masterPassword
      ((salt ++ (nonce ++ sealed)).take saltSize) (length_take_of_le hle) cipher kdf).key
      ((nonce ++ sealed).take nonceSize) ((nonce ++ sealed).drop nonceSize) =
        some (plaintext groups) := by
    rw [take_left' hnonce, drop_left' hnonce]
    simp only [newSecretManagerWithSalt, htake]
    rw [hsealed]
    exact host.decrypt_encrypt cipher _ nonce _ hnonce
  rw [loadFromFile, hheader]
  dsimp only
  rw [dif_pos hle, hdrop, if_neg hlong, hopen]
  dsimp only
  rw [readGroups_plaintext h]
  exact ⟨_, rfl, rfl⟩

/-- A store that is saved is loaded with the same password as the same groups, and its file names
the cipher and the key derivation that were configured when it was saved. -/
theorem secrets_round_trip {host : Host} (sm : SecretManager host) (env : Env) {nonce : List UInt8}
    {cipher : Cipher} {kdf : KDF} (hgroups : ValidGroups sm.groups)
    (hsalt : ¬ secretsMagic <+: sm.salt) (hnonce : nonce.length = nonceSize)
    (hcipher : configuredCipher host env = .ok cipher) (hkdf : configuredKDF host env = .ok kdf) :
    ∃ data, sm.saveToFile env nonce = .ok data ∧
      (∃ sm', loadFromFile host data sm.masterPassword = .ok sm' ∧ sm'.groups = sm.groups) ∧
      ∃ legacy, inspectFile data = .ok (cipher, kdf, legacy) := by
  -- the key is derived again, or it is the one of the manager
  have hkey : (if cipher ≠ sm.cipher ∨ kdf ≠ sm.kdf then
      host.deriveKey sm.masterPassword sm.salt cipher.keySize kdf else sm.key) =
        host.deriveKey sm.masterPassword sm.salt cipher.keySize kdf := by
    split
    · rfl
    · next hsame =>
      push Not at hsame
      rw [sm.key_eq, hsame.1, hsame.2]
  have hheader := readHeader_fileHeader cipher kdf (nonce ++ host.encrypt cipher
    (host.deriveKey sm.masterPassword sm.salt cipher.keySize kdf) nonce (plaintext sm.groups))
    sm.length_salt hsalt
  refine ⟨_, ?_, loadFromFile_of_header sm.length_salt hnonce hgroups hheader, ?_⟩
  · simp only [SecretManager.saveToFile, hcipher, hkdf, hkey, append_assoc]
  · exact ⟨_, by rw [inspectFile, hheader]; rfl⟩

theorem decrypt_plain (_ : Cipher) (_ nonce : List UInt8) (text : Str)
    (_ : nonce.length = nonceSize) : some text = some text := rfl

/-- No encryption, and keys that say how they were derived. -/
def plainHost : Host where
  deriveKey masterPassword salt keyLen kdf := masterPassword ++ salt ++ [UInt8.ofNat keyLen] ++
    (if kdf = .argon2id then [2] else [1])
  encrypt _ _ _ text := text
  decrypt _ _ _ data := some data
  decrypt_encrypt := decrypt_plain
  toLower := asciiLower

/-- A store with one key, created with the default cipher and key derivation. -/
def apiKeys : SecretManager plainHost :=
  { newSecretManagerWithSalt plainHost (str "pw") (List.replicate 16 7) length_replicate .aesGCM
      .argon2id with
    groups :=
      (∅ : Groups).insert (str "api") (some ⟨str "api", some ((∅ : GoMap _ _).insert (str "k")
      ⟨str "k", str "v", str "secret", [], .zero, .zero⟩)⟩) }

theorem validGroups_apiKeys : ValidGroups apiKeys.groups := by
  refine GoMap.Forall.empty.insert ⟨by decide, fun group hgroup => ?_⟩
  cases hgroup
  refine ⟨by decide, fun m hm => ?_⟩
  cases hm
  exact GoMap.Forall.empty.insert ⟨by decide, by decide, by decide, by decide, by decide⟩

/-- Saved with the oldest format, and loaded. -/
theorem secrets_round_trip_apiKeys :
    ∃ data, apiKeys.saveToFile ⟨str "aes-gcm", str "PBKDF2"⟩ (List.replicate 12 0) = .ok data ∧
      (∃ sm', loadFromFile plainHost data (str "pw") = .ok sm' ∧ sm'.groups = apiKeys.groups) ∧
      ∃ legacy, inspectFile data = .ok (.aesGCM, .pbkdf2, legacy) :=
  secrets_round_trip apiKeys ⟨str "aes-gcm", str "PBKDF2"⟩ validGroups_apiKeys (by decide)
    (by decide)
    (by decide) (by decide)

end Secrets
