import FfProxy.Base.Scan
import FfProxy.Request

/-!
# Decryption

`ff_decrypt_request` and what it calls, `src/crypto.c:14–364`. OpenSSL is a parameter: one
function for each call, with the documented behaviour as named assumptions. An option
that occurs more than once counts with its last occurrence.
-/

namespace FfProxy
open Base

/-- The OpenSSL calls of the proxy and the client, and the tag that AES-256-GCM defines.
A cipher context is the key, the IV and the bytes that went through it. -/
structure OpenSsl where
  /-- `PKCS5_PBKDF2_HMAC` with SHA-256: password, salt, iterations, output length. -/
  pbkdf2 : List UInt8 → List UInt8 → UInt32 → Nat → Option (List UInt8)
  /-- `EVP_CIPHER_CTX_new`, `EVP_DecryptInit_ex` and `EVP_CTRL_GCM_SET_IVLEN`. -/
  decryptInit : List UInt8 → List UInt8 → Bool
  /-- `EVP_DecryptUpdate` on a chunk, after the bytes of the third argument. -/
  decryptUpdate : List UInt8 → List UInt8 → List UInt8 → List UInt8 → Option (List UInt8)
  /-- `EVP_CTRL_GCM_SET_TAG`. -/
  setTag : List UInt8 → Bool
  /-- `EVP_DecryptFinal_ex` on the whole ciphertext, with the tag that was set. It yields no
  further bytes in GCM mode. -/
  decryptFinal : List UInt8 → List UInt8 → List UInt8 → List UInt8 → Bool
  /-- The encrypting counterparts, with `EVP_CTRL_GCM_GET_TAG` for the tag. -/
  encryptInit : List UInt8 → List UInt8 → Bool
  encryptUpdate : List UInt8 → List UInt8 → List UInt8 → List UInt8 → Option (List UInt8)
  encryptFinal : List UInt8 → List UInt8 → List UInt8 → Bool
  getTag : List UInt8 → List UInt8 → List UInt8 → Option (Block 16)
  /-- The authentication tag of a ciphertext under a key and an IV. -/
  gcmTag : List UInt8 → List UInt8 → List UInt8 → Block 16

/-- A tag of 1 to 16 bytes can be set, and exactly its bytes are then compared with the
front of the computed tag. -/
structure OpenSsl.ChecksTag (ssl : OpenSsl) : Prop where
  setTag_iff : ∀ tag, ssl.setTag tag = true ↔ 1 ≤ tag.length ∧ tag.length ≤ 16
  decryptFinal_iff : ∀ key iv data tag, ssl.setTag tag = true →
    (ssl.decryptFinal key iv data tag = true ↔ tag = (ssl.gcmTag key iv data).val.take tag.length)

/-- Decryption undoes encryption under the same key, IV and tag, and the ciphertext is as
long as the plaintext. -/
structure OpenSsl.RoundTrips (ssl : OpenSsl) : Prop where
  length_ciphertext : ∀ key iv plaintext ciphertext,
    ssl.encryptUpdate key iv [] plaintext = some ciphertext → ciphertext.length = plaintext.length
  decrypt_encrypt : ∀ key iv plaintext ciphertext tag, ssl.encryptInit key iv = true →
    ssl.encryptUpdate key iv [] plaintext = some ciphertext →
    ssl.encryptFinal key iv plaintext = true → ssl.getTag key iv plaintext = some tag →
    ssl.decryptInit key iv = true ∧ ssl.decryptUpdate key iv [] ciphertext = some plaintext ∧
      ssl.setTag tag.val = true ∧ ssl.decryptFinal key iv ciphertext tag.val = true

/-- The first 16 bytes of the data, padded with zeros. -/
def sampleTag (data : List UInt8) : Block 16 := ⟨(data ++ List.replicate 16 0).take 16, by simp⟩

/-- A cipher that changes nothing and whose tag is the front of the data: it has the assumed
behaviour and can be run. -/
def sampleSsl : OpenSsl where
  pbkdf2 _ _ _ n := some (List.replicate n 0)
  decryptInit _ _ := true
  decryptUpdate _ _ _ chunk := some chunk
  setTag tag := decide (1 ≤ tag.length ∧ tag.length ≤ 16)
  decryptFinal _ _ data tag := decide (tag = (sampleTag data).val.take tag.length)
  encryptInit _ _ := true
  encryptUpdate _ _ _ chunk := some chunk
  encryptFinal _ _ _ := true
  getTag _ _ data := some (sampleTag data)
  gcmTag _ _ data := sampleTag data

/-- The sample cipher checks tags as assumed. -/
theorem sampleSsl_checksTag : sampleSsl.ChecksTag where
  setTag_iff := by simp [sampleSsl]
  decryptFinal_iff := by simp [sampleSsl]

/-- The sample cipher undoes its own work. -/
theorem sampleSsl_roundTrips : sampleSsl.RoundTrips where
  length_ciphertext := by simp [sampleSsl]
  decrypt_encrypt := by
    intro key iv plaintext ciphertext tag _ hu _ ht
    have hc : plaintext = ciphertext := Option.some.inj hu
    have htag : sampleTag plaintext = tag := Option.some.inj ht
    refine ⟨rfl, by rw [hc]; rfl, ?_, ?_⟩
    · simp [sampleSsl, tag.property]
    · rw [← htag, ← hc]
      simp [sampleSsl]

/-- `enum ff_request_encryption_type`, `src/crypto.h:8–11`. -/
def ffCryptoModeAes256Gcm : UInt8 := 1

/-- `enum ff_request_key_derivation_type`, `src/crypto.h:13–16`. -/
def ffKeyDeriveModePbkdf2 : UInt8 := 1

/-- Size of the derived key, `src/crypto.c:141`. -/
def derivedKeySize : Nat := 32

/-- `struct ff_encryption_config` with a key set, `src/crypto.h:18–23`. The key is the bytes
in front of its terminating zero. No configuration stands for a null key. -/
structure EncryptionConfig where
  key : List UInt8
  pbkdf2Iterations : UInt32
  deriving DecidableEq, Repr

/-! ### Option scans -/

/-- What a mode option of the given type does to its variable: only one byte is a mode;
`src/crypto.c:30–35,275–280`. -/
def modeAnswer (type : UInt8) (o : OptionNode) : Option UInt8 :=
  if o.type = type ∧ o.length = 1 then o.value.head? else none

/-- What a value option of the given type does to its variable; `src/crypto.c:37–47,282–286`. -/
def valueAnswer (type : UInt8) (o : OptionNode) : Option (Option (List UInt8)) :=
  if o.type = type then some (some o.value) else none

/-- The mode after the scan, 0 if no option sets it. -/
def scanMode (type : UInt8) (options : List OptionNode) : UInt8 :=
  scanForward (modeAnswer type) 0 options

/-- The value after the scan. -/
def scanValue (type : UInt8) (options : List OptionNode) : Option (List UInt8) :=
  scanForward (valueAnswer type) none options

/-- A value counts as missing when it is empty; `src/crypto.c:73,79,299`. -/
def present (value : Option (List UInt8)) : Option (List UInt8) :=
  value.filter fun v ↦ !v.isEmpty

/-- A value that was found is the value of one of the options. -/
theorem exists_of_scanValue {type : UInt8} {options : List OptionNode} {v : List UInt8}
    (h : present (scanValue type options) = some v) :
    ∃ o ∈ options, o.type = type ∧ o.value = v ∧ v ≠ [] := by
  rw [present, Option.filter_eq_some_iff] at h
  obtain ⟨hs, hne⟩ := h
  obtain ⟨o, ho, ha⟩ := scanForward_eq_some hs
  unfold valueAnswer at ha
  split at ha
  · next ht => exact ⟨o, ho, ht, by simpa using ha, by simpa using hne⟩
  · cases ha

/-! ### Key derivation -/

/-- `ff_derive_key_pbkdf2`, `src/crypto.c:339–364`. -/
def ffDeriveKeyPbkdf2 (ssl : OpenSsl) (config : EncryptionConfig) (salt : List UInt8) :
    Option (List UInt8) :=
  ssl.pbkdf2 config.key salt config.pbkdf2Iterations derivedKeySize

/-- `ff_derive_key`, `src/crypto.c:261–337`. -/
def ffDeriveKey (ssl : OpenSsl) (config : EncryptionConfig) (options : List OptionNode) :
    Option (List UInt8) :=
  let mode := scanMode OptionType.keyDeriveMode options
  match present (scanValue OptionType.keyDeriveSalt options) with
  | none => none
  | some salt => if mode = ffKeyDeriveModePbkdf2 then ffDeriveKeyPbkdf2 ssl config salt else none

/-! ### Decryption -/

/-- The loop that passes the payload nodes through a cipher, `src/crypto.c:172–182` and
`client/c/crypto.c:161–171`: the bytes that went in and those that came out, which must
fit the block of `room` bytes. `none` stands for a failed call. -/
def cipherLoop (update : List UInt8 → List UInt8 → Option (List UInt8)) (room : Nat) :
    List PayloadNode → List UInt8 → List UInt8 → Except Fault (Option (List UInt8 × List UInt8))
  | [], seen, result => .ok (some (seen, result))
  | node :: rest, seen, result =>
    match update seen node.bytes with
    | none => .ok none
    | some out =>
      if room < result.length + out.length then .error .outOfBounds
      else cipherLoop update room rest (seen ++ node.bytes) (result ++ out)

/-- The node that holds the output of a cipher, `src/crypto.c:207–211` and
`client/c/crypto.c:199–203`: it owns the block of `room` bytes that was allocated for it. -/
def cipherNode (garbage : Nat → UInt8) (room : Nat) (result : List UInt8) : PayloadNode where
  offset := 0
  length := UInt16.ofNat result.length
  value := result ++ (mallocBlock garbage room).drop result.length
  length_le := by
    rw [UInt16.toNat_ofNat', List.length_append]
    exact Nat.le_trans (Nat.mod_le _ _) (Nat.le_add_right _ _)

/-- The cipher node carries the output, as long as its length fits 16 bits. -/
theorem bytes_cipherNode (garbage : Nat → UInt8) (room : Nat) (result : List UInt8)
    (h : result.length < 65536) :
    (cipherNode garbage room result).bytes = result ∧
      (cipherNode garbage room result).length.toNat = result.length := by
  have hl : (cipherNode garbage room result).length.toNat = result.length := by
    rw [cipherNode, UInt16.toNat_ofNat', Nat.mod_eq_of_lt h]
  refine ⟨?_, hl⟩
  rw [PayloadNode.bytes, hl]
  exact List.take_left

/-- A single node goes through the cipher in one call. -/
theorem cipherLoop_single {update : List UInt8 → List UInt8 → Option (List UInt8)} {room : Nat}
    {node : PayloadNode} {out : List UInt8} (hu : update [] node.bytes = some out)
    (hl : out.length ≤ room) :
    cipherLoop update room [node] [] [] = .ok (some (node.bytes, out)) := by
  have hroom : ¬ room < ([] : List UInt8).length + out.length := by
    rw [List.length_nil]
    omega
  simp only [cipherLoop, hu, if_neg hroom, List.nil_append]

/-- `ff_decrypt_request_aes_256_gcm`, `src/crypto.c:124–235`; `none` when it returns false. -/
def ffDecryptRequestAes256Gcm (ssl : OpenSsl) (garbage : Nat → UInt8) (config : EncryptionConfig)
    (iv tag : List UInt8) (r : Request) : Except Fault (Option Request) :=
  match ffDeriveKey ssl config r.options with
  | none => .ok none
  | some key =>
    if ssl.decryptInit key iv then
      if r.payload.isEmpty then .error .nullDereference
      else
        match cipherLoop (ssl.decryptUpdate key iv) r.payloadLength.toNat r.payload [] [] with
        | .error fault => .error fault
        | .ok none => .ok none
        | .ok (some (ciphertext, plaintext)) =>
          if ssl.setTag tag && ssl.decryptFinal key iv ciphertext tag then
            .ok (some { r with
              payloadLength := UInt64.ofNat plaintext.length
              payload := [cipherNode garbage r.payloadLength.toNat plaintext] })
          else .ok none
    else .ok none

/-- The outcome of `ff_decrypt_request` once the options are scanned, `src/crypto.c:54–100`;
`none` stands for the error label. -/
def decryptWithOptions (ssl : OpenSsl) (garbage : Nat → UInt8) (config : Option EncryptionConfig)
    (r : Request) : Except Fault (Option Request) :=
  let mode := scanMode OptionType.encryptionMode r.options
  match config with
  | none => .ok (if mode = 0 then some r else none)
  | some config =>
    if mode = 0 then .ok none
    else
      match present (scanValue OptionType.encryptionIv r.options),
          present (scanValue OptionType.encryptionTag r.options) with
      | some iv, some tag =>
        if mode = ffCryptoModeAes256Gcm then ffDecryptRequestAes256Gcm ssl garbage config iv tag r
        else .ok none
      | _, _ => .ok none

/-- `ff_decrypt_request`, `src/crypto.c:14–122`. -/
def ffDecryptRequest (ssl : OpenSsl) (garbage : Nat → UInt8) (config : Option EncryptionConfig)
    (r : Request) : Except Fault Request :=
  match decryptWithOptions ssl garbage config { r with state := .decrypting } with
  | .error fault => .error fault
  | .ok none => .ok { r with state := .decryptingFailed }
  | .ok (some r') => .ok { r' with state := .decrypted }

/-! ### What a decrypted request has passed -/

/-- The tag was compared with the front of the tag that AES-256-GCM computes over `data`
under the key derived from the pre-shared key, with salt, IV and tag from the options. -/
def TagChecked (ssl : OpenSsl) (config : EncryptionConfig) (options : List OptionNode)
    (data tag : List UInt8) : Prop :=
  ∃ salt ∈ options, ∃ iv ∈ options, ∃ t ∈ options, ∃ key,
    salt.type = OptionType.keyDeriveSalt ∧ iv.type = OptionType.encryptionIv ∧
    t.type = OptionType.encryptionTag ∧ t.value = tag ∧
    ssl.pbkdf2 config.key salt.value config.pbkdf2Iterations derivedKeySize = some key ∧
    tag = (ssl.gcmTag key iv.value data).val.take tag.length

/-- What went through the cipher is what the nodes carry. -/
theorem cipherLoop_seen {update : List UInt8 → List UInt8 → Option (List UInt8)} {room : Nat}
    {nodes : List PayloadNode} {seen result input out : List UInt8}
    (h : cipherLoop update room nodes seen result = .ok (some (input, out))) :
    input = seen ++ nodes.flatMap PayloadNode.bytes := by
  induction nodes generalizing seen result with
  | nil =>
    rw [cipherLoop] at h
    obtain ⟨rfl, _⟩ := Prod.mk.inj (Option.some.inj (Except.ok.inj h))
    simp
  | cons node rest ih =>
    rw [cipherLoop] at h
    split at h
    · cases h
    · split at h
      · cases h
      · rw [ih h, List.flatMap_cons, List.append_assoc]

private theorem ffDeriveKey_eq_some {ssl : OpenSsl} {config : EncryptionConfig}
    {options : List OptionNode} {key : List UInt8} (h : ffDeriveKey ssl config options = some key) :
    ∃ salt ∈ options, salt.type = OptionType.keyDeriveSalt ∧
      ssl.pbkdf2 config.key salt.value config.pbkdf2Iterations derivedKeySize = some key := by
  simp only [ffDeriveKey] at h
  split at h
  · cases h
  · next v hv =>
    obtain ⟨o, ho, ht, hval, _⟩ := exists_of_scanValue hv
    split at h
    · refine ⟨o, ho, ht, ?_⟩
      rw [hval]
      exact h
    · cases h

/-- What a successful decryption has gone through and what it leaves: a single node. -/
private theorem aes256Gcm_eq_some {ssl : OpenSsl} {garbage : Nat → UInt8}
    {config : EncryptionConfig} {iv tag : List UInt8} {r r' : Request}
    (h : ffDecryptRequestAes256Gcm ssl garbage config iv tag r = .ok (some r')) :
    ∃ key plaintext, ffDeriveKey ssl config r.options = some key ∧ ssl.setTag tag = true ∧
      ssl.decryptFinal key iv (r.payload.flatMap PayloadNode.bytes) tag = true ∧
      r' = { r with
        payloadLength := UInt64.ofNat plaintext.length
        payload := [cipherNode garbage r.payloadLength.toNat plaintext] } := by
  unfold ffDecryptRequestAes256Gcm at h
  split at h
  · cases h
  · next key hkey =>
    split at h
    · split at h
      · cases h
      · split at h
        · cases h
        · cases h
        · next ciphertext plaintext hloop =>
          split at h
          · next hfin =>
            rw [Bool.and_eq_true, cipherLoop_seen hloop, List.nil_append] at hfin
            exact ⟨key, plaintext, hkey, hfin.1, hfin.2, (Option.some.inj (Except.ok.inj h)).symm⟩
          · cases h
    · cases h

private theorem decryptWithOptions_eq_some {ssl : OpenSsl} {garbage : Nat → UInt8}
    {config : EncryptionConfig} {r r' : Request}
    (h : decryptWithOptions ssl garbage (some config) r = .ok (some r')) :
    ∃ iv tag, present (scanValue OptionType.encryptionIv r.options) = some iv ∧
      present (scanValue OptionType.encryptionTag r.options) = some tag ∧
      ffDecryptRequestAes256Gcm ssl garbage config iv tag r = .ok (some r') := by
  simp only [decryptWithOptions] at h
  split at h
  · cases h
  · split at h
    · next iv tag hiv htag =>
      split at h
      · exact ⟨iv, tag, hiv, htag, h⟩
      · cases h
    · cases h

/-- With a pre-shared key, a request is decrypted only after a tag of 1 to 16 bytes was
checked over what its payload nodes carry. -/
theorem tagChecked_of_decrypted {ssl : OpenSsl} (hssl : ssl.ChecksTag) {garbage : Nat → UInt8}
    {config : EncryptionConfig} {r r' : Request}
    (h : ffDecryptRequest ssl garbage (some config) r = .ok r') (hs : r'.state = .decrypted) :
    ∃ tag, 1 ≤ tag.length ∧ tag.length ≤ 16 ∧
      TagChecked ssl config r.options (r.payload.flatMap PayloadNode.bytes) tag := by
  unfold ffDecryptRequest at h
  split at h
  · cases h
  · rw [← Except.ok.inj h] at hs
    cases hs
  · next hd =>
    obtain ⟨iv, tag, hiv, htag, haes⟩ := decryptWithOptions_eq_some hd
    obtain ⟨key, _, hkey, hset, hfin, _⟩ := aes256Gcm_eq_some haes
    obtain ⟨o, ho, hot, hov, _⟩ := exists_of_scanValue hiv
    obtain ⟨t, ht, htt, htv, _⟩ := exists_of_scanValue htag
    obtain ⟨salt, hsalt, hst, hpb⟩ := ffDeriveKey_eq_some hkey
    obtain ⟨h1, h16⟩ := (hssl.setTag_iff tag).mp hset
    have hcmp := (hssl.decryptFinal_iff key iv _ tag hset).mp hfin
    rw [← hov] at hcmp
    exact ⟨tag, h1, h16, salt, hsalt, o, ho, t, ht, key, hst, hot, htt, htv, hpb, hcmp⟩

/-- Decryption sets the payload, its length and the state. -/
theorem ffDecryptRequest_frame {ssl : OpenSsl} {garbage : Nat → UInt8}
    {config : Option EncryptionConfig} {r r' : Request}
    (h : ffDecryptRequest ssl garbage config r = .ok r') :
    r' = { r with
      state := r'.state
      payload := r'.payload
      payloadLength := r'.payloadLength } := by
  unfold ffDecryptRequest at h
  split at h
  · cases h
  · rw [← Except.ok.inj h]
  · next d hd =>
    have hframe : d = { r with
        state := d.state
        payload := d.payload
        payloadLength := d.payloadLength } := by
      cases config with
      | none =>
        simp only [decryptWithOptions] at hd
        split at hd
        · rw [← Option.some.inj (Except.ok.inj hd)]
        · cases hd
      | some config =>
        obtain ⟨iv, tag, _, _, haes⟩ := decryptWithOptions_eq_some hd
        obtain ⟨_, _, _, _, _, rfl⟩ := aes256Gcm_eq_some haes
        rfl
    rw [← Except.ok.inj h, hframe]

/-- Decryption leaves the payload alone or replaces it by a single node. -/
theorem ffDecryptRequest_payload {ssl : OpenSsl} {garbage : Nat → UInt8}
    {config : Option EncryptionConfig} {r r' : Request}
    (h : ffDecryptRequest ssl garbage config r = .ok r') :
    r'.payload = r.payload ∨ ∃ node, r'.payload = [node] := by
  unfold ffDecryptRequest at h
  split at h
  · cases h
  · rw [← Except.ok.inj h]
    exact Or.inl rfl
  · next d hd =>
    rw [← Except.ok.inj h]
    cases config with
    | none =>
      simp only [decryptWithOptions] at hd
      split at hd
      · rw [← Option.some.inj (Except.ok.inj hd)]
        exact Or.inl rfl
      · cases hd
    | some config =>
      obtain ⟨iv, tag, _, _, haes⟩ := decryptWithOptions_eq_some hd
      obtain ⟨_, _, _, _, _, rfl⟩ := aes256Gcm_eq_some haes
      exact Or.inr ⟨_, rfl⟩

/-- The cipher loop fails only where its output does not fit. -/
private theorem cipherLoop_error {update : List UInt8 → List UInt8 → Option (List UInt8)}
    {room : Nat} {nodes : List PayloadNode} {seen result : List UInt8} {fault : Fault}
    (h : cipherLoop update room nodes seen result = .error fault) : fault = .outOfBounds := by
  induction nodes generalizing seen result with
  | nil => cases h
  | cons node nodes ih =>
    rw [cipherLoop] at h
    split at h
    · cases h
    · split at h
      · exact (Except.error.inj h).symm
      · exact ih h

private theorem aes256Gcm_eq_error {ssl : OpenSsl} {garbage : Nat → UInt8}
    {config : EncryptionConfig} {iv tag : List UInt8} {r : Request} {fault : Fault}
    (h : ffDecryptRequestAes256Gcm ssl garbage config iv tag r = .error fault) :
    r.payload = [] ∨ fault = .outOfBounds := by
  unfold ffDecryptRequestAes256Gcm at h
  split at h
  · cases h
  · split at h
    · split at h
      · next he => exact Or.inl (List.isEmpty_iff.mp he)
      · split at h
        · next hloop =>
          rw [← Except.error.inj h]
          exact Or.inr (cipherLoop_error hloop)
        · cases h
        · split at h
          · cases h
          · cases h
    · cases h

private theorem decryptWithOptions_eq_error {ssl : OpenSsl} {garbage : Nat → UInt8}
    {config : Option EncryptionConfig} {r : Request} {fault : Fault}
    (h : decryptWithOptions ssl garbage config r = .error fault) :
    ∃ config iv tag, ffDecryptRequestAes256Gcm ssl garbage config iv tag r = .error fault := by
  cases config with
  | none => cases h
  | some config =>
    simp only [decryptWithOptions] at h
    split at h
    · cases h
    · split at h
      · next iv tag _ _ =>
        split at h
        · exact ⟨config, iv, tag, h⟩
        · cases h
      · cases h

/-- Decryption reads a missing node only if there is no payload. -/
theorem payload_eq_nil_of_nullDereference {ssl : OpenSsl} {garbage : Nat → UInt8}
    {config : Option EncryptionConfig} {r : Request}
    (h : ffDecryptRequest ssl garbage config r = .error .nullDereference) : r.payload = [] := by
  unfold ffDecryptRequest at h
  split at h
  · next hd =>
    obtain rfl := Except.error.inj h
    obtain ⟨_, _, _, haes⟩ := decryptWithOptions_eq_error hd
    exact (aes256Gcm_eq_error haes).resolve_right Fault.noConfusion
  · cases h
  · cases h

/-! ### What it takes to be decrypted -/

/-- Without a key, a request without an encryption mode passes as it is. -/
theorem ffDecryptRequest_of_no_key (ssl : OpenSsl) (garbage : Nat → UInt8) {r : Request}
    (h : scanMode OptionType.encryptionMode r.options = 0) :
    ffDecryptRequest ssl garbage none r = .ok { r with state := .decrypted } := by
  simp only [ffDecryptRequest, decryptWithOptions, h, ↓reduceIte]

/-- A request in AES-256-GCM mode whose ciphertext and tag OpenSSL accepts is replaced by its
plaintext. -/
theorem ffDecryptRequest_of_accepted (ssl : OpenSsl) (garbage : Nat → UInt8)
    (config : EncryptionConfig) {r : Request} {node : PayloadNode}
    {iv tag key plaintext : List UInt8} (hp : r.payload = [node])
    (hmode : scanMode OptionType.encryptionMode r.options = ffCryptoModeAes256Gcm)
    (hiv : present (scanValue OptionType.encryptionIv r.options) = some iv)
    (htag : present (scanValue OptionType.encryptionTag r.options) = some tag)
    (hkey : ffDeriveKey ssl config r.options = some key) (hinit : ssl.decryptInit key iv = true)
    (hu : ssl.decryptUpdate key iv [] node.bytes = some plaintext)
    (hl : plaintext.length ≤ r.payloadLength.toNat) (hset : ssl.setTag tag = true)
    (hfin : ssl.decryptFinal key iv node.bytes tag = true) :
    ffDecryptRequest ssl garbage (some config) r = .ok { r with
      payloadLength := UInt64.ofNat plaintext.length
      payload := [cipherNode garbage r.payloadLength.toNat plaintext]
      state := .decrypted } := by
  have hne : ¬ ffCryptoModeAes256Gcm = 0 := by decide
  have hloop := cipherLoop_single hu hl
  have haes : ffDecryptRequestAes256Gcm ssl garbage config iv tag { r with state := .decrypting } =
      .ok (some { r with
        state := .decrypting
        payloadLength := UInt64.ofNat plaintext.length
        payload := [cipherNode garbage r.payloadLength.toNat plaintext] }) := by
    simp only [ffDecryptRequestAes256Gcm, hkey, hinit, ↓reduceIte, hp, List.isEmpty_cons,
      Bool.false_eq_true, hloop, hset, hfin, Bool.and_self]
  simp only [ffDecryptRequest, decryptWithOptions, hmode, if_neg hne, hiv, htag, ↓reduceIte, haes]

/-! ### Decryption as one function of the options -/

/-- The value of the last one-byte option of a type, 0 if there is none. -/
def lastMode (type : UInt8) (options : List OptionNode) : UInt8 :=
  ((options.filter fun o ↦ o.type = type ∧ o.length = 1).getLast?.map fun o ↦
    o.value.headD 0).getD 0

/-- The value of the last option of a type, empty if there is none. -/
def lastValue (type : UInt8) (options : List OptionNode) : List UInt8 :=
  ((options.filter fun o ↦ o.type = type).getLast?.map OptionNode.value).getD []

/-- The scan for a mode ends with the last option that is one. -/
theorem scanMode_eq_lastMode (type : UInt8) (options : List OptionNode) :
    scanMode type options = lastMode type options := by
  apply scanForward_filter
  intro o
  by_cases h : o.type = type ∧ o.length = 1
  · have hl : o.value.length = 1 := by
      rw [o.length_eq, h.2]
      rfl
    obtain ⟨v, hv⟩ := List.length_eq_one_iff.mp hl
    rw [modeAnswer, if_pos h, if_pos (decide_eq_true h), hv]
    rfl
  · rw [modeAnswer, if_neg h, if_neg (by simpa using h)]

/-- The scan for a value ends with the last option of its type, and an empty value counts as
missing. -/
theorem present_scanValue (type : UInt8) (options : List OptionNode) :
    present (scanValue type options) =
      if lastValue type options = [] then none else some (lastValue type options) := by
  have hscan : scanValue type options =
      ((options.filter fun o ↦ o.type = type).getLast?.map fun o ↦ some o.value).getD none := by
    apply scanForward_filter
    intro o
    by_cases h : o.type = type
    · rw [valueAnswer, if_pos h, if_pos (decide_eq_true h)]
    · rw [valueAnswer, if_neg h, if_neg (by simpa using h)]
  rw [hscan, lastValue]
  cases (options.filter fun o ↦ o.type = type).getLast? with
  | none => rfl
  | some o =>
    by_cases hv : o.value = []
    · simp [present, hv]
    · simp [present, hv, Option.filter]

/-- `EVP_DecryptUpdate` in GCM mode yields as many bytes as it is given. -/
def OpenSsl.KeepsLength (ssl : OpenSsl) : Prop :=
  ∀ key iv seen chunk out, ssl.decryptUpdate key iv seen chunk = some out →
    out.length = chunk.length

/-- The sample cipher keeps lengths. -/
theorem sampleSsl_keepsLength : sampleSsl.KeepsLength := by
  intro key iv seen chunk out h
  rw [← Option.some.inj (h : some chunk = some out)]

/-- The AES-256-GCM calls on one piece of data: the plaintext if every call succeeds. -/
def gcmOpen (ssl : OpenSsl) (key iv tag data : List UInt8) : Option (List UInt8) :=
  if ssl.decryptInit key iv then
    (ssl.decryptUpdate key iv [] data).filter fun _ ↦
      ssl.setTag tag && ssl.decryptFinal key iv data tag
  else none

/-- The options and the data open to the plaintext under the configured key: the last modes
are AES-256-GCM and PBKDF2, IV, tag and salt are there, and derivation and decryption with
them succeed. -/
structure OpensTo (ssl : OpenSsl) (config : EncryptionConfig) (options : List OptionNode)
    (data plaintext : List UInt8) : Prop where
  mode : lastMode OptionType.encryptionMode options = ffCryptoModeAes256Gcm
  deriveMode : lastMode OptionType.keyDeriveMode options = ffKeyDeriveModePbkdf2
  iv : lastValue OptionType.encryptionIv options ≠ []
  tag : lastValue OptionType.encryptionTag options ≠ []
  salt : lastValue OptionType.keyDeriveSalt options ≠ []
  opens : ∃ key, ssl.pbkdf2 config.key (lastValue OptionType.keyDeriveSalt options)
      config.pbkdf2Iterations derivedKeySize = some key ∧
    gcmOpen ssl key (lastValue OptionType.encryptionIv options)
      (lastValue OptionType.encryptionTag options) data = some plaintext

private theorem ffDeriveKey_eq (ssl : OpenSsl) (config : EncryptionConfig)
    (options : List OptionNode) :
    ffDeriveKey ssl config options =
      if lastMode OptionType.keyDeriveMode options = ffKeyDeriveModePbkdf2 ∧
          lastValue OptionType.keyDeriveSalt options ≠ [] then
        ssl.pbkdf2 config.key (lastValue OptionType.keyDeriveSalt options)
          config.pbkdf2Iterations derivedKeySize
      else none := by
  rw [ffDeriveKey, present_scanValue, scanMode_eq_lastMode]
  by_cases hs : lastValue OptionType.keyDeriveSalt options = []
  · simp [hs]
  · by_cases hm : lastMode OptionType.keyDeriveMode options = ffKeyDeriveModePbkdf2
    · simp [hs, hm, ffDeriveKeyPbkdf2]
    · simp [hs, hm]

/-- One payload node goes through the cipher in one call, so the GCM calls succeed or fail as
a whole. -/
private theorem aes256Gcm_eq {ssl : OpenSsl} (hssl : ssl.KeepsLength) (garbage : Nat → UInt8)
    (config : EncryptionConfig) (iv tag : List UInt8) {r : Request} {node : PayloadNode}
    (h : r.Vectorised node) :
    ffDecryptRequestAes256Gcm ssl garbage config iv tag r =
      .ok (((ffDeriveKey ssl config r.options).bind fun key ↦
        gcmOpen ssl key iv tag node.bytes).map fun plaintext ↦ { r with
          payloadLength := UInt64.ofNat plaintext.length
          payload := [cipherNode garbage r.payloadLength.toNat plaintext] }) := by
  unfold ffDecryptRequestAes256Gcm
  cases hkey : ffDeriveKey ssl config r.options with
  | none => rfl
  | some key =>
    simp only [Option.bind_some, gcmOpen]
    by_cases hinit : ssl.decryptInit key iv = true
    · simp only [hinit, ↓reduceIte, h.payload, List.isEmpty_cons, Bool.false_eq_true]
      cases hu : ssl.decryptUpdate key iv [] node.bytes with
      | none => simp only [cipherLoop, hu, Option.filter_none, Option.map_none]
      | some plaintext =>
        have hfit : plaintext.length ≤ r.payloadLength.toNat := by
          rw [hssl key iv [] node.bytes plaintext hu, node.length_bytes]
          exact h.fits
        simp only [cipherLoop_single hu hfit, Option.filter_some]
        split
        · rfl
        · rfl
    · simp only [hinit, Bool.false_eq_true, ↓reduceIte, Option.map_none]

/-- The plaintext that `OpensTo` describes. -/
private def opened (ssl : OpenSsl) (config : EncryptionConfig) (options : List OptionNode)
    (data : List UInt8) : Option (List UInt8) :=
  if lastMode OptionType.encryptionMode options = ffCryptoModeAes256Gcm ∧
      lastValue OptionType.encryptionIv options ≠ [] ∧
      lastValue OptionType.encryptionTag options ≠ [] then
    (ffDeriveKey ssl config options).bind fun key ↦
      gcmOpen ssl key (lastValue OptionType.encryptionIv options)
        (lastValue OptionType.encryptionTag options) data
  else none

private theorem opened_eq_some_iff (ssl : OpenSsl) (config : EncryptionConfig)
    (options : List OptionNode) (data plaintext : List UInt8) :
    opened ssl config options data = some plaintext ↔
      OpensTo ssl config options data plaintext := by
  rw [opened, ffDeriveKey_eq]
  constructor
  · intro h
    split at h
    · next hc =>
      obtain ⟨key, hkey, hopen⟩ := Option.bind_eq_some_iff.mp h
      split at hkey
      · next hd => exact ⟨hc.1, hd.1, hc.2.1, hc.2.2, hd.2, key, hkey, hopen⟩
      · cases hkey
    · cases h
  · intro h
    obtain ⟨key, hkey, hopen⟩ := h.opens
    rw [if_pos ⟨h.mode, h.iv, h.tag⟩, if_pos ⟨h.deriveMode, h.salt⟩, hkey, Option.bind_some]
    exact hopen

/-- With a key, the options and the payload node decide the outcome. -/
private theorem decryptWithOptions_eq {ssl : OpenSsl} (hssl : ssl.KeepsLength)
    (garbage : Nat → UInt8) (config : EncryptionConfig) {r : Request} {node : PayloadNode}
    (h : r.Vectorised node) :
    decryptWithOptions ssl garbage (some config) r =
      .ok ((opened ssl config r.options node.bytes).map fun plaintext ↦ { r with
        payloadLength := UInt64.ofNat plaintext.length
        payload := [cipherNode garbage r.payloadLength.toNat plaintext] }) := by
  simp only [decryptWithOptions, scanMode_eq_lastMode, present_scanValue]
  by_cases hm : lastMode OptionType.encryptionMode r.options = ffCryptoModeAes256Gcm
  · have hne : ¬ lastMode OptionType.encryptionMode r.options = 0 := by
      rw [hm]
      decide
    by_cases hiv : lastValue OptionType.encryptionIv r.options = []
    · have hno : opened ssl config r.options node.bytes = none := if_neg fun hc ↦ hc.2.1 hiv
      rw [if_neg hne, if_pos hiv, hno]
      rfl
    · by_cases htag : lastValue OptionType.encryptionTag r.options = []
      · have hno : opened ssl config r.options node.bytes = none := if_neg fun hc ↦ hc.2.2 htag
        rw [if_neg hne, if_neg hiv, if_pos htag, hno]
        rfl
      · rw [if_neg hne, if_neg hiv, if_neg htag, opened, if_pos ⟨hm, hiv, htag⟩]
        simp only [if_pos hm]
        exact aes256Gcm_eq hssl garbage config _ _ h
  · have hno : opened ssl config r.options node.bytes = none := if_neg fun hc ↦ hm hc.1
    simp only [if_neg hm, hno, Option.map_none]
    split
    · rfl
    · split <;> rfl

/-- With a key, decryption succeeds exactly when the options and the payload open. -/
private theorem ffDecryptRequest_of_key {ssl : OpenSsl} (hssl : ssl.KeepsLength)
    (garbage : Nat → UInt8) (config : EncryptionConfig) {r : Request} {node : PayloadNode}
    (h : r.Vectorised node) :
    ffDecryptRequest ssl garbage (some config) r =
      .ok (((opened ssl config r.options node.bytes).map fun plaintext ↦ { r with
        payloadLength := UInt64.ofNat plaintext.length
        payload := [cipherNode garbage r.payloadLength.toNat plaintext]
        state := .decrypted }).getD { r with state := .decryptingFailed }) := by
  have hv : ({ r with state := .decrypting } : Request).Vectorised node := ⟨h.payload, h.fits⟩
  rw [ffDecryptRequest, decryptWithOptions_eq hssl garbage config hv]
  cases opened ssl config r.options node.bytes with
  | none => rfl
  | some plaintext => rfl

/-- The plaintext of one node is no longer than a node can hold. -/
private theorem OpensTo.length_lt {ssl : OpenSsl} (hssl : ssl.KeepsLength)
    {config : EncryptionConfig} {options : List OptionNode} {node : PayloadNode}
    {plaintext : List UInt8} (h : OpensTo ssl config options node.bytes plaintext) :
    plaintext.length < 65536 := by
  obtain ⟨key, _, hopen⟩ := h.opens
  rw [gcmOpen] at hopen
  split at hopen
  · rw [hssl _ _ _ _ _ (Option.filter_eq_some_iff.mp hopen).1, node.length_bytes]
    exact node.length.toNat_lt
  · cases hopen

/-- What decryption decides and what it leaves alone, for a request with one payload node. It
succeeds exactly when no key is set and no mode is given, or when a key is set and options
and payload open under it. Otherwise it fails. A request that failed, or that was not
encrypted, keeps all its fields but the state. A request that opened has one node with the
plaintext. -/
theorem ffDecryptRequest_spec {ssl : OpenSsl} (hssl : ssl.KeepsLength) (garbage : Nat → UInt8)
    (config : Option EncryptionConfig) {r : Request} {node : PayloadNode}
    (h : r.Vectorised node) :
    ∃ r', ffDecryptRequest ssl garbage config r = .ok r' ∧
      (r'.state = .decrypted ↔
        (config = none ∧ lastMode OptionType.encryptionMode r.options = 0) ∨
        ∃ c plaintext, config = some c ∧ OpensTo ssl c r.options node.bytes plaintext) ∧
      (r'.state ≠ .decrypted → r'.state = .decryptingFailed) ∧
      (r'.state = .decryptingFailed ∨ lastMode OptionType.encryptionMode r.options = 0 →
        r' = { r with state := r'.state }) ∧
      (r'.state = .decrypted →
        lastMode OptionType.encryptionMode r.options = ffCryptoModeAes256Gcm →
        ∃ c plaintext out, config = some c ∧ OpensTo ssl c r.options node.bytes plaintext ∧
          r'.payload = [out] ∧ out.offset = 0 ∧ out.bytes = plaintext ∧
          out.length.toNat = plaintext.length ∧ r'.payloadLength.toNat = plaintext.length) := by
  have h10 : ffCryptoModeAes256Gcm ≠ 0 := by decide
  cases config with
  | none =>
    by_cases hm : lastMode OptionType.encryptionMode r.options = 0
    · refine ⟨_, ffDecryptRequest_of_no_key ssl garbage (by rw [scanMode_eq_lastMode, hm]), ?_⟩
      simp [hm, h10.symm]
    · refine ⟨{ r with state := .decryptingFailed }, ?_, ?_⟩
      · simp only [ffDecryptRequest, decryptWithOptions, scanMode_eq_lastMode, if_neg hm]
      · simp [hm]
  | some c =>
    refine ⟨_, ffDecryptRequest_of_key hssl garbage c h, ?_⟩
    cases ho : opened ssl c r.options node.bytes with
    | none =>
      have hnot : ∀ plaintext, ¬ OpensTo ssl c r.options node.bytes plaintext := by
        intro plaintext hopens
        rw [(opened_eq_some_iff _ _ _ _ _).mpr hopens] at ho
        cases ho
      simp [hnot]
    | some plaintext =>
      have hopens := (opened_eq_some_iff _ _ _ _ _).mp ho
      have hlt := hopens.length_lt hssl
      have hm : ¬ lastMode OptionType.encryptionMode r.options = 0 := by
        rw [hopens.mode]
        exact h10
      obtain ⟨hbytes, hlen⟩ := bytes_cipherNode garbage r.payloadLength.toNat plaintext hlt
      refine ⟨?_, ?_, ?_, ?_⟩
      · exact iff_of_true rfl (Or.inr ⟨c, plaintext, rfl, hopens⟩)
      · intro hs
        exact absurd rfl hs
      · rintro (hs | hs)
        · cases hs
        · exact absurd hs hm
      · intro _ _
        refine ⟨c, plaintext, _, rfl, hopens, rfl, rfl, hbytes, hlen, ?_⟩
        change (UInt64.ofNat plaintext.length).toNat = plaintext.length
        rw [UInt64.toNat_ofNat', Nat.mod_eq_of_lt (by omega)]

/-- A request that the sample cipher opens: two bytes, tagged by the first of them. -/
def sampleSealed : Request :=
  { ffRequestAlloc with
    options := [OptionNode.ofByte OptionType.encryptionMode 1,
      OptionNode.ofByte OptionType.encryptionIv 3, OptionNode.ofByte OptionType.encryptionTag 72,
      OptionNode.ofByte OptionType.keyDeriveMode 1, OptionNode.ofByte OptionType.keyDeriveSalt 5]
    payloadLength := 2
    payload := [PayloadNode.ofBytes [72, 105]] }

/-- The sample request is decrypted. -/
theorem ffDecryptRequest_sampleSealed :
    sampleSealed.Vectorised (PayloadNode.ofBytes [72, 105]) ∧
      ∃ r', ffDecryptRequest sampleSsl (fun _ ↦ 0) (some ⟨[107], 1⟩) sampleSealed = .ok r' ∧
        r'.state = .decrypted := by
  have hv : sampleSealed.Vectorised (PayloadNode.ofBytes [72, 105]) := ⟨rfl, by decide⟩
  have hopens : OpensTo sampleSsl ⟨[107], 1⟩ sampleSealed.options
      (PayloadNode.ofBytes [72, 105]).bytes [72, 105] :=
    ⟨by decide, by decide, by decide, by decide, by decide, List.replicate 32 0, rfl, by decide⟩
  obtain ⟨r', hrun, hiff, _⟩ :=
    ffDecryptRequest_spec sampleSsl_keepsLength (fun _ ↦ 0) (some ⟨[107], 1⟩) hv
  exact ⟨hv, r', hrun, hiff.mpr (Or.inr ⟨_, _, rfl, hopens⟩)⟩

end FfProxy
