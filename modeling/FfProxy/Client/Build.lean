import FfProxy.Client.Packetise
import FfProxy.Crypto

/-!
# Building a request

The C client from the message to its packets, `client/c/client.c:20–259` and
`client/c/crypto.c:12–221`, without reading the message from a file and without the
socket. The options that must stay secret go in front of the message; the options that
tell the proxy how to decrypt go into the header of the first packet.
-/

namespace FfProxy
open Base

/-- The part of `struct ff_client_config` that building a request reads,
`client/c/config.h:11–18`. -/
structure ClientConfig where
  https : Bool
  encryption : Option EncryptionConfig
  deriving DecidableEq, Repr

/-- The time stamp option, `client/c/client.c:107–113`: the time in network byte order. -/
def clientTimestamp (now : UInt64) : OptionNode :=
  ⟨OptionType.timestamp, 8, leBytes 8 (ntohll now.toNat), by simp⟩

/-- The options in front of the message, `client/c/client.c:96–113`, without their EOL. -/
def clientPayloadOptions (https : Bool) (now : UInt64) : List OptionNode :=
  (if https then [.ofByte OptionType.https 1] else []) ++ [clientTimestamp now]

/-- `ff_client_request_add_payload`, `client/c/client.c:138–158`. The search for the last node
never runs, so the node is linked behind the first one, whatever was linked there. -/
def ffClientRequestAddPayload (r : Request) (node : PayloadNode) : Request :=
  match r.payload with
  | [] => { r with
      payload := [node]
      payloadLength := r.payloadLength + node.length.toUInt64 }
  | last :: _ => { r with
      payload := [last, { node with offset := last.offset + last.length }]
      payloadLength := r.payloadLength + node.length.toUInt64 }

/-- `ff_client_create_payload_options`, `client/c/client.c:86–136`, at the time `now`: the
request, and the number of options in the payload. -/
def ffClientCreatePayloadOptions (r : Request) (config : ClientConfig) (now : UInt64) :
    Request × Nat :=
  let options := clientPayloadOptions config.https now ++ [terminator false]
  (ffClientRequestAddPayload r (.ofBytes (ffClientWriteOptions options)), options.length)

/-- `ff_client_encrypt_request_aes_256_gcm_pbkdf2`, `client/c/crypto.c:94–221`, with the random
salt and IV it draws: the request and the tag, `none` when it returns false. -/
def ffClientEncryptRequestAes256GcmPbkdf2 (ssl : OpenSsl) (garbage : Nat → UInt8)
    (config : EncryptionConfig) (salt : Block 16) (iv : Block 12) (r : Request) :
    Except Fault (Option (Request × Block 16)) :=
  match ffDeriveKeyPbkdf2 ssl config salt.val with
  | none => .ok none
  | some key =>
    if ssl.encryptInit key iv.val then
      if r.payload.isEmpty then .error .nullDereference
      else
        match cipherLoop (ssl.encryptUpdate key iv.val) r.payloadLength.toNat r.payload [] [] with
        | .error fault => .error fault
        | .ok none => .ok none
        | .ok (some (plaintext, ciphertext)) =>
          if ssl.encryptFinal key iv.val plaintext then
            match ssl.getTag key iv.val plaintext with
            | none => .ok none
            | some tag => .ok (some ({ r with
                payload := [cipherNode garbage r.payloadLength.toNat ciphertext]
                payloadLength := UInt64.ofNat ciphertext.length }, tag))
          else .ok none
    else .ok none

/-- The header options of an encrypted request, `client/c/crypto.c:35–63`. -/
def clientCryptoOptions (iv : Block 12) (tag salt : Block 16) : List OptionNode :=
  [.ofByte OptionType.encryptionMode ffCryptoModeAes256Gcm,
    ⟨OptionType.encryptionIv, 12, iv.val, iv.property⟩,
    ⟨OptionType.encryptionTag, 16, tag.val, tag.property⟩,
    .ofByte OptionType.keyDeriveMode ffKeyDeriveModePbkdf2,
    ⟨OptionType.keyDeriveSalt, 16, salt.val, salt.property⟩]

/-- `ff_client_encrypt_request`, `client/c/crypto.c:12–92`. -/
def ffClientEncryptRequest (ssl : OpenSsl) (garbage : Nat → UInt8) (config : EncryptionConfig)
    (salt : Block 16) (iv : Block 12) (r : Request) : Except Fault (Option Request) :=
  match ffClientEncryptRequestAes256GcmPbkdf2 ssl garbage config salt iv r with
  | .error fault => .error fault
  | .ok none => .ok none
  | .ok (some (r, tag)) =>
    .ok (some { r with options := r.options ++ clientCryptoOptions iv tag salt })

/-- The option that closes the header, `client/c/client.c:50–52`. -/
def closeOptions (r : Request) (optionsInPayload : Nat) : Request :=
  { r with options := r.options ++ [terminator (decide (optionsInPayload ≠ 0))] }

/-- What building a request draws from outside: the clock, the random salt, IV and request
id, and the contents of fresh memory. -/
structure ClientEnvironment where
  now : UInt64
  salt : Block 16
  iv : Block 12
  requestId : UInt64
  garbage : Nat → Nat → UInt8

/-- The packets of a request that holds its payload, `client/c/client.c:38–54`; `none` when
encryption fails. -/
def requestPackets (ssl : OpenSsl) (env : ClientEnvironment) (config : ClientConfig) (r : Request)
    (optionsInPayload : Nat) : Except Fault (Option (List (List UInt8))) := do
  let r ← ffRequestVectorisePayload (env.garbage 0) r
  match config.encryption with
  | none =>
    let packets ← ffClientPacketiseRequest env.requestId (closeOptions r optionsInPayload)
    return some packets
  | some encryption =>
    match ← ffClientEncryptRequest ssl (env.garbage 1) encryption env.salt env.iv r with
    | none => return none
    | some r =>
      let packets ← ffClientPacketiseRequest env.requestId (closeOptions r optionsInPayload)
      return some packets

/-- The packets of a message: what `ff_client_make_request` makes if the message is added to the
payload as it is. -/
def messagePackets (ssl : OpenSsl) (env : ClientEnvironment) (config : ClientConfig)
    (message : PayloadNode) : Except Fault (Option (List (List UInt8))) :=
  let (r, optionsInPayload) := ffClientCreatePayloadOptions ffRequestAlloc config env.now
  requestPackets ssl env config (ffClientRequestAddPayload r message) optionsInPayload

/-! ### The options -/

section Options

variable {https : Bool} {now : UInt64} {iv : Block 12} {tag salt : Block 16}

theorem isData_clientPayloadOptions : ∀ o ∈ clientPayloadOptions https now, o.IsData := by
  cases https <;> simp [clientPayloadOptions, clientTimestamp, OptionNode.ofByte,
    OptionNode.IsData, OptionType.https, OptionType.timestamp, OptionType.eol,
    OptionType.breakOption]

theorem length_clientPayloadOptions : (clientPayloadOptions https now).length ≤ 2 := by
  cases https <;> simp [clientPayloadOptions]

theorem isData_clientCryptoOptions :
    ∀ o ∈ clientCryptoOptions iv tag salt, o.IsData := by
  simp [clientCryptoOptions, OptionNode.ofByte, OptionNode.IsData, OptionType.encryptionMode,
    OptionType.encryptionIv, OptionType.encryptionTag, OptionType.keyDeriveMode,
    OptionType.keyDeriveSalt, OptionType.eol, OptionType.breakOption]

theorem length_encode_clientCryptoOptions :
    (encodeOptions (clientCryptoOptions iv tag salt) true).length = 64 := by
  simp [clientCryptoOptions, encodeOptions_cons, encodeOptions_nil, OptionNode.ofByte, iv.property,
    tag.property, salt.property]

end Options

/-- Closing the header of a request announces the options in the payload. -/
theorem closeOptions_carries {r : Request} {header : List OptionNode} {body : List UInt8}
    (hr : r.Carries header body) (config : ClientConfig) (now : UInt64) :
    (closeOptions r (ffClientCreatePayloadOptions ffRequestAlloc config now).2).Carries
      (header ++ [terminator true]) body := by
  obtain ⟨ho, hl, hp⟩ := hr
  refine ⟨?_, hl, hp⟩
  change r.options ++ [terminator (decide ((clientPayloadOptions config.https now ++
    [terminator false]).length ≠ 0))] = _
  rw [ho, List.length_append]
  rfl

/-! ### The plaintext -/

/-- The time stamp lies on the wire with its most significant byte first. -/
theorem clientTimestamp_eq (now : UInt64) : clientTimestamp now = timestampOption now.toNat :=
  OptionNode.ext rfl rfl (leBytes_ntohll _ now.toNat_lt)

/-- What the client protects: its payload options and the message. -/
def clientPlaintext (https : Bool) (now : UInt64) (message : List UInt8) : List UInt8 :=
  encodeOptions (clientPayloadOptions https now) false ++ message

theorem clientPlaintext_ne_nil {https : Bool} {now : UInt64} {message : List UInt8}
    (hne : message ≠ []) : clientPlaintext https now message ≠ [] :=
  fun h ↦ hne (List.append_eq_nil_iff.mp h).2

/-- The vectorised request of the client carries the payload options and the message. -/
theorem vectorise_clientRequest (garbage : Nat → UInt8) (config : ClientConfig) (now : UInt64)
    (message : List UInt8) (hs : (clientPlaintext config.https now message).length < 65536) :
    ∃ r, ffRequestVectorisePayload garbage (ffClientRequestAddPayload
        (ffClientCreatePayloadOptions ffRequestAlloc config now).1 (.ofBytes message)) = .ok r ∧
      r.Carries [] (clientPlaintext config.https now message) := by
  let options := encodeOptions (clientPayloadOptions config.https now) false
  let head := PayloadNode.ofBytes options
  let tail : PayloadNode := { PayloadNode.ofBytes message with offset := head.offset + head.length }
  replace hs : options.length + message.length < 65536 := by
    rwa [clientPlaintext, List.length_append] at hs
  have hhead : head.length.toNat = options.length := PayloadNode.length_ofBytes _ (by omega)
  have htail : tail.length.toNat = message.length := PayloadNode.length_ofBytes _ (by omega)
  have hlen : (0 + head.length.toUInt64 + tail.length.toUInt64).toNat =
      options.length + message.length := by
    rw [UInt64.zero_add, UInt64.toNat_add, UInt16.toNat_toUInt64, UInt16.toNat_toUInt64, hhead,
      htail]
    exact Nat.mod_eq_of_lt (by omega)
  have hc : Span.Consecutive 0 ([head, tail].map PayloadNode.span)
      (0 + head.length.toUInt64 + tail.length.toUInt64).toNat := by
    refine ⟨rfl, ?_, ?_⟩
    · change (0 + head.length).toNat = 0 + head.length.toNat
      rw [UInt16.zero_add, Nat.zero_add]
    · change (0 + head.length).toNat + tail.length.toNat = _
      rw [hlen, UInt16.zero_add, hhead, htail]
  obtain ⟨node, hv, _, hl, hb⟩ := ffRequestVectorisePayload_consecutive garbage
    { ffRequestAlloc with
      payload := [head, tail]
      payloadLength := 0 + head.length.toUInt64 + tail.length.toUInt64 }
    (by simp) (by rw [hlen]; exact hs) hc
  refine ⟨_, hv, rfl, ?_, node, rfl, ?_⟩
  · rw [clientPlaintext, List.length_append]
    exact hlen
  · have hh : head.bytes = options := PayloadNode.bytes_ofBytes _ (by omega)
    have ht : tail.bytes = message := PayloadNode.bytes_ofBytes message (by omega)
    rw [hb]
    simp only [List.flatMap_cons, List.flatMap_nil, List.append_nil, hh, ht, clientPlaintext,
      options]

/-! ### The ciphertext -/

/-- OpenSSL derives the client's key and encrypts whatever it is given. -/
def EncryptionReady (ssl : OpenSsl) (config : EncryptionConfig) (salt : Block 16) (iv : Block 12) :
    Prop :=
  ∃ key, ffDeriveKeyPbkdf2 ssl config salt.val = some key ∧ ssl.encryptInit key iv.val = true ∧
    ∀ plaintext, (ssl.encryptUpdate key iv.val [] plaintext).isSome ∧
      ssl.encryptFinal key iv.val plaintext = true ∧ (ssl.getTag key iv.val plaintext).isSome

/-- Under the key derived from the salt, the ciphertext and the tag open to the plaintext. -/
structure Opens (ssl : OpenSsl) (config : EncryptionConfig) (salt : Block 16) (iv : Block 12)
    (tag : Block 16) (ciphertext plaintext : List UInt8) : Prop where
  length : ciphertext.length = plaintext.length
  opens : ∃ key, ffDeriveKeyPbkdf2 ssl config salt.val = some key ∧
    ssl.decryptInit key iv.val = true ∧
    ssl.decryptUpdate key iv.val [] ciphertext = some plaintext ∧
    ssl.setTag tag.val = true ∧ ssl.decryptFinal key iv.val ciphertext tag.val = true

/-- A client whose encryption works replaces the plaintext by a ciphertext that opens to it and
adds the options that say how. -/
theorem ffClientEncryptRequest_of_ready {ssl : OpenSsl} (hssl : ssl.RoundTrips)
    (garbage : Nat → UInt8) {config : EncryptionConfig} {salt : Block 16} {iv : Block 12}
    (hready : EncryptionReady ssl config salt iv) {r : Request} {plaintext : List UInt8}
    (hr : r.Carries [] plaintext) :
    ∃ r' tag ciphertext, ffClientEncryptRequest ssl garbage config salt iv r = .ok (some r') ∧
      r'.Carries (clientCryptoOptions iv tag salt) ciphertext ∧
      Opens ssl config salt iv tag ciphertext plaintext := by
  obtain ⟨ho, hl, node, hp, rfl⟩ := hr
  obtain ⟨key, hkey, hinit, hall⟩ := hready
  obtain ⟨hu, hfin, ht⟩ := hall node.bytes
  obtain ⟨ciphertext, hu⟩ := Option.isSome_iff_exists.mp hu
  obtain ⟨tag, ht⟩ := Option.isSome_iff_exists.mp ht
  have hlen := hssl.length_ciphertext _ _ _ _ hu
  have h16 : node.bytes.length < 65536 := by rw [node.length_bytes]; exact node.length.toNat_lt
  obtain ⟨hbytes, _⟩ := bytes_cipherNode garbage r.payloadLength.toNat ciphertext (by omega)
  have hfits : ciphertext.length ≤ r.payloadLength.toNat := by omega
  have hloop := cipherLoop_single hu hfits
  obtain ⟨hdi, hdu, hset, hdf⟩ := hssl.decrypt_encrypt _ _ _ _ _ hinit hu hfin ht
  refine ⟨{ r with
      payload := [cipherNode garbage r.payloadLength.toNat ciphertext]
      payloadLength := UInt64.ofNat ciphertext.length
      options := r.options ++ clientCryptoOptions iv tag salt }, tag, ciphertext, ?_,
    ⟨?_, ?_, _, rfl, hbytes⟩, hlen, key, hkey, hdi, hdu, hset, hdf⟩
  · simp only [ffClientEncryptRequest, ffClientEncryptRequestAes256GcmPbkdf2, hkey, hinit,
      ↓reduceIte, hp, List.isEmpty_cons, Bool.false_eq_true, hloop, hfin, ht]
  · change r.options ++ _ = _
    rw [ho, List.nil_append]
  · change (UInt64.ofNat _).toNat = _
    rw [UInt64.toNat_ofNat', Nat.mod_eq_of_lt (by omega)]

end FfProxy
