import FfProxy.Http.DestinationHost
import FfProxy.Memory.Model
import FfProxy.Server.Process

/-!
# A worker in memory

`ff_proxy_process_request` and what it calls, with every block that is allocated, copied or
released: the copies of IV, tag and salt, the derived key, the block for the plaintext, the nodes
that replace the payload, and the host name. Calls of OpenSSL and the network are parameters as in
the model on values; where such a call reads or writes memory, its blocks must be live and large
enough. A function that only reads the request is run on what it reads.
-/

namespace FfProxy
open Base

namespace InMemory

/-! ### Blocks of bytes -/

/-- Read a block of bytes. -/
def loadBytes (block : Nat) : MemM (List UInt8) := load .useAfterFree MemCell.asBytes block

/-- Read the first bytes of a block. -/
def readBytes (p : Option Nat) (length : Nat) : MemM (List UInt8) :=
  match p with
  | none => throw .nullDereference
  | some block => do
    let value ← loadBytes block
    if value.length < length then throw .outOfBounds else return value.take length

/-- Copy bytes into a block. -/
def copyInto (block offset : Nat) (bytes : List UInt8) : MemM Unit := do
  let value ← loadBytes block
  match overwrite value offset bytes with
  | none => throw .outOfBounds
  | some value => store .useAfterFree block (.bytes value)

/-! ### `src/request.c` -/

/-- The copy loop of `ff_request_vectorise_payload`, `src/request.c:121–128`. -/
def copyNodes (target : Nat) : Nat → Option Nat → MemM Unit
  | _, none => pure ()
  | 0, some _ => throw .divergence
  | fuel + 1, some node => do
    let c ← loadNode node
    let bytes ← readBytes c.value c.length.toNat
    copyInto target c.offset.toNat bytes
    ffRequestPayloadNodeFree (some node)
    copyNodes target fuel c.next

/-- `ff_request_vectorise_payload`, `src/request.c:105–131`. -/
def ffRequestVectorisePayload (garbage : Nat → UInt8) (request : Nat) : MemM Unit := do
  let r ← loadRequest request
  match r.payload with
  | none => throw .nullDereference
  | some first => do
    let c ← loadNode first
    if c.next = none then return ()
    else do
      let payload ← ffRequestPayloadNodeAlloc
      let block ← alloc (.bytes (mallocBlock garbage r.fields.payloadLength.toNat))
      storeNode payload ⟨0, r.fields.payloadLength.toUInt16, some block, none⟩
      let fuel ← allocated
      copyNodes block fuel (some first)
      storeRequest request { r with payload := some payload }

/-! ### `src/crypto.c` -/

/-- The variables for the copy of an option's value and for its length. -/
structure Copied where
  block : Nat
  length : UInt16

/-- A copy of an option's value, `src/crypto.c:38–40`. -/
def copyValue (o : OptionCell) : MemM Copied := do
  let value ← readBytes o.value o.length.toNat
  let block ← alloc (.bytes value)
  return ⟨block, o.length⟩

/-- The loop over the options in `ff_decrypt_request`, `src/crypto.c:26–52`, and in
`ff_derive_key`, `src/crypto.c:271–291`, over the indices that are left. A mode is kept in a
variable; the value of an option of a type in `kept` is copied, and the variables of its type are
set to the copy. -/
def scanOptions (modeType : UInt8) (kept : List UInt8) (options : Option Nat) :
    List Nat → UInt8 → (UInt8 → Option Copied) → MemM (UInt8 × (UInt8 → Option Copied))
  | [], mode, copies => pure (mode, copies)
  | i :: rest, mode, copies => do
    let node ← optionAt options i
    let o ← loadOption node
    if o.type = modeType then
      if o.length = 1 then do
        let value ← readBytes o.value 1
        scanOptions modeType kept options rest (value.headD 0) copies
      else scanOptions modeType kept options rest mode copies
    else if o.type ∈ kept then do
      let copy ← copyValue o
      scanOptions modeType kept options rest mode (Function.update copies o.type (some copy))
    else scanOptions modeType kept options rest mode copies

/-- A copy that counts: it is there and it is not empty; `src/crypto.c:73,79,299`. -/
def presentCopy (copy : Option Copied) : Option Copied := copy.filter fun c ↦ c.length ≠ 0

/-- Read a derived key. -/
def loadDerivedKey (key : Nat) : MemM DerivedKeyCell :=
  load .useAfterFree MemCell.asDerivedKey key

/-- `ff_derived_key_alloc`, `src/crypto.c:237–244`. -/
def ffDerivedKeyAlloc (length : UInt16) : MemM Nat := do
  let key ← alloc (.derivedKey ⟨0, none⟩)
  let block ← alloc (.bytes (List.replicate length.toNat 0))
  store .useAfterFree key (.derivedKey ⟨length, some block⟩)
  return key

/-- `ff_derived_key_free`, `src/crypto.c:246–259`. -/
def ffDerivedKeyFree : Option Nat → MemM Unit
  | none => pure ()
  | some key => do
    let c ← loadDerivedKey key
    free c.key
    free (some key)

/-- `ff_derive_key_pbkdf2`, `src/crypto.c:339–364`. -/
def ffDeriveKeyPbkdf2 (ssl : OpenSsl) (config : EncryptionConfig) (salt : Copied) (outKey : Nat) :
    MemM Bool := do
  let bytes ← readBytes (some salt.block) salt.length.toNat
  let c ← loadDerivedKey outKey
  match ssl.pbkdf2 config.key bytes config.pbkdf2Iterations c.length.toNat, c.key with
  | none, _ => return false
  | some _, none => throw .nullDereference
  | some key, some block => do
    copyInto block 0 key
    return true

/-- The choice of the derivation, `src/crypto.c:293–317`. -/
def deriveFrom (ssl : OpenSsl) (config : EncryptionConfig) (mode : UInt8) (salt : Option Copied)
    (outKey : Nat) : MemM Bool :=
  if mode = 0 then return false
  else
    match presentCopy salt with
    | none => return false
    | some salt =>
      if mode = ffKeyDeriveModePbkdf2 then ffDeriveKeyPbkdf2 ssl config salt outKey
      else return false

/-- `ff_derive_key`, `src/crypto.c:261–337`. -/
def ffDeriveKey (ssl : OpenSsl) (config : EncryptionConfig) (request outKey : Nat) :
    MemM Bool := do
  let r ← loadRequest request
  let (mode, copies) ← scanOptions OptionType.keyDeriveMode [OptionType.keyDeriveSalt] r.options
    (List.range r.optionsLength.toNat) 0 fun _ ↦ none
  let derived ← deriveFrom ssl config mode (copies OptionType.keyDeriveSalt) outKey
  free ((copies OptionType.keyDeriveSalt).map Copied.block)
  return derived

/-- The loop that passes the payload through the cipher, `src/crypto.c:172–182`: the bytes that
went in, and how many came out. -/
def cipherLoop (update : List UInt8 → List UInt8 → Option (List UInt8)) (target : Nat) :
    Nat → Option Nat → List UInt8 → Nat → MemM (Option (List UInt8 × Nat))
  | _, none, seen, length => pure (some (seen, length))
  | 0, some _, _, _ => throw .divergence
  | fuel + 1, some node, seen, length => do
    let c ← loadNode node
    let bytes ← readBytes c.value c.length.toNat
    match update seen bytes with
    | none => return none
    | some out => do
      copyInto target length out
      cipherLoop update target fuel c.next (seen ++ bytes) (length + out.length)

/-- The payload goes through a cipher and the tag is checked, `src/crypto.c:172–192`: how long the
plaintext is, or `none` for the jump to `error`. -/
def decryptPayload (ssl : OpenSsl) (key iv : List UInt8) (request : Nat) (tag : Copied)
    (plaintext : Nat) : MemM (Option Nat) := do
  let r ← loadRequest request
  if r.payload = none then throw .nullDereference
  else do
    let fuel ← allocated
    let passed ← cipherLoop (ssl.decryptUpdate key iv) plaintext fuel r.payload [] 0
    match passed with
    | none => return none
    | some (ciphertext, length) => do
      let tag ← readBytes (some tag.block) tag.length.toNat
      return if ssl.setTag tag && ssl.decryptFinal key iv ciphertext tag then some length else none

/-- The calls of the cipher, `src/crypto.c:143–192`. -/
def decryptInto (ssl : OpenSsl) (config : EncryptionConfig) (request : Nat) (iv tag : Copied)
    (plaintext derivedKey : Nat) : MemM (Option Nat) := do
  let derived ← ffDeriveKey ssl config request derivedKey
  if derived then do
    let c ← loadDerivedKey derivedKey
    let key ← readBytes c.key c.length.toNat
    let iv ← readBytes (some iv.block) iv.length.toNat
    if ssl.decryptInit key iv then decryptPayload ssl key iv request tag plaintext
    else return none
  else return none

/-- The plaintext becomes the payload, `src/crypto.c:194–211`. -/
def replacePayload (request plaintext length : Nat) : MemM Unit := do
  modifyFields request fun fields ↦ { fields with payloadLength := UInt64.ofNat length }
  let r ← loadRequest request
  let fuel ← allocated
  freePayload fuel r.payload
  let node ← ffRequestPayloadNodeAlloc
  storeNode node ⟨0, UInt16.ofNat length, some plaintext, none⟩
  storeRequest request { r with payload := some node }

/-- What becomes of the block for the plaintext, `src/crypto.c:192–223`. -/
def settlePlaintext (request plaintext : Nat) : Option Nat → MemM Unit
  | none => free (some plaintext)
  | some length => replacePayload request plaintext length

/-- `ff_decrypt_request_aes_256_gcm`, `src/crypto.c:124–235`. -/
def ffDecryptRequestAes256Gcm (ssl : OpenSsl) (garbage : Nat → UInt8) (config : EncryptionConfig)
    (request : Nat) (iv tag : Copied) : MemM Bool := do
  let r ← loadRequest request
  let plaintext ← alloc (.bytes (mallocBlock garbage r.fields.payloadLength.toNat))
  let derivedKey ← ffDerivedKeyAlloc 32
  let decrypted ← decryptInto ssl config request iv tag plaintext derivedKey
  settlePlaintext request plaintext decrypted
  ffDerivedKeyFree (some derivedKey)
  return decrypted.isSome

/-- What `ff_decrypt_request` does once the options are scanned, `src/crypto.c:54–100`. -/
def decryptWith (ssl : OpenSsl) (garbage : Nat → UInt8) (config : Option EncryptionConfig)
    (request : Nat) (mode : UInt8) (iv tag : Option Copied) : MemM Bool :=
  match config with
  | none => return decide (mode = 0)
  | some config =>
    if mode = 0 then return false
    else
      match presentCopy iv, presentCopy tag with
      | some iv, some tag =>
        if mode = ffCryptoModeAes256Gcm then
          ffDecryptRequestAes256Gcm ssl garbage config request iv tag
        else return false
      | _, _ => return false

/-- `ff_decrypt_request`, `src/crypto.c:14–122`. -/
def ffDecryptRequest (ssl : OpenSsl) (garbage : Nat → UInt8) (config : Option EncryptionConfig)
    (request : Nat) : MemM Unit := do
  modifyFields request fun fields ↦ { fields with state := .decrypting }
  let r ← loadRequest request
  let (mode, copies) ← scanOptions OptionType.encryptionMode
    [OptionType.encryptionIv, OptionType.encryptionTag] r.options
    (List.range r.optionsLength.toNat) 0 fun _ ↦ none
  let decrypted ← decryptWith ssl garbage config request mode (copies OptionType.encryptionIv)
    (copies OptionType.encryptionTag)
  modifyFields request fun fields ↦
    { fields with state := if decrypted then .decrypted else .decryptingFailed }
  free ((copies OptionType.encryptionIv).map Copied.block)
  free ((copies OptionType.encryptionTag).map Copied.block)

/-! ### `src/parser.c` -/

/-- The label `error`, `src/parser.c:417–422`: the node is released, and the request still leads to
it. -/
def refuseOptions (request payload : Nat) : MemM Unit := do
  modifyFields request fun fields ↦ { fields with state := .parsingOptionsFailed }
  ffRequestPayloadNodeFree (some payload)

/-- What follows the options becomes the payload, `src/parser.c:404–422`. -/
def dropOptions (request payload n : Nat) (c : NodeCell) (value : List UInt8) : MemM Unit := do
  let length := UInt16.ofNat (c.length.toNat - n)
  let node ← makeNode 0 length (slice value n (c.length.toNat - n))
  let r ← loadRequest request
  storeRequest request { r with
    fields := { r.fields with payloadLength := length.toUInt64, state := .parsedOptions }
    payload := some node }
  ffRequestPayloadNodeFree (some payload)

/-- `ff_request_parse_options_from_payload`, `src/parser.c:367–423`. -/
def ffRequestParseOptionsFromPayload (request : Nat) : MemM Unit := do
  let r ← loadRequest request
  match r.payload with
  | none => throw .assertion
  | some payload => do
    let c ← loadNode payload
    if c.next ≠ none then throw .assertion
    else do
      modifyFields request fun fields ↦ { fields with state := .parsingOptions }
      if r.fields.payloadContainsOptions then
        match c.value with
        | none => throw .nullDereference
        | some block => do
          let value ← loadBytes block
          if h : c.length.toNat ≤ value.length then do
            let n ← ffRequestParseOptions request ⟨value, c.length.toNat, h⟩
            let r ← loadRequest request
            if n = 0 then
              modifyFields request fun fields ↦ { fields with state := .parsingOptionsFailed }
            else if c.length.toNat ≤ n then refuseOptions request payload
            else if r.fields.payloadContainsOptions then refuseOptions request payload
            else dropOptions request payload n c value
          else throw .outOfBounds
      else modifyFields request fun fields ↦ { fields with state := .parsedOptions }

/-! ### Functions that only read the request -/

/-- The options with the given indices. -/
def readOptions (options : Option Nat) : List Nat → MemM (List OptionNode)
  | [] => pure []
  | i :: rest => do
    let node ← optionAt options i
    let o ← loadOption node
    let value ← readBytes o.value o.length.toNat
    if h : value.length = o.length.toNat then do
      let os ← readOptions options rest
      return ⟨o.type, o.length, value, h⟩ :: os
    else throw .outOfBounds

/-- The nodes of a chain. -/
def readPayload : Nat → Option Nat → MemM (List PayloadNode)
  | _, none => pure []
  | 0, some _ => throw .divergence
  | fuel + 1, some node => do
    let c ← loadNode node
    match c.value with
    | none => throw .nullDereference
    | some block => do
      let value ← loadBytes block
      if h : c.length.toNat ≤ value.length then do
        let ns ← readPayload fuel c.next
        return ⟨c.offset, c.length, value, h⟩ :: ns
      else throw .outOfBounds

/-- What a function can read of a request. -/
def readRequest (request : Nat) : MemM Request := do
  let r ← loadRequest request
  let options ← readOptions r.options (List.range r.optionsLength.toNat)
  let fuel ← allocated
  let payload ← readPayload fuel r.payload
  return { r.fields with options := options, payload := payload }

/-- `ff_http_send_request`, `src/http.c:21–81`. The host name has a block of its own, which
`ff_http_get_destination_host` allocates and on every way out is released. -/
def ffHttpSendRequest (up : Upstream) (garbage : Nat → UInt8) (request : Nat) : MemM Request := do
  let q ← readRequest request
  let hostName ← alloc (.bytes (mallocBlock garbage (posixHostNameMax + 1)))
  modifyFields request fun fields ↦ { fields with state := (FfProxy.ffHttpSendRequest up q).state }
  free (some hostName)
  return q

/-! ### `src/server.c` -/

/-- The stages behind the decryption, `src/server.c:217–242`: the request as it was handed to
`ff_http_send_request`, if it came to that. -/
def processDecrypted (env : Environment) (config : Config) (request : Nat) :
    MemM (Option Request) := do
  let r ← loadRequest request
  if r.fields.state ≠ .decrypted then return none
  else do
    ffRequestParseOptionsFromPayload request
    let r ← readRequest request
    if r.state ≠ .parsedOptions then return none
    else if ffProxyValidateRequestTimestamp config env.now r then do
      let q ← ffHttpSendRequest env.upstream (env.garbage 2) request
      return some q
    else return none

/-- `ff_proxy_process_request`, `src/server.c:207–260`. The table does not belong to the request;
its entry is removed elsewhere. -/
def ffProxyProcessRequest (env : Environment) (config : Config) (args : Nat) :
    MemM (Option Request) := do
  let request ← load .useAfterFree MemCell.asArgs args
  ffRequestVectorisePayload (env.garbage 0) request
  ffDecryptRequest env.ssl (env.garbage 1) config.encryption request
  let forwarded ← processDecrypted env config request
  ffRequestFree (some request)
  free (some args)
  return forwarded

end InMemory

end FfProxy
