import FfProxy.Client.Java
import FfProxy.Envelope

/-!
# Creating the packets of a request

What the clients do with an HTTP message before they cut it into packets. Each of them puts the
options that must stay secret in front of the message, encrypts both if it has a key, and closes
the header with a BREAK. They differ in how they write the time: the Node client loses all but the
low 32 bits, and the Java client has the wrong shift of `writeLong`.
-/

namespace FfProxy
open Base

/-! ### What the clients have in common -/

/-- The settings of a client that creating packets reads. The key is given as the bytes that the
key derivation of the platform takes. -/
structure PortConfig where
  preSharedKey : Option (List UInt8)
  pbkdf2Iterations : UInt32

/-- What creating packets draws from outside: the clock in seconds, the random request id, salt and
IV, and the cipher of the platform, which gives the ciphertext and the tag. -/
structure PortEnvironment where
  now : Nat
  requestId : UInt64
  salt : Block 16
  iv : Block 12
  encrypt : EncryptionConfig → Block 16 → Block 12 → List UInt8 → List UInt8 × Block 16

/-- A client encrypts if its key is neither missing nor empty. -/
def PortConfig.encryption (config : PortConfig) (iterations : UInt32) : Option EncryptionConfig :=
  (config.preSharedKey.filter fun key ↦ decide (key ≠ [])).map fun key ↦ ⟨key, iterations⟩

/-- A time stamp option with the bytes that a client writes. -/
def stampOption (bytes : List UInt8) (h : bytes.length = 8) : OptionNode :=
  ⟨OptionType.timestamp, 8, bytes, h⟩

/-- The secure options of a request. -/
def secureOptions (https : Bool) (timestamp : OptionNode) : List OptionNode :=
  (if https then [.ofByte OptionType.https 1] else []) ++ [timestamp, terminator false]

/-- The size of the buffer for a list of options. -/
def optionBytes (options : List OptionNode) : Nat :=
  (options.map fun o ↦ o.length.toNat + optionHeaderSize).sum

/-- The way from the message to the packets, with the functions of a client for the secure options,
for the encryption and for the packets, and with the option that it closes the header with. -/
def createPackets (serialize : List OptionNode → Except ClientFault (List UInt8))
    (packetise : List OptionNode → List UInt8 → Except ClientFault (List UdpPacket))
    (encrypt : EncryptionConfig → List UInt8 → List UInt8 × Block 16) (env : PortEnvironment)
    (encryption : Option EncryptionConfig) (secure : List OptionNode) (last : OptionNode)
    (message : List UInt8) : Except ClientFault (List UdpPacket) := do
  let front ← serialize secure
  match encryption with
  | none => packetise [last] (front ++ message)
  | some config =>
    let (ciphertext, tag) := encrypt config (front ++ message)
    packetise (clientCryptoOptions env.iv tag env.salt ++ [last]) ciphertext

/-! ### Node -/

namespace Node

/-- `x & y` on numbers. -/
def bitAnd (x y : Int) : Int := (BitVec.ofInt 32 x &&& BitVec.ofInt 32 y).toInt

/-- `x >> n` on numbers: the shift counts modulo 32. -/
def shiftRight (x : Int) (n : Nat) : Int := (BitVec.ofInt 32 x).toInt >>> (n % 32)

/-- `_getCurrentTimestampBuffer`, `client/node/src/client.ts:187–205`. -/
def getCurrentTimestampBuffer (now : Nat) : List UInt8 :=
  let nowHigh32 := bitAnd now (shiftRight 0xffffffff000000000 32)
  let nowLow32 := bitAnd now 0xffffffff
  numberBytes 4 nowHigh32 ++ numberBytes 4 nowLow32

theorem length_getCurrentTimestampBuffer (now : Nat) :
    (getCurrentTimestampBuffer now).length = 8 := by
  simp [getCurrentTimestampBuffer, numberBytes]

/-- `_createSecureOptions`, `client/node/src/client.ts:150–173`. -/
def createSecureOptions (https : Bool) (now : Nat) : List OptionNode :=
  secureOptions https (stampOption _ (length_getCurrentTimestampBuffer now))

/-- `_serializeRequestOptions`, `client/node/src/client.ts:175–185`. -/
def serializeRequestOptions (options : List OptionNode) : List UInt8 :=
  (writeRequestOptions (Cursor.start (optionBytes options)) options).buff

/-- `config.pbkdf2Iterations || 1000`, `client/node/src/client.ts:221`; 0 also stands for a setting
that is not given. -/
def pbkdf2Iterations (config : PortConfig) : UInt32 :=
  if config.pbkdf2Iterations = 0 then 1000 else config.pbkdf2Iterations

/-- `_createRequestPackets`, `client/node/src/client.ts:86–148`. -/
def createRequestPackets (fuel : Nat) (env : PortEnvironment) (config : PortConfig) (https : Bool)
    (message : List UInt8) : Except ClientFault (List UdpPacket) :=
  createPackets (fun options ↦ .ok (serializeRequestOptions options))
    (fun options payload ↦
      packetiseRequest fuel ⟨beBytes 8 env.requestId.toNat, payload, options⟩)
    (fun encryption ↦ env.encrypt encryption env.salt env.iv) env
    (config.encryption (pbkdf2Iterations config)) (createSecureOptions https env.now)
    (terminator true) message

/-- What `sendRequest` hands to the socket, `client/node/src/client.ts:66–76`: the whole block of a
packet. -/
def datagram (p : UdpPacket) : List UInt8 := p.payload

end Node

/-! ### Python -/

namespace Python

/-- `create_secure_options` with `get_current_timestamp_bytes`,
`client/python/ff_client/ff_client.py:70–87`. -/
def createSecureOptions (https : Bool) (now : Nat) : Except ClientFault (List OptionNode) :=
  if now < UInt64.size then .ok (secureOptions https (timestampOption now)) else .error .structError

/-- `serialize_secure_options`, `client/python/ff_client/ff_client.py:89–95`. -/
def serializeSecureOptions (options : List OptionNode) : Except ClientFault (List UInt8) := do
  let c ← writeRequestOptions (Cursor.start (optionBytes options)) options
  return c.buff

/-- `create_request_packets`, `client/python/ff_client/ff_client.py:50–68`. The ciphertext is
`bytes`, the plaintext a `bytearray`; they are packetised alike. -/
def createRequestPackets (fuel : Nat) (env : PortEnvironment) (config : PortConfig) (https : Bool)
    (message : List UInt8) : Except ClientFault (List UdpPacket) := do
  let secure ← createSecureOptions https env.now
  createPackets serializeSecureOptions
    (fun options payload ↦ packetiseRequest fuel ⟨1, env.requestId.toNat, options, .bytes payload⟩)
    (fun encryption ↦ env.encrypt encryption env.salt env.iv) env
    (config.encryption config.pbkdf2Iterations) secure (terminator true) message

end Python

/-- A scheme is `https`, whatever its case. -/
def isHttps (scheme : List Char) : Bool := scheme.map Char.toLower = ['h', 't', 't', 'p', 's']

/-! ### .NET -/

namespace DotNet

/-- `GetCurrentTimestampBytes`, `client/dotnet/src/FfClient.cs:133–140`. -/
def getCurrentTimestampBytes (now : Nat) : List UInt8 :=
  leBytes 8 (hostToNetworkOrder 8 (now % UInt64.size))

theorem length_getCurrentTimestampBytes (now : Nat) :
    (getCurrentTimestampBytes now).length = 8 := by
  simp [getCurrentTimestampBytes]

/-- `CreateRequestSecureOptions`, `client/dotnet/src/FfClient.cs:110–131`. -/
def createRequestSecureOptions (scheme : List Char) (now : Nat) : List OptionNode :=
  secureOptions (isHttps scheme) (stampOption _ (length_getCurrentTimestampBytes now))

/-- `SerializeRequestOptions`, `client/dotnet/src/FfClient.cs:101–108`. -/
def serializeRequestOptions (options : List OptionNode) : Except ClientFault (List UInt8) := do
  let c ← writeOptions (Cursor.start (options.map fun o ↦ o.value.length + optionHeaderSize).sum)
    options
  return c.buff

/-- `CreateRequestPackets`, `client/dotnet/src/FfClient.cs:64–99`. -/
def createRequestPackets (fuel : Nat) (env : PortEnvironment) (config : PortConfig)
    (scheme : List Char) (message : List UInt8) : Except ClientFault (List UdpPacket) :=
  let secure := createRequestSecureOptions scheme env.now
  createPackets serializeRequestOptions
    (fun options payload ↦ packetiseRequest fuel ⟨1, env.requestId, options, payload⟩)
    (fun encryption ↦ env.encrypt encryption env.salt env.iv) env
    (config.encryption config.pbkdf2Iterations) secure
    (terminator (decide (secure.length ≠ 0))) message

end DotNet

/-! ### Java -/

namespace Java

/-- `getCurrentTimestampBytes`, `FfClient.java:141–147`. -/
def getCurrentTimestampBytes (now : Nat) : List UInt8 := longBytes (UInt64.ofNat now)

theorem length_getCurrentTimestampBytes (now : Nat) :
    (getCurrentTimestampBytes now).length = 8 := rfl

/-- `createRequestSecureOptions`, `FfClient.java:125–139`. -/
def createRequestSecureOptions (scheme : List Char) (now : Nat) : List OptionNode :=
  secureOptions (isHttps scheme) (stampOption _ (length_getCurrentTimestampBytes now))

/-- `serializeOptions`, `FfClient.java:115–123`. -/
def serializeOptions (options : List OptionNode) : Except ClientFault (List UInt8) := do
  let c ← writeRequestOptions (Cursor.start (optionBytes options)) options
  return c.buff

theorem length_drop_tag (ciphertext : List UInt8) (tag : Block 16) :
    ((ciphertext ++ tag.val).drop ((ciphertext ++ tag.val).length - 16)).length = 16 := by
  simp [tag.property]

/-- The cut behind the ciphertext in what `doFinal` returns, `FfClient.java:226–230`. -/
def splitTag (ciphertext : List UInt8) (tag : Block 16) : List UInt8 × Block 16 :=
  ((ciphertext ++ tag.val).take ((ciphertext ++ tag.val).length - 16),
    ⟨(ciphertext ++ tag.val).drop ((ciphertext ++ tag.val).length - 16),
      length_drop_tag ciphertext tag⟩)

/-- `encryptPayload`, `FfClient.java:205–255`, up to the options that it adds. -/
def encryptPayload (env : PortEnvironment) (encryption : EncryptionConfig) (payload : List UInt8) :
    List UInt8 × Block 16 :=
  splitTag (env.encrypt encryption env.salt env.iv payload).1
    (env.encrypt encryption env.salt env.iv payload).2

/-- `createRequestPackets`, `FfClient.java:89–113`. -/
def createRequestPackets (fuel : Nat) (env : PortEnvironment) (config : PortConfig)
    (scheme : List Char) (message : List UInt8) : Except ClientFault (List UdpPacket) :=
  createPackets serializeOptions
    (fun options payload ↦ packetiseRequest fuel ⟨env.requestId, options, payload⟩)
    (encryptPayload env) env (config.encryption config.pbkdf2Iterations)
    (createRequestSecureOptions scheme env.now) (terminator true) message

end Java

/-- The clients other than the C client, with what says whether they ask for HTTPS: a flag, or the
scheme of a URI. -/
inductive Port
  | node (https : Bool)
  | python (https : Bool)
  | dotnet (scheme : List Char)
  | java (scheme : List Char)

namespace Port

/-- Whether a client asks for HTTPS. -/
def https : Port → Bool
  | node https => https
  | python https => https
  | dotnet scheme => isHttps scheme
  | java scheme => isHttps scheme

/-- The packets that a client creates for a message. -/
def createRequestPackets (fuel : Nat) (env : PortEnvironment) (config : PortConfig)
    (message : List UInt8) : Port → Except ClientFault (List UdpPacket)
  | node https => Node.createRequestPackets fuel env config https message
  | python https => Python.createRequestPackets fuel env config https message
  | dotnet scheme => DotNet.createRequestPackets fuel env config scheme message
  | java scheme => Java.createRequestPackets fuel env config scheme message

/-- The key and the iterations that a client encrypts with. -/
def encryption (config : PortConfig) : Port → Option EncryptionConfig
  | node _ => config.encryption (Node.pbkdf2Iterations config)
  | _ => config.encryption config.pbkdf2Iterations

/-- What a client sends of a packet. -/
def datagram (p : UdpPacket) : Port → List UInt8
  | node _ => Node.datagram p
  | _ => p.sent

/-- The id under which the packets of a client arrive. -/
def wireId (requestId : UInt64) : Port → UInt64
  | java _ => Java.decodedLong requestId
  | _ => requestId

/-- The time stamp that arrives. -/
def wireStamp (now : Nat) : Port → Nat
  | node _ => now % UInt32.size
  | java _ => (Java.decodedLong (UInt64.ofNat now)).toNat
  | _ => now

/-- The options in front of the message, as they arrive. -/
def hiddenOptions (port : Port) (now : Nat) : List OptionNode :=
  (if port.https then [.ofByte OptionType.https 1] else []) ++
    [timestampOption (port.wireStamp now)]

end Port

/-! ### Serialised options -/

/-- The buffer for a list of options has room for exactly these options. -/
theorem length_ffClientWriteOptions (os : List OptionNode) :
    (ffClientWriteOptions os).length = optionBytes os := by
  induction os with
  | nil => rfl
  | cons o os ih =>
    rw [ffClientWriteOptions_cons, optionBytes, List.map_cons, List.sum_cons, ← optionBytes, ← ih]
    simp only [List.length_append, List.length_singleton, length_beBytes, o.length_eq,
      optionHeaderSize]
    omega

/-- A block that is filled to its end. -/
private theorem buff_filled {size : Nat} {bytes : List UInt8} (h : bytes.length = size) :
    (Cursor.filled size ([] ++ bytes)).buff = bytes := by
  rw [Cursor.filled, List.nil_append, h, Nat.sub_self]
  exact List.append_nil bytes

section Serialise

variable (os : List OptionNode)

theorem Node.serializeRequestOptions_eq :
    Node.serializeRequestOptions os = ffClientWriteOptions os := by
  have hlen := length_ffClientWriteOptions os
  rw [Node.serializeRequestOptions, Cursor.start_eq,
    Node.writeRequestOptions_filled os (by simp [hlen]), buff_filled hlen]

theorem Python.serializeSecureOptions_eq :
    Python.serializeSecureOptions os = .ok (ffClientWriteOptions os) := by
  have hlen := length_ffClientWriteOptions os
  rw [Python.serializeSecureOptions, Cursor.start_eq,
    bind_of_ok (Python.writeRequestOptions_filled os (by simp [hlen])), buff_filled hlen]
  rfl

theorem DotNet.serializeRequestOptions_eq :
    DotNet.serializeRequestOptions os = .ok (ffClientWriteOptions os) := by
  have hlen := length_ffClientWriteOptions os
  have hsize : (os.map fun o ↦ o.value.length + optionHeaderSize).sum = optionBytes os := by
    simp only [optionBytes, OptionNode.length_eq]
  rw [DotNet.serializeRequestOptions, hsize, Cursor.start_eq,
    bind_of_ok (DotNet.writeOptions_filled os (by simp [hlen])), buff_filled hlen]
  rfl

theorem Java.serializeOptions_eq (h : optionBytes os ≤ maxPacketLength) :
    Java.serializeOptions os = .ok (ffClientWriteOptions os) := by
  have hlen := length_ffClientWriteOptions os
  rw [Java.serializeOptions, Cursor.start_eq,
    bind_of_ok (Java.writeRequestOptions_filled os h (by simp [hlen])), buff_filled hlen]
  rfl

end Serialise

/-! ### Time stamps -/

/-- The bytes of a signed 32-bit number. -/
private theorem Node.shiftedByte_bmod (v : Nat) {shift : Nat}
    (h : shift = 24 ∨ shift = 16 ∨ shift = 8 ∨ shift = 0) :
    Node.shiftedByte ((v : Int).bmod (2 ^ 32)) shift =
      UInt8.ofNat (v % UInt32.size / 2 ^ shift % 256) := by
  rw [Node.shiftedByte, Int.bmod_bmod, Int.shiftRight_eq_div_pow, Int.bmod_def, UInt32.size]
  refine congrArg UInt8.ofNat ?_
  rcases h with rfl | rfl | rfl | rfl
  all_goals
    split
    · omega
    · omega

/-- The high half of the time is lost. -/
theorem Node.getCurrentTimestampBuffer_eq (now : Nat) :
    Node.getCurrentTimestampBuffer now = beBytes 8 (now % UInt32.size) := by
  have hhigh : Node.bitAnd now (Node.shiftRight 0xffffffff000000000 32) = 0 := by
    rw [show Node.shiftRight 0xffffffff000000000 32 = 0 from rfl, Node.bitAnd]
    simp
  have hlow : Node.bitAnd now 0xffffffff = (now : Int).bmod (2 ^ 32) := by
    have hones : BitVec.ofInt 32 0xffffffff = BitVec.allOnes 32 := rfl
    rw [Node.bitAnd, hones, BitVec.and_allOnes, BitVec.toInt_ofInt]
  have hlt : now % UInt32.size < UInt32.size := Nat.mod_lt _ (by decide)
  rw [Node.getCurrentTimestampBuffer, hhigh, hlow]
  have hfour (x : Int) : Node.numberBytes 4 x = [Node.shiftedByte x 24, Node.shiftedByte x 16,
    Node.shiftedByte x 8, Node.shiftedByte x 0] := rfl
  have hzero : Node.numberBytes 4 0 = [0, 0, 0, 0] := by decide
  rw [hzero, hfour, Node.shiftedByte_bmod _ (by simp), Node.shiftedByte_bmod _ (by simp),
    Node.shiftedByte_bmod _ (by simp), Node.shiftedByte_bmod _ (by simp)]
  generalize now % UInt32.size = w at hlt ⊢
  rw [UInt32.size] at hlt
  have hhigh : ∀ n ≥ 2 ^ 32, w / n = 0 := fun n hn ↦ Nat.div_eq_of_lt (by omega)
  simp [beBytes, leBytes, Nat.div_div_eq_div_mul, hhigh]

/-- The option that a client writes is a time stamp of the number that arrives. -/
theorem stampOption_eq {bytes : List UInt8} {h : bytes.length = 8} {stamp : Nat}
    (hbytes : bytes = beBytes 8 stamp) : stampOption bytes h = timestampOption stamp :=
  OptionNode.ext rfl rfl hbytes

theorem Node.createSecureOptions_eq (https : Bool) (now : Nat) :
    Node.createSecureOptions https now =
      (Port.node https).hiddenOptions now ++ [terminator false] := by
  rw [Node.createSecureOptions, stampOption_eq (Node.getCurrentTimestampBuffer_eq now),
    secureOptions, Port.hiddenOptions, List.append_assoc]
  rfl

theorem DotNet.createRequestSecureOptions_eq (scheme : List Char) {now : Nat}
    (hnow : now < UInt64.size) : DotNet.createRequestSecureOptions scheme now =
      (Port.dotnet scheme).hiddenOptions now ++ [terminator false] := by
  have hbytes : DotNet.getCurrentTimestampBytes now = beBytes 8 now := by
    rw [DotNet.getCurrentTimestampBytes, DotNet.hostToNetworkOrder, leBytes_beValue_leBytes,
      Nat.mod_eq_of_lt hnow]
  rw [DotNet.createRequestSecureOptions, stampOption_eq hbytes, secureOptions, Port.hiddenOptions,
    List.append_assoc]
  rfl

theorem Java.createRequestSecureOptions_eq (scheme : List Char) (now : Nat) :
    Java.createRequestSecureOptions scheme now =
      (Port.java scheme).hiddenOptions now ++ [terminator false] := by
  have hbytes : Java.getCurrentTimestampBytes now =
    beBytes 8 (Java.decodedLong (UInt64.ofNat now)).toNat := Java.longBytes_eq _
  rw [Java.createRequestSecureOptions, stampOption_eq hbytes, secureOptions, Port.hiddenOptions,
    List.append_assoc]
  rfl

/-! ### What the packets convey -/

/-- The Java client emits the packets of the C client for the id that arrives. -/
theorem Java.agrees (requestId : UInt64) {r : FfProxy.Request} {os : List OptionNode}
    {payload : List UInt8} (hr : r.Carries os payload)
    (hroom : requestHeaderSize + (ffClientWriteOptions os).length < maxPacketLength) {fuel : Nat}
    (hfuel : payload.length ≤ fuel) :
    ∃ packets, ffClientPacketiseRequest (Java.decodedLong requestId) r = .ok packets ∧
      Java.packetiseRequest fuel ⟨requestId, os, payload⟩ = .ok (packets.map padded) := by
  obtain ⟨rfl, htotal, node, hp, rfl⟩ := hr
  have hlen : node.bytes.length < 65536 := by
    rw [node.length_bytes]
    exact node.length.toNat_lt
  have hw := Java.writesPackets requestId r.options (show node.bytes.length < 2 ^ 31 by omega)
    (Nat.le_of_lt hroom)
  have htotal' : r.payloadLength.toUInt32 = UInt32.ofNat node.bytes.length := by
    rw [← htotal, ← UInt32.toNat_inj, UInt64.toNat_toUInt32, UInt32.toNat_ofNat']
  obtain ⟨packets, hc, hpackets⟩ := packetLoop_agrees hw hroom (List.take_prefix _ _) htotal' hfuel
    (Nat.zero_add _)
  refine ⟨packets, ?_, hpackets⟩
  rw [ffClientPacketiseRequest, hp]
  dsimp only
  rw [htotal, Nat.mod_eq_of_lt hlen]
  exact hc

/-- The ciphertext and the tag are cut apart where they were joined. -/
theorem Java.splitTag_eq (ciphertext : List UInt8) (tag : Block 16) :
    Java.splitTag ciphertext tag = (ciphertext, tag) := by
  have hlength : (ciphertext ++ tag.val).length - 16 = ciphertext.length := by
    simp [tag.property]
  apply Prod.ext
  · change (ciphertext ++ tag.val).take _ = ciphertext
    rw [hlength, List.take_left]
  · apply Subtype.ext
    change (ciphertext ++ tag.val).drop _ = tag.val
    rw [hlength, List.drop_left]

section Conveys

variable {ssl : OpenSsl} {env : PortEnvironment} {message : List UInt8}

/-- A client conveys its message if it writes the secure options and the packets as the C client
does, and if its ciphertexts open. -/
theorem createPackets_conveys {serialize : List OptionNode → Except ClientFault (List UInt8)}
    {packetise : Nat → List OptionNode → List UInt8 → Except ClientFault (List UdpPacket)}
    {encrypt : EncryptionConfig → List UInt8 → List UInt8 × Block 16}
    {encryption : Option EncryptionConfig} {hidden : List OptionNode} {k : UInt64}
    (hserialize : serialize (hidden ++ [terminator false]) = .ok (encodeOptions hidden false))
    (hpacketise : ∀ {fuel os payload} {r : Request}, r.Carries os payload →
      requestHeaderSize + (ffClientWriteOptions os).length < maxPacketLength →
      payload.length ≤ fuel → ∃ packets, ffClientPacketiseRequest k r = .ok packets ∧
        packetise fuel os payload = .ok (packets.map padded))
    (hopens : ∀ config plaintext, Opens ssl config env.salt env.iv (encrypt config plaintext).2
      (encrypt config plaintext).1 plaintext)
    (hne : message ≠ []) (hsize : (encodeOptions hidden false).length + message.length ≤ 65535)
    (hdata : ∀ o ∈ hidden, o.IsData) (hslots : hidden.length ≤ 2) :
    ∃ packets header,
      (∀ fuel ≥ 65535, createPackets serialize (packetise fuel) encrypt env encryption
        (hidden ++ [terminator false]) (terminator true) message = .ok (packets.map padded)) ∧
      (header = [] ∨ ∃ tag, header = clientCryptoOptions env.iv tag env.salt) ∧
      Conveys ssl encryption k packets header hidden message := by
  have hmax : ffRequestMaxOptions = 20 := rfl
  have hplain : encodeOptions hidden false ++ message ≠ [] :=
    fun h ↦ hne (List.append_eq_nil_iff.mp h).2
  have hlength : (encodeOptions hidden false ++ message).length ≤ 65535 := by
    rwa [List.length_append]
  simp only [createPackets, bind_of_ok hserialize]
  cases encryption with
  | none =>
    obtain ⟨r, hr⟩ := Client.exists_carries ([] ++ [terminator true])
      (Nat.lt_succ_of_le hlength)
    have hclear : SealedAs ssl none [] (encodeOptions hidden false ++ message)
      (encodeOptions hidden false ++ message) := .clear _
    obtain ⟨packets, hrun, hconveys⟩ := exists_conveys k hr hclear hplain hne (by simp) hdata
      (by rw [List.length_nil]; omega) (by decide)
    refine ⟨packets, [], fun fuel hfuel ↦ ?_, Or.inl rfl, hconveys⟩
    obtain ⟨packets', hrun', hpackets⟩ := hpacketise hr (by decide) (Nat.le_trans hlength hfuel)
    obtain rfl := Except.ok.inj (hrun.symm.trans hrun')
    exact hpackets
  | some config =>
    have hopen := hopens config (encodeOptions hidden false ++ message)
    dsimp only
    generalize (encrypt config (encodeOptions hidden false ++ message)).1 = ciphertext at hopen ⊢
    generalize (encrypt config (encodeOptions hidden false ++ message)).2 = tag at hopen ⊢
    have hcipher := hopen.length
    have hcne : ciphertext ≠ [] := by
      rw [← List.length_pos_iff, hcipher, List.length_pos_iff]
      exact hplain
    obtain ⟨r, hr⟩ := Client.exists_carries
      (clientCryptoOptions env.iv tag env.salt ++ [terminator true])
      (show ciphertext.length < 65536 by omega)
    have hroom : requestHeaderSize + (encodeOptions (clientCryptoOptions env.iv tag env.salt)
        true).length < ffClientMaxPacketLength := by
      rw [length_encode_clientCryptoOptions]
      decide
    have hfive : (clientCryptoOptions env.iv tag env.salt).length = 5 := rfl
    obtain ⟨packets, hrun, hconveys⟩ := exists_conveys k hr
      (.encrypted (.of_opens hopen) hcipher.symm) hcne hne isData_clientCryptoOptions hdata
      (by omega) hroom
    refine ⟨packets, _, fun fuel hfuel ↦ ?_, Or.inr ⟨tag, rfl⟩, hconveys⟩
    obtain ⟨packets', hrun', hpackets⟩ := hpacketise hr hroom
      (show ciphertext.length ≤ fuel by omega)
    obtain rfl := Except.ok.inj (hrun.symm.trans hrun')
    exact hpackets

namespace Port

theorem isData_hiddenOptions (port : Port) (now : Nat) :
    ∀ o ∈ port.hiddenOptions now, o.IsData := by
  cases h : port.https <;> simp [hiddenOptions, h, timestampOption, OptionNode.ofByte,
    OptionNode.IsData, OptionType.https, OptionType.timestamp, OptionType.eol,
    OptionType.breakOption]

theorem length_hiddenOptions (port : Port) (now : Nat) : (port.hiddenOptions now).length ≤ 2 := by
  cases h : port.https <;> simp [hiddenOptions, h]

/-- The packets of every client convey its message. -/
theorem exists_conveys (port : Port) (config : PortConfig)
    (hopens : ∀ encryption plaintext, Opens ssl encryption env.salt env.iv
      (env.encrypt encryption env.salt env.iv plaintext).2
      (env.encrypt encryption env.salt env.iv plaintext).1 plaintext)
    (hnow : env.now < UInt64.size) (hne : message ≠ [])
    (hsize : (encodeOptions (port.hiddenOptions env.now) false).length + message.length ≤ 65535) :
    ∃ packets header, (∀ fuel ≥ 65535, port.createRequestPackets fuel env config message =
        .ok (packets.map padded)) ∧
      (header = [] ∨ ∃ tag, header = clientCryptoOptions env.iv tag env.salt) ∧
      Conveys ssl (port.encryption config) (port.wireId env.requestId) packets header
        (port.hiddenOptions env.now) message := by
  have hdata := port.isData_hiddenOptions env.now
  have hslots := port.length_hiddenOptions env.now
  cases port with
  | node https =>
    simp only [createRequestPackets, Node.createRequestPackets, Node.createSecureOptions_eq]
    refine createPackets_conveys (congrArg _ (Node.serializeRequestOptions_eq _))
      (fun hr hroom hfuel ↦ ?_) hopens hne hsize hdata hslots
    exact Client.node.agrees env.requestId hr hroom hfuel
  | python https =>
    have hsecure : Python.createSecureOptions https env.now =
        .ok ((Port.python https).hiddenOptions env.now ++ [terminator false]) := by
      rw [Python.createSecureOptions, if_pos hnow, secureOptions, hiddenOptions, List.append_assoc]
      rfl
    simp only [createRequestPackets, Python.createRequestPackets, bind_of_ok hsecure]
    refine createPackets_conveys (Python.serializeSecureOptions_eq _) (fun hr hroom hfuel ↦ ?_)
      hopens hne hsize hdata hslots
    exact Client.python.agrees env.requestId hr hroom hfuel
  | dotnet scheme =>
    have hclose : decide (((Port.dotnet scheme).hiddenOptions env.now ++
        [terminator false]).length ≠ 0) = true := by
      simp
    simp only [createRequestPackets, DotNet.createRequestPackets,
      DotNet.createRequestSecureOptions_eq scheme hnow, hclose]
    refine createPackets_conveys (DotNet.serializeRequestOptions_eq _) (fun hr hroom hfuel ↦ ?_)
      hopens hne hsize hdata hslots
    exact Client.dotnet.agrees env.requestId hr hroom hfuel
  | java scheme =>
    have hshort : optionBytes ((Port.java scheme).hiddenOptions env.now ++ [terminator false]) ≤
        maxPacketLength := by
      rw [hiddenOptions]
      split <;> exact Nat.le_of_ble_eq_true rfl
    simp only [createRequestPackets, Java.createRequestPackets, Java.createRequestSecureOptions_eq]
    refine createPackets_conveys (Java.serializeOptions_eq _ hshort) (fun hr hroom hfuel ↦ ?_)
      (fun encryption plaintext ↦ ?_) hne hsize hdata hslots
    · exact Java.agrees env.requestId hr hroom hfuel
    · rw [Java.encryptPayload, Java.splitTag_eq]
      exact hopens encryption plaintext

end Port

end Conveys

end FfProxy
