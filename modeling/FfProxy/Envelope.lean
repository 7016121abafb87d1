import FfProxy.Client.Build
import FfProxy.Delivery
import FfProxy.Parser.Padding
import FfProxy.Parser.PayloadOptions
import FfProxy.Server.Process

/-!
# What packets convey

Packets carry the chunks of a body, the body stands for a plaintext, and the plaintext is a list of
options in front of a message. A worker undoes these layers one after the other, whichever client
made them: all a client has to do is to send packets that convey its message.
-/

namespace FfProxy
open Base

/-! ### The body -/

/-- How a body stands for a plaintext: in the clear where no key is set, and otherwise encrypted
as the header says. -/
inductive SealedAs (ssl : OpenSsl) :
    Option EncryptionConfig → List OptionNode → List UInt8 → List UInt8 → Prop
  | clear (plaintext : List UInt8) : SealedAs ssl none [] plaintext plaintext
  | encrypted {config : EncryptionConfig} {header : List OptionNode} {data plaintext : List UInt8}
      (hopen : OpensTo ssl config header data plaintext)
      (hlength : plaintext.length = data.length) : SealedAs ssl (some config) header data plaintext

section Body

variable {ssl : OpenSsl} {encryption : Option EncryptionConfig} {header : List OptionNode}
  {body plaintext : List UInt8}

/-- Decryption leaves the plaintext. -/
theorem ffDecryptRequest_sealedAs (h : SealedAs ssl encryption header body plaintext)
    (garbage : Nat → UInt8) {r : Request} (hr : r.Carries header body) :
    ∃ r', ffDecryptRequest ssl garbage encryption r = .ok r' ∧ r'.state = .decrypted ∧
      r'.Carries header plaintext ∧ r'.payloadContainsOptions = r.payloadContainsOptions := by
  obtain ⟨ho, hl, node, hp, hb⟩ := hr
  cases h with
  | clear =>
    have hmode : scanMode OptionType.encryptionMode r.options = 0 := by
      rw [ho]
      rfl
    exact ⟨_, ffDecryptRequest_of_no_key ssl garbage hmode, rfl, ⟨ho, hl, node, hp, hb⟩, rfl⟩
  | @encrypted config _ _ _ hopen hlength =>
    obtain ⟨key, hkey, hgcm⟩ := hopen.opens
    rw [← hb] at hgcm hlength
    rw [gcmOpen] at hgcm
    split at hgcm
    · next hinit =>
      obtain ⟨hupdate, hfinal⟩ := Option.filter_eq_some_iff.mp hgcm
      rw [Bool.and_eq_true] at hfinal
      have h16 : node.bytes.length < 65536 := by
        rw [node.length_bytes]
        exact node.length.toNat_lt
      obtain ⟨hbytes, _⟩ := bytes_cipherNode garbage r.payloadLength.toNat plaintext (by omega)
      have hderived : ffDeriveKey ssl config r.options = some key := by
        rw [ffDeriveKey, present_scanValue, scanMode_eq_lastMode, ho, if_neg hopen.salt]
        simp only [hopen.deriveMode, ↓reduceIte, ffDeriveKeyPbkdf2, hkey]
      refine ⟨_, ffDecryptRequest_of_accepted ssl garbage _ hp ?_ ?_ ?_ hderived hinit hupdate ?_
        hfinal.1 hfinal.2, rfl, ⟨ho, ?_, _, rfl, hbytes⟩, rfl⟩
      · rw [scanMode_eq_lastMode, ho, hopen.mode]
      · rw [present_scanValue, ho, if_neg hopen.iv]
      · rw [present_scanValue, ho, if_neg hopen.tag]
      · rw [hl, hlength, hb]
      · exact UInt64.toNat_ofNat_of_lt' (Nat.lt_trans (by omega) (by decide : 65536 < UInt64.size))
    · cases hgcm

/-- What the options of the clients say about the cipher. -/
theorem OpensTo.of_opens {config : EncryptionConfig} {salt : Block 16} {iv : Block 12}
    {tag : Block 16} {ciphertext : List UInt8}
    (h : Opens ssl config salt iv tag ciphertext plaintext) :
    OpensTo ssl config (clientCryptoOptions iv tag salt) ciphertext plaintext := by
  have hne {n : Nat} (b : Block (n + 1)) : b.val ≠ [] := fun h ↦ by simpa [h] using b.property
  obtain ⟨key, hkey, hinit, hupdate, hset, hfinal⟩ := h.opens
  refine ⟨rfl, rfl, hne iv, hne tag, hne salt, key, hkey, ?_⟩
  change gcmOpen ssl key iv.val tag.val ciphertext = some plaintext
  rw [gcmOpen, if_pos hinit, hupdate]
  simp [Option.filter, hset, hfinal]

end Body

/-! ### The options in the payload -/

/-- A closed option list in front of the message is split off and goes behind the header
options. -/
theorem ffRequestParseOptionsFromPayload_carries {r : Request} {header os : List OptionNode}
    {message : List UInt8} (hr : r.Carries header (encodeOptions os false ++ message))
    (hc : r.payloadContainsOptions = true) (hne : message ≠ []) (hd : ∀ o ∈ os, o.IsData)
    (hlt : header.length + os.length < ffRequestMaxOptions) :
    ∃ r', ffRequestParseOptionsFromPayload r = .ok r' ∧ r'.state = .parsedOptions ∧
      r'.Carries (header ++ os) message := by
  obtain ⟨rfl, hl, node, hp, hb⟩ := hr
  have hlen := node.length_bytes
  have hpos := List.length_pos_iff.mpr hne
  rw [hb, List.length_append] at hlen
  have hparse := ffRequestParseOptions_of_encoded r node.buffer os false hlt hd
    (by rw [PayloadNode.bytes_buffer, hb]; exact List.prefix_append _ _)
  have hrun := ffRequestParseOptionsFromPayload_of_taken r node os hp hc hparse (by omega)
  refine ⟨_, hrun, rfl, rfl, ?_, _, rfl, ?_⟩
  · change (UInt16.toUInt64 _).toNat = _
    rw [UInt16.toNat_toUInt64, PayloadNode.length_dropOptions]
    omega
  · rw [PayloadNode.bytes_dropOptions, hb, List.drop_left]

/-! ### The packets -/

/-- The packets of a request convey options and a message to a proxy with the given key: some of
the options in the header of the first packet, the others in front of the message. -/
structure Conveys (ssl : OpenSsl) (encryption : Option EncryptionConfig) (requestId : UInt64)
    (packets : List (List UInt8)) (header hidden : List OptionNode) (message : List UInt8) :
    Prop where
  stream : ∃ total first chunks, PacketStream requestId total header true first chunks packets ∧
    total.toNat < 65536 ∧ 0 < first.data.length ∧
    SealedAs ssl encryption header ((first :: chunks).flatMap PayloadChunk.data)
      (encodeOptions hidden false ++ message)
  message_ne : message ≠ []
  hidden_data : ∀ o ∈ hidden, o.IsData
  slots : header.length + hidden.length < ffRequestMaxOptions

/-- What the C client's packetiser makes of a sealed body conveys the message. -/
theorem exists_conveys {ssl : OpenSsl} {encryption : Option EncryptionConfig}
    (requestId : UInt64) {header hidden : List OptionNode} {body message : List UInt8}
    {r : Request} (hr : r.Carries (header ++ [terminator true]) body)
    (hsealed : SealedAs ssl encryption header body (encodeOptions hidden false ++ message))
    (hbody : body ≠ []) (hne : message ≠ []) (hheader : ∀ o ∈ header, o.IsData)
    (hhidden : ∀ o ∈ hidden, o.IsData)
    (hslots : header.length + hidden.length < ffRequestMaxOptions)
    (hfit : requestHeaderSize + (encodeOptions header true).length < ffClientMaxPacketLength) :
    ∃ packets, ffClientPacketiseRequest requestId r = .ok packets ∧
      Conveys ssl encryption requestId packets header hidden message := by
  obtain ⟨ho, hl, node, hp, rfl⟩ := hr
  have hpos := List.length_pos_iff.mpr hbody
  have hlen := node.length_bytes
  have h16 : node.length.toNat < 65536 := node.length.toNat_lt
  obtain ⟨first, chunks, packets, hrun, hstream, hcut, hroom⟩ :=
    packetStream_of_packetise requestId r node header true hp (by omega) (by omega)
      (by rw [hl, hlen]; exact node.length_le) ho (Nat.le_of_lt hfit) hheader
  refine ⟨packets, hrun, ⟨_, first, chunks, hstream, ?_, hroom hfit, ?_⟩, hne, hhidden, hslots⟩
  · rw [UInt64.toNat_toUInt32, hl, Nat.mod_eq_of_lt (by omega)]
    omega
  · rw [hcut.flatMap_data, hl, hlen]
    exact hsealed

section Packets

variable {ssl : OpenSsl} {encryption : Option EncryptionConfig} {requestId : UInt64}
  {packets : List (List UInt8)} {header hidden : List OptionNode} {message : List UInt8}
  {total : UInt32} {first : PayloadChunk} {chunks : List PayloadChunk}

theorem Conveys.header_slots (h : Conveys ssl encryption requestId packets header hidden message) :
    header.length < ffRequestMaxOptions :=
  Nat.lt_of_le_of_lt (Nat.le_add_right _ _) h.slots

/-- Where the packets lead, taken alone. -/
theorem Conveys.exists_received (h : Conveys ssl encryption requestId packets header hidden message)
    {bufs : List Buffer} (hb : bufs.map Buffer.bytes = packets) :
    (parseChunks ffRequestAlloc bufs).state = .received ∧
      (∀ front, front <+: bufs → front ≠ bufs →
        (parseChunks ffRequestAlloc front).state = .receiving) ∧
      ∀ b ∈ bufs, ffRequestIsRawHttp b = false := by
  obtain ⟨total, first, chunks, hstream, _, _, _⟩ := h.stream
  refine ⟨?_, fun front hpre hne ↦ hstream.receiving_of_prefix h.header_slots hb hpre hne,
    fun b hin ↦ ?_⟩
  · rw [hstream.parse h.header_slots hb]
    exact hstream.received _
  · have hpacket : b.bytes ∈ packets := hb ▸ List.mem_map_of_mem hin
    rw [hstream.packets_eq] at hpacket
    rcases List.mem_cons.mp hpacket with hfirst | hrest
    · exact not_rawHttp_packet hfirst
    · obtain ⟨c, _, hc⟩ := List.mem_map.mp hrest
      exact not_rawHttp_packet hc.symm

/-- Requests with the same views cover the same positions with the same bytes. -/
private theorem Request.SameReception.spans {r r' : Request} (h : r.SameReception r') :
    r'.payload.map PayloadNode.span = r.payload.map PayloadNode.span ∧
      r'.payload.flatMap PayloadNode.bytes = r.payload.flatMap PayloadNode.bytes := by
  have hspan (nodes : List PayloadNode) : nodes.map PayloadNode.span =
      (nodes.map PayloadNode.view).map fun v ↦ ⟨v.1.toNat, v.2.1.toNat⟩ := by
    rw [List.map_map]
    rfl
  have hbytes (nodes : List PayloadNode) : nodes.flatMap PayloadNode.bytes =
      (nodes.map PayloadNode.view).flatMap fun v ↦ v.2.2 := by
    rw [List.flatMap_map]
    rfl
  constructor
  · rw [hspan, hspan, h.payload]
  · rw [hbytes, hbytes, h.payload]

/-- Joining the payload leaves the body. -/
private theorem PacketStream.joined {brk : Bool}
    (h : PacketStream requestId total header brk first chunks packets)
    (hs : total.toNat < 65536) {r : Request}
    (hr : (delivered requestId total header brk (first :: chunks)).SameReception r)
    (garbage : Nat → UInt8) :
    ∃ r', ffRequestVectorisePayload garbage r = .ok r' ∧
      r'.Carries header ((first :: chunks).flatMap PayloadChunk.data) ∧
      r'.payloadContainsOptions = brk := by
  obtain ⟨hspans, hbytes⟩ := hr.spans
  have hnodes : (delivered requestId total header brk (first :: chunks)).payload =
      (first :: chunks).map PayloadChunk.node := rfl
  have hdata : ((first :: chunks).map PayloadChunk.node).flatMap PayloadNode.bytes =
      (first :: chunks).flatMap PayloadChunk.data := by
    rw [List.flatMap_map]
    simp only [PayloadChunk.bytes_node]
  have hspan : ((first :: chunks).map PayloadChunk.node).map PayloadNode.span =
      (first :: chunks).map PayloadChunk.span := by
    rw [List.map_map]
    simp only [Function.comp_def, PayloadChunk.span_node]
  rw [hnodes, hspan] at hspans
  rw [hnodes, hdata] at hbytes
  have htotal : r.payloadLength.toNat = total.toNat := by
    rw [hr.payloadLength]
    exact UInt32.toNat_toUInt64 total
  have hne : r.payload ≠ [] := by
    rintro hnil
    rw [hnil] at hspans
    cases hspans
  obtain ⟨node, hrun, _, hlength, hnode⟩ := ffRequestVectorisePayload_consecutive garbage r hne
    (by rw [htotal]; exact hs) (by rw [htotal, hspans]; exact h.consecutive)
  rw [hbytes] at hnode
  refine ⟨_, hrun, ⟨hr.options, ?_, node, rfl, hnode⟩, hr.payloadContainsOptions⟩
  rw [← hnode, node.length_bytes, hlength]

end Packets

/-! ### The worker -/

/-- What a worker makes of a request, given how the request is once its options are parsed. -/
def Processed.ofParsed (env : Environment) (config : Config) (q : Request) : Processed :=
  if ffProxyValidateRequestTimestamp config env.now q then
    ⟨ffHttpSendRequest env.upstream q, some q⟩
  else ⟨q, none⟩

/-- Joining, decrypting and parsing leave the options and the message. -/
theorem Conveys.stages {ssl : OpenSsl} {encryption : Option EncryptionConfig} {requestId : UInt64}
    {packets : List (List UInt8)} {header hidden : List OptionNode} {message : List UInt8}
    (h : Conveys ssl encryption requestId packets header hidden message) {bufs : List Buffer}
    (hb : bufs.map Buffer.bytes = packets) {r : Request}
    (hr : (parseChunks ffRequestAlloc bufs).Alike r) (garbage : Nat → Nat → UInt8) :
    ∃ r₁ r₂ r₃, ffRequestVectorisePayload (garbage 0) r = .ok r₁ ∧
      ffDecryptRequest ssl (garbage 1) encryption r₁ = .ok r₂ ∧ r₂.state = .decrypted ∧
      ffRequestParseOptionsFromPayload r₂ = .ok r₃ ∧ r₃.state = .parsedOptions ∧
      r₃.Carries (header ++ hidden) message := by
  obtain ⟨total, first, chunks, hstream, htotal, hfirst, hsealed⟩ := h.stream
  rw [hstream.parse h.header_slots hb, hstream.all_later hfirst, Bool.and_true] at hr
  obtain ⟨r₁, hjoin, hc₁, hbreak⟩ := hstream.joined htotal hr.toSameReception (garbage 0)
  obtain ⟨r₂, hdecrypt, hstate, hc₂, hsame⟩ := ffDecryptRequest_sealedAs hsealed (garbage 1) hc₁
  obtain ⟨r₃, hparse, hparsed, hc₃⟩ := ffRequestParseOptionsFromPayload_carries hc₂
    (by rw [hsame, hbreak]) h.message_ne h.hidden_data h.slots
  exact ⟨r₁, r₂, r₃, hjoin, hdecrypt, hstate, hparse, hparsed, hc₃⟩

/-- A worker recovers the options and the message, and forwards them if the time stamp is
accepted. -/
theorem Conveys.process {ssl : OpenSsl} {config : Config} {requestId : UInt64}
    {packets : List (List UInt8)} {header hidden : List OptionNode} {message : List UInt8}
    (h : Conveys ssl config.encryption requestId packets header hidden message)
    {bufs : List Buffer} (hb : bufs.map Buffer.bytes = packets) {r : Request}
    (hr : (parseChunks ffRequestAlloc bufs).Alike r) {env : Environment} (hssl : env.ssl = ssl) :
    ∃ q, q.Carries (header ++ hidden) message ∧
      ffProxyProcessRequest env config r = .ok (.ofParsed env config q) := by
  obtain ⟨r₁, r₂, q, hjoin, hdecrypt, hstate, hparse, hparsed, hq⟩ := h.stages hb hr env.garbage
  refine ⟨q, hq, ?_⟩
  rw [ffProxyProcessRequest, bind_of_ok hjoin, hssl, bind_of_ok hdecrypt,
    if_neg (not_not.mpr hstate), bind_of_ok hparse, if_neg (not_not.mpr hparsed),
    Processed.ofParsed]
  split <;> rfl

end FfProxy
