import FfProxy.Base.Text
import FfProxy.Client.Agreement
import FfProxy.Client.Coverage
import FfProxy.Parser.HeaderOptions

/-!
# The payload types of the Python client

`packetise_request`, `client/python/ff_client/ff_client.py:150–202`, takes a string or bytes. It
cuts the bytes into packets and writes the length of what it was given into each header: for a
string that is the number of its characters. So the packets account for the payload exactly if
the string is ASCII text, as long as the numbers fit the header and the options leave room for
data. The proxy accepts them if moreover the version is 1 and it has a slot for every option.
-/

namespace FfProxy
open Base

namespace Python

/-! ### Payloads -/

/-- A string is ASCII text; other payloads are bytes anyway. -/
def Payload.IsAscii : Payload → Prop
  | .str text => ∀ c ∈ text.toList, c.val ≤ 127
  | .bytearray _ => True
  | .bytes _ => True

/-- A payload is no longer than its bytes. -/
theorem Payload.len_le (payload : Payload) : payload.len ≤ payload.encoded.length := by
  cases payload with
  | bytearray content => exact Nat.le_refl _
  | str text =>
    rw [len, encoded, toList_toUTF8, ← String.length_toList]
    exact length_le_utf8 _
  | bytes content => exact Nat.le_refl _

/-- Length and number of bytes agree exactly for bytes and ASCII text. -/
theorem Payload.len_eq_iff (payload : Payload) :
    payload.len = payload.encoded.length ↔ payload.IsAscii := by
  cases payload with
  | bytearray content => exact iff_of_true rfl trivial
  | str text =>
    rw [len, encoded, toList_toUTF8, ← String.length_toList, eq_comm, length_utf8_eq_iff]
    rfl
  | bytes content => exact iff_of_true rfl trivial

/-! ### What the packets owe the payload -/

/-- The proxy takes packet after packet as a data chunk of version 1, and has the whole request
with the last one. -/
def AcceptedInOrder (packets : List (List UInt8)) : Prop :=
  ∀ bufs : List Buffer, bufs.map Buffer.bytes = packets →
    (parseChunks ffRequestAlloc bufs).state = .received ∧
      (parseChunks ffRequestAlloc bufs).version = ffVersion1 ∧
      ∀ p, p <+: bufs → p ≠ bufs → (parseChunks ffRequestAlloc p).state = .receiving

/-- The packetiser returns packets that account for the payload, and that the proxy accepts if the
payload has 1 to 65535 bytes. -/
def Packetises (request : Request) : Prop :=
  ∃ packets, (∃ enough, ∀ fuel ≥ enough, packetiseRequest fuel request = .ok packets) ∧
    AccountFor request.payload.encoded (packets.map UdpPacket.sent) ∧
    (request.payload.encoded ≠ [] → request.payload.encoded.length ≤ 65535 →
      AcceptedInOrder (packets.map UdpPacket.sent))

/-! ### One packet -/

section Packet

variable {request : Request} {offset : Nat} (options : List UInt8) {data : List UInt8}

/-- A packet starts with its header. -/
theorem packetOf_eq (hp : request.Packs) (hoffset : offset < 2 ^ 32) (hdata : data.length < 65536) :
    packetOf request offset options data =
      FfProxy.writeHeader ⟨UInt16.ofNat request.version, UInt64.ofNat request.requestId,
        UInt32.ofNat request.payload.len, UInt32.ofNat offset, UInt16.ofNat data.length⟩ ++
        (options ++ data) := by
  have hv : request.version < 2 ^ 16 := hp.version
  have hi : request.requestId < 2 ^ 64 := hp.requestId
  have hl : request.payload.len < 2 ^ 32 := hp.len
  rw [FfProxy.writeHeader_eq]
  simp only [UInt16.toNat_ofNat', UInt64.toNat_ofNat', UInt32.toNat_ofNat', Nat.mod_eq_of_lt hv,
    Nat.mod_eq_of_lt hi, Nat.mod_eq_of_lt hl, Nat.mod_eq_of_lt hoffset,
    Nat.mod_eq_of_lt (show data.length < 2 ^ 16 from hdata), packetOf, headerStart,
    List.append_assoc]

/-- What is read back from a packet: version, length of the payload, position and chunk. -/
theorem read_packetOf (hp : request.Packs) (hoffset : offset < 2 ^ 32)
    (hdata : data.length < 65536) :
    (readHeader (packetOf request offset options data)).version = UInt16.ofNat request.version ∧
      (readHeader (packetOf request offset options data)).totalLength.toNat =
        request.payload.len ∧
      packetSpan (packetOf request offset options data) = ⟨offset, data.length⟩ ∧
      packetData (packetOf request offset options data) = data := by
  have hl : request.payload.len < 2 ^ 32 := hp.len
  have hspan : packetSpan (packetOf request offset options data) = ⟨offset, data.length⟩ := by
    rw [packetSpan, packetOf_eq options hp hoffset hdata, readHeader_writeHeader]
    simp only [UInt32.toNat_ofNat', UInt16.toNat_ofNat', Nat.mod_eq_of_lt hoffset,
      Nat.mod_eq_of_lt (show data.length < 2 ^ 16 from hdata)]
  refine ⟨?_, ?_, hspan, ?_⟩
  · rw [packetOf_eq options hp hoffset hdata, readHeader_writeHeader]
  · rw [packetOf_eq options hp hoffset hdata, readHeader_writeHeader]
    simp only [UInt32.toNat_ofNat', Nat.mod_eq_of_lt hl]
  · have hchunk : (readHeader (packetOf request offset options data)).chunkLength.toNat =
        data.length := congrArg Span.length hspan
    rw [packetData, hchunk, packetOf, ← List.append_assoc, ← List.append_assoc,
      List.length_append, Nat.add_sub_cancel, List.drop_left]

end Packet

/-! ### All packets -/

section Loop

variable {request : Request}

/-- The bytes of the payload that are left are cut into packets that account for them. -/
theorem packetLoop_accounts (hp : request.Packs)
    (hlen : request.payload.len = request.payload.encoded.length)
    (hroom : requestHeaderSize + (ffClientWriteOptions request.options).length < maxPacketLength)
    {offset left : Nat} (hsum : offset + left = request.payload.encoded.length) :
    ∃ packets, (∀ fuel ≥ left, packetLoop (writePacket request) fuel offset left = .ok packets) ∧
      (∀ p ∈ packets, (readHeader p.sent).version = UInt16.ofNat request.version ∧
        (readHeader p.sent).totalLength.toNat = request.payload.encoded.length) ∧
      Span.Consecutive offset ((packets.map UdpPacket.sent).map packetSpan) (offset + left) ∧
      (packets.map UdpPacket.sent).flatMap packetData = request.payload.encoded.drop offset := by
  induction left using Nat.strong_induction_on generalizing offset with
  | _ left ih =>
    rcases Nat.eq_zero_or_pos left with rfl | hpos
    · refine ⟨[], fun fuel _ ↦ packetLoop_zero _ _ _, List.forall_mem_nil _, rfl, ?_⟩
      exact (List.drop_of_length_le (Nat.le_of_eq hsum.symm)).symm
    have htotal : request.payload.len < 2 ^ 32 := hp.len
    have hpacket := writePacket_eq hp (by omega) (Nat.le_of_lt hroom) hsum
    have htakes : 0 < chunkLengthAt (ffClientWriteOptions request.options) offset left :=
      chunkLengthAt_pos hroom hpos
    have hk := chunkLengthAt_eq (ffClientWriteOptions request.options) offset left
    generalize chunkLengthAt (ffClientWriteOptions request.options) offset left = k at *
    have hdata : (slice request.payload.encoded offset k).length = k :=
      length_slice _ _ _ (by omega)
    obtain ⟨packets, hrun, hheaders, hspans, hchunks⟩ := ih (left - k) (by omega)
      (show offset + k + (left - k) = request.payload.encoded.length by omega)
    obtain ⟨hversion, hread, hspan, hchunk⟩ := read_packetOf
      (optionsAt (ffClientWriteOptions request.options) offset) hp (show offset < 2 ^ 32 by omega)
      (show (slice request.payload.encoded offset k).length < 65536 by omega)
    generalize packetOf request offset (optionsAt (ffClientWriteOptions request.options) offset)
      (slice request.payload.encoded offset k) = packet at hpacket hversion hread hspan hchunk
    refine ⟨padded packet :: packets, fun fuel hfuel ↦ ?_, ?_, ?_, ?_⟩
    · obtain ⟨fuel, rfl⟩ := Nat.exists_eq_add_of_lt (Nat.lt_of_lt_of_le hpos hfuel)
      rw [Nat.zero_add] at hfuel ⊢
      exact packetLoop_step hpos (by omega) hpacket (hrun fuel (by omega))
    · rw [List.forall_mem_cons, sent_padded, hread]
      exact ⟨⟨hversion, hlen⟩, hheaders⟩
    · rw [List.map_cons, List.map_cons, sent_padded, hspan, hdata]
      refine ⟨rfl, ?_⟩
      rw [show offset + k + (left - k) = offset + left by omega] at hspans
      exact hspans
    · rw [List.map_cons, List.flatMap_cons, sent_padded, hchunk, hchunks, ← List.drop_drop, slice,
        List.take_append_drop]

/-- A number that was packed fits its field. -/
private theorem lt_of_packIntoSize {size value : Nat} {c c' : Cursor}
    (h : packIntoSize size value c = .ok c') : value < 256 ^ size := by
  obtain ⟨bytes, hpacked, _⟩ := bind_eq_ok h
  unfold packed at hpacked
  split at hpacked
  · next hlt => exact hlt
  · cases hpacked

/-- A packet is only written if the numbers fit its header. -/
theorem packs_of_writePacket {offset left : Int} {result : UdpPacket × Int}
    (h : writePacket request offset left = .ok result) : request.Packs := by
  obtain ⟨_, hheader, _⟩ := bind_eq_ok h
  obtain ⟨_, hversion, hheader⟩ := bind_eq_ok hheader
  obtain ⟨_, hid, hheader⟩ := bind_eq_ok hheader
  obtain ⟨_, hlen, _⟩ := bind_eq_ok hheader
  exact ⟨lt_of_packIntoSize hversion, lt_of_packIntoSize hid, lt_of_packIntoSize hlen⟩

/-- A loop that returns with something to send has written a first packet. -/
theorem packetLoop_first {writePacket : Int → Int → Except ClientFault (UdpPacket × Int)}
    {fuel : Nat} {offset left : Int} {packets : List UdpPacket} (hpos : 0 < left)
    (h : packetLoop writePacket fuel offset left = .ok packets) :
    ∃ packet k rest, writePacket offset left = .ok (packet, k) ∧ packets = packet :: rest := by
  cases fuel with
  | zero =>
    rw [packetLoop, if_pos hpos] at h
    cases h
  | succ fuel =>
    rw [packetLoop, if_pos hpos] at h
    split at h
    · cases h
    · next packet k hpacket =>
      split at h
      · cases h
      · next rest _ => exact ⟨packet, k, rest, hpacket, (Except.ok.inj h).symm⟩

end Loop

/-! ### Any payload -/

/-- The chunks of packets have no more bytes than their headers say. -/
theorem length_flatMap_packetData_le (packets : List (List UInt8)) :
    (packets.flatMap packetData).length ≤ Span.total (packets.map packetSpan) := by
  induction packets with
  | nil => exact Nat.le_refl 0
  | cons p packets ih =>
    have hp : (packetData p).length ≤ (packetSpan p).length := by
      change (packetData p).length ≤ (readHeader p).chunkLength.toNat
      rw [packetData, List.length_drop]
      omega
    rw [List.flatMap_cons, List.length_append, List.map_cons, Span.total]
    omega

/-- What the packets of a payload with bytes take: numbers that fit the header, ASCII text, and
room for data. -/
theorem Packetises.conditions {request : Request} (h : Packetises request)
    (hfit : requestHeaderSize + (ffClientWriteOptions request.options).length ≤ maxPacketLength)
    (hne : request.payload.encoded ≠ []) :
    request.Packs ∧ request.payload.IsAscii ∧
      requestHeaderSize + (ffClientWriteOptions request.options).length < maxPacketLength := by
  obtain ⟨packets, ⟨enough, hrun⟩, haccount, _⟩ := h
  have hpos : 0 < request.payload.encoded.length := List.length_pos_iff.mpr hne
  have hloop : packetLoop (writePacket request) enough (0 : Nat)
      (request.payload.encoded.length : Nat) = .ok packets := hrun enough (Nat.le_refl _)
  obtain ⟨packet, k, rest, hpacket, rfl⟩ := packetLoop_first (Int.natCast_pos.mpr hpos) hloop
  have hpacks := packs_of_writePacket hpacket
  have heq := writePacket_eq hpacks (by decide) hfit (Nat.zero_add _)
  obtain ⟨hpk, hk⟩ := Prod.mk.inj (Except.ok.inj (hpacket.symm.trans heq))
  refine ⟨hpacks, ?_, Nat.lt_of_le_of_ne hfit fun hfull ↦ ?_⟩
  · -- The first header says the length of the payload, the chunks have as many bytes as it has.
    rw [← Payload.len_eq_iff]
    refine Nat.le_antisymm request.payload.len_le ?_
    have hdata := length_slice_le request.payload.encoded 0
      (chunkLengthAt (ffClientWriteOptions request.options) 0 request.payload.encoded.length)
    have hchunk := chunkLengthAt_eq (ffClientWriteOptions request.options) 0
      request.payload.encoded.length
    have hread := (read_packetOf (optionsAt (ffClientWriteOptions request.options) 0) hpacks
      (show 0 < 2 ^ 32 by decide) (Nat.lt_of_le_of_lt hdata (by omega))).2.1
    have htotal := haccount.total packet.sent (by simp)
    have hle := length_flatMap_packetData_le ((packet :: rest).map UdpPacket.sent)
    rw [haccount.data, htotal, hpk, sent_padded, hread] at hle
    exact hle
  · rw [chunkLengthAt_of_full hfull] at heq
    rw [packetLoop_stuck (Int.natCast_pos.mpr hpos) heq enough] at hloop
    cases hloop

/-- Only the bytes of the payload and its length show in the packets. -/
theorem packetiseRequest_of_len {version requestId : Nat} {os : List OptionNode}
    {payload : Payload} (hlen : payload.len = payload.encoded.length) (fuel : Nat) :
    packetiseRequest fuel ⟨version, requestId, os, payload⟩ =
      packetiseRequest fuel ⟨version, requestId, os, .bytes payload.encoded⟩ := by
  have hwrite : writePacket ⟨version, requestId, os, payload⟩ =
      writePacket ⟨version, requestId, os, .bytes payload.encoded⟩ := by
    funext offset left
    simp only [writePacket, writeHeader, hlen]
    rfl
  rw [packetiseRequest, packetiseRequest, hwrite]
  rfl

/-- The packets of a version-1 request with bytes or ASCII text are those of the C client. -/
theorem sent_eq_packetise {requestId : Nat} {options : List OptionNode} {payload : Payload}
    (hp : Request.Packs ⟨1, requestId, options, payload⟩) (hascii : payload.IsAscii)
    (hroom : requestHeaderSize + (ffClientWriteOptions options).length < maxPacketLength)
    (hlen : payload.encoded.length ≤ 65535) {packets : List UdpPacket} {enough : Nat}
    (hrun : ∀ fuel ≥ enough, packetiseRequest fuel ⟨1, requestId, options, payload⟩ =
      .ok packets) :
    ∃ r : FfProxy.Request, r.Carries options payload.encoded ∧
      ffClientPacketiseRequest (UInt64.ofNat requestId) r = .ok (packets.map UdpPacket.sent) := by
  have hid : (UInt64.ofNat requestId).toNat = requestId := UInt64.toNat_ofNat_of_lt' hp.requestId
  obtain ⟨r, hr⟩ := Client.exists_carries options (Nat.lt_succ_of_le hlen)
  obtain ⟨sent, hc, hclient⟩ := Client.python.agrees (UInt64.ofNat requestId) hr hroom
    (Nat.le_max_right enough payload.encoded.length)
  have hsame := hrun _ (Nat.le_max_left enough payload.encoded.length)
  rw [packetiseRequest_of_len (payload.len_eq_iff.mpr hascii)] at hsame
  rw [Client.packetiseRequest, hid] at hclient
  obtain rfl := Except.ok.inj (hsame.symm.trans hclient)
  refine ⟨r, hr, ?_⟩
  rw [List.map_map]
  simpa [Function.comp_def] using hc

section Closed

variable {request : Request} {os : List OptionNode} {brk : Bool}

/-- Packets of version 1 are accepted if the proxy has a slot for every option. -/
theorem acceptedInOrder_of_slots (hoptions : request.options = os ++ [terminator brk])
    (hd : ∀ o ∈ os, o.IsData) (hversion : request.version = 1)
    (hslots : os.length < ffRequestMaxOptions) (hp : request.Packs)
    (hascii : request.payload.IsAscii)
    (hroom : requestHeaderSize + (ffClientWriteOptions request.options).length < maxPacketLength)
    (hne : request.payload.encoded ≠ []) (hlen : request.payload.encoded.length ≤ 65535)
    {packets : List UdpPacket} {enough : Nat}
    (hrun : ∀ fuel ≥ enough, packetiseRequest fuel request = .ok packets) :
    AcceptedInOrder (packets.map UdpPacket.sent) := by
  obtain ⟨version, requestId, options, payload⟩ := request
  obtain rfl := hversion
  obtain rfl := hoptions
  obtain ⟨r, hr, hc⟩ := sent_eq_packetise hp hascii hroom hlen hrun
  obtain ⟨sent, hc', hdelivered⟩ :=
    delivery_of_carries (UInt64.ofNat requestId) hr hne hroom hd hslots
  obtain rfl := Except.ok.inj (hc.symm.trans hc')
  intro bufs hbufs
  obtain ⟨hreceived, hone, hprefix, _⟩ := hdelivered (fun _ ↦ 0) bufs hbufs
  exact ⟨hreceived, hone, hprefix⟩

/-- Accepted packets are of version 1, and the proxy has a slot for every option. -/
theorem slots_of_acceptedInOrder (hoptions : request.options = os ++ [terminator brk])
    (hd : ∀ o ∈ os, o.IsData) (hp : request.Packs) (hascii : request.payload.IsAscii)
    (hroom : requestHeaderSize + (ffClientWriteOptions request.options).length < maxPacketLength)
    (hne : request.payload.encoded ≠ []) (hlen : request.payload.encoded.length ≤ 65535)
    {packets : List UdpPacket} {enough : Nat}
    (hrun : ∀ fuel ≥ enough, packetiseRequest fuel request = .ok packets)
    (h : AcceptedInOrder (packets.map UdpPacket.sent)) :
    request.version = 1 ∧ os.length < ffRequestMaxOptions := by
  have hbytes : (packets.map fun p ↦ Buffer.ofBytes p.sent).map Buffer.bytes =
      packets.map UdpPacket.sent := by
    simp [Function.comp_def]
  obtain ⟨hreceived, hone, _⟩ := h _ hbytes
  have hversion : request.version = 1 := by
    obtain ⟨packets', hrun', hheaders, _⟩ :=
      packetLoop_accounts hp (request.payload.len_eq_iff.mpr hascii) hroom (Nat.zero_add _)
    obtain rfl := Except.ok.inj ((hrun _ (Nat.le_max_left enough _)).symm.trans
      (hrun' _ (Nat.le_max_right enough _)))
    obtain ⟨b, hb, hread⟩ := (exists_version1 hone).resolve_left (by decide)
    obtain ⟨p, hmem, rfl⟩ := List.mem_map.mp hb
    have hfield : UInt16.ofNat request.version = 1 := (hheaders p hmem).1.symm.trans hread
    have hmod := congrArg UInt16.toNat hfield
    rwa [UInt16.toNat_ofNat_of_lt' hp.version] at hmod
  refine ⟨hversion, Nat.lt_of_not_le fun hmany ↦ ?_⟩
  obtain ⟨version, requestId, options, payload⟩ := request
  obtain rfl := hversion
  obtain rfl := hoptions
  obtain ⟨r, hr, hc⟩ := sent_eq_packetise hp hascii hroom hlen hrun
  rw [← hbytes] at hc
  exact not_received_of_full _ hr hne hroom hd hmany hc hreceived

/-- Numbers that fit the header, bytes or ASCII text, and room for data are enough, and for a
payload that is to be accepted version 1 and a slot for every option. -/
theorem packetises_of_conditions (hoptions : request.options = os ++ [terminator brk])
    (hd : ∀ o ∈ os, o.IsData) (hascii : request.payload.IsAscii) (hp : request.Packs)
    (hroom : requestHeaderSize + (ffClientWriteOptions request.options).length < maxPacketLength)
    (hunderstood : request.payload.encoded.length ≤ 65535 →
      request.version = 1 ∧ os.length < ffRequestMaxOptions) :
    Packetises request := by
  obtain ⟨packets, hrun, hheaders, hspans, hchunks⟩ :=
    packetLoop_accounts hp (request.payload.len_eq_iff.mpr hascii) hroom (Nat.zero_add _)
  have htotal := hspans.total_eq
  rw [Nat.zero_add, Nat.zero_add] at htotal
  refine ⟨packets, ⟨_, hrun⟩, ⟨?_, fun p hmem ↦ ?_, hchunks⟩, fun hne hlen ↦ ?_⟩
  · rw [htotal]
    rwa [Nat.zero_add] at hspans
  · obtain ⟨packet, hpacket, rfl⟩ := List.mem_map.mp hmem
    rw [htotal, (hheaders packet hpacket).2]
  · obtain ⟨hversion, hslots⟩ := hunderstood hlen
    exact acceptedInOrder_of_slots hoptions hd hversion hslots hp hascii hroom hne hlen hrun

end Closed

/-- Without bytes there are no packets. -/
theorem packetises_of_empty {request : Request} (h : request.payload.encoded = []) :
    Packetises request := by
  refine ⟨[], ⟨0, fun fuel _ ↦ ?_⟩, ⟨rfl, List.forall_mem_nil _, h.symm⟩, fun hne ↦ absurd h hne⟩
  rw [packetiseRequest, h]
  exact packetLoop_zero _ _ _

/-- A request with a closed list of options that fits the first packet is packetised so that the
packets account for its payload and are accepted exactly when the payload is empty, or is bytes
or ASCII text, its numbers fit the header, the options leave room for data and, if the payload
has at most 65535 bytes, the version is 1 and the proxy has a slot for every option. -/
theorem packetises_iff (request : Request) (os : List OptionNode) (brk : Bool)
    (hoptions : request.options = os ++ [terminator brk]) (hd : ∀ o ∈ os, o.IsData)
    (hfit : requestHeaderSize + (ffClientWriteOptions request.options).length ≤ maxPacketLength) :
    Packetises request ↔ request.payload.encoded = [] ∨
      (request.payload.IsAscii ∧ request.Packs ∧
        requestHeaderSize + (ffClientWriteOptions request.options).length < maxPacketLength ∧
        (request.payload.encoded.length ≤ 65535 →
          request.version = 1 ∧ os.length < ffRequestMaxOptions)) := by
  constructor
  · intro h
    by_cases hne : request.payload.encoded = []
    · exact Or.inl hne
    · obtain ⟨hp, hascii, hroom⟩ := h.conditions hfit hne
      refine Or.inr ⟨hascii, hp, hroom, fun hlen ↦ ?_⟩
      obtain ⟨packets, ⟨enough, hrun⟩, _, haccepted⟩ := h
      exact slots_of_acceptedInOrder hoptions hd hp hascii hroom hne hlen hrun
        (haccepted hne hlen)
  · rintro (hempty | ⟨hascii, hp, hroom, hunderstood⟩)
    · exact packetises_of_empty hempty
    · exact packetises_of_conditions hoptions hd hascii hp hroom hunderstood

/-- A request with a text as its payload. -/
def sampleText (text : String) : Request := ⟨1, 9, [terminator false], .str text⟩

/-- An ASCII text is packetised. -/
theorem packetises_ascii : Packetises (sampleText "GET") := by
  have hascii : (sampleText "GET").payload.IsAscii :=
    (Payload.len_eq_iff _).mp (by decide +kernel)
  exact (packetises_iff (sampleText "GET") [] false rfl (List.forall_mem_nil _) (by decide)).mpr
    (Or.inr ⟨hascii, ⟨by decide, by decide, by decide⟩, by decide, fun _ ↦ ⟨rfl, by decide⟩⟩)

/-- The two bytes of the text `é` are sent in a packet that says that the payload has one byte,
and the proxy refuses it. -/
theorem not_packetises_accent : ¬ Packetises (sampleText "é") ∧
    ((packetiseRequest 2 (sampleText "é")).toOption.map fun packets ↦
        (packets.map fun p ↦ ((readHeader p.sent).totalLength, (readHeader p.sent).chunkLength),
          (parseChunks ffRequestAlloc (packets.map fun p ↦ Buffer.ofBytes p.sent)).state)) =
      some ([(1, 2)], .receivingFail) := by
  refine ⟨fun h ↦ ?_, by decide +kernel⟩
  have hlen := (Payload.len_eq_iff _).mpr (h.conditions (by decide) (by decide)).2.1
  exact absurd hlen (by decide +kernel)

end Python
end FfProxy
