import FfProxy.Client.Packetise

/-!
# What the packets of a request cover

The packets of `ff_client_packetise_request`, `client/c/client.c:189–242`, read back: the
positions in their headers, the data behind their options, their sizes and their number. The
loop counts what is left of the payload in 16 bits, so the packets cover a payload exactly when
it has less than 65536 bytes.
-/

namespace FfProxy
open Base

/-- `FF_CLIENT_MAX_PACKETS`, `client/c/client_p.h:7`. -/
def ffClientMaxPackets : Nat := 1024

/-- The entries of the packet array, `client/c/client.c:191`: the block has room for
`FF_CLIENT_MAX_PACKETS` pointers of 8 bytes, and an entry is a pointer and a padded length. -/
def packetArrayEntries : Nat := 8 * ffClientMaxPackets / 16

/-- The chunk of a packet, its last `chunk_length` bytes. -/
def packetData (packet : List UInt8) : List UInt8 :=
  packet.drop (packet.length - (readHeader packet).chunkLength.toNat)

/-- The offsets of the packets are the running sums of their chunk lengths, these add up to the
length in each header, and the chunks make up the payload. -/
structure AccountFor (payload : List UInt8) (packets : List (List UInt8)) : Prop where
  offsets : Span.Consecutive 0 (packets.map packetSpan) (Span.total (packets.map packetSpan))
  total : ∀ p ∈ packets, Span.total (packets.map packetSpan) = (readHeader p).totalLength.toNat
  data : packets.flatMap packetData = payload

/-- The packets cover a payload: they account for it, and fit their buffers and the packet
array. -/
structure CoversPayload (payload : List UInt8) (packets : List (List UInt8)) : Prop
    extends AccountFor payload packets where
  size : ∀ p ∈ packets, p.length ≤ ffClientMaxPacketLength
  index : packets.length ≤ packetArrayEntries

/-! ### One packet -/

section Packet

variable (c : PayloadChunk) (requestId : UInt64) (total : UInt32) (options : List UInt8)

/-- The last bytes of a packet are its chunk. -/
theorem packetData_packet : packetData (c.packet requestId total options) = c.data := by
  have hlength : (readHeader (c.packet requestId total options)).chunkLength.toNat =
      c.data.length := congrArg Span.length (packetSpan_packet c requestId total options)
  rw [packetData, hlength, PayloadChunk.packet, packetBytes, ← List.append_assoc,
    List.length_append, Nat.add_sub_cancel, List.drop_left]

end Packet

/-! ### All packets -/

section Loop

variable {requestId : UInt64} {r : Request} {value : List UInt8} {first : Bool}
  {offset left : Nat} {packets : List (List UInt8)}

/-- A run of the loop is over or starts with a packet that fits the buffer. -/
theorem packetiseLoop_cases
    (h : packetiseLoop requestId r value first offset left = .ok packets) :
    packets = [] ∨ left ≠ 0 ∧ ∃ rest data, packets =
        packetBytes requestId r.payloadLength.toUInt32 (packetOptionList r first) offset data ::
          rest ∧
      requestHeaderSize + (packetOptionList r first).length + data.length ≤
        ffClientMaxPacketLength ∧
      packetiseLoop requestId r value false
        (offset + chunkLengthFor (bytesLeftInPacket r first) left)
        (left - chunkLengthFor (bytesLeftInPacket r first) left) = .ok rest := by
  rw [packetiseLoop] at h
  split at h
  · exact .inl (Except.ok.inj h).symm
  next hleft =>
    split at h
    · cases h
    next hoptions =>
      split at h
      · cases h
      next hread =>
        split at h
        · cases h
        next rest hrest =>
          refine .inr ⟨hleft, rest, _, (Except.ok.inj h).symm, ?_, hrest⟩
          have hroom : chunkLengthFor (bytesLeftInPacket r first) left ≤
              bytesLeftInPacket r first := by
            unfold chunkLengthFor
            split <;> omega
          rw [length_slice _ _ _ (Nat.not_lt.mp hread)]
          rw [bytesLeftInPacket] at hroom ⊢
          omega

/-- No packet exceeds its buffer. -/
theorem packetiseLoop_size
    (h : packetiseLoop requestId r value first offset left = .ok packets) :
    ∀ p ∈ packets, p.length ≤ ffClientMaxPacketLength := by
  induction packets generalizing first offset left with
  | nil => exact nofun
  | cons p rest ih =>
    obtain hnil | ⟨_, rest', data, heq, hsize, hrest⟩ := packetiseLoop_cases h
    · cases hnil
    obtain ⟨rfl, rfl⟩ := List.cons.inj heq
    intro q hq
    rcases List.mem_cons.mp hq with rfl | hq
    · rw [packetBytes, List.length_append, List.length_append, length_writeHeader]
      omega
    · exact ih hrest q hq

/-- Behind the first packet every packet but the last one carries 1277 bytes. -/
theorem packetiseLoop_count
    (h : packetiseLoop requestId r value false offset left = .ok packets) :
    1277 * packets.length < left + 1277 := by
  induction packets generalizing offset left with
  | nil => exact Nat.lt_add_left left (by decide)
  | cons p rest ih =>
    obtain hnil | ⟨hleft, rest', data, heq, _, hrest⟩ := packetiseLoop_cases h
    · cases hnil
    obtain ⟨_, rfl⟩ := List.cons.inj heq
    have hcount := ih hrest
    have hroom : bytesLeftInPacket r false = 1277 := rfl
    rw [hroom, chunkLengthFor] at hcount
    rw [List.length_cons]
    split at hcount <;> omega

end Loop

/-- The packets of every request fit their buffers and the packet array. -/
theorem ffClientPacketiseRequest_fits {requestId : UInt64} {r : Request}
    {packets : List (List UInt8)} (h : ffClientPacketiseRequest requestId r = .ok packets) :
    (∀ p ∈ packets, p.length ≤ ffClientMaxPacketLength) ∧
      packets.length ≤ packetArrayEntries := by
  rw [ffClientPacketiseRequest] at h
  have hlt : r.payloadLength.toNat % 65536 < 65536 := Nat.mod_lt _ (by decide)
  generalize r.payloadLength.toNat % 65536 = left at h hlt
  split at h
  · split at h
    · cases h
      exact ⟨List.forall_mem_nil _, Nat.zero_le _⟩
    · cases h
  · next node rest hp =>
    refine ⟨packetiseLoop_size h, ?_⟩
    obtain rfl | ⟨_, rest, data, rfl, _, hrest⟩ := packetiseLoop_cases h
    · exact Nat.zero_le _
    · have hcount := packetiseLoop_count hrest
      rw [List.length_cons, packetArrayEntries, ffClientMaxPackets]
      omega

/-- The data of the packets is what the 16-bit counter sees of the payload. -/
theorem packetise_data {requestId : UInt64} {r : Request} {node : PayloadNode}
    {packets : List (List UInt8)} (hp : r.payload = [node])
    (hv : r.payloadLength.toNat % 65536 ≤ node.value.length)
    (ho : requestHeaderSize + (ffClientWriteOptions r.options).length ≤ ffClientMaxPacketLength)
    (h : ffClientPacketiseRequest requestId r = .ok packets) :
    packets.flatMap packetData = node.value.take (r.payloadLength.toNat % 65536) := by
  rcases Nat.eq_zero_or_pos (r.payloadLength.toNat % 65536) with hzero | hpos
  · rw [ffClientPacketiseRequest, hp] at h
    simp only [hzero] at h
    rw [packetiseLoop, if_pos rfl] at h
    cases h
    rw [hzero]
    rfl
  · obtain ⟨first, chunks, hrun, hcut, _⟩ :=
      ffClientPacketiseRequest_chunks requestId r node [] hp rfl hpos hv ho
    cases hrun.symm.trans h
    have hdata := hcut.flatMap_data
    rw [slice, List.drop_zero, Nat.sub_zero] at hdata
    rw [← hdata, List.flatMap_cons, List.flatMap_cons, packetData_packet, List.flatMap_map]
    simp only [packetData_packet]

/-- The packets of a payload of 1 to 65535 bytes cover it. -/
theorem packetise_covers {requestId : UInt64} {r : Request} {node : PayloadNode}
    (hp : r.payload = [node]) (hv : node.value.length = r.payloadLength.toNat)
    (h0 : 0 < r.payloadLength.toNat) (hs : r.payloadLength.toNat < 65536)
    (ho : requestHeaderSize + (ffClientWriteOptions r.options).length ≤ ffClientMaxPacketLength) :
    ∃ packets, ffClientPacketiseRequest requestId r = .ok packets ∧
      CoversPayload node.value packets := by
  obtain ⟨first, chunks, hrun, hcut, _⟩ := ffClientPacketiseRequest_spec requestId r node []
    hp h0 hs (Nat.le_of_eq hv.symm) ho
  refine ⟨_, hrun, ?_⟩
  obtain ⟨hsize, hindex⟩ := ffClientPacketiseRequest_fits hrun
  have hdata := packetise_data hp (by rw [Nat.mod_eq_of_lt hs, hv]) ho hrun
  rw [Nat.mod_eq_of_lt hs, ← hv, List.take_length] at hdata
  have hspans : (first.packet requestId r.payloadLength.toUInt32
        (ffClientWriteOptions r.options) :: chunks.map fun c ↦
          c.packet requestId r.payloadLength.toUInt32 emptyOptionList).map packetSpan =
      (first :: chunks).map PayloadChunk.span := by
    rw [List.map_cons, List.map_cons, packetSpan_packet, List.map_map]
    refine congrArg (List.cons first.span) (List.map_congr_left fun c _ ↦ ?_)
    exact packetSpan_packet c _ _ _
  have htotal := hcut.consecutive.total_eq
  rw [Nat.zero_add] at htotal
  have htotal32 : r.payloadLength.toUInt32.toNat = r.payloadLength.toNat := by
    rw [UInt64.toNat_toUInt32]
    exact Nat.mod_eq_of_lt (by omega)
  refine ⟨⟨?_, fun p hpacket ↦ ?_, hdata⟩, hsize, hindex⟩
  · rw [hspans, htotal]
    exact hcut.consecutive
  · rw [hspans, htotal]
    rcases List.mem_cons.mp hpacket with rfl | hpacket
    · rw [readHeader_chunk_packet, htotal32]
    · obtain ⟨c, _, rfl⟩ := List.mem_map.mp hpacket
      rw [readHeader_chunk_packet, htotal32]

/-- The packets of a request with options of up to 1279 bytes cover its payload exactly when it
has less than 65536 bytes. -/
theorem packetise_covers_iff (requestId : UInt64) (r : Request) (node : PayloadNode)
    (hp : r.payload = [node]) (hv : node.value.length = r.payloadLength.toNat)
    (ho : (ffClientWriteOptions r.options).length ≤ 1279) :
    (∃ packets, ffClientPacketiseRequest requestId r = .ok packets ∧
      CoversPayload node.value packets) ↔ r.payloadLength.toNat < 65536 := by
  have hroom : requestHeaderSize + (ffClientWriteOptions r.options).length ≤
      ffClientMaxPacketLength := by
    rw [requestHeaderSize, ffClientMaxPacketLength]
    omega
  constructor
  · rintro ⟨packets, hrun, hcovers⟩
    have hle : r.payloadLength.toNat % 65536 ≤ node.value.length := hv ▸ Nat.mod_le _ _
    have hdata := congrArg List.length ((packetise_data hp hle hroom hrun).symm.trans hcovers.data)
    rw [List.length_take, Nat.min_eq_left hle, hv] at hdata
    exact hdata ▸ Nat.mod_lt _ (by decide)
  · intro hs
    rcases Nat.eq_zero_or_pos r.payloadLength.toNat with hzero | hpos
    · refine ⟨[], ?_, ⟨⟨rfl, List.forall_mem_nil _, ?_⟩, List.forall_mem_nil _, Nat.zero_le _⟩⟩
      · rw [ffClientPacketiseRequest, hp]
        simp only [hzero]
        rw [packetiseLoop, if_pos rfl]
      · rw [List.length_eq_zero_iff.mp (hv.trans hzero)]
        rfl
    · exact packetise_covers hp hv hpos hs hroom

/-- A payload of three bytes is covered. -/
theorem packetise_covers_three :
    ∃ packets, ffClientPacketiseRequest 7 (holding [1, 2, 3]) = .ok packets ∧
      CoversPayload [1, 2, 3] packets :=
  (packetise_covers_iff 7 (holding [1, 2, 3]) (PayloadNode.ofBytes [1, 2, 3]) rfl rfl
    (by decide)).mpr (by decide)

/-- A payload of 65536 bytes is sent in no packets at all. -/
theorem packetise_drops_payload :
    ffClientPacketiseRequest 7 (holding (List.replicate 65536 0)) = .ok [] ∧
      ¬ CoversPayload (List.replicate 65536 0) [] := by
  constructor
  · have hleft : (holding (List.replicate 65536 0)).payloadLength.toNat % 65536 = 0 := by
      rw [holding, List.length_replicate]
      rfl
    rw [ffClientPacketiseRequest]
    simp only [hleft]
    rw [holding]
    dsimp only
    rw [packetiseLoop, if_pos rfl]
  · intro hcovers
    have hlength := congrArg List.length hcovers.data
    rw [List.length_replicate] at hlength
    cases hlength

end FfProxy
