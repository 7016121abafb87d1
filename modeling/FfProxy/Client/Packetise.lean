import FfProxy.Base.Spans
import FfProxy.Parser.Options

/-!
# Packetising a request

`ff_client_packetise_request`, `client/c/client.c:189–242`. The first packet carries the
options of the request, every later one an empty list. The loop counts the bytes left in
16 bits, so it sees the payload length modulo 65536. It never emits more than 53 packets,
fewer than the packet array can hold.
-/

namespace FfProxy
open Base

/-- `FF_CLIENT_MAX_PACKET_LENGTH`, `client/c/client_p.h:8`. -/
def ffClientMaxPacketLength : Nat := 1300

/-- The option list of every packet but the first, `client/c/client.c:217–220`. -/
def emptyOptionList : List UInt8 := [OptionType.eol, 0, 0]

/-- The bytes of one packet, `client/c/client.c:200–229`. -/
def packetBytes (requestId : UInt64) (total : UInt32) (options : List UInt8) (offset : Nat)
    (data : List UInt8) : List UInt8 :=
  writeHeader ⟨1, requestId, total, UInt32.ofNat offset, UInt16.ofNat data.length⟩ ++
    (options ++ data)

/-- The option list of a packet, `client/c/client.c:210–222`. -/
def packetOptionList (r : Request) (first : Bool) : List UInt8 :=
  if first then ffClientWriteOptions r.options else emptyOptionList

/-- The bytes of data a packet takes, `client/c/client.c:224–225`. -/
def chunkLengthFor (bytesLeftInPacket bytesLeft : Nat) : Nat :=
  if bytesLeft > bytesLeftInPacket then bytesLeftInPacket else bytesLeft

/-- The data that fits a packet behind its header and option list. -/
def bytesLeftInPacket (r : Request) (first : Bool) : Nat :=
  ffClientMaxPacketLength - (requestHeaderSize + (packetOptionList r first).length)

/-- Only the first packet can be without room for data. -/
theorem bytesLeftInPacket_pos (r : Request) : 0 < bytesLeftInPacket r false := by
  change 0 < 1277
  decide

/-- The packet loop, `client/c/client.c:198–237`. No write leaves the buffer of a packet and
no read leaves the block of the payload. -/
def packetiseLoop (requestId : UInt64) (r : Request) (value : List UInt8) (first : Bool)
    (chunkOffset bytesLeft : Nat) : Except Fault (List (List UInt8)) :=
  if bytesLeft = 0 then .ok []
  else if ffClientMaxPacketLength < requestHeaderSize + (packetOptionList r first).length then
    .error .outOfBounds
  else if value.length < chunkOffset + chunkLengthFor (bytesLeftInPacket r first) bytesLeft then
    .error .outOfBounds
  else
    match packetiseLoop requestId r value false
        (chunkOffset + chunkLengthFor (bytesLeftInPacket r first) bytesLeft)
        (bytesLeft - chunkLengthFor (bytesLeftInPacket r first) bytesLeft) with
    | .error fault => .error fault
    | .ok rest => .ok (packetBytes requestId r.payloadLength.toUInt32 (packetOptionList r first)
        chunkOffset (slice value chunkOffset
          (chunkLengthFor (bytesLeftInPacket r first) bytesLeft)) :: rest)
termination_by 2 * bytesLeft + first.toNat
decreasing_by
  cases first with
  | false =>
    have hpos := bytesLeftInPacket_pos r
    rw [Bool.toNat_false, chunkLengthFor]
    split <;> omega
  | true =>
    rw [Bool.toNat_false, Bool.toNat_true]
    omega

/-- `ff_client_packetise_request`, `client/c/client.c:189–242`. -/
def ffClientPacketiseRequest (requestId : UInt64) (r : Request) :
    Except Fault (List (List UInt8)) :=
  let bytesLeft := r.payloadLength.toNat % 65536
  match r.payload with
  | [] => if bytesLeft = 0 then .ok [] else .error .nullDereference
  | node :: _ => packetiseLoop requestId r node.value true 0 bytesLeft

/-- A piece of a payload that 16-bit positions can address. -/
structure PayloadChunk where
  offset : Nat
  data : List UInt8
  fits : offset + data.length < 65536

/-- The positions of a chunk. -/
def PayloadChunk.span (c : PayloadChunk) : Span := ⟨c.offset, c.data.length⟩

/-- The packet that carries a chunk. -/
def PayloadChunk.packet (c : PayloadChunk) (requestId : UInt64) (total : UInt32)
    (options : List UInt8) : List UInt8 := packetBytes requestId total options c.offset c.data

theorem readHeader_chunk_packet (c : PayloadChunk) (requestId : UInt64) (total : UInt32)
    (options : List UInt8) :
    readHeader (c.packet requestId total options) =
      ⟨1, requestId, total, UInt32.ofNat c.offset, UInt16.ofNat c.data.length⟩ :=
  readHeader_writeHeader _ _

/-- The payload positions that a packet claims in its header. -/
def packetSpan (packet : List UInt8) : Span :=
  ⟨(readHeader packet).chunkOffset.toNat, (readHeader packet).chunkLength.toNat⟩

/-- A packet of the client claims the positions of its chunk. -/
theorem packetSpan_packet (c : PayloadChunk) (requestId : UInt64) (total : UInt32)
    (options : List UInt8) : packetSpan (c.packet requestId total options) = c.span := by
  have hf := c.fits
  rw [packetSpan, readHeader_chunk_packet, PayloadChunk.span, UInt32.toNat_ofNat',
    UInt16.toNat_ofNat', Nat.mod_eq_of_lt (by omega), Nat.mod_eq_of_lt (by omega)]

/-- A run of chunks that cuts out of `value` the positions from `start` to `stop`. -/
structure CutsOut (value : List UInt8) (start : Nat) (chunks : List PayloadChunk) (stop : Nat) :
    Prop where
  consecutive : Span.Consecutive start (chunks.map PayloadChunk.span) stop
  data : ∀ c ∈ chunks, c.data = slice value c.offset c.data.length

/-- What a run of chunks carries is the stretch of the payload it cuts out. -/
theorem CutsOut.flatMap_data {value : List UInt8} {start stop : Nat} {chunks : List PayloadChunk}
    (h : CutsOut value start chunks stop) :
    chunks.flatMap PayloadChunk.data = slice value start (stop - start) := by
  induction chunks generalizing start with
  | nil =>
    have hs : start = stop := h.consecutive
    simp [hs, slice]
  | cons c rest ih =>
    have hoff : c.offset = start := h.consecutive.1
    have hnext : CutsOut value (start + c.data.length) rest stop :=
      ⟨hoff ▸ h.consecutive.2, fun c' hc' ↦ h.data c' (by simp [hc'])⟩
    have hle := hnext.consecutive.start_le_stop
    have hd : c.data = (value.drop start).take c.data.length := by
      rw [← hoff]
      exact h.data c (by simp)
    have hsplit : stop - start = c.data.length + (stop - (start + c.data.length)) := by omega
    rw [List.flatMap_cons, ih hnext, slice, slice, hsplit, List.take_add, ← hd, List.drop_drop]

/-- A packet takes no more data than is left. -/
theorem chunkLengthFor_le (room left : Nat) : chunkLengthFor room left ≤ left := by
  unfold chunkLengthFor
  split <;> omega

/-- A packet with room takes data as long as some is left. -/
theorem chunkLengthFor_pos {room left : Nat} (hr : 0 < room) (hl : 0 < left) :
    0 < chunkLengthFor room left := by
  unfold chunkLengthFor
  split <;> omega

/-- The chunk that the loop takes at some position. -/
private def chunkAt (value : List UInt8) (offset length : Nat)
    (h : offset + length < 65536) : PayloadChunk where
  offset := offset
  data := slice value offset length
  fits := by
    have := length_slice_le value offset length
    omega

/-- One round of the loop with enough room emits one packet and goes on behind its data. -/
theorem packetiseLoop_step (requestId : UInt64) (r : Request) (value : List UInt8)
    (first : Bool) (offset left : Nat) (rest : List (List UInt8)) (hl : left ≠ 0)
    (ho : requestHeaderSize + (packetOptionList r first).length ≤ ffClientMaxPacketLength)
    (hv : offset + left ≤ value.length)
    (hrest : packetiseLoop requestId r value false
        (offset + chunkLengthFor (bytesLeftInPacket r first) left)
        (left - chunkLengthFor (bytesLeftInPacket r first) left) = .ok rest) :
    packetiseLoop requestId r value first offset left =
      .ok (packetBytes requestId r.payloadLength.toUInt32 (packetOptionList r first) offset
        (slice value offset (chunkLengthFor (bytesLeftInPacket r first) left)) :: rest) := by
  have hc := chunkLengthFor_le (bytesLeftInPacket r first) left
  rw [packetiseLoop, if_neg hl, if_neg (Nat.not_lt.mpr ho), if_neg (by omega), hrest]

/-- A chunk in front of a run that starts where it ends. -/
private theorem cutsOut_cons {value : List UInt8} {offset length stop : Nat}
    {chunks : List PayloadChunk} (h : offset + length < 65536)
    (hv : offset + length ≤ value.length) (hr : CutsOut value (offset + length) chunks stop) :
    CutsOut value offset (chunkAt value offset length h :: chunks) stop := by
  have hlen : (chunkAt value offset length h).data.length = length := length_slice _ _ _ hv
  refine ⟨⟨rfl, ?_⟩, ?_⟩
  · have hstop : (chunkAt value offset length h).span.stop = offset + length := by
      rw [PayloadChunk.span, hlen]
      rfl
    rw [hstop]
    exact hr.consecutive
  · intro c hc
    rcases List.mem_cons.mp hc with rfl | hc
    · rw [hlen]
      rfl
    · exact hr.data c hc

/-- After the first packet, the loop cuts the rest of the payload into packets with data. -/
theorem packetiseLoop_tail (requestId : UInt64) (r : Request) (value : List UInt8)
    (offset left : Nat) (hv : offset + left ≤ value.length) (hs : offset + left < 65536) :
    ∃ chunks, packetiseLoop requestId r value false offset left =
        .ok (chunks.map fun c ↦ c.packet requestId r.payloadLength.toUInt32 emptyOptionList) ∧
      CutsOut value offset chunks (offset + left) ∧ ∀ c ∈ chunks, 0 < c.data.length := by
  induction left using Nat.strong_induction_on generalizing offset with
  | _ left ih =>
    by_cases hl : left = 0
    · refine ⟨[], ?_, ⟨?_, by simp⟩, by simp⟩
      · rw [packetiseLoop, if_pos hl]
        rfl
      · rw [hl]
        rfl
    · have hle := chunkLengthFor_le (bytesLeftInPacket r false) left
      have hpos := chunkLengthFor_pos (bytesLeftInPacket_pos r) (Nat.pos_of_ne_zero hl)
      generalize hk : chunkLengthFor (bytesLeftInPacket r false) left = k at hle hpos
      obtain ⟨chunks, hrun, hcut, hdata⟩ :=
        ih (left - k) (by omega) (offset + k) (by omega) (by omega)
      refine ⟨chunkAt value offset k (by omega) :: chunks, ?_, ?_, ?_⟩
      · have hroom : requestHeaderSize + (packetOptionList r false).length ≤
            ffClientMaxPacketLength := by
          change 23 ≤ 1300
          decide
        rw [packetiseLoop_step requestId r value false offset left _ hl hroom hv
          (by rw [hk]; exact hrun), hk]
        rfl
      · rw [show offset + k + (left - k) = offset + left by omega] at hcut
        exact cutsOut_cons _ (by omega) hcut
      · intro c hc
        rcases List.mem_cons.mp hc with rfl | hc
        · change 0 < (slice value offset k).length
          rw [length_slice _ _ _ (by omega)]
          exact hpos
        · exact hdata c hc

/-- The packets of a request whose options fit the first packet: the options go with the first
chunk, all other chunks carry data, as the first one does if it has room, and together the
chunks cut out of the block what the 16-bit counter sees of the payload. -/
theorem ffClientPacketiseRequest_chunks (requestId : UInt64) (r : Request) (node : PayloadNode)
    (rest : List PayloadNode) {left : Nat} (hp : r.payload = node :: rest)
    (hleft : r.payloadLength.toNat % 65536 = left) (h0 : 0 < left)
    (hv : left ≤ node.value.length)
    (ho : requestHeaderSize + (ffClientWriteOptions r.options).length ≤ ffClientMaxPacketLength) :
    ∃ first chunks, ffClientPacketiseRequest requestId r =
        .ok (first.packet requestId r.payloadLength.toUInt32 (ffClientWriteOptions r.options) ::
          chunks.map fun c ↦ c.packet requestId r.payloadLength.toUInt32 emptyOptionList) ∧
      CutsOut node.value 0 (first :: chunks) left ∧
      (∀ c ∈ chunks, 0 < c.data.length) ∧
      (requestHeaderSize + (ffClientWriteOptions r.options).length < ffClientMaxPacketLength →
        0 < first.data.length) := by
  have hs : left < 65536 := hleft ▸ Nat.mod_lt _ (by decide)
  have hle := chunkLengthFor_le (bytesLeftInPacket r true) left
  generalize hk : chunkLengthFor (bytesLeftInPacket r true) left = k at hle
  obtain ⟨chunks, hrun, hcut, hdata⟩ := packetiseLoop_tail requestId r node.value k
    (left - k) (by omega) (by omega)
  refine ⟨chunkAt node.value 0 k (by omega), chunks, ?_, ?_, hdata, fun hroom ↦ ?_⟩
  · rw [ffClientPacketiseRequest, hp]
    simp only [hleft]
    rw [packetiseLoop_step requestId r node.value true 0 _ _ (Nat.ne_of_gt h0) ho (by omega)
      (by rw [hk, Nat.zero_add]; exact hrun), hk]
    rfl
  · rw [show k + (left - k) = left by omega] at hcut
    exact cutsOut_cons _ (by omega) (by rw [Nat.zero_add]; exact hcut)
  · have hpos : 0 < k := by
      rw [← hk]
      apply chunkLengthFor_pos _ h0
      exact Nat.sub_pos_of_lt hroom
    change 0 < (slice node.value 0 k).length
    rw [length_slice _ _ _ (by omega)]
    exact hpos

/-- The chunks of a payload of 1 to 65535 bytes cut all of it out of its block. -/
theorem ffClientPacketiseRequest_spec (requestId : UInt64) (r : Request) (node : PayloadNode)
    (rest : List PayloadNode) (hp : r.payload = node :: rest) (h0 : 0 < r.payloadLength.toNat)
    (hs : r.payloadLength.toNat < 65536) (hv : r.payloadLength.toNat ≤ node.value.length)
    (ho : requestHeaderSize + (ffClientWriteOptions r.options).length ≤ ffClientMaxPacketLength) :
    ∃ first chunks, ffClientPacketiseRequest requestId r =
        .ok (first.packet requestId r.payloadLength.toUInt32 (ffClientWriteOptions r.options) ::
          chunks.map fun c ↦ c.packet requestId r.payloadLength.toUInt32 emptyOptionList) ∧
      CutsOut node.value 0 (first :: chunks) r.payloadLength.toNat ∧
      (∀ c ∈ chunks, 0 < c.data.length) ∧
      (requestHeaderSize + (ffClientWriteOptions r.options).length < ffClientMaxPacketLength →
        0 < first.data.length) :=
  ffClientPacketiseRequest_chunks requestId r node rest hp (Nat.mod_eq_of_lt hs) h0 hv ho

end FfProxy
