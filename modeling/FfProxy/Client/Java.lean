import FfProxy.Client.Agreement

/-!
# The packetiser of the Java client

`packetiseRequest`, `client/java/src/main/java/com/timetoogo/ffclient/FfClient.java:257–347`, has
the loop of the other clients and writes its numbers with masks and shifts of its own. One shift
of `writeLong` is wrong, so the request id and the time stamp reach the proxy as other numbers.
Apart from that the packets are those of the C client.
-/

namespace FfProxy
open Base

namespace Java

/-- `FfRequest`, `FfRequest.java`; there is one version. The id has the bits of the `long`. -/
structure Request where
  requestId : UInt64
  options : List OptionNode
  payload : List UInt8

/-- The bytes that `writeShort` writes, `FfClient.java:318–324`. -/
def shortBytes (val : UInt16) : List UInt8 :=
  let intVal := val.toUInt32
  [((intVal &&& 0xff00) >>> 8).toUInt8, (intVal &&& 0xff).toUInt8]

/-- The bytes that `writeInt` writes, `FfClient.java:326–334`. The literal `0xff000000` is a
negative `int`, which is extended to a `long` with its sign. -/
def intBytes (val : UInt32) : List UInt8 :=
  let longVal := val.toUInt64
  [((longVal &&& 0xffffffffff000000) >>> 24).toUInt8, ((longVal &&& 0xff0000) >>> 16).toUInt8,
    ((longVal &&& 0xff00) >>> 8).toUInt8, (longVal &&& 0xff).toUInt8]

/-- The bytes that `writeLong` writes, `FfClient.java:336–347`. -/
def longBytes (val : UInt64) : List UInt8 :=
  [((val &&& 0xff00000000000000) >>> 56).toUInt8, ((val &&& 0xff000000000000) >>> 48).toUInt8,
    ((val &&& 0xff0000000000) >>> 40).toUInt8, ((val &&& 0xff00000000) >>> 36).toUInt8,
    ((val &&& 0xffffffffff000000) >>> 24).toUInt8, ((val &&& 0xff0000) >>> 16).toUInt8,
    ((val &&& 0xff00) >>> 8).toUInt8, (val &&& 0xff).toUInt8]

/-- The number that `ntohll` makes of what `writeLong` writes. -/
def decodedLong (val : UInt64) : UInt64 := UInt64.ofNat (ntohll (leValue (longBytes val)))

/-- The value of an option is copied if its length is positive as a `short`,
`FfClient.java:309–312`. -/
def writeValue (o : OptionNode) (c : Cursor) : Except ClientFault Cursor :=
  if 0 < o.length.toInt16 then checked (c.put (o.value.take o.length.toNat)) else .ok c

/-- `writeRequestOptions`, `FfClient.java:304–316`. -/
def writeRequestOptions (c : Cursor) : List OptionNode → Except ClientFault Cursor
  | [] => .ok c
  | o :: rest => do
    let c ← checked (c.put [o.type])
    let c ← checked (c.put (shortBytes o.length))
    let c ← writeValue o c
    writeRequestOptions c rest

/-- The header of a packet up to the length of its chunk, `FfClient.java:265–271`. -/
def writeHeader (request : Request) (chunkOffset : Int) : Except ClientFault Cursor := do
  let c := Cursor.start maxPacketLength
  let c ← checked (c.put (shortBytes 1))
  let c ← checked (c.put (longBytes request.requestId))
  let c ← checked (c.put (intBytes (UInt32.ofNat request.payload.length)))
  checked (c.put (intBytes (UInt32.ofNat chunkOffset.toNat)))

/-- One round of the loop of `packetiseRequest`, `FfClient.java:264–297`. -/
def writePacket (request : Request) (chunkOffset bytesLeft : Int) :
    Except ClientFault (UdpPacket × Int) := do
  let c ← writeHeader request chunkOffset
  let chunkLengthPtr := c.ptr
  let c := c.skip 2
  let c ← writeRequestOptions c
    (if chunkOffset = 0 then request.options else [terminator false])
  let chunkLength := min (maxPacketLength - c.ptr : Int) bytesLeft
  let c ← checked (c.patch chunkLengthPtr (shortBytes (UInt16.ofNat chunkLength.toNat)))
  let data ← readChunk request.payload chunkOffset.toNat chunkLength.toNat
  let c ← checked (c.put data)
  return (⟨c.buff, c.ptr⟩, chunkLength)

/-- `packetiseRequest`, `FfClient.java:257–302`. -/
def packetiseRequest (fuel : Nat) (request : Request) : Except ClientFault (List UdpPacket) :=
  packetLoop (writePacket request) fuel 0 request.payload.length

/-! ### Numbers -/

/-- The byte that a mask and a shift cut out of a number. -/
private theorem and_shiftRight_mod (v m s : Nat) :
    ((v &&& m) >>> s) % 256 = (v >>> s) &&& ((m >>> s) &&& 255) := by
  rw [show 256 = 2 ^ 8 from rfl, ← Nat.and_two_pow_sub_one_eq_mod, Nat.shiftRight_and_distrib,
    Nat.and_assoc]

/-- A mask that lets a whole byte through. -/
private theorem byte_of_mask {v m s : Nat} (hm : (m >>> s) &&& 255 = 255) :
    ((v &&& m) >>> s) % 256 = v / 2 ^ s % 256 := by
  rw [and_shiftRight_mod, hm, Nat.shiftRight_eq_div_pow]
  exact Nat.and_two_pow_sub_one_eq_mod _ 8

private theorem lowByte_of_mask (v : Nat) : (v &&& 255) % 256 = v % 256 := by
  rw [Nat.and_two_pow_sub_one_eq_mod v 8]
  exact Nat.mod_mod _ _

private theorem byte_of_long {v m s : UInt64} (hs : s.toNat < 64)
    (hm : (m.toNat >>> s.toNat) &&& 255 = 255) :
    ((v &&& m) >>> s).toUInt8 = UInt8.ofNat (v.toNat / 2 ^ s.toNat % 256) := by
  apply UInt8.toNat_inj.mp
  rw [UInt64.toNat_toUInt8, UInt64.toNat_shiftRight, UInt64.toNat_and, Nat.mod_eq_of_lt hs,
    byte_of_mask hm, UInt8.toNat_ofNat', Nat.mod_mod]

private theorem lowByte_of_long (v : UInt64) :
    (v &&& 0xff).toUInt8 = UInt8.ofNat (v.toNat % 256) := by
  apply UInt8.toNat_inj.mp
  rw [UInt64.toNat_toUInt8, UInt64.toNat_and, UInt8.toNat_ofNat', Nat.mod_mod]
  exact lowByte_of_mask _

private theorem beBytes_four (v : Nat) : beBytes 4 v =
    [UInt8.ofNat (v / 2 ^ 24 % 256), UInt8.ofNat (v / 2 ^ 16 % 256), UInt8.ofNat (v / 2 ^ 8 % 256),
      UInt8.ofNat (v % 256)] := by
  simp [beBytes, leBytes, Nat.div_div_eq_div_mul]

private theorem beBytes_eight (v : Nat) : beBytes 8 v =
    [UInt8.ofNat (v / 2 ^ 56 % 256), UInt8.ofNat (v / 2 ^ 48 % 256),
      UInt8.ofNat (v / 2 ^ 40 % 256), UInt8.ofNat (v / 2 ^ 32 % 256),
      UInt8.ofNat (v / 2 ^ 24 % 256), UInt8.ofNat (v / 2 ^ 16 % 256),
      UInt8.ofNat (v / 2 ^ 8 % 256), UInt8.ofNat (v % 256)] := by
  simp [beBytes, leBytes, Nat.div_div_eq_div_mul]

/-- A `short` is written most significant byte first. -/
theorem shortBytes_eq (val : UInt16) : shortBytes val = beBytes 2 val.toNat := by
  have hhigh : ((val.toUInt32 &&& 0xff00) >>> 8).toUInt8 = UInt8.ofNat (val.toNat / 256 % 256) := by
    apply UInt8.toNat_inj.mp
    rw [UInt32.toNat_toUInt8, UInt32.toNat_shiftRight, UInt32.toNat_and, UInt16.toNat_toUInt32,
      UInt8.toNat_ofNat', Nat.mod_mod]
    exact byte_of_mask (by decide)
  have hlow : (val.toUInt32 &&& 0xff).toUInt8 = UInt8.ofNat (val.toNat % 256) := by
    apply UInt8.toNat_inj.mp
    rw [UInt32.toNat_toUInt8, UInt32.toNat_and, UInt16.toNat_toUInt32, UInt8.toNat_ofNat',
      Nat.mod_mod]
    exact lowByte_of_mask _
  rw [shortBytes, hhigh, hlow]
  rfl

/-- An `int` is written most significant byte first. -/
theorem intBytes_eq (val : UInt32) : intBytes val = beBytes 4 val.toNat := by
  rw [intBytes, byte_of_long (by decide) (by decide), byte_of_long (by decide) (by decide),
    byte_of_long (by decide) (by decide), lowByte_of_long, UInt32.toNat_toUInt64, beBytes_four]
  rfl

private theorem length_longBytes (val : UInt64) : (longBytes val).length = 8 := rfl

/-- A `long` is written as the number that arrives, most significant byte first. -/
theorem longBytes_eq (val : UInt64) : longBytes val = beBytes 8 (decodedLong val).toNat := by
  have hlt : beValue (longBytes val) < 2 ^ 64 := by
    have h := beValue_lt (longBytes val)
    rwa [length_longBytes] at h
  rw [decodedLong, ntohll_leValue _ (length_longBytes val), UInt64.toNat_ofNat',
    Nat.mod_eq_of_lt hlt]
  exact (beBytes_beValue (longBytes val)).symm

/-- The fourth byte of a `long`, which holds its bits 32 to 39. -/
def fourthByte (val : UInt64) : Nat := val.toNat / 2 ^ 32 % 256

/-- The wrong shift keeps the upper half of the fourth byte only. -/
private theorem fourthByte_written (val : UInt64) :
    ((val &&& 0xff00000000) >>> 36).toUInt8 = UInt8.ofNat (val.toNat / 2 ^ 36 % 16) := by
  apply UInt8.toNat_inj.mp
  rw [UInt64.toNat_toUInt8, UInt64.toNat_shiftRight, UInt64.toNat_and]
  have hmask : (val.toNat &&& 0xff00000000) >>> 36 % 256 = val.toNat / 2 ^ 36 % 16 := by
    rw [and_shiftRight_mod, Nat.shiftRight_eq_div_pow]
    exact Nat.and_two_pow_sub_one_eq_mod _ 4
  rw [UInt8.toNat_ofNat', Nat.mod_eq_of_lt (a := val.toNat / 2 ^ 36 % 16) (by omega)]
  exact hmask

/-- A `long` arrives as it was exactly when its fourth byte is zero. -/
theorem decodedLong_eq_iff (val : UInt64) : decodedLong val = val ↔ fourthByte val = 0 := by
  have hwritten : decodedLong val = val ↔ longBytes val = beBytes 8 val.toNat := by
    rw [longBytes_eq]
    refine ⟨fun h ↦ by rw [h], fun h ↦ ?_⟩
    exact UInt64.toNat_inj.mp (beBytes_inj (decodedLong val).toNat_lt val.toNat_lt h)
  have hbytes : longBytes val = beBytes 8 val.toNat ↔
      UInt8.ofNat (val.toNat / 2 ^ 36 % 16) = UInt8.ofNat (val.toNat / 2 ^ 32 % 256) := by
    rw [longBytes, fourthByte_written, byte_of_long (by decide) (by decide),
      byte_of_long (by decide) (by decide), byte_of_long (by decide) (by decide),
      byte_of_long (by decide) (by decide), byte_of_long (by decide) (by decide),
      byte_of_long (by decide) (by decide), lowByte_of_long, beBytes_eight]
    constructor
    · intro h
      injection h with _ h
      injection h with _ h
      injection h with _ h
      injection h
    · intro h
      rw [h]
      rfl
  rw [hwritten, hbytes, ← UInt8.toNat_inj, UInt8.toNat_ofNat', UInt8.toNat_ofNat', fourthByte,
    show 2 ^ 36 = 2 ^ 32 * 16 from rfl, ← Nat.div_div_eq_div_mul]
  have hhalf : val.toNat / 2 ^ 32 / 16 % 16 = val.toNat / 2 ^ 32 % 256 / 16 := by omega
  have hlt : val.toNat / 2 ^ 32 % 256 < 256 := Nat.mod_lt _ (by decide)
  rw [hhalf, Nat.mod_eq_of_lt (Nat.lt_of_le_of_lt (Nat.div_le_self _ _) hlt),
    Nat.mod_eq_of_lt hlt]
  omega

/-! ### Packets -/

variable {size : Nat} {front : List UInt8}

/-- A length below 32768 is the same as a `short`. -/
private theorem toInt_toInt16 {length : UInt16} (h : length.toNat < 2 ^ 15) :
    length.toInt16.toInt = length.toNat := by
  have htwice : 2 * length.toBitVec.toNat < 2 ^ 16 := by
    rw [UInt16.toNat_toBitVec]
    omega
  rw [← Int16.toInt_toBitVec, UInt16.toBitVec_toInt16, BitVec.toInt_eq_toNat_of_lt htwice]
  rfl

/-- A value is copied if its length is not negative as a `short`. -/
theorem writeValue_filled (o : OptionNode) (hshort : o.length.toNat < 2 ^ 15)
    (h : front.length + o.value.length ≤ size) :
    writeValue o (Cursor.filled size front) = .ok (Cursor.filled size (front ++ o.value)) := by
  rw [writeValue, ← o.length_eq, List.take_length]
  split
  · exact checked_put_filled h
  · next hnot =>
    have hzero : o.length.toNat = 0 := by
      rw [Int16.lt_iff_toInt_lt, toInt_toInt16 hshort, Int16.toInt_zero] at hnot
      omega
    rw [List.length_eq_zero_iff.mp (o.length_eq.trans hzero), List.append_nil]

/-- The options are written as the C client writes them. -/
theorem writeRequestOptions_filled (os : List OptionNode) (hsize : size ≤ maxPacketLength)
    (h : front.length + (ffClientWriteOptions os).length ≤ size) :
    writeRequestOptions (Cursor.filled size front) os =
      .ok (Cursor.filled size (front ++ ffClientWriteOptions os)) := by
  induction os generalizing front with
  | nil =>
    rw [ffClientWriteOptions, List.append_nil]
    rfl
  | cons o os ih =>
    rw [ffClientWriteOptions_cons] at h ⊢
    simp only [List.length_append, length_beBytes, List.length_singleton] at h
    -- A value of 32768 bytes or more does not fit a packet.
    have hshort : o.length.toNat < 2 ^ 15 := by
      rw [← o.length_eq]
      rw [maxPacketLength] at hsize
      omega
    rw [writeRequestOptions, bind_of_ok (checked_put_filled (by simp; omega)), shortBytes_eq,
      bind_of_ok (checked_put_filled (by simp; omega)),
      bind_of_ok (writeValue_filled o hshort (by simp; omega)), ih (by simp; omega)]
    simp only [List.append_assoc]

/-- The header is written as the C client writes it for the id that arrives. -/
theorem writeHeader_eq (requestId : UInt64) (os : List OptionNode) {payload : List UInt8}
    {offset : Nat} (htotal : payload.length < 2 ^ 32) (hoffset : offset < 2 ^ 32) :
    writeHeader ⟨requestId, os, payload⟩ offset =
      .ok (Cursor.filled maxPacketLength
        (headerFront (decodedLong requestId) payload.length offset)) := by
  rw [writeHeader, shortBytes_eq, longBytes_eq, intBytes_eq, intBytes_eq, Cursor.start_eq]
  dsimp only
  rw [UInt32.toNat_ofNat', Nat.mod_eq_of_lt htotal, UInt32.toNat_ofNat', Int.toNat_natCast,
    Nat.mod_eq_of_lt hoffset, bind_of_ok (checked_put_filled (by simp [maxPacketLength])),
    bind_of_ok (checked_put_filled (by simp [maxPacketLength])),
    bind_of_ok (checked_put_filled (by simp [maxPacketLength])),
    checked_put_filled (by simp [maxPacketLength])]
  rfl

/-- A round writes the packet of the C client for the id that arrives. -/
theorem writesPackets (requestId : UInt64) (os : List OptionNode) {payload : List UInt8}
    (hlen : payload.length < 2 ^ 31)
    (hfit : requestHeaderSize + (ffClientWriteOptions os).length ≤ maxPacketLength) :
    WritesPackets (writePacket ⟨requestId, os, payload⟩) (decodedLong requestId)
      (ffClientWriteOptions os) payload := by
  intro offset left hpos hsum
  have hround := round_chunkLengthAt hlen hfit hsum
  generalize chunkLengthAt (ffClientWriteOptions os) offset left = k at hround ⊢
  obtain ⟨hopts, hdata, htotal, hinside, hmin⟩ := hround
  have hk : (UInt16.ofNat k).toNat = k := UInt16.toNat_ofNat_of_lt' (by rw [UInt16.size]; omega)
  rw [packetBytes_eq (by omega) (by omega) (by rw [hdata]; omega), hdata]
  rw [optionsAt_eq] at hopts hmin ⊢
  rw [writePacket, bind_of_ok (writeHeader_eq requestId os (by omega) (by omega))]
  dsimp only
  generalize (if (offset : Int) = 0 then os else [terminator false]) = os' at hopts hmin ⊢
  rw [Cursor.skip_filled (by simp [maxPacketLength]),
    bind_of_ok (writeRequestOptions_filled _ (Nat.le_refl _) (by simp [maxPacketLength]; omega)),
    Cursor.ptr_filled, Cursor.ptr_filled, hmin _ (by simp; omega), Int.toNat_natCast,
    List.append_assoc, shortBytes_eq, hk, bind_of_ok (checked_patch_filled (by simp)),
    Int.toNat_natCast, bind_of_ok (readChunk_of_le hinside),
    bind_of_ok (checked_put_filled (by simp [maxPacketLength, hdata]; omega))]
  simp only [List.append_assoc]
  rfl

/-! ### What the proxy reads -/

/-- The packet at an offset states a chunk: its header has version 1, the request id, the length
of the payload, the offset and the number of bytes that follow the options. -/
structure StatesChunk (requestId : UInt64) (options payload : List UInt8) (offset n : Nat)
    (packet : List UInt8) : Prop where
  version : (readHeader packet).version = 1
  requestId : (readHeader packet).requestId = requestId
  totalLength : (readHeader packet).totalLength.toNat = payload.length
  chunkOffset : (readHeader packet).chunkOffset.toNat = offset
  chunkLength : (readHeader packet).chunkLength.toNat = n
  data : packet.drop requestHeaderSize = optionsAt options offset ++ slice payload offset n

/-- The packets state chunks that follow each other from an offset to the end of the payload. -/
def StatesChunks (requestId : UInt64) (options payload : List UInt8) : Nat → List UdpPacket → Prop
  | offset, [] => offset = payload.length
  | offset, p :: ps => ∃ n, StatesChunk requestId options payload offset n p.sent ∧
      StatesChunks requestId options payload (offset + n) ps

/-- A packet of the C client states its chunk. -/
theorem statesChunk_packetBytes (requestId : UInt64) (options : List UInt8)
    {payload : List UInt8} {offset n : Nat} (hlen : payload.length < 2 ^ 31)
    (hinside : offset + n ≤ payload.length) (hn : n < 65536) :
    StatesChunk requestId options payload offset n
      (packetBytes requestId (UInt32.ofNat payload.length) (optionsAt options offset) offset
        (slice payload offset n)) := by
  have hdata : (slice payload offset n).length = n := length_slice _ _ _ hinside
  rw [packetBytes, hdata]
  constructor
  case data => rw [List.drop_left' (length_writeHeader _)]
  all_goals rw [readHeader_writeHeader]
  case totalLength => exact UInt32.toNat_ofNat_of_lt' (Nat.lt_trans hlen (by decide))
  case chunkOffset => exact UInt32.toNat_ofNat_of_lt' (by rw [UInt32.size]; omega)
  case chunkLength => exact UInt16.toNat_ofNat_of_lt' hn

/-- A loop whose rounds write the packets of the C client ends, and its packets state the chunks
of the payload. -/
theorem packetLoop_states {writePacket : Int → Int → Except ClientFault (UdpPacket × Int)}
    {requestId : UInt64} {options payload : List UInt8}
    (hw : WritesPackets writePacket requestId options payload) (hlen : payload.length < 2 ^ 31)
    (hroom : requestHeaderSize + options.length < maxPacketLength) {offset left : Nat}
    (hsum : offset + left = payload.length) :
    ∃ packets, (∀ fuel ≥ left, packetLoop writePacket fuel offset left = .ok packets) ∧
      StatesChunks requestId options payload offset packets := by
  induction left using Nat.strong_induction_on generalizing offset with
  | h left ih =>
    by_cases hleft : left = 0
    · subst hleft
      exact ⟨[], fun _ _ ↦ packetLoop_zero _ _ _, hsum⟩
    have hpos := Nat.pos_of_ne_zero hleft
    have hpacket := hw offset left hpos hsum
    have hround := round_chunkLengthAt hlen (Nat.le_of_lt hroom) hsum
    have hle : chunkLengthAt options offset left ≤ left := chunkLengthFor_le _ _
    have htakes : 0 < chunkLengthAt options offset left := chunkLengthAt_pos hroom hpos
    generalize chunkLengthAt options offset left = k at hpacket hround hle htakes
    obtain ⟨packets, hloop, hstates⟩ := ih (left - k) (by omega) (show offset + k + _ = _ by omega)
    have hsmall : k < 65536 := by
      have := hround.options_fit
      omega
    have hchunk := statesChunk_packetBytes requestId options hlen hround.inside hsmall
    rw [← sent_padded (packetBytes _ _ _ _ _)] at hchunk
    refine ⟨padded _ :: packets, fun fuel hfuel ↦ ?_, k, hchunk, hstates⟩
    obtain ⟨fuel, rfl⟩ := Nat.exists_eq_succ_of_ne_zero (show fuel ≠ 0 by omega)
    exact packetLoop_step hpos hle hpacket (hloop fuel (by omega))

/-- The packetiser returns, and its packets state the chunks of the payload under the id of the
request. -/
def Decodes (requestId : UInt64) (options : List OptionNode) (payload : List UInt8) : Prop :=
  ∃ packets, (∃ enough, ∀ fuel ≥ enough,
      packetiseRequest fuel ⟨requestId, options, payload⟩ = .ok packets) ∧
    StatesChunks requestId (ffClientWriteOptions options) payload 0 packets

section Decodes

variable {requestId : UInt64} {os : List OptionNode} {payload : List UInt8}

/-- Without payload there are no packets. -/
theorem decodes_nil (requestId : UInt64) (os : List OptionNode) : Decodes requestId os [] :=
  ⟨[], ⟨0, fun _ _ ↦ packetLoop_zero _ _ _⟩, rfl⟩

/-- The packets state the id that arrives. -/
theorem packetiseRequest_states (requestId : UInt64) (hlen : payload.length < 2 ^ 31)
    (hroom : requestHeaderSize + (ffClientWriteOptions os).length < maxPacketLength) :
    ∃ packets, (∀ fuel ≥ payload.length,
        packetiseRequest fuel ⟨requestId, os, payload⟩ = .ok packets) ∧
      StatesChunks (decodedLong requestId) (ffClientWriteOptions os) payload 0 packets :=
  packetLoop_states (writesPackets requestId os hlen (Nat.le_of_lt hroom)) hlen hroom
    (Nat.zero_add _)

/-- The packetiser only returns if the first packet has room for data. -/
theorem Decodes.room (h : Decodes requestId os payload) (hne : payload ≠ [])
    (hlen : payload.length < 2 ^ 31)
    (hfit : requestHeaderSize + (ffClientWriteOptions os).length ≤ maxPacketLength) :
    requestHeaderSize + (ffClientWriteOptions os).length < maxPacketLength := by
  obtain ⟨packets, ⟨enough, hrun⟩, _⟩ := h
  exact room_of_returns (writesPackets requestId os hlen hfit) hfit hne
    (hrun enough (Nat.le_refl _))

/-- The id of the first packet is the id of the request. -/
theorem Decodes.decodedLong_eq (h : Decodes requestId os payload) (hne : payload ≠ [])
    (hlen : payload.length < 2 ^ 31)
    (hroom : requestHeaderSize + (ffClientWriteOptions os).length < maxPacketLength) :
    decodedLong requestId = requestId := by
  obtain ⟨packets, ⟨enough, hrun⟩, hstates⟩ := h
  obtain ⟨packets', hrun', hstates'⟩ := packetiseRequest_states requestId hlen hroom
  obtain rfl := Except.ok.inj ((hrun (max enough payload.length) (Nat.le_max_left _ _)).symm.trans
    (hrun' _ (Nat.le_max_right _ _)))
  cases packets with
  | nil =>
    exact absurd (List.length_eq_zero_iff.mp hstates.symm) hne
  | cons p ps =>
    obtain ⟨_, hp, _⟩ := hstates
    obtain ⟨_, hp', _⟩ := hstates'
    exact hp'.requestId.symm.trans hp.requestId

end Decodes

end Java

/-- The packets of the Java client decode to the request and a time stamp to itself exactly when
the fourth bytes of the request id and of the time stamp are zero and the first packet has room
for data; without payload there are no packets. -/
theorem java_decodes_iff (requestId now : UInt64) (os : List OptionNode) (payload : List UInt8)
    (hlen : payload.length < 2 ^ 31)
    (hfit : requestHeaderSize + (ffClientWriteOptions os).length ≤ maxPacketLength) :
    Java.Decodes requestId os payload ∧ Java.decodedLong now = now ↔
      (payload = [] ∨ Java.fourthByte requestId = 0 ∧
        requestHeaderSize + (ffClientWriteOptions os).length < maxPacketLength) ∧
      Java.fourthByte now = 0 := by
  rw [Java.decodedLong_eq_iff]
  refine and_congr_left fun _ ↦ ?_
  by_cases hne : payload = []
  · subst hne
    exact iff_of_true (Java.decodes_nil _ _) (.inl rfl)
  rw [or_iff_right hne, ← Java.decodedLong_eq_iff]
  constructor
  · intro h
    have hroom := h.room hne hlen hfit
    exact ⟨h.decodedLong_eq hne hlen hroom, hroom⟩
  · rintro ⟨hid, hroom⟩
    obtain ⟨packets, hrun, hstates⟩ := Java.packetiseRequest_states requestId hlen hroom
    rw [hid] at hstates
    exact ⟨packets, ⟨_, hrun⟩, hstates⟩

/-- An id and a time stamp of 32 bits, and a payload of one byte. -/
theorem java_decodes_short : Java.Decodes 9 [terminator false] [65] ∧
    Java.decodedLong 1600000000 = 1600000000 :=
  (java_decodes_iff 9 1600000000 [terminator false] [65] (by decide) (by decide)).mpr
    ⟨.inr ⟨by decide, by decide⟩, by decide⟩

/-- The id `0x100000000` arrives as 0. -/
theorem not_java_decodes_long : ¬ Java.Decodes 0x100000000 [terminator false] [65] ∧
    Java.decodedLong 0x100000000 = 0 := by
  have hzero : Java.decodedLong 0x100000000 = 0 := by decide
  refine ⟨fun h ↦ ?_, hzero⟩
  have heq := h.decodedLong_eq (by decide) (by decide) (by decide)
  rw [hzero] at heq
  exact absurd heq (by decide)

end FfProxy
