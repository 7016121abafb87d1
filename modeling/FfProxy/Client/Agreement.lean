import FfProxy.Base.Simulation
import FfProxy.Client.Ports
import FfProxy.Delivery

/-!
# The clients agree on the wire

A round of each packetiser writes the packet that the C client writes at the same offset. So
the loops emit the same packets, as long as the first packet has room for data: the C client
tells the first packet by counting packets, the others by the offset, and without room for
data the offset stays 0 for ever.
-/

namespace FfProxy
open Base

/-! ### What a round writes -/

/-- The option list of the packet at an offset. -/
def optionsAt (options : List UInt8) (offset : Nat) : List UInt8 :=
  if offset = 0 then options else emptyOptionList

/-- The bytes of data that the packet at an offset takes. -/
def chunkLengthAt (options : List UInt8) (offset left : Nat) : Nat :=
  chunkLengthFor (maxPacketLength - (requestHeaderSize + (optionsAt options offset).length)) left

/-- A packet of the given bytes in a zeroed block. -/
def padded (bytes : List UInt8) : UdpPacket :=
  ⟨(Cursor.filled maxPacketLength bytes).buff, bytes.length⟩

@[simp] theorem sent_padded (bytes : List UInt8) : (padded bytes).sent = bytes :=
  Cursor.take_filled maxPacketLength bytes

/-- A round writes the packet of the C client, whatever is left of the payload. -/
def WritesPackets (writePacket : Int → Int → Except ClientFault (UdpPacket × Int))
    (requestId : UInt64) (options payload : List UInt8) : Prop :=
  ∀ offset left : Nat, 0 < left → offset + left = payload.length →
    writePacket offset left = .ok (padded (packetBytes requestId (UInt32.ofNat payload.length)
      (optionsAt options offset) offset
      (slice payload offset (chunkLengthAt options offset left))),
      chunkLengthAt options offset left)

/-- The header of a packet up to the length of its chunk. -/
def headerFront (requestId : UInt64) (total offset : Nat) : List UInt8 :=
  beBytes 2 1 ++ beBytes 8 requestId.toNat ++ beBytes 4 total ++ beBytes 4 offset

@[simp] theorem length_headerFront (requestId : UInt64) (total offset : Nat) :
    (headerFront requestId total offset).length = 18 := by
  simp [headerFront]

/-- A packet is the front of its header, the length of its chunk, its options and its data. -/
theorem packetBytes_eq {requestId : UInt64} {total offset : Nat} {options data : List UInt8}
    (htotal : total < 2 ^ 32) (hoffset : offset < 2 ^ 32) (hdata : data.length < 65536) :
    packetBytes requestId (UInt32.ofNat total) options offset data =
      headerFront requestId total offset ++ (beBytes 2 data.length ++ (options ++ data)) := by
  rw [packetBytes, writeHeader_eq]
  simp only [UInt32.toNat_ofNat', UInt16.toNat_ofNat', Nat.mod_eq_of_lt htotal,
    Nat.mod_eq_of_lt hoffset, Nat.mod_eq_of_lt (show data.length < 2 ^ 16 from hdata),
    headerFront, List.append_assoc]
  rfl

/-- The option list at an offset is what is written for these options. -/
theorem optionsAt_eq (os : List OptionNode) (offset : Nat) :
    optionsAt (ffClientWriteOptions os) offset =
      ffClientWriteOptions (if (offset : Int) = 0 then os else [terminator false]) := by
  by_cases h : offset = 0
  · rw [optionsAt, if_pos h, if_pos (by omega)]
  · rw [optionsAt, if_neg h, if_neg (by omega)]
    decide

/-- The option list at an offset fits a packet. -/
theorem optionsAt_fit {options : List UInt8} {offset : Nat}
    (hfit : requestHeaderSize + options.length ≤ maxPacketLength) :
    requestHeaderSize + (optionsAt options offset).length ≤ maxPacketLength := by
  rw [optionsAt]
  split
  · exact hfit
  · decide

/-- The numbers of a round: the options fit, the data fits behind them, and as much data as the
packet takes is left. -/
structure Round (options payload : List UInt8) (offset left k : Nat) : Prop where
  options_fit : 20 + (optionsAt options offset).length + k ≤ 1300
  length_data : (slice payload offset k).length = k
  total_lt : payload.length < 2 ^ 31
  inside : offset + k ≤ payload.length
  min_eq : ∀ ptr, ptr = 20 + (optionsAt options offset).length →
    min (maxPacketLength - ptr : Int) left = k

/-- A round of any packetiser takes what is left, up to what fits behind the options. -/
theorem chunkLengthAt_eq (options : List UInt8) (offset left : Nat) :
    chunkLengthAt options offset left =
      min (1300 - (20 + (optionsAt options offset).length)) left := by
  rw [chunkLengthAt, chunkLengthFor, requestHeaderSize, maxPacketLength]
  split <;> omega

/-- A round takes as much data as it should. -/
theorem round_chunkLengthAt {options payload : List UInt8} {offset left : Nat}
    (hlen : payload.length < 2 ^ 31) (hfit : requestHeaderSize + options.length ≤ maxPacketLength)
    (hsum : offset + left = payload.length) :
    Round options payload offset left (chunkLengthAt options offset left) := by
  have hopts : 20 + (optionsAt options offset).length ≤ 1300 := optionsAt_fit hfit
  rw [chunkLengthAt_eq]
  have hinside : offset + min (1300 - (20 + (optionsAt options offset).length)) left ≤
      payload.length := by omega
  refine ⟨by omega, length_slice _ _ _ hinside, hlen, hinside, ?_⟩
  rintro ptr rfl
  rw [maxPacketLength]
  omega

/-- A round takes some data, if the first packet has room for it. -/
theorem chunkLengthAt_pos {options : List UInt8} {offset left : Nat}
    (hroom : requestHeaderSize + options.length < maxPacketLength) (hleft : 0 < left) :
    0 < chunkLengthAt options offset left := by
  refine chunkLengthFor_pos (Nat.sub_pos_of_lt ?_) hleft
  rw [optionsAt]
  split
  · exact hroom
  · decide

/-- The next bytes of an option list. -/
theorem ffClientWriteOptions_cons (o : OptionNode) (os : List OptionNode) :
    ffClientWriteOptions (o :: os) =
      [o.type] ++ (beBytes 2 o.length.toNat ++ (o.value ++ ffClientWriteOptions os)) := by
  rw [ffClientWriteOptions, leBytes_ntohs]
  rfl

section Writes

variable {size : Nat} {front bytes : List UInt8}

theorem checked_put_filled (h : front.length + bytes.length ≤ size) :
    checked ((Cursor.filled size front).put bytes) =
      .ok (Cursor.filled size (front ++ bytes)) := by
  rw [Cursor.put_filled h]
  rfl

theorem checked_patch_filled {gap back : List UInt8} (hgap : gap.length = bytes.length) :
    checked ((Cursor.filled size (front ++ (gap ++ back))).patch front.length bytes) =
      .ok (Cursor.filled size (front ++ (bytes ++ back))) := by
  rw [Cursor.patch_filled hgap]
  rfl

theorem readChunk_of_le {payload : List UInt8} {offset n : Nat} (h : offset + n ≤ payload.length) :
    readChunk payload offset n = .ok (slice payload offset n) :=
  if_pos h

theorem storeAll_filled (h : front.length + bytes.length ≤ size) :
    (Cursor.filled size front).storeAll bytes = Cursor.filled size (front ++ bytes) :=
  Cursor.storeAll_of_put (Cursor.put_filled h)

end Writes

/-! ### Python -/

namespace Python

variable {size n value : Nat} {front : List UInt8}

theorem packed_of_lt (hv : value < 256 ^ n) : packed n value = .ok (beBytes n value) :=
  if_pos hv

theorem packIntoSize_filled (hv : value < 256 ^ n) (h : front.length + n ≤ size) :
    packIntoSize n value (Cursor.filled size front) =
      .ok (Cursor.filled size (front ++ beBytes n value)) := by
  rw [packIntoSize, bind_of_ok (packed_of_lt hv)]
  exact checked_put_filled (by rwa [length_beBytes])

/-- The options are written as the C client writes them. -/
theorem writeRequestOptions_filled (os : List OptionNode)
    (h : front.length + (ffClientWriteOptions os).length ≤ size) :
    writeRequestOptions (Cursor.filled size front) os =
      .ok (Cursor.filled size (front ++ ffClientWriteOptions os)) := by
  induction os generalizing front with
  | nil =>
    rw [ffClientWriteOptions, List.append_nil]
    rfl
  | cons o os ih =>
    rw [ffClientWriteOptions_cons] at h ⊢
    simp only [List.length_append, length_beBytes, List.length_singleton] at h
    have htype : beBytes 1 o.type.toNat = [o.type] := by simp [beBytes, leBytes]
    rw [writeRequestOptions, bind_of_ok (packIntoSize_filled o.type.toNat_lt (by omega)),
      bind_of_ok (packIntoSize_filled o.length.toNat_lt (by simp; omega)),
      bind_of_ok (checked_put_filled (by simp; omega)), ih (by simp; omega), htype]
    simp only [List.append_assoc]

/-- The header of a packet up to the length of its chunk. -/
def headerStart (request : Request) (offset : Nat) : List UInt8 :=
  beBytes 2 request.version ++ beBytes 8 request.requestId ++ beBytes 4 request.payload.len ++
    beBytes 4 offset

@[simp] theorem length_headerStart (request : Request) (offset : Nat) :
    (headerStart request offset).length = 18 := by
  simp [headerStart]

/-- The bytes of a packet. -/
def packetOf (request : Request) (offset : Nat) (options data : List UInt8) : List UInt8 :=
  headerStart request offset ++ (beBytes 2 data.length ++ (options ++ data))

/-- The numbers of the header can be packed. -/
structure Request.Packs (request : Request) : Prop where
  version : request.version < 256 ^ 2
  requestId : request.requestId < 256 ^ 8
  len : request.payload.len < 256 ^ 4

/-- The header is written field by field. -/
theorem writeHeader_eq {request : Request} {offset : Nat} (hp : request.Packs)
    (hoffset : offset < 2 ^ 32) :
    writeHeader request offset =
      .ok (Cursor.filled maxPacketLength (headerStart request offset)) := by
  rw [writeHeader, Cursor.start_eq, bind_of_ok (packIntoSize_filled hp.version (by decide)),
    bind_of_ok (packIntoSize_filled hp.requestId (by simp [maxPacketLength])),
    bind_of_ok (packIntoSize_filled hp.len (by simp [maxPacketLength])), Int.toNat_natCast,
    packIntoSize_filled hoffset (by simp [maxPacketLength])]
  rfl

/-- A round writes the header, the options of its offset and the next bytes of the payload. -/
theorem writePacket_eq {request : Request} {offset left : Nat} (hp : request.Packs)
    (hoffset : offset < 2 ^ 32)
    (hfit : requestHeaderSize + (ffClientWriteOptions request.options).length ≤ maxPacketLength)
    (hsum : offset + left = request.payload.encoded.length) :
    writePacket request offset left =
      .ok (padded (packetOf request offset (optionsAt (ffClientWriteOptions request.options) offset)
          (slice request.payload.encoded offset
            (chunkLengthAt (ffClientWriteOptions request.options) offset left))),
        chunkLengthAt (ffClientWriteOptions request.options) offset left) := by
  have hopts : 20 + (optionsAt (ffClientWriteOptions request.options) offset).length ≤ 1300 :=
    optionsAt_fit hfit
  have hchunk := chunkLengthAt_eq (ffClientWriteOptions request.options) offset left
  generalize chunkLengthAt (ffClientWriteOptions request.options) offset left = k at hchunk ⊢
  rw [optionsAt_eq] at hopts hchunk ⊢
  rw [writePacket, bind_of_ok (writeHeader_eq hp hoffset)]
  dsimp only
  generalize (if (offset : Int) = 0 then request.options else [terminator false]) = os
    at hopts hchunk ⊢
  have hinside : offset + k ≤ request.payload.encoded.length := by omega
  have hdata : (slice request.payload.encoded offset k).length = k := length_slice _ _ _ hinside
  have hmin : ∀ ptr, ptr = 20 + (ffClientWriteOptions os).length →
      min (maxPacketLength - ptr : Int) left = k := by
    rintro ptr rfl
    rw [maxPacketLength]
    omega
  rw [Cursor.skip_filled (by simp [maxPacketLength]),
    bind_of_ok (writeRequestOptions_filled _ (by simp [maxPacketLength]; omega)),
    Cursor.ptr_filled, hmin _ (by simp; omega), Int.toNat_natCast,
    bind_of_ok (packed_of_lt (by omega)), Cursor.ptr_filled, List.append_assoc,
    bind_of_ok (checked_patch_filled (by simp)), Int.toNat_natCast,
    bind_of_ok (readChunk_of_le hinside),
    bind_of_ok (checked_put_filled (by simp [maxPacketLength, hdata]; omega)), packetOf, hdata]
  simp only [List.append_assoc]
  rfl

/-- A round writes the packet of the C client. -/
theorem writesPackets (requestId : UInt64) (os : List OptionNode) {payload : List UInt8}
    (hlen : payload.length < 2 ^ 31)
    (hfit : requestHeaderSize + (ffClientWriteOptions os).length ≤ maxPacketLength) :
    WritesPackets (writePacket ⟨1, requestId.toNat, os, .bytes payload⟩) requestId
      (ffClientWriteOptions os) payload := by
  intro offset left hpos hsum
  have hround := round_chunkLengthAt hlen hfit hsum
  have hpacks : Request.Packs ⟨1, requestId.toNat, os, .bytes payload⟩ :=
    ⟨show 1 < 256 ^ 2 by decide, requestId.toNat_lt, Nat.lt_trans hlen (by decide)⟩
  have hopts := hround.options_fit
  rw [writePacket_eq hpacks (by omega) hfit hsum,
    packetBytes_eq (by omega) (by omega) (by rw [hround.length_data]; omega)]
  rfl

end Python

/-! ### .NET -/

namespace DotNet

variable {size : Nat} {front : List UInt8}

theorem writeNumber_filled {n value : Nat} (h : front.length + n ≤ size) :
    writeNumber n value (Cursor.filled size front) =
      .ok (Cursor.filled size (front ++ beBytes n value)) := by
  rw [writeNumber, hostToNetworkOrder, leBytes_beValue_leBytes]
  exact checked_put_filled (by rwa [length_beBytes])

/-- A value without bytes is not copied, which makes no difference. -/
theorem writeValue_filled (o : OptionNode) (h : front.length + o.value.length ≤ size) :
    writeValue o.value o.length.toNat (Cursor.filled size front) =
      .ok (Cursor.filled size (front ++ o.value)) := by
  rw [writeValue, ← o.length_eq, List.take_length]
  split
  · exact checked_put_filled h
  · next hnil => rw [List.length_eq_zero_iff.mp (not_not.mp hnil), List.append_nil]

/-- The options are written as the C client writes them. -/
theorem writeOptions_filled (os : List OptionNode)
    (h : front.length + (ffClientWriteOptions os).length ≤ size) :
    writeOptions (Cursor.filled size front) os =
      .ok (Cursor.filled size (front ++ ffClientWriteOptions os)) := by
  induction os generalizing front with
  | nil =>
    rw [ffClientWriteOptions, List.append_nil]
    rfl
  | cons o os ih =>
    rw [ffClientWriteOptions_cons] at h ⊢
    simp only [List.length_append, length_beBytes, List.length_singleton] at h
    have hlength : o.value.length % 65536 = o.length.toNat := by
      rw [o.length_eq]
      exact Nat.mod_eq_of_lt o.length.toNat_lt
    rw [writeOptions, bind_of_ok (checked_put_filled (by simp; omega)), hlength,
      bind_of_ok (writeNumber_filled (by simp; omega)),
      bind_of_ok (writeValue_filled o (by simp; omega)), ih (by simp; omega)]
    simp only [List.append_assoc]

/-- The option list of a packet is that of the C client. -/
theorem writePacketOptions_filled (request : Request) {offset : Nat}
    (h : front.length + (optionsAt (ffClientWriteOptions request.options) offset).length ≤ size) :
    writePacketOptions request offset (Cursor.filled size front) =
      .ok (Cursor.filled size
        (front ++ optionsAt (ffClientWriteOptions request.options) offset)) := by
  rw [writePacketOptions, optionsAt] at *
  by_cases h0 : offset = 0
  · rw [if_pos h0] at h ⊢
    rw [if_pos (by omega)]
    exact writeOptions_filled request.options h
  · rw [if_neg h0] at h ⊢
    have hempty : emptyOptionList.length = 3 := rfl
    rw [if_neg (by omega), bind_of_ok (checked_put_filled (by simp; omega)),
      writeNumber_filled (by simp; omega), List.append_assoc]
    rfl

/-- The header is written as the C client writes it. -/
theorem writeHeader_eq (requestId : UInt64) (os : List OptionNode) {payload : List UInt8}
    {offset : Nat} (htotal : payload.length < 2 ^ 32) :
    writeHeader ⟨1, requestId, os, payload⟩ offset =
      .ok (Cursor.filled maxPacketLength (headerFront requestId payload.length offset)) := by
  rw [writeHeader, Cursor.start_eq, bind_of_ok (writeNumber_filled (by decide)),
    bind_of_ok (writeNumber_filled (by simp [maxPacketLength])),
    bind_of_ok (writeNumber_filled (by simp [maxPacketLength])), Int.toNat_natCast,
    writeNumber_filled (by simp [maxPacketLength]), Nat.mod_eq_of_lt htotal]
  rfl

/-- A round writes the packet of the C client. -/
theorem writesPackets (requestId : UInt64) (os : List OptionNode) {payload : List UInt8}
    (hlen : payload.length < 2 ^ 31)
    (hfit : requestHeaderSize + (ffClientWriteOptions os).length ≤ maxPacketLength) :
    WritesPackets (writePacket ⟨1, requestId, os, payload⟩) requestId
      (ffClientWriteOptions os) payload := by
  intro offset left hpos hsum
  have hround := round_chunkLengthAt hlen hfit hsum
  generalize chunkLengthAt (ffClientWriteOptions os) offset left = k at hround ⊢
  obtain ⟨hopts, hdata, htotal, hinside, hmin⟩ := hround
  have hk : ((k : Int) % 65536) = k := by omega
  rw [packetBytes_eq (by omega) (by omega) (by rw [hdata]; omega), hdata, writePacket,
    bind_of_ok (writeHeader_eq requestId os (by omega))]
  dsimp only
  rw [Cursor.skip_filled (by simp [maxPacketLength]),
    bind_of_ok (writePacketOptions_filled _ (by simp [maxPacketLength]; omega)),
    Cursor.ptr_filled, min_comm, hmin _ (by simp; omega), hk, Int.toNat_natCast,
    Int.toNat_natCast, bind_of_ok (readChunk_of_le hinside),
    bind_of_ok (checked_put_filled (by simp [maxPacketLength, hdata]; omega)), Cursor.ptr_filled,
    hostToNetworkOrder, leBytes_beValue_leBytes, List.append_assoc, List.append_assoc,
    bind_of_ok (checked_patch_filled (by simp))]
  rfl

end DotNet

/-! ### Node -/

namespace Node

/-- A byte of a number that is not negative as a 32-bit integer. -/
theorem shiftedByte_natCast {x : Nat} (hx : x < 2 ^ 31) (shift : Nat) :
    shiftedByte x shift = UInt8.ofNat (x / 2 ^ shift % 256) := by
  have hb : (x : Int).bmod (2 ^ 32) = x := by
    rw [Int.bmod_def]
    omega
  rw [shiftedByte, hb, Int.shiftRight_eq_div_pow]
  congr 1

/-- A number is written most significant byte first. -/
theorem numberBytes_natCast (n : Nat) {x : Nat} (hx : x < 2 ^ 31) :
    numberBytes n x = beBytes n x := by
  apply List.ext_getElem
  · simp [numberBytes]
  · intro i hi hi'
    have hshift : 8 * (n - 1) - i * 8 = 8 * (n - 1 - i) := by omega
    simp only [numberBytes, List.getElem_map, List.getElem_range]
    rw [getElem_beBytes, hshift, shiftedByte_natCast hx]

/-- Elements that are there are read as they are. -/
theorem elements_natCast {bytes : List UInt8} {offset n : Nat} (h : offset + n ≤ bytes.length) :
    elements bytes offset n = slice bytes offset n := by
  apply List.ext_getElem
  · rw [elements, List.length_map, List.length_range, length_slice _ _ _ h]
  · intro i hi hi'
    have hlt : offset + i < bytes.length := by
      rw [length_slice _ _ _ h] at hi'
      omega
    have hnat : ((offset : Int) + i).toNat = offset + i := by omega
    simp only [elements, slice, List.getElem_map, List.getElem_range, List.getElem_take,
      List.getElem_drop, elementAt]
    rw [if_pos (by omega), hnat, List.getD_eq_getElem?_getD, List.getElem?_eq_getElem hlt,
      Option.getD_some]

/-- All elements. -/
theorem elements_all {bytes : List UInt8} {n : Nat} (h : bytes.length = n) :
    elements bytes 0 n = bytes := by
  have hall : elements bytes (0 : Nat) n = slice bytes 0 n := elements_natCast (by omega)
  rw [slice, List.drop_zero, ← h, List.take_length] at hall
  rw [← h]
  exact hall

variable {size : Nat} {front : List UInt8}

/-- The options are written as the C client writes them. -/
theorem writeRequestOptions_filled (os : List OptionNode)
    (h : front.length + (ffClientWriteOptions os).length ≤ size) :
    writeRequestOptions (Cursor.filled size front) os =
      Cursor.filled size (front ++ ffClientWriteOptions os) := by
  induction os generalizing front with
  | nil =>
    rw [ffClientWriteOptions, List.append_nil]
    rfl
  | cons o os ih =>
    rw [ffClientWriteOptions_cons] at h ⊢
    simp only [List.length_append, length_beBytes, List.length_singleton] at h
    have hlength : o.length.toNat < 65536 := o.length.toNat_lt
    have htype : (Cursor.filled size front).storeAll [o.type] =
        Cursor.filled size (front ++ [o.type]) := storeAll_filled (by simp; omega)
    rw [writeRequestOptions, show (Cursor.filled size front).store o.type = _ from htype,
      numberBytes_natCast 2 (by omega), elements_all o.length_eq, storeAll_filled (by simp; omega),
      storeAll_filled (by simp; omega), ih (by simp; omega)]
    simp only [List.append_assoc]

/-- The header is written as the C client writes it. -/
theorem writeHeader_eq (requestId : UInt64) (os : List OptionNode) {payload : List UInt8}
    {offset : Nat} (htotal : payload.length < 2 ^ 31) (hoffset : offset < 2 ^ 31) :
    writeHeader ⟨beBytes 8 requestId.toNat, payload, os⟩ offset =
      Cursor.filled maxPacketLength (headerFront requestId payload.length offset) := by
  rw [writeHeader, Cursor.start_eq, storeAll_filled (by decide), elements_all (length_beBytes _ _),
    storeAll_filled (by simp [maxPacketLength]), numberBytes_natCast 4 htotal,
    storeAll_filled (by simp [maxPacketLength]), numberBytes_natCast 4 hoffset,
    storeAll_filled (by simp [maxPacketLength])]
  rfl

/-- A round writes the packet of the C client. -/
theorem writesPackets (requestId : UInt64) (os : List OptionNode) {payload : List UInt8}
    (hlen : payload.length < 2 ^ 31)
    (hfit : requestHeaderSize + (ffClientWriteOptions os).length ≤ maxPacketLength) :
    WritesPackets (fun chunkOffset bytesLeft ↦
        .ok (writePacket ⟨beBytes 8 requestId.toNat, payload, os⟩ chunkOffset bytesLeft))
      requestId (ffClientWriteOptions os) payload := by
  intro offset left hpos hsum
  have hround := round_chunkLengthAt hlen hfit hsum
  generalize chunkLengthAt (ffClientWriteOptions os) offset left = k at hround ⊢
  obtain ⟨hopts, hdata, htotal, hinside, hmin⟩ := hround
  rw [packetBytes_eq (by omega) (by omega) (by rw [hdata]; omega), hdata]
  rw [optionsAt_eq] at hopts hmin ⊢
  refine congrArg Except.ok ?_
  rw [writePacket, writeHeader_eq requestId os htotal (by omega)]
  dsimp only
  generalize (if (offset : Int) = 0 then os else [terminator false]) = os' at hopts hmin ⊢
  rw [Cursor.skip_filled (by simp [maxPacketLength]),
    writeRequestOptions_filled _ (by simp [maxPacketLength]; omega), Cursor.ptr_filled,
    Cursor.ptr_filled, min_comm, hmin _ (by simp; omega), Int.toNat_natCast,
    elements_natCast hinside, storeAll_filled (by simp [maxPacketLength, hdata]; omega),
    numberBytes_natCast 2 (by omega), List.append_assoc, List.append_assoc,
    Cursor.amend_of_patch (Cursor.patch_filled (by simp))]
  rfl

end Node

/-! ### The loops -/

/-- Nothing is left to send. -/
theorem packetLoop_zero (writePacket : Int → Int → Except ClientFault (UdpPacket × Int))
    (fuel : Nat) (offset : Int) : packetLoop writePacket fuel offset 0 = .ok [] := by
  cases fuel <;> rfl

/-- A round of the loop. -/
theorem packetLoop_step {writePacket : Int → Int → Except ClientFault (UdpPacket × Int)}
    {fuel offset left k : Nat} {packet : UdpPacket} {packets : List UdpPacket} (hleft : 0 < left)
    (hk : k ≤ left) (hpacket : writePacket offset left = .ok (packet, k))
    (hrest : packetLoop writePacket fuel (offset + k : Nat) (left - k : Nat) = .ok packets) :
    packetLoop writePacket (fuel + 1) offset left = .ok (packet :: packets) := by
  have hleft' : (0 : Int) < left := by omega
  rw [Nat.cast_add, Nat.cast_sub hk] at hrest
  rw [packetLoop, if_pos hleft', hpacket]
  dsimp only
  rw [hrest]

private theorem packetOptionList_decide (r : Request) (offset : Nat) :
    packetOptionList r (decide (offset = 0)) =
      optionsAt (ffClientWriteOptions r.options) offset := by
  simp [packetOptionList, optionsAt]

/-- A round of the C client, which has sent no packet yet exactly at offset 0. -/
private theorem packetiseLoop_at {requestId : UInt64} {r : Request} {value : List UInt8}
    {offset left : Nat} {rest : List (List UInt8)} (hleft : left ≠ 0)
    (hopts : requestHeaderSize + (optionsAt (ffClientWriteOptions r.options) offset).length ≤
      maxPacketLength)
    (hv : offset + left ≤ value.length)
    (hrest : packetiseLoop requestId r value false
        (offset + chunkLengthAt (ffClientWriteOptions r.options) offset left)
        (left - chunkLengthAt (ffClientWriteOptions r.options) offset left) = .ok rest) :
    packetiseLoop requestId r value (decide (offset = 0)) offset left =
      .ok (packetBytes requestId r.payloadLength.toUInt32
        (optionsAt (ffClientWriteOptions r.options) offset) offset
        (slice value offset (chunkLengthAt (ffClientWriteOptions r.options) offset left)) ::
          rest) := by
  have hk : chunkLengthFor (bytesLeftInPacket r (decide (offset = 0))) left =
      chunkLengthAt (ffClientWriteOptions r.options) offset left := by
    rw [bytesLeftInPacket, packetOptionList_decide]
    rfl
  rw [packetiseLoop_step requestId r value _ offset left rest hleft
    (by rw [packetOptionList_decide]; exact hopts) hv (by rw [hk]; exact hrest), hk,
    packetOptionList_decide]

/-- A loop whose rounds write the packets of the C client emits what the C client emits, if the
first packet has room for data. -/
theorem packetLoop_agrees {writePacket : Int → Int → Except ClientFault (UdpPacket × Int)}
    {requestId : UInt64} {r : Request} {payload value : List UInt8}
    (hw : WritesPackets writePacket requestId (ffClientWriteOptions r.options) payload)
    (hroom : requestHeaderSize + (ffClientWriteOptions r.options).length < maxPacketLength)
    (hpre : payload <+: value) (htotal : r.payloadLength.toUInt32 = UInt32.ofNat payload.length)
    {fuel offset left : Nat} (hfuel : left ≤ fuel) (hsum : offset + left = payload.length) :
    ∃ packets, packetiseLoop requestId r value (decide (offset = 0)) offset left = .ok packets ∧
      packetLoop writePacket fuel offset left = .ok (packets.map padded) := by
  induction fuel generalizing offset left with
  | zero =>
    obtain rfl : left = 0 := Nat.le_zero.mp hfuel
    exact ⟨[], by rw [packetiseLoop, if_pos rfl], packetLoop_zero _ _ _⟩
  | succ fuel ih =>
    by_cases hleft : left = 0
    · subst hleft
      exact ⟨[], by rw [packetiseLoop, if_pos rfl], packetLoop_zero _ _ _⟩
    have hopts : requestHeaderSize + (optionsAt (ffClientWriteOptions r.options) offset).length ≤
        maxPacketLength := optionsAt_fit (Nat.le_of_lt hroom)
    have hpos := Nat.pos_of_ne_zero hleft
    have hpacket := hw offset left hpos hsum
    have hvalue : offset + left ≤ value.length := by
      rw [hsum]
      exact hpre.length_le
    have hle : chunkLengthAt (ffClientWriteOptions r.options) offset left ≤ left :=
      chunkLengthFor_le _ _
    have htakes : 0 < chunkLengthAt (ffClientWriteOptions r.options) offset left :=
      chunkLengthAt_pos hroom hpos
    obtain ⟨k, hk⟩ : ∃ k, chunkLengthAt (ffClientWriteOptions r.options) offset left = k :=
      ⟨_, rfl⟩
    rw [hk] at hpacket hle htakes
    obtain ⟨packets, hrest, hloop⟩ : ∃ packets, packetiseLoop requestId r value
        (decide (offset + k = 0)) (offset + k) (left - k) = .ok packets ∧
        packetLoop writePacket fuel (offset + k : Nat) (left - k : Nat) =
          .ok (packets.map padded) := ih (by omega) (by omega)
    rw [decide_eq_false (by omega)] at hrest
    refine ⟨_, packetiseLoop_at hleft hopts hvalue (by rw [hk]; exact hrest), ?_⟩
    obtain ⟨behind, rfl⟩ := hpre
    rw [hk, htotal, slice_append_left _ _ _ _ (by omega), List.map_cons]
    exact packetLoop_step hpos hle hpacket hloop

/-- A round that takes no data is the same again. -/
theorem packetLoop_stuck {writePacket : Int → Int → Except ClientFault (UdpPacket × Int)}
    {offset left : Int} {packet : UdpPacket} (hpos : 0 < left)
    (hpacket : writePacket offset left = .ok (packet, 0)) (fuel : Nat) :
    packetLoop writePacket fuel offset left = .error .divergence := by
  induction fuel with
  | zero => rw [packetLoop, if_pos hpos]
  | succ fuel ih =>
    rw [packetLoop, if_pos hpos, hpacket]
    simp only [add_zero, sub_zero, ih]

/-- A round takes no data if the options fill the first packet. -/
theorem chunkLengthAt_of_full {options : List UInt8} {left : Nat}
    (hfull : requestHeaderSize + options.length = maxPacketLength) :
    chunkLengthAt options 0 left = 0 := by
  rw [requestHeaderSize, maxPacketLength] at hfull
  rw [chunkLengthAt_eq, optionsAt, if_pos rfl]
  omega

/-- Without room for data the loop stays at offset 0. -/
theorem packetLoop_diverges {writePacket : Int → Int → Except ClientFault (UdpPacket × Int)}
    {requestId : UInt64} {options payload : List UInt8}
    (hw : WritesPackets writePacket requestId options payload)
    (hfull : requestHeaderSize + options.length = maxPacketLength) (hne : payload ≠ [])
    (fuel : Nat) : packetLoop writePacket fuel 0 payload.length = .error .divergence := by
  have hpos : 0 < payload.length := List.length_pos_iff.mpr hne
  have hpacket := hw 0 payload.length hpos (Nat.zero_add _)
  rw [chunkLengthAt_of_full hfull] at hpacket
  exact packetLoop_stuck (Int.natCast_pos.mpr hpos) hpacket fuel

/-- A loop that returns had room for data in the first packet. -/
theorem room_of_returns {writePacket : Int → Int → Except ClientFault (UdpPacket × Int)}
    {requestId : UInt64} {options payload : List UInt8}
    (hw : WritesPackets writePacket requestId options payload)
    (hfit : requestHeaderSize + options.length ≤ maxPacketLength) (hne : payload ≠ [])
    {fuel : Nat} {packets : List UdpPacket}
    (hrun : packetLoop writePacket fuel 0 payload.length = .ok packets) :
    requestHeaderSize + options.length < maxPacketLength := by
  refine Nat.lt_of_le_of_ne hfit fun hfull ↦ ?_
  rw [packetLoop_diverges hw hfull hne fuel] at hrun
  cases hrun

/-! ### The clients -/

/-- The clients other than the C client that agree with it. -/
inductive Client
  | node
  | python
  | dotnet
  deriving DecidableEq, Repr

namespace Client

/-- The packets that a client makes of a request. -/
def packetiseRequest (fuel : Nat) (requestId : UInt64) (options : List OptionNode)
    (payload : List UInt8) : Client → Except ClientFault (List UdpPacket)
  | node => Node.packetiseRequest fuel ⟨beBytes 8 requestId.toNat, payload, options⟩
  | python => Python.packetiseRequest fuel ⟨1, requestId.toNat, options, .bytes payload⟩
  | dotnet => DotNet.packetiseRequest fuel ⟨1, requestId, options, payload⟩

/-- Every client loops over rounds that write the packets of the C client. -/
theorem exists_writesPackets (client : Client) (requestId : UInt64) (os : List OptionNode)
    {payload : List UInt8} (hlen : payload.length < 2 ^ 31)
    (hfit : requestHeaderSize + (ffClientWriteOptions os).length ≤ maxPacketLength) :
    ∃ writePacket, WritesPackets writePacket requestId (ffClientWriteOptions os) payload ∧
      ∀ fuel, client.packetiseRequest fuel requestId os payload =
        packetLoop writePacket fuel 0 payload.length := by
  cases client with
  | node =>
    refine ⟨_, Node.writesPackets requestId os hlen hfit, fun fuel ↦ ?_⟩
    rw [packetiseRequest, Node.packetiseRequest, if_neg (not_not.mpr (length_beBytes _ _))]
  | python => exact ⟨_, Python.writesPackets requestId os hlen hfit, fun fuel ↦ rfl⟩
  | dotnet => exact ⟨_, DotNet.writesPackets requestId os hlen hfit, fun fuel ↦ rfl⟩

/-- Every client emits the packets of the C client. -/
theorem agrees (client : Client) (requestId : UInt64) {r : Request} {os : List OptionNode}
    {payload : List UInt8} (hr : r.Carries os payload)
    (hroom : requestHeaderSize + (ffClientWriteOptions os).length < maxPacketLength) {fuel : Nat}
    (hfuel : payload.length ≤ fuel) :
    ∃ packets, ffClientPacketiseRequest requestId r = .ok packets ∧
      client.packetiseRequest fuel requestId os payload = .ok (packets.map padded) := by
  obtain ⟨rfl, htotal, node, hp, rfl⟩ := hr
  have hlen : node.bytes.length < 65536 := by
    rw [node.length_bytes]
    exact node.length.toNat_lt
  obtain ⟨writePacket, hw, hloop⟩ := client.exists_writesPackets requestId r.options
    (show node.bytes.length < 2 ^ 31 by omega) (Nat.le_of_lt hroom)
  have htotal' : r.payloadLength.toUInt32 = UInt32.ofNat node.bytes.length := by
    rw [← htotal, ← UInt32.toNat_inj, UInt64.toNat_toUInt32, UInt32.toNat_ofNat']
  obtain ⟨packets, hc, hp'⟩ := packetLoop_agrees hw hroom (List.take_prefix _ _) htotal' hfuel
    (Nat.zero_add _)
  refine ⟨packets, ?_, ?_⟩
  · rw [ffClientPacketiseRequest, hp]
    dsimp only
    rw [htotal, Nat.mod_eq_of_lt hlen]
    exact hc
  · rw [hloop]
    exact hp'

/-- Delivered in order, the packets of a request complete it, and its payload becomes one node
that holds the payload and has its length. -/
def Delivers (client : Client) (requestId : UInt64) (options : List OptionNode)
    (payload : List UInt8) : Prop :=
  ∃ packets, (∃ enough, ∀ fuel ≥ enough,
      client.packetiseRequest fuel requestId options payload = .ok packets) ∧
    ∀ bufs : List Buffer, bufs.map Buffer.bytes = packets.map UdpPacket.sent →
      (parseChunks ffRequestAlloc bufs).state = .received ∧
      ∀ garbage, ∃ r node, ffRequestVectorisePayload garbage (parseChunks ffRequestAlloc bufs) =
        .ok r ∧ r.payload = [node] ∧ node.bytes = payload ∧ node.length.toNat = payload.length

/-- A node holds no more than its 16-bit length says. -/
theorem Delivers.length_lt {client : Client} {requestId : UInt64} {options : List OptionNode}
    {payload : List UInt8} (h : client.Delivers requestId options payload) :
    payload.length < 65536 := by
  obtain ⟨packets, _, harrives⟩ := h
  obtain ⟨_, hnode⟩ := harrives (packets.map fun p ↦ Buffer.ofBytes p.sent)
    (by simp [Function.comp_def])
  obtain ⟨_, node, _, _, _, hlength⟩ := hnode fun _ ↦ 0
  rw [← hlength]
  exact node.length.toNat_lt

/-- A request of the C client with these options and this payload. -/
theorem exists_carries (os : List OptionNode) {payload : List UInt8}
    (hlen : payload.length < 65536) : ∃ r : Request, r.Carries os payload := by
  refine ⟨{ ffRequestAlloc with
    options := os
    payloadLength := UInt64.ofNat payload.length
    payload := [PayloadNode.ofBytes payload] }, rfl, ?_, _, rfl,
    PayloadNode.bytes_ofBytes payload hlen⟩
  exact UInt64.toNat_ofNat_of_lt' (Nat.lt_trans hlen (by decide))

/-- The packetiser only returns if the first packet has room for data. -/
theorem Delivers.room {client : Client} {requestId : UInt64} {os : List OptionNode}
    {payload : List UInt8} (h : client.Delivers requestId os payload) (hne : payload ≠ [])
    (hfit : requestHeaderSize + (ffClientWriteOptions os).length ≤ maxPacketLength) :
    requestHeaderSize + (ffClientWriteOptions os).length < maxPacketLength := by
  have hlen := h.length_lt
  obtain ⟨packets, ⟨enough, hrun⟩, _⟩ := h
  obtain ⟨writePacket, hw, hloop⟩ := client.exists_writesPackets requestId os
    (show payload.length < 2 ^ 31 by omega) hfit
  apply room_of_returns hw hfit hne
  rw [← hloop]
  exact hrun enough (Nat.le_refl _)

/-- The proxy has a slot for every option of a request that is delivered. -/
theorem Delivers.slots {client : Client} {requestId : UInt64} {os : List OptionNode} {brk : Bool}
    {payload : List UInt8} (h : client.Delivers requestId (os ++ [terminator brk]) payload)
    (hne : payload ≠ [])
    (hroom : requestHeaderSize + (encodeOptions os brk).length < maxPacketLength)
    (hd : ∀ o ∈ os, o.IsData) : os.length < ffRequestMaxOptions := by
  obtain ⟨r, hr⟩ := exists_carries (os ++ [terminator brk]) h.length_lt
  obtain ⟨packets, ⟨enough, hrun⟩, harrives⟩ := h
  obtain ⟨packets', hc, hclient⟩ := client.agrees requestId hr hroom
    (Nat.le_max_right enough payload.length)
  obtain rfl := Except.ok.inj ((hrun _ (Nat.le_max_left _ _)).symm.trans hclient)
  have hbytes : (packets'.map Buffer.ofBytes).map Buffer.bytes = packets' := by
    simp [Function.comp_def]
  obtain ⟨hreceived, _⟩ := harrives (packets'.map Buffer.ofBytes) (by simp [Function.comp_def])
  refine Nat.lt_of_not_le fun hmany ↦ ?_
  exact not_received_of_full requestId hr hne hroom hd hmany (by rw [hbytes]; exact hc) hreceived

/-- Up to 65535 bytes are delivered, if the first packet has room for data and the proxy has a
slot for every option. -/
theorem delivers_of_lt (client : Client) (requestId : UInt64) {os : List OptionNode} {brk : Bool}
    {payload : List UInt8} (hne : payload ≠ []) (hlen : payload.length < 65536)
    (hroom : requestHeaderSize + (encodeOptions os brk).length < maxPacketLength)
    (hd : ∀ o ∈ os, o.IsData) (hlt : os.length < ffRequestMaxOptions) :
    client.Delivers requestId (os ++ [terminator brk]) payload := by
  obtain ⟨r, hr⟩ := exists_carries (os ++ [terminator brk]) hlen
  obtain ⟨packets, hc, harrives⟩ := delivery_of_carries requestId hr hne hroom hd hlt
  refine ⟨packets.map padded, ⟨payload.length, fun fuel hfuel ↦ ?_⟩, fun bufs hbufs ↦ ?_⟩
  · obtain ⟨packets', hc', hclient⟩ := client.agrees requestId hr hroom hfuel
    obtain rfl := Except.ok.inj (hc.symm.trans hc')
    exact hclient
  · have hbytes : bufs.map Buffer.bytes = packets := by
      simpa [Function.comp_def] using hbufs
    refine ⟨(harrives (fun _ ↦ 0) bufs hbytes).1, fun garbage ↦ ?_⟩
    obtain ⟨r', hv, ⟨_, _, node, hp, hnode⟩, _⟩ := (harrives garbage bufs hbytes).2.2.2
    exact ⟨r', node, hv, hp, hnode, by rw [← hnode, node.length_bytes]⟩

end Client

/-- The C, Node, Python and .NET clients emit the same packets for a payload of up to 65535
bytes and options that leave room for a byte of data: as many, of the same length and with the
same bytes. -/
theorem clients_agree (client : Client) (requestId : UInt64) {r : Request} {os : List OptionNode}
    {payload : List UInt8} (hr : r.Carries os payload)
    (hfit : (ffClientWriteOptions os).length ≤ 1279) {fuel : Nat}
    (hfuel : payload.length ≤ fuel) :
    ∃ packets ps, ffClientPacketiseRequest requestId r = .ok packets ∧
      client.packetiseRequest fuel requestId os payload = .ok ps ∧
      ps.map UdpPacket.length = packets.map List.length ∧
      ps.map UdpPacket.sent = packets := by
  have hroom : requestHeaderSize + (ffClientWriteOptions os).length < maxPacketLength := by
    rw [requestHeaderSize, maxPacketLength]
    omega
  obtain ⟨packets, hc, hclient⟩ := client.agrees requestId hr hroom hfuel
  refine ⟨packets, packets.map padded, hc, hclient, ?_, ?_⟩
  · rw [List.map_map]
    rfl
  · simp [Function.comp_def]

/-- The options of a request for an HTTPS upstream. -/
def samplePortOptions : List OptionNode :=
  [OptionNode.ofByte OptionType.https 1, terminator false]

/-- A request with these options and a payload of three bytes. -/
def samplePortRequest : Request :=
  { ffRequestAlloc with
    options := samplePortOptions
    payloadLength := 3
    payload := [PayloadNode.ofBytes [65, 66, 67]] }

/-- The Python client emits the packets of the C client for it. -/
theorem clients_agree_https : ∃ packets ps,
    ffClientPacketiseRequest 9 samplePortRequest = .ok packets ∧
    Client.python.packetiseRequest 3 9 samplePortOptions [65, 66, 67] = .ok ps ∧
    ps.map UdpPacket.length = packets.map List.length ∧ ps.map UdpPacket.sent = packets := by
  have hr : samplePortRequest.Carries samplePortOptions [65, 66, 67] :=
    ⟨rfl, rfl, _, rfl, by decide⟩
  exact clients_agree .python 9 hr (by decide) (by decide)

/-- A payload of any size is delivered exactly when its length fits 16 bits, the first packet
has room for data and the proxy has a slot for every option. -/
theorem delivers_iff (client : Client) (requestId : UInt64) (os : List OptionNode) (brk : Bool)
    (payload : List UInt8) (hne : payload ≠ [])
    (hfit : requestHeaderSize + (encodeOptions os brk).length ≤ maxPacketLength)
    (hd : ∀ o ∈ os, o.IsData) :
    client.Delivers requestId (os ++ [terminator brk]) payload ↔
      payload.length ≤ 65535 ∧
        requestHeaderSize + (encodeOptions os brk).length < maxPacketLength ∧
        os.length < ffRequestMaxOptions := by
  constructor
  · intro h
    have hroom := h.room hne hfit
    exact ⟨Nat.le_of_lt_succ h.length_lt, hroom, h.slots hne hroom hd⟩
  · rintro ⟨hlen, hroom, hlt⟩
    exact client.delivers_of_lt requestId hne (by omega) hroom hd hlt

/-- A payload that takes two packets, with a time stamp among the options. -/
theorem delivers_two_packets :
    maxPacketLength < (List.replicate 2000 (65 : UInt8)).length ∧
      Client.node.Delivers 9 ([.ofByte OptionType.https 1, timestampOption 1000] ++
        [terminator false]) (List.replicate 2000 65) := by
  have hlen : (List.replicate 2000 (65 : UInt8)).length = 2000 := List.length_replicate
  refine ⟨by rw [hlen]; decide, ?_⟩
  exact (delivers_iff .node 9 [.ofByte OptionType.https 1, timestampOption 1000] false
    (List.replicate 2000 65) (List.ne_nil_of_length_eq_add_one hlen) (by decide) (by decide)).mpr
    ⟨by rw [hlen]; decide, by decide, by decide⟩

/-- A payload of 65536 bytes is not delivered. -/
theorem not_delivers_long :
    ¬ Client.node.Delivers 9 ([] ++ [terminator false]) (List.replicate 65536 65) := by
  intro h
  have hlen := h.length_lt
  rw [List.length_replicate] at hlen
  exact Nat.lt_irrefl _ hlen

end FfProxy
