import FfProxy.Delivery

/-!
# Arrival order

The overlap test refuses a packet whose chunk ends where a stored chunk starts. A request
therefore survives in-order delivery only: whenever the packets arrive in another order,
some packet comes after the one that follows it and fails the request. A first packet with
more header options than the proxy has slots for is refused in any order.
-/

namespace FfProxy
open Base

/-- The delivery `ps` ends like the delivery `reference`: complete, with the same payload
bytes, options and option flag, and without a refused packet on the way. -/
structure ArrivesAs (ps reference : List Buffer) : Prop where
  received : (parseChunks ffRequestAlloc ps).state = .received
  neverFails : ∀ p, p <+: ps → (parseChunks ffRequestAlloc p).state ≠ .receivingFail
  options : (parseChunks ffRequestAlloc ps).options = (parseChunks ffRequestAlloc reference).options
  contains : (parseChunks ffRequestAlloc ps).payloadContainsOptions =
    (parseChunks ffRequestAlloc reference).payloadContainsOptions
  payload : ∀ garbage, ∃ node node',
    ffRequestVectorisePayload garbage (parseChunks ffRequestAlloc ps) =
      .ok { parseChunks ffRequestAlloc ps with payload := [node] } ∧
    ffRequestVectorisePayload garbage (parseChunks ffRequestAlloc reference) =
      .ok { parseChunks ffRequestAlloc reference with payload := [node'] } ∧
    node.bytes = node'.bytes

/-! ### Deliveries without a refused packet -/

/-- The packets of `ps` are stored in the order of their arrival, and none overlaps an
earlier one by the parser's test. -/
structure StoredInOrder (r : Request) (ps : List Buffer) : Prop where
  versioned : ps ≠ [] → r.version ≠ 0
  fresh : ps = [] → r = ffRequestAlloc
  nothing : r.payload = [] → r.receivedLength = 0
  spans : r.payload.map PayloadNode.span = ps.map fun b ↦ packetSpan b.bytes
  order : (r.payload.map PayloadNode.span).Pairwise fun s t ↦
    ¬ (t.start < s.stop ∧ s.start ≤ t.stop)

private theorem span_madeFrom {c : PayloadChunk} {requestId : UInt64} {total : UInt32}
    {options : List UInt8} {b : Buffer} {node : PayloadNode}
    (hb : b.bytes = c.packet requestId total options) (hm : node.MadeFrom b) :
    node.span = packetSpan b.bytes := by
  have hf := c.fits
  have ho := hm.offset
  have hl := hm.length
  simp only [wireChunk, readHeader_packet hb] at ho hl
  rw [hb, packetSpan_packet]
  simp only [PayloadNode.span, PayloadChunk.span, ho, hl, UInt32.toNat_toUInt16,
    UInt32.toNat_ofNat', UInt16.toNat_ofNat']
  rw [Nat.mod_eq_of_lt (show c.offset < 2 ^ 32 by omega), Nat.mod_eq_of_lt (by omega),
    Nat.mod_eq_of_lt (by omega)]

/-- A data chunk that is not refused is stored behind the others. -/
private theorem storedInOrder_dataChunk {c : PayloadChunk} {requestId : UInt64} {total : UInt32}
    {options : List UInt8} {b : Buffer} {r : Request} {ps : List Buffer}
    (hb : b.bytes = c.packet requestId total options) (hv : r.version ≠ 0)
    (hz : r.payload = [] → r.receivedLength = 0)
    (hspans : r.payload.map PayloadNode.span = ps.map fun b ↦ packetSpan b.bytes)
    (horder : (r.payload.map PayloadNode.span).Pairwise fun s t ↦
      ¬ (t.start < s.stop ∧ s.start ≤ t.stop))
    (hok : (ffRequestParseDataChunk r b).state ≠ .receivingFail) :
    StoredInOrder (ffRequestParseDataChunk r b) (ps ++ [b]) := by
  have hid := ffRequestParseDataChunk_sameIdentity r b
  rcases ffRequestParseDataChunk_cases r b hz with ⟨r', _, hc⟩ | ⟨r', node, ht, _, hm, hn, hc⟩
  · rw [hc] at hok
    exact absurd rfl hok
  · obtain ⟨_, hp, _⟩ := TookOptions.sameIdentity (Or.inr ht)
    have hpay : (ffRequestParseDataChunk r b).payload = r.payload ++ [node] := by
      rw [hc, Request.acceptNode, hp]
    refine ⟨fun _ ↦ hid.version ▸ hv, fun h ↦ by simp at h, fun h ↦ by simp [hpay] at h, ?_, ?_⟩
    · rw [hpay, List.map_append, hspans, List.map_append, List.map_cons, List.map_nil,
        span_madeFrom hb hm]
      rfl
    · rw [hpay, List.map_append, List.pairwise_append]
      refine ⟨horder, by simp, ?_⟩
      intro s hs t ht
      obtain ⟨current, hcur, rfl⟩ := List.mem_map.mp hs
      obtain rfl : t = node.span := by simpa using ht
      have := List.any_eq_false.mp hn current hcur
      simpa [overlapsExistingNode, PayloadNode.span, Span.stop] using this

/-- The packets of a delivery that is never refused are stored in the order of arrival. -/
theorem storedInOrder_of_neverFails {requestId : UInt64} {total : UInt32} {ps : List Buffer}
    (hps : ∀ b ∈ ps, ∃ (c : PayloadChunk) (options : List UInt8),
      b.bytes = c.packet requestId total options)
    (hok : ∀ p, p <+: ps → (parseChunks ffRequestAlloc p).state ≠ .receivingFail) :
    StoredInOrder (parseChunks ffRequestAlloc ps) ps := by
  induction ps using List.reverseRecOn with
  | nil => exact ⟨fun h ↦ absurd rfl h, fun _ ↦ rfl, fun _ ↦ rfl, rfl, List.Pairwise.nil⟩
  | append_singleton ps b ih =>
    have hinv := ih (fun b' hb' ↦ hps b' (by simp [hb']))
      (fun p hp ↦ hok p (hp.trans (List.prefix_append _ _)))
    obtain ⟨c, options, hb⟩ := hps b (by simp)
    have hlast := hok (ps ++ [b]) (List.prefix_rfl)
    rw [parseChunks_concat] at hlast ⊢
    generalize parseChunks ffRequestAlloc ps = r at hinv hlast
    by_cases hv : r.version = 0
    · obtain rfl : ps = [] := by
        by_contra hne
        exact hinv.versioned hne hv
      obtain rfl := hinv.fresh rfl
      have hsz : ¬ b.size < requestHeaderSize := by
        rw [← b.length_bytes, hb, PayloadChunk.packet, packetBytes, List.length_append,
          length_writeHeader]
        omega
      rw [ffRequestParseChunk, if_pos hv, ffRequestParseFirstChunk,
        if_neg (by simp [not_rawHttp_packet hb]), if_neg hsz] at hlast ⊢
      refine storedInOrder_dataChunk hb ?_ hinv.nothing hinv.spans hinv.order hlast
      rw [readHeader_packet hb]
      change ((1 : UInt16).toNat : Int) ≠ 0
      decide
    · rw [ffRequestParseChunk, if_neg hv] at hlast ⊢
      exact storedInOrder_dataChunk hb hv hinv.nothing hinv.spans hinv.order hlast

namespace PacketStream

variable {requestId : UInt64} {total : UInt32} {os : List OptionNode} {brk : Bool}
  {first : PayloadChunk} {chunks : List PayloadChunk} {packets : List (List UInt8)}

private theorem exists_chunk (h : PacketStream requestId total os brk first chunks packets)
    {packet : List UInt8} (hp : packet ∈ packets) :
    ∃ (c : PayloadChunk) (options : List UInt8), packet = c.packet requestId total options := by
  rw [h.packets_eq] at hp
  rcases List.mem_cons.mp hp with rfl | hp
  · exact ⟨first, _, rfl⟩
  · obtain ⟨c, _, rfl⟩ := List.mem_map.mp hp
    exact ⟨c, _, rfl⟩

private theorem map_packetSpan (h : PacketStream requestId total os brk first chunks packets) :
    packets.map packetSpan = (first :: chunks).map PayloadChunk.span := by
  rw [h.packets_eq, List.map_cons, packetSpan_packet, List.map_map, List.map_cons]
  simp only [Function.comp_def, packetSpan_packet]

/-- A permuted delivery that is never refused is the delivery in order. -/
theorem eq_of_neverFails (h : PacketStream requestId total os brk first chunks packets)
    {ps : List Buffer} (hperm : (ps.map Buffer.bytes).Perm packets)
    (hok : ∀ p, p <+: ps → (parseChunks ffRequestAlloc p).state ≠ .receivingFail) :
    ps.map Buffer.bytes = packets := by
  have hstored := storedInOrder_of_neverFails (fun b hb ↦
    h.exists_chunk (hperm.mem_iff.mp (List.mem_map_of_mem hb))) hok
  have horder := hstored.order
  rw [hstored.spans] at horder
  apply Span.eq_of_perm_of_consecutive packetSpan _ _ hperm _
  · exact 0
  · exact total.toNat
  · rw [h.map_packetSpan]
    exact h.consecutive
  · intro packet hp
    rw [h.packets_eq, List.tail_cons] at hp
    obtain ⟨c, hc, rfl⟩ := List.mem_map.mp hp
    rw [packetSpan_packet]
    exact h.data c hc
  · rw [List.pairwise_map] at horder ⊢
    exact horder

/-- In-order delivery arrives as in-order delivery, whatever memory the buffers sit in. -/
theorem arrivesAs (h : PacketStream requestId total os brk first chunks packets)
    (hlt : os.length < ffRequestMaxOptions) (hs : total.toNat < 65536)
    {ps reference : List Buffer} (hp : ps.map Buffer.bytes = packets)
    (hr : reference.map Buffer.bytes = packets) : ArrivesAs ps reference := by
  have hparse := h.parse hlt hp
  have href := h.parse hlt hr
  have hrec := h.received (brk && chunks.all fun c ↦ decide (c.offset ≠ 0))
  rw [← hparse] at hrec
  refine ⟨hrec, ?_, by rw [hparse, href], by rw [hparse, href], ?_⟩
  · intro p hpre
    by_cases hne : p = ps
    · rw [hne, hrec]
      decide
    · rw [h.receiving_of_prefix hlt hp hpre hne]
      decide
  · intro garbage
    obtain ⟨node, hv, _, hbytes⟩ :=
      h.vectorise hs (brk && chunks.all fun c ↦ decide (c.offset ≠ 0)) garbage
    rw [hparse, href]
    exact ⟨node, node, hv, hv, rfl⟩

end PacketStream

/-- Of all arrival orders of the packets of a request, exactly the order in which the client
emits them is reassembled, and that only if the proxy has a slot for each header option. -/
theorem arrivesAs_iff (requestId : UInt64) (r : Request) (node : PayloadNode)
    (os : List OptionNode) (brk : Bool) (hp : r.payload = [node])
    (h0 : 0 < r.payloadLength.toNat) (hs : r.payloadLength.toNat < 65536)
    (hv : r.payloadLength.toNat ≤ node.value.length) (ho : r.options = os ++ [terminator brk])
    (hfit : requestHeaderSize + (encodeOptions os brk).length ≤ ffClientMaxPacketLength)
    (hd : ∀ o ∈ os, o.IsData) :
    ∃ packets, ffClientPacketiseRequest requestId r = .ok packets ∧
      ∀ ps : List Buffer, (ps.map Buffer.bytes).Perm packets →
        (ArrivesAs ps (packets.map Buffer.ofBytes) ↔
          os.length < ffRequestMaxOptions ∧ ps.map Buffer.bytes = packets) := by
  obtain ⟨first, chunks, packets, hrun, hstream, _⟩ :=
    packetStream_of_packetise requestId r node os brk hp h0 hs hv ho hfit hd
  have htotal : r.payloadLength.toUInt32.toNat < 65536 := by
    rw [UInt64.toNat_toUInt32]
    omega
  refine ⟨packets, hrun, fun ps hperm ↦ ⟨fun h ↦ ?_, fun ⟨hlt, h⟩ ↦ ?_⟩⟩
  · have heq := hstream.eq_of_neverFails hperm h.neverFails
    refine ⟨?_, heq⟩
    by_contra hmany
    obtain ⟨b, rest, rfl, _, hfail⟩ := hstream.parse_first_full (Nat.not_lt.mp hmany) heq
    refine h.neverFails [b] (List.prefix_append [b] rest) ?_
    rw [parseChunks, List.foldl_cons, hfail]
    rfl
  · exact hstream.arrivesAs hlt htotal h (by simp [Function.comp_def])

/-- A payload one byte longer than what the first packet can carry. -/
def sampleLongPayload : List UInt8 := List.replicate 1278 65

private theorem length_sampleLongPayload : sampleLongPayload.length = 1278 := List.length_replicate

/-- A request with that payload and no options. -/
def sampleLongRequest : Request :=
  { ffRequestAlloc with
    options := [terminator false]
    payloadLength := 1278
    payload := [⟨0, 1278, sampleLongPayload, by rw [length_sampleLongPayload]; decide⟩] }

/-- The client emits a full packet and one with the last byte. -/
private theorem packetise_sampleLongRequest :
    ∃ p q, ffClientPacketiseRequest 9 sampleLongRequest = .ok [p, q] ∧ p ≠ q := by
  have hl := length_sampleLongPayload
  have hroom : chunkLengthFor (bytesLeftInPacket sampleLongRequest true) 1278 = 1277 := by decide
  have hlast : chunkLengthFor (bytesLeftInPacket sampleLongRequest false) 1 = 1 := by decide
  refine ⟨packetBytes 9 1278 emptyOptionList 0 (slice sampleLongPayload 0 1277),
    packetBytes 9 1278 emptyOptionList 1277 (slice sampleLongPayload 1277 1), ?_, ?_⟩
  · change packetiseLoop 9 sampleLongRequest sampleLongPayload true 0 1278 = _
    rw [packetiseLoop, if_neg (by decide), if_neg (by decide), hroom, if_neg (by omega),
      packetiseLoop, if_neg (by decide), if_neg (by decide), hlast, if_neg (by omega),
      packetiseLoop, if_pos (by decide)]
    rfl
  · intro h
    have := congrArg List.length h
    simp only [packetBytes, List.length_append, length_writeHeader,
      length_slice _ _ _ (show 0 + 1277 ≤ sampleLongPayload.length by omega),
      length_slice _ _ _ (show 1277 + 1 ≤ sampleLongPayload.length by omega)] at this
    omega

private theorem sampleLongRequest_stream :
    ∃ first chunks packets, ffClientPacketiseRequest 9 sampleLongRequest = .ok packets ∧
      PacketStream 9 1278 [] false first chunks packets := by
  obtain ⟨first, chunks, packets, hrun, hstream, _⟩ := packetStream_of_packetise 9 sampleLongRequest
    _ [] false rfl (by decide) (by decide) (Nat.le_of_eq length_sampleLongPayload.symm) rfl
    (by decide) (by simp)
  exact ⟨first, chunks, packets, hrun, hstream⟩

/-- Two packets delivered in order arrive. -/
theorem arrivesAs_sample :
    ∃ packets, ffClientPacketiseRequest 9 sampleLongRequest = .ok packets ∧
      ArrivesAs (packets.map Buffer.ofBytes) (packets.map Buffer.ofBytes) := by
  obtain ⟨packets, hrun, h⟩ := arrivesAs_iff 9 sampleLongRequest _ [] false rfl (by decide)
    (by decide) (Nat.le_of_eq length_sampleLongPayload.symm) rfl (by decide) (by simp)
  have hbytes : (packets.map Buffer.ofBytes).map Buffer.bytes = packets := by
    simp [Function.comp_def]
  exact ⟨packets, hrun, (h _ (List.Perm.of_eq hbytes)).mpr ⟨by decide, hbytes⟩⟩

/-- Two packets that swap places fail the request. -/
theorem not_arrivesAs_swapped :
    ∃ p q, ffClientPacketiseRequest 9 sampleLongRequest = .ok [p, q] ∧
      ¬ ArrivesAs [Buffer.ofBytes q, Buffer.ofBytes p] [Buffer.ofBytes p, Buffer.ofBytes q] := by
  obtain ⟨p, q, hrun, hne⟩ := packetise_sampleLongRequest
  obtain ⟨_, _, packets, hrun', hstream⟩ := sampleLongRequest_stream
  obtain rfl : [p, q] = packets := Except.ok.inj (hrun.symm.trans hrun')
  refine ⟨p, q, hrun, fun h ↦ hne ?_⟩
  have hperm : ([Buffer.ofBytes q, Buffer.ofBytes p].map Buffer.bytes).Perm [p, q] := by
    simpa using List.Perm.swap p q []
  have heq := hstream.eq_of_neverFails hperm h.neverFails
  simp only [List.map_cons, Buffer.bytes_ofBytes, List.map_nil, List.cons.injEq] at heq
  exact heq.1.symm

end FfProxy
