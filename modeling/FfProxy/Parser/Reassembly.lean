import FfProxy.Parser.Chunk

/-!
# Reassembly

What any sequence of packets leaves in a request. The payload nodes of a request are
always pairwise disjoint and `received_length` is the sum of their lengths. When no
packet wraps the 32-bit end of its chunk and the request is shorter than 65536 bytes,
a RECEIVED request holds each byte of its payload exactly once, and vectorising puts
every byte where its packet said.
-/

namespace FfProxy
open Base

/-- The chunk that a packet adds to a request, if any. -/
def acceptedChunk (r : Request) (b : Buffer) : List WireChunk :=
  if (ffRequestParseChunk r b).payload.length = r.payload.length then [] else [wireChunk b]

/-- The chunks that a sequence of packets adds to a request. -/
def acceptedChunks : Request → List Buffer → List WireChunk
  | _, [] => []
  | r, b :: rest => acceptedChunk r b ++ acceptedChunks (ffRequestParseChunk r b) rest

/-- The payload is disjoint and counted, and the options leave a slot free. -/
structure Receiving (r : Request) : Prop where
  apart : (r.payload.map PayloadNode.span).Pairwise Span.Apart
  received : r.receivedLength.toNat = Span.total (r.payload.map PayloadNode.span)
  options : r.optionsLength < ffRequestMaxOptions

/-- A fresh request has received nothing. -/
theorem receiving_alloc : Receiving ffRequestAlloc := by
  refine ⟨?_, rfl, ?_⟩ <;> decide

namespace Receiving

variable {r r' : Request} {b : Buffer} {node : PayloadNode}

/-- Nothing is counted before the first node. -/
theorem receivedLength_of_nil (h : Receiving r) (hp : r.payload = []) : r.receivedLength = 0 := by
  have hr := h.received
  rw [hp] at hr
  exact UInt64.toNat_inj.mp hr

/-- Taking the options of a packet keeps the invariant. -/
theorem of_tookOptions (h : Receiving r) (ht : r' = r ∨ TookOptions r b r') : Receiving r' := by
  rcases ht with rfl | ⟨_, rfl⟩ | ⟨_, os, brk, hlt, _, _, rfl⟩
  · exact h
  · exact h
  · refine ⟨h.apart, h.received, ?_⟩
    rw [Request.optionsLength, Request.addOptions, List.length_append]
    exact hlt

/-- Only the payload, its count and the options matter. -/
theorem congr (h : Receiving r) (hp : r'.payload = r.payload)
    (hr : r'.receivedLength = r.receivedLength) (ho : r'.options = r.options) : Receiving r' := by
  refine ⟨by rw [hp]; exact h.apart, by rw [hp, hr]; exact h.received, ?_⟩
  rw [Request.optionsLength, ho]
  exact h.options

end Receiving

/-- A node that passes the overlap test against a stored node is apart from it. -/
theorem apart_of_not_overlaps {node current : PayloadNode}
    (h : overlapsExistingNode node current = false) : current.span.Apart node.span := by
  rw [Span.apart_iff]
  simp only [overlapsExistingNode, Bool.and_eq_false_iff, decide_eq_false_iff_not] at h
  simp only [PayloadNode.span, Span.stop]
  omega

private theorem apart_append {nodes : List PayloadNode} {node : PayloadNode}
    (ha : (nodes.map PayloadNode.span).Pairwise Span.Apart)
    (hn : nodes.any (overlapsExistingNode node) = false) :
    ((nodes ++ [node]).map PayloadNode.span).Pairwise Span.Apart := by
  rw [List.map_append, List.pairwise_append]
  refine ⟨ha, by simp, ?_⟩
  intro s hs t ht
  obtain ⟨current, hc, rfl⟩ := List.mem_map.mp hs
  have he : t = node.span := by simpa using ht
  rw [he]
  apply apart_of_not_overlaps
  simpa using List.any_eq_false.mp hn current hc

private theorem stop_le (node : PayloadNode) : node.span.stop ≤ 131070 := by
  have h1 : node.offset.toNat < 65536 := node.offset.toNat_lt
  have h2 : node.length.toNat < 65536 := node.length.toNat_lt
  simp only [PayloadNode.span, Span.stop]
  omega

/-- Disjoint nodes with 16-bit fields are together too short to wrap a 64-bit counter. -/
theorem total_payload_le {nodes : List PayloadNode}
    (ha : (nodes.map PayloadNode.span).Pairwise Span.Apart) :
    Span.total (nodes.map PayloadNode.span) ≤ 131070 := by
  apply Span.total_le _ _ ha
  intro s hs
  obtain ⟨node, _, rfl⟩ := List.mem_map.mp hs
  exact stop_le node

/-- Linking a node that overlaps nothing keeps the invariant. -/
theorem Receiving.acceptNode {r : Request} {node : PayloadNode} (h : Receiving r)
    (hn : r.payload.any (overlapsExistingNode node) = false) : Receiving (r.acceptNode node) := by
  have ha := apart_append h.apart hn
  refine ⟨ha, ?_, h.options⟩
  have ht := total_payload_le ha
  rw [List.map_append, Span.total_append] at ht
  have hl : Span.total ([node].map PayloadNode.span) = node.length.toNat := by
    simp [Span.total, PayloadNode.span]
  rw [hl] at ht
  simp only [Request.acceptNode, List.map_append, Span.total_append, hl, UInt64.toNat_add,
    UInt16.toNat_toUInt64, h.received]
  exact Nat.mod_eq_of_lt (by omega)

/-! ### Positions on the wire -/

/-- If the packet is one of version 1, its chunk ends below `2 ^ 32` and its total length fits the
16-bit length of a payload node. -/
def FitsNode (b : Buffer) : Prop :=
  requestHeaderSize ≤ b.size → (readHeader b.mem).version = 1 →
    (wireChunk b).span.stop < 2 ^ 32 ∧ (readHeader b.mem).totalLength.toNat < 65536

instance (b : Buffer) : Decidable (FitsNode b) := inferInstanceAs (Decidable (_ → _ → _ ∧ _))

/-- The payload stands for the accepted chunks at their wire positions. -/
structure Reassembling (r : Request) (chunks : List WireChunk) : Prop where
  receiving : Receiving r
  stands : List.Forall₂ (fun (node : PayloadNode) (c : WireChunk) ↦
    node.span = c.span ∧ node.bytes = c.data) r.payload chunks
  inside : ∀ c ∈ chunks, c.span.stop ≤ r.payloadLength.toNat
  short : r.payloadLength.toNat < 65536
  complete : r.state = .received → r.payload ≠ [] ∧ r.receivedLength = r.payloadLength

/-- The facts a header check establishes. -/
theorem chunkHeaderAccepted_iff (r : Request) (b : Buffer) :
    chunkHeaderAccepted r b = true ↔
      requestHeaderSize + optionHeaderSize ≤ b.size ∧ r.version = ffVersion1 ∧
      ((readHeader b.mem).version.toNat : Int) = r.version ∧
      (readHeader b.mem).requestId = r.requestId ∧
      (readHeader b.mem).totalLength.toUInt64 = r.payloadLength ∧
      ((readHeader b.mem).chunkOffset + (readHeader b.mem).chunkLength.toUInt32).toUInt64 ≤
        r.payloadLength := by
  simp only [chunkHeaderAccepted, Bool.and_eq_true, decide_eq_true_eq]
  constructor
  · rintro ⟨⟨⟨⟨⟨⟨_, hv⟩, hhv⟩, hid⟩, ht⟩, he⟩, hs⟩
    exact ⟨hs, hv, hhv, hid, ht, he⟩
  · rintro ⟨hs, hv, hhv, hid, ht, he⟩
    exact ⟨⟨⟨⟨⟨⟨Nat.le_of_add_right_le hs, hv⟩, hhv⟩, hid⟩, ht⟩, he⟩, hs⟩

/-- A header field with the version number of the protocol. -/
theorem version_eq_one {version : UInt16} (h : (version.toNat : Int) = ffVersion1) :
    version = 1 := by
  rw [ffVersion1] at h
  exact UInt16.toNat_inj.mp (by exact_mod_cast h)

/-- Only packets of version 1 pass the checks. -/
theorem version_of_chunkHeaderAccepted {r : Request} {b : Buffer}
    (h : chunkHeaderAccepted r b = true) : (readHeader b.mem).version = 1 := by
  obtain ⟨_, hv, hhv, _⟩ := (chunkHeaderAccepted_iff r b).mp h
  exact version_eq_one (hhv.trans hv)

namespace Reassembling

variable {r r' : Request} {b : Buffer} {chunks : List WireChunk}

/-- The stored ranges are the wire ranges. -/
theorem spans_eq (h : Reassembling r chunks) :
    r.payload.map PayloadNode.span = chunks.map WireChunk.span := by
  have hs := h.stands
  clear h
  generalize r.payload = nodes at hs
  induction hs with
  | nil => rfl
  | cons hab _ ih => rw [List.map_cons, List.map_cons, ih, hab.1]

/-- Taking the options of a packet keeps the invariant. -/
theorem of_tookOptions (h : Reassembling r chunks) (ht : r' = r ∨ TookOptions r b r') :
    Reassembling r' chunks := by
  have hr := h.receiving.of_tookOptions ht
  rcases ht with rfl | ⟨_, rfl⟩ | ⟨_, os, brk, _, _, _, rfl⟩
  · exact h
  · exact h
  · exact ⟨hr, h.stands, h.inside, h.short, h.complete⟩

/-- A refused packet leaves the chunks alone. -/
theorem fail (h : Reassembling r chunks) :
    Reassembling { r with state := .receivingFail } chunks :=
  ⟨h.receiving.congr rfl rfl rfl, h.stands, h.inside, h.short, fun hs ↦ by simp at hs⟩

/-- A linked node that lies inside the payload extends the chunks. -/
theorem acceptNode {node : PayloadNode} {c : WireChunk} (h : Reassembling r chunks)
    (hn : r.payload.any (overlapsExistingNode node) = false) (hs : node.span = c.span)
    (hb : node.bytes = c.data) (hi : c.span.stop ≤ r.payloadLength.toNat) :
    Reassembling (r.acceptNode node) (chunks ++ [c]) := by
  have hr := h.receiving.acceptNode hn
  have hin : ∀ c' ∈ chunks ++ [c], c'.span.stop ≤ r.payloadLength.toNat := by
    intro c' hc'
    rcases List.mem_append.mp hc' with hc' | hc'
    · exact h.inside c' hc'
    · rw [List.mem_singleton.mp hc']
      exact hi
  have hst : List.Forall₂ (fun (node : PayloadNode) (c : WireChunk) ↦
      node.span = c.span ∧ node.bytes = c.data) (r.payload ++ [node]) (chunks ++ [c]) :=
    List.rel_append h.stands (.cons ⟨hs, hb⟩ .nil)
  refine ⟨hr, hst, hin, h.short, ?_⟩
  intro hstate
  refine ⟨by simp [Request.acceptNode], ?_⟩
  by_cases he : r.receivedLength + node.length.toUInt64 = r.payloadLength
  · exact he
  · -- The request was complete before, so the new chunk can only be empty.
    have hold : r.state = .received := by
      simpa only [Request.acceptNode, if_neg he] using hstate
    have hdone := (h.complete hold).2
    have hle : Span.total ((r.acceptNode node).payload.map PayloadNode.span) ≤
        r.payloadLength.toNat := by
      apply Span.total_le _ _ hr.apart
      intro s hs'
      have hm : s ∈ (chunks ++ [c]).map WireChunk.span := by
        have : (r.acceptNode node).payload.map PayloadNode.span =
            (chunks ++ [c]).map WireChunk.span := by
          simp only [Request.acceptNode, List.map_append, h.spans_eq, List.map_cons, hs,
            List.map_nil]
        rwa [← this]
      obtain ⟨c', hc', rfl⟩ := List.mem_map.mp hm
      exact hin c' hc'
    rw [← hr.received] at hle
    have hsum := hr.received
    simp only [Request.acceptNode, List.map_append, Span.total_append, ← h.receiving.received]
      at hle hsum
    have hl : Span.total ([node].map PayloadNode.span) = node.length.toNat := by
      simp [Span.total, PayloadNode.span]
    rw [hl] at hsum
    have hd := congrArg UInt64.toNat hdone
    change r.receivedLength + node.length.toUInt64 = r.payloadLength
    exact UInt64.toNat_inj.mp (by omega)

end Reassembling

private theorem chunkEnd_toNat (o : UInt32) (l : UInt16) (h : o.toNat + l.toNat < 2 ^ 32) :
    (o + l.toUInt32).toUInt64.toNat = o.toNat + l.toNat := by
  rw [UInt32.toNat_toUInt64, UInt32.toNat_add, UInt16.toNat_toUInt32, Nat.mod_eq_of_lt h]

/-- An accepted chunk that does not wrap lies inside the payload, and its node keeps its
position. -/
theorem wireChunk_inside {r : Request} {b : Buffer} {node : PayloadNode}
    (hh : chunkHeaderAccepted r b = true) (hm : node.MadeFrom b) (hf : FitsNode b) :
    node.span = (wireChunk b).span ∧ (wireChunk b).span.stop ≤ r.payloadLength.toNat := by
  obtain ⟨hs, _, _, _, ht, he⟩ := (chunkHeaderAccepted_iff r b).mp hh
  obtain ⟨hw, hl⟩ := hf (Nat.le_of_add_right_le hs) (version_of_chunkHeaderAccepted hh)
  have hle := UInt64.le_iff_toNat_le.mp he
  rw [chunkEnd_toNat (readHeader b.mem).chunkOffset (readHeader b.mem).chunkLength hw] at hle
  have hp : r.payloadLength.toNat = (readHeader b.mem).totalLength.toNat := by
    rw [← ht, UInt32.toNat_toUInt64]
  refine ⟨?_, hle⟩
  have ho : (wireChunk b).offset.toNat < 65536 := by
    simp only [wireChunk]
    omega
  simp only [PayloadNode.span, WireChunk.span, hm.offset, hm.length, UInt32.toNat_toUInt16,
    Nat.mod_eq_of_lt ho]

private theorem payload_length_ne (r : Request) (node : PayloadNode) (nodes : List PayloadNode)
    (h : r.payload = nodes) : (r.acceptNode node).payload.length ≠ nodes.length := by
  simp [Request.acceptNode, h]

/-- One data chunk keeps the invariant and adds the chunk it carries, if it is accepted. -/
theorem Reassembling.dataChunk {r : Request} {chunks : List WireChunk} (h : Reassembling r chunks)
    (b : Buffer) (hf : FitsNode b) :
    Reassembling (ffRequestParseDataChunk r b)
      (chunks ++ if (ffRequestParseDataChunk r b).payload.length = r.payload.length then []
        else [wireChunk b]) := by
  rcases ffRequestParseDataChunk_cases r b h.receiving.receivedLength_of_nil with
    ⟨r', ht, hc⟩ | ⟨r', node, ht, hh, hm, hn, hc⟩
  · obtain ⟨_, hp, _⟩ := TookOptions.sameIdentity ht
    have hl : (ffRequestParseDataChunk r b).payload.length = r.payload.length := by rw [hc, hp]
    rw [if_pos hl, List.append_nil, hc]
    exact (h.of_tookOptions ht).fail
  · obtain ⟨hid, hp, _⟩ := TookOptions.sameIdentity (Or.inr ht)
    have hl := payload_length_ne r' node _ hp
    rw [← hc] at hl
    rw [if_neg hl, hc]
    obtain ⟨hs, hi⟩ := wireChunk_inside hh hm hf
    exact (h.of_tookOptions (Or.inr ht)).acceptNode (by rw [hp]; exact hn) hs hm.bytes
      (by rw [hid.payloadLength]; exact hi)

/-- What holds of a request between packets: nothing is stored before the version is known,
and a version-1 request holds the accepted chunks. -/
structure ReassemblyInv (r : Request) (chunks : List WireChunk) : Prop where
  unversioned : r.version = 0 →
    r.payload = [] ∧ Receiving r ∧ chunks = [] ∧ r.state ≠ .received
  version1 : r.version = ffVersion1 → Reassembling r chunks

/-- The invariant holds of a fresh request. -/
theorem reassemblyInv_alloc : ReassemblyInv ffRequestAlloc [] :=
  ⟨fun _ ↦ ⟨rfl, receiving_alloc, rfl, by simp [ffRequestAlloc]⟩,
    fun h ↦ absurd h (by decide)⟩

private theorem reassemblyInv_dataChunk {r : Request} {chunks : List WireChunk}
    (hr : r.version = ffVersion1 → Reassembling r chunks)
    (h0 : r.version = 0 → r.payload = [] ∧ Receiving r ∧ chunks = [])
    (b : Buffer) (hf : FitsNode b) :
    ReassemblyInv (ffRequestParseDataChunk r b)
      (chunks ++ if (ffRequestParseDataChunk r b).payload.length = r.payload.length then []
        else [wireChunk b]) := by
  have hi := ffRequestParseDataChunk_sameIdentity r b
  refine ⟨fun hv ↦ ?_, fun hv ↦ (hr (hi.version ▸ hv)).dataChunk b hf⟩
  rw [hi.version] at hv
  obtain ⟨hp, hrec, rfl⟩ := h0 hv
  have hd := ffRequestParseDataChunk_of_version (r := r) (by rw [hv]; decide) b
  simp only [hd, ↓reduceIte]
  exact ⟨hp, hrec.congr rfl rfl rfl, rfl, by simp⟩

/-- One packet keeps the invariant. -/
theorem ReassemblyInv.parseChunk {r : Request} {chunks : List WireChunk}
    (h : ReassemblyInv r chunks) (b : Buffer) (hf : FitsNode b) :
    ReassemblyInv (ffRequestParseChunk r b) (chunks ++ acceptedChunk r b) := by
  unfold acceptedChunk ffRequestParseChunk
  by_cases hv : r.version = 0
  · obtain ⟨hp, hrec, rfl, hs⟩ := h.unversioned hv
    simp only [if_pos hv]
    unfold ffRequestParseFirstChunk
    split
    · -- A raw request has its own version, and the invariant says nothing about it.
      exact ⟨fun h0 ↦ absurd h0 (by simp [ffRequestParseRawHttp, ffVersionRaw]),
        fun h1 ↦ absurd h1 (by simp [ffRequestParseRawHttp, ffVersionRaw, ffVersion1])⟩
    · split
      · simp only [↓reduceIte]
        exact ⟨fun _ ↦ ⟨hp, hrec.congr rfl rfl rfl, rfl, by simp⟩,
          fun h1 ↦ absurd (hv.symm.trans h1) (by decide)⟩
      · next hsz =>
        have hrec' : Receiving { r with
            version := (readHeader b.mem).version.toNat
            requestId := (readHeader b.mem).requestId
            payloadLength := (readHeader b.mem).totalLength.toUInt64 } := hrec.congr rfl rfl rfl
        exact reassemblyInv_dataChunk
          (fun h1 ↦ ⟨hrec', by simp [hp], by simp,
            by simpa using (hf (Nat.not_lt.mp hsz) (version_eq_one h1)).2, fun h1 ↦ absurd h1 hs⟩)
          (fun _ ↦ ⟨hp, hrec', rfl⟩) b hf
  · simp only [if_neg hv]
    exact reassemblyInv_dataChunk h.version1 (fun h0 ↦ absurd h0 hv) b hf

/-- Every sequence of fitting packets keeps the invariant. -/
theorem ReassemblyInv.parseChunks {r : Request} {chunks : List WireChunk}
    (h : ReassemblyInv r chunks) (packets : List Buffer) (hf : ∀ b ∈ packets, FitsNode b) :
    ReassemblyInv (parseChunks r packets) (chunks ++ acceptedChunks r packets) := by
  induction packets generalizing r chunks with
  | nil => simpa [acceptedChunks, FfProxy.parseChunks] using h
  | cons b rest ih =>
    have hb := h.parseChunk b (hf b (by simp))
    have hr := ih hb (fun b' hb' ↦ hf b' (by simp [hb']))
    rw [List.append_assoc] at hr
    exact hr

/-! ### Complete requests -/

/-- What a complete request owes its packets: the accepted chunks tile the payload, and
vectorising yields one node of the whole length in which every byte is the one that the
chunk covering its position carried. -/
def ReassemblyIntegrity (packets : List Buffer) : Prop :=
  let r := parseChunks ffRequestAlloc packets
  let chunks := acceptedChunks ffRequestAlloc packets
  r.version = ffVersion1 → r.state = .received →
    Span.Tiling (chunks.map WireChunk.span) r.payloadLength.toNat ∧
    ∀ garbage, ∃ node, ffRequestVectorisePayload garbage r = .ok { r with payload := [node] } ∧
      node.length.toNat = r.payloadLength.toNat ∧
      ∀ k < r.payloadLength.toNat, ∀ c ∈ chunks, c.span.Covers k →
        ∃ byte, node.value[k]? = some byte ∧ c.data[k - c.offset.toNat]? = some byte

private theorem getElem?_bytes (node : PayloadNode) (k : Nat) (h : k < node.length.toNat) :
    ∃ byte, node.value[k]? = some byte ∧ node.bytes[k]? = some byte := by
  have hl : k < node.value.length := Nat.lt_of_lt_of_le h node.length_le
  exact ⟨node.value[k], List.getElem?_eq_getElem hl, by
    rw [PayloadNode.bytes, List.getElem?_take_of_lt h, List.getElem?_eq_getElem hl]⟩

namespace Reassembling

variable {r : Request} {chunks : List WireChunk}

/-- The chunks of a complete request tile its payload. -/
theorem tiling (h : Reassembling r chunks) (hs : r.state = .received) :
    Span.Tiling (chunks.map WireChunk.span) r.payloadLength.toNat := by
  apply Span.tiling_of_total
  · rw [← h.spans_eq]
    exact h.receiving.apart
  · intro s hm
    obtain ⟨c, hc, rfl⟩ := List.mem_map.mp hm
    exact h.inside c hc
  · rw [← h.spans_eq, ← h.receiving.received, (h.complete hs).2]

/-- Every chunk has its node. -/
theorem exists_node (h : Reassembling r chunks) {c : WireChunk} (hc : c ∈ chunks) :
    ∃ node ∈ r.payload, node.span = c.span ∧ node.bytes = c.data := by
  have hs := h.stands
  clear h
  generalize r.payload = nodes at hs
  induction hs with
  | nil => simp at hc
  | @cons node c' nodes cs hab _ ih =>
    rcases List.mem_cons.mp hc with rfl | hc
    · exact ⟨node, by simp, hab⟩
    · obtain ⟨n, hn, hnc⟩ := ih hc
      exact ⟨n, by simp [hn], hnc⟩

/-- Vectorising a complete request puts every byte where its chunk said. -/
theorem vectorise (h : Reassembling r chunks) (hs : r.state = .received)
    (garbage : Nat → UInt8) :
    ∃ node, ffRequestVectorisePayload garbage r = .ok { r with payload := [node] } ∧
      node.length.toNat = r.payloadLength.toNat ∧
      ∀ k < r.payloadLength.toNat, ∀ c ∈ chunks, c.span.Covers k →
        ∃ byte, node.value[k]? = some byte ∧ c.data[k - c.offset.toNat]? = some byte := by
  have ht := h.tiling hs
  rw [← h.spans_eq] at ht
  obtain ⟨node, hv, _, hl, hcopied, _⟩ :=
    ffRequestVectorisePayload_of_tiling garbage (h.complete hs).1 h.short ht
  refine ⟨node, hv, hl, fun k hk c hc hcov ↦ ?_⟩
  obtain ⟨m, hm, hspan, hbytes⟩ := h.exists_node hc
  have hoff : m.offset.toNat = c.offset.toNat := congrArg Span.start hspan
  obtain ⟨byte, hvalue, hbyte⟩ := getElem?_bytes node k (by omega)
  refine ⟨byte, hvalue, ?_⟩
  rw [← hbyte, hcopied m hm k (hspan ▸ hcov), hoff, hbytes]

end Reassembling

/-- Packets that fit a payload node are reassembled faithfully, in any order and number. -/
theorem reassemblyIntegrity_of_fits (packets : List Buffer) (hf : ∀ b ∈ packets, FitsNode b) :
    ReassemblyIntegrity packets := by
  intro hv hs
  have h := (reassemblyInv_alloc.parseChunks packets hf).version1 hv
  rw [List.nil_append] at h
  exact ⟨h.tiling hs, h.vectorise hs⟩

/-- A version-1 packet of request 9: a header, an empty option list and the data. -/
def samplePacket (total offset : UInt32) (data : List UInt8) : Buffer :=
  Buffer.ofBytes (writeHeader ⟨1, 9, total, offset, UInt16.ofNat data.length⟩ ++ [0, 0, 0] ++ data)

/-- Two touching chunks delivered in order are complete and intact. -/
theorem reassemblyIntegrity_two_chunks :
    (parseChunks ffRequestAlloc [samplePacket 3 0 [65, 66], samplePacket 3 2 [67]]).state =
        .received ∧
      ReassemblyIntegrity [samplePacket 3 0 [65, 66], samplePacket 3 2 [67]] :=
  ⟨by decide, reassemblyIntegrity_of_fits _ (by decide)⟩

/-- A chunk whose 32-bit end wraps to 0 is accepted as the whole of a one-byte payload,
although its wire range `[4294967295, 4294967296)` lies outside `[0, 1)`. -/
theorem not_reassemblyIntegrity_wrapped :
    (samplePacket 1 0xFFFFFFFF [65]).size = 24 ∧
      ¬ ReassemblyIntegrity [samplePacket 1 0xFFFFFFFF [65]] := by
  refine ⟨by decide, fun h ↦ ?_⟩
  obtain ⟨ht, _⟩ := h (by decide) (by decide)
  have hin := ht.inside ⟨0xFFFFFFFF, 1⟩ (by decide)
  exact absurd hin (by decide)

/-! ### Vectorised requests -/

/-- A single node that completed a request fits the payload length. -/
structure SingleFits (r : Request) : Prop where
  fresh : r.version = 0 → r.payload = []
  nothing : r.payload = [] → r.receivedLength = 0 ∧ r.state ≠ .received
  single : r.state = .received → ∀ node, r.payload = [node] →
    node.length.toNat ≤ r.payloadLength.toNat

namespace SingleFits

variable {r : Request}

/-- A data chunk keeps the invariant. -/
theorem dataChunk (h : SingleFits r) (b : Buffer) : SingleFits (ffRequestParseDataChunk r b) := by
  have hid := ffRequestParseDataChunk_sameIdentity r b
  by_cases hv : r.version = ffVersion1
  · have hv0 : (ffRequestParseDataChunk r b).version ≠ 0 := by
      rw [hid.version, hv]
      decide
    rcases ffRequestParseDataChunk_cases r b (fun hp ↦ (h.nothing hp).1) with
      ⟨r', ht, hc⟩ | ⟨r', node, ht, _, _, _, hc⟩
    · obtain ⟨_, hp, hr, _⟩ := TookOptions.sameIdentity ht
      rw [hc] at hv0 ⊢
      refine ⟨fun h0 ↦ absurd h0 hv0, fun hnil ↦ ⟨?_, by simp⟩, fun hs ↦ absurd hs (by simp)⟩
      rw [hr]
      exact (h.nothing (hp.symm.trans hnil)).1
    · obtain ⟨_, hp, hr, hs⟩ := TookOptions.sameIdentity (Or.inr ht)
      rw [hc] at hv0 ⊢
      refine ⟨fun h0 ↦ absurd h0 hv0, fun hnil ↦ absurd hnil (by simp [Request.acceptNode]), ?_⟩
      intro hrec node' hone
      -- The only node is the one just linked, so nothing had been counted before it.
      obtain ⟨hnil, rfl⟩ : r'.payload = [] ∧ node = node' := by
        simpa [Request.acceptNode, List.append_eq_singleton_iff] using hone
      obtain ⟨h0, hne⟩ := h.nothing (hp.symm.trans hnil)
      simp only [Request.acceptNode, hr, h0, UInt64.zero_add] at hrec ⊢
      split at hrec
      · next heq => rw [← heq, UInt16.toNat_toUInt64]
      · exact absurd (hs.symm.trans hrec) hne
  · rw [ffRequestParseDataChunk_of_version hv]
    exact ⟨h.fresh, fun hp ↦ ⟨(h.nothing hp).1, by simp⟩, fun hs ↦ absurd hs (by simp)⟩

/-- A packet keeps the invariant. -/
theorem parseChunk (h : SingleFits r) (b : Buffer) : SingleFits (ffRequestParseChunk r b) := by
  unfold ffRequestParseChunk
  split
  · next hv =>
    have hp := h.fresh hv
    obtain ⟨h0, hs⟩ := h.nothing hp
    unfold ffRequestParseFirstChunk
    split
    · refine ⟨fun h0 ↦ absurd h0 (by simp [ffRequestParseRawHttp, ffVersionRaw]),
        fun hnil ↦ absurd hnil (by simp [ffRequestParseRawHttp]), fun _ node hone ↦ ?_⟩
      obtain rfl := List.singleton_inj.mp hone
      have hdvd : (2 : Nat) ^ 16 ∣ 2 ^ 64 := by decide
      simp only [ffRequestParseRawHttp, UInt16.toNat_ofNat', UInt64.toNat_ofNat']
      rw [← Nat.mod_mod_of_dvd _ hdvd]
      exact Nat.mod_le _ _
    · split
      · exact ⟨fun _ ↦ hp, fun _ ↦ ⟨h0, by simp⟩, fun hs ↦ absurd hs (by simp)⟩
      · apply dataChunk
        exact ⟨fun _ ↦ hp, fun _ ↦ ⟨h0, hs⟩, fun hrec ↦ absurd hrec hs⟩
  · exact h.dataChunk b

/-- Every sequence of packets keeps the invariant. -/
theorem parseChunks (packets : List Buffer) :
    SingleFits (FfProxy.parseChunks ffRequestAlloc packets) := by
  induction packets using List.reverseRecOn with
  | nil => exact ⟨fun _ ↦ rfl, fun _ ↦ ⟨rfl, by simp [FfProxy.parseChunks, ffRequestAlloc]⟩,
      fun hs ↦ absurd hs (by simp [FfProxy.parseChunks, ffRequestAlloc])⟩
  | append_singleton packets b ih =>
    rw [parseChunks_concat]
    exact ih.parseChunk b

end SingleFits

/-- Whatever packets complete a request, vectorising leaves it with one node that fits. -/
theorem vectorised_of_received {packets : List Buffer} {garbage : Nat → UInt8} {r : Request}
    (hs : (parseChunks ffRequestAlloc packets).state = .received)
    (h : ffRequestVectorisePayload garbage (parseChunks ffRequestAlloc packets) = .ok r) :
    ∃ node, r.Vectorised node := by
  obtain ⟨node, rfl, hnode⟩ := ffRequestVectorisePayload_cases h
  refine ⟨node, rfl, ?_⟩
  rcases hnode with hp | hl
  · exact (SingleFits.parseChunks packets).single hs node hp
  · rw [hl, UInt64.toNat_toUInt16]
    exact Nat.mod_le _ _

end FfProxy
