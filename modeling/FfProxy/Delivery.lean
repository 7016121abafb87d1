import FfProxy.Client.Packetise
import FfProxy.Parser.Reassembly

/-!
# Delivery

What the chunk parser makes of the client's packets. A packet that touches no stored node
from below is accepted, and in-order delivery rebuilds the payload chunk by chunk. Any
other order brings some packet after the one that follows it, and that packet is refused.
-/

namespace FfProxy
open Base

/-- The payload node that a chunk becomes. -/
def PayloadChunk.node (c : PayloadChunk) : PayloadNode where
  offset := UInt16.ofNat c.offset
  length := UInt16.ofNat c.data.length
  value := c.data
  length_le := by
    rw [UInt16.toNat_ofNat']
    exact Nat.mod_le _ _

namespace PayloadChunk

variable (c : PayloadChunk)

private theorem toNat_offset : (UInt16.ofNat c.offset).toNat = c.offset := by
  have := c.fits
  rw [UInt16.toNat_ofNat', Nat.mod_eq_of_lt (by omega)]

private theorem toNat_length : (UInt16.ofNat c.data.length).toNat = c.data.length := by
  have := c.fits
  rw [UInt16.toNat_ofNat', Nat.mod_eq_of_lt (by omega)]

private theorem toNat_offset32 : (UInt32.ofNat c.offset).toNat = c.offset := by
  have := c.fits
  rw [UInt32.toNat_ofNat', Nat.mod_eq_of_lt (by omega)]

/-- A chunk's node stands for the chunk's positions. -/
@[simp] theorem span_node : c.node.span = c.span := by
  simp only [PayloadNode.span, node, span, toNat_offset, toNat_length]

/-- A chunk's node carries the chunk's data. -/
@[simp] theorem bytes_node : c.node.bytes = c.data := by
  rw [PayloadNode.bytes, node, toNat_length, List.take_length]

end PayloadChunk

/-! ### One packet -/

section Packet

variable {requestId : UInt64} {total : UInt32} {os : List OptionNode} {brk : Bool}
  {c : PayloadChunk} {b : Buffer} {r : Request}

/-- The header of a packet is read as it was written, whatever follows it in memory. -/
theorem readHeader_packet {options : List UInt8} (hb : b.bytes = c.packet requestId total options) :
    readHeader b.mem =
      ⟨1, requestId, total, UInt32.ofNat c.offset, UInt16.ofNat c.data.length⟩ := by
  rw [b.mem_eq, hb, PayloadChunk.packet, packetBytes, List.append_assoc, readHeader_writeHeader]

private theorem size_packet {options : List UInt8}
    (hb : b.bytes = c.packet requestId total options) :
    b.size = requestHeaderSize + (options.length + c.data.length) := by
  rw [← b.length_bytes, hb, PayloadChunk.packet, packetBytes, List.length_append,
    length_writeHeader, List.length_append]

private theorem drop_header {options : List UInt8}
    (hb : b.bytes = c.packet requestId total options) :
    b.bytes.drop requestHeaderSize = options ++ c.data := by
  rw [hb, PayloadChunk.packet, packetBytes, ← length_writeHeader, List.drop_left]

private theorem offset_eq_zero_iff : UInt32.ofNat c.offset = 0 ↔ c.offset = 0 := by
  rw [← UInt32.toNat_inj, c.toNat_offset32]
  rfl

/-- A request that expects the packets of the client. -/
structure Expects (r : Request) (requestId : UInt64) (total : UInt32) : Prop where
  version : r.version = ffVersion1
  requestId : r.requestId = requestId
  payloadLength : r.payloadLength = total.toUInt64
  nothing : r.payload = [] → r.receivedLength = 0

private theorem chunkHeaderAccepted_packet (he : Expects r requestId total)
    (hb : b.bytes = c.packet requestId total (encodeOptions os brk))
    (hin : c.span.stop ≤ total.toNat) : chunkHeaderAccepted r b = true := by
  have hf := c.fits
  have hstop : c.offset + c.data.length ≤ total.toNat := hin
  have hopt := optionHeaderSize_le_encodeOptions os brk
  rw [chunkHeaderAccepted_iff, readHeader_packet hb, he.version, he.requestId, he.payloadLength]
  refine ⟨?_, rfl, rfl, rfl, rfl, ?_⟩
  · rw [size_packet hb]
    omega
  · rw [UInt64.le_iff_toNat_le, UInt32.toNat_toUInt64, UInt32.toNat_toUInt64, UInt32.toNat_add,
      UInt16.toNat_toUInt32, c.toNat_offset32, c.toNat_length, Nat.mod_eq_of_lt (by omega)]
    exact hstop

private theorem parseChunkOptions_packet
    (hb : b.bytes = c.packet requestId total (encodeOptions os brk))
    (hd : ∀ o ∈ os, o.IsData) (hlt : r.optionsLength + os.length < ffRequestMaxOptions)
    (hfirst : c.offset = 0 ∨ os = [] ∧ brk = false) :
    parseChunkOptions r b =
      (if c.offset = 0 then r.addOptions os brk else r,
        some (requestHeaderSize + (encodeOptions os brk).length)) := by
  have hpos := optionHeaderSize_le_encodeOptions os brk
  unfold optionHeaderSize at hpos
  rw [parseChunkOptions, readHeader_packet hb]
  by_cases h0 : c.offset = 0
  · have hparse := ffRequestParseOptions_of_encoded r (b.advance requestHeaderSize) os brk hlt hd
      (by rw [Buffer.bytes_advance, drop_header hb]; exact List.prefix_append _ _)
    obtain ⟨n, hn⟩ : ∃ n, (encodeOptions os brk).length = n + 1 :=
      ⟨(encodeOptions os brk).length - 1, by omega⟩
    rw [if_pos (offset_eq_zero_iff.mpr h0), hparse, hn, if_pos h0]
  · obtain ⟨rfl, rfl⟩ := hfirst.resolve_left h0
    have hbyte : b.mem.getD requestHeaderSize 0 = OptionType.eol := by
      have hdrop : b.mem.drop requestHeaderSize =
          encodeOptions [] false ++ c.data ++ b.mem.drop b.size := by
        rw [← drop_header hb]
        conv_lhs => rw [b.mem_eq]
        rw [List.drop_append_of_le_length (by rw [b.length_bytes, size_packet hb]; omega)]
      rw [List.getD_eq_getElem?_getD, ← Nat.add_zero requestHeaderSize, ← List.getElem?_drop, hdrop,
        encodeOptions_nil]
      rfl
    rw [if_neg (fun h ↦ h0 (offset_eq_zero_iff.mp h)), if_pos hbyte, if_neg h0, encodeOptions_nil]
    rfl

/-- A packet of the client whose chunk lies inside the payload yields the chunk's node. -/
theorem parseChunkNode_packet (he : Expects r requestId total)
    (hb : b.bytes = c.packet requestId total (encodeOptions os brk))
    (hin : c.span.stop ≤ total.toNat) (hd : ∀ o ∈ os, o.IsData)
    (hlt : r.optionsLength + os.length < ffRequestMaxOptions)
    (hfirst : c.offset = 0 ∨ os = [] ∧ brk = false) :
    parseChunkNode r b = (if c.offset = 0 then r.addOptions os brk else r, some c.node) := by
  have hsz := size_packet hb
  have hroom : ¬ b.size < requestHeaderSize + (encodeOptions os brk).length + c.data.length := by
    omega
  rw [parseChunkNode, if_pos (chunkHeaderAccepted_packet he hb hin),
    parseChunkOptions_packet hb hd hlt hfirst]
  simp only [readHeader_packet hb, c.toNat_length, hroom, ↓reduceDIte]
  congr 2
  apply PayloadNode.ext
  · rw [← UInt16.toNat_inj, UInt32.toNat_toUInt16, c.toNat_offset32]
    exact (UInt16.toNat_ofNat').symm
  · rfl
  · change slice b.mem (requestHeaderSize + (encodeOptions os brk).length) _ = c.data
    rw [b.slice_mem _ _ (by omega), ← List.drop_drop, drop_header hb, List.drop_left]
    exact List.take_of_length_le (by omega)

/-- Such a packet is linked when its chunk overlaps no stored node. -/
theorem ffRequestParseDataChunk_packet (he : Expects r requestId total)
    (hb : b.bytes = c.packet requestId total (encodeOptions os brk))
    (hin : c.span.stop ≤ total.toNat) (hd : ∀ o ∈ os, o.IsData)
    (hlt : r.optionsLength + os.length < ffRequestMaxOptions)
    (hfirst : c.offset = 0 ∨ os = [] ∧ brk = false)
    (hno : r.payload.any (overlapsExistingNode c.node) = false) :
    ffRequestParseDataChunk r b =
      (if c.offset = 0 then r.addOptions os brk else r).acceptNode c.node := by
  have hnode := parseChunkNode_packet he hb hin hd hlt hfirst
  generalize hr : (if c.offset = 0 then r.addOptions os brk else r) = r' at hnode
  have hsame : r'.payload = r.payload ∧ r'.receivedLength = r.receivedLength := by
    rw [← hr]
    split <;> exact ⟨rfl, rfl⟩
  have hlink := linkNode_eq r' c.node (by rw [hsame.1, hsame.2]; exact he.nothing)
  rw [hsame.1, hno] at hlink
  simp only [ffRequestParseDataChunk, hnode, hlink, Bool.false_eq_true, ↓reduceIte,
    Request.acceptNode, hsame.1]
  split <;> rfl

private theorem isRawHttpLoop_of_head (methods : List (List UInt8)) (x : UInt8)
    (hx : b.mem.head? = some x) (hm : ∀ m ∈ methods, m ≠ [] ∧ m.head? ≠ some x) :
    isRawHttpLoop b methods = false := by
  induction methods with
  | nil => rfl
  | cons m rest ih =>
    obtain ⟨hne, hhead⟩ := hm m (by simp)
    have hneq : b.mem.take m.length ≠ m := by
      intro h
      have h0 : m.length ≠ 0 := fun h0 ↦ hne (List.length_eq_zero_iff.mp h0)
      rw [← h, List.head?_take, if_neg h0] at hhead
      exact hhead hx
    rw [isRawHttpLoop, if_neg hneq, ih fun m' hm' ↦ hm m' (by simp [hm'])]
    split <;> rfl

/-- A version-1 packet starts with a zero byte, as no HTTP method does. -/
theorem not_rawHttp_packet {options : List UInt8}
    (hb : b.bytes = c.packet requestId total options) : ffRequestIsRawHttp b = false := by
  have hx : b.mem.head? = some 0 := by
    have hv : beBytes 2 (1 : UInt16).toNat = [0, 1] := by decide
    rw [b.mem_eq, hb, PayloadChunk.packet, packetBytes, writeHeader_eq]
    simp only [hv, List.append_assoc, List.cons_append, List.head?_cons]
  unfold ffRequestIsRawHttp
  split
  · rfl
  · exact isRawHttpLoop_of_head httpMethods 0 hx (by decide)

end Packet

/-! ### In-order delivery -/

/-- The request after the chunks of `cs` arrived in order. -/
def delivered (requestId : UInt64) (total : UInt32) (os : List OptionNode) (contains : Bool)
    (cs : List PayloadChunk) : Request where
  state := if Span.total (cs.map PayloadChunk.span) = total.toNat then .received else .receiving
  version := ffVersion1
  source := ffRequestAlloc.source
  receivedAt := ffRequestAlloc.receivedAt
  requestId := requestId
  options := os
  payloadContainsOptions := contains
  payloadLength := total.toUInt64
  receivedLength := UInt64.ofNat (Span.total (cs.map PayloadChunk.span))
  payload := cs.map PayloadChunk.node

section InOrder

variable {requestId : UInt64} {total : UInt32} {os : List OptionNode} {brk contains : Bool}
  {c : PayloadChunk} {cs : List PayloadChunk} {b : Buffer}

private theorem expects_delivered :
    Expects (delivered requestId total os contains cs) requestId total where
  version := rfl
  requestId := rfl
  payloadLength := rfl
  nothing hp := by
    have hcs : cs = [] := List.map_eq_nil_iff.mp hp
    rw [hcs]
    rfl

private theorem map_span_node :
    (cs.map PayloadChunk.node).map PayloadNode.span = cs.map PayloadChunk.span := by
  simp [List.map_map, Function.comp_def]

/-- A chunk that starts where the stored ones end overlaps none of them. -/
private theorem not_overlaps_delivered
    (hc : Span.Consecutive 0 (cs.map PayloadChunk.span) c.offset) :
    (cs.map PayloadChunk.node).any (overlapsExistingNode c.node) = false := by
  rw [List.any_eq_false]
  intro node hn
  obtain ⟨d, hd, rfl⟩ := List.mem_map.mp hn
  have hin := (hc.inside (List.mem_map_of_mem hd)).2
  rw [← d.span_node] at hin
  have hoff : c.node.offset.toNat = c.offset := c.toNat_offset
  simp only [overlapsExistingNode, Bool.and_eq_true, decide_eq_true_eq, not_and]
  intro hlt
  rw [hoff] at hlt
  exact absurd hin (Nat.not_le.mpr hlt)

/-- Linking the next chunk of an incomplete request. -/
private theorem acceptNode_delivered (hc : Span.Consecutive 0 (cs.map PayloadChunk.span) c.offset)
    (hlt : c.offset < total.toNat) :
    (delivered requestId total os contains cs).acceptNode c.node =
      delivered requestId total os contains (cs ++ [c]) := by
  have htot : Span.total (cs.map PayloadChunk.span) = c.offset := by
    have := hc.total_eq
    omega
  have hf := c.fits
  have hsum : Span.total ((cs ++ [c]).map PayloadChunk.span) = c.offset + c.data.length := by
    rw [List.map_append, Span.total_append, htot]
    simp [Span.total, PayloadChunk.span]
  have hlen : UInt64.ofNat c.offset + c.node.length.toUInt64 =
      UInt64.ofNat (c.offset + c.data.length) := by
    rw [← UInt64.toNat_inj, UInt64.toNat_add, UInt64.toNat_ofNat', UInt64.toNat_ofNat',
      UInt16.toNat_toUInt64]
    change (c.offset % 2 ^ 64 + (UInt16.ofNat c.data.length).toNat) % 2 ^ 64 = _
    rw [c.toNat_length]
    omega
  have hiff : UInt64.ofNat (c.offset + c.data.length) = total.toUInt64 ↔
      c.offset + c.data.length = total.toNat := by
    rw [← UInt64.toNat_inj, UInt64.toNat_ofNat', UInt32.toNat_toUInt64,
      Nat.mod_eq_of_lt (by omega)]
  have hne : ¬ c.offset = total.toNat := Nat.ne_of_lt hlt
  simp only [Request.acceptNode, delivered, htot, hsum, hlen, hiff, if_neg hne]
  rw [List.map_append, List.map_cons, List.map_nil]

/-- The next packet in order extends what was delivered. A packet at offset 0 sets anew
whether options follow in the payload. -/
theorem parseChunk_delivered (hb : b.bytes = c.packet requestId total emptyOptionList)
    (hc : Span.Consecutive 0 (cs.map PayloadChunk.span) c.offset) (hpos : 0 < c.data.length)
    (hin : c.span.stop ≤ total.toNat) (hlt : os.length < ffRequestMaxOptions) :
    ffRequestParseChunk (delivered requestId total os contains cs) b =
      delivered requestId total os (contains && decide (c.offset ≠ 0)) (cs ++ [c]) := by
  have hempty : emptyOptionList = encodeOptions [] false := (encodeOptions_nil false).symm
  have hstop : c.offset + c.data.length ≤ total.toNat := hin
  rw [hempty] at hb
  have hflag : (if c.offset = 0 then (delivered requestId total os contains cs).addOptions [] false
      else delivered requestId total os contains cs) =
      delivered requestId total os (contains && decide (c.offset ≠ 0)) cs := by
    by_cases h0 : c.offset = 0
    · simp [h0, Request.addOptions, delivered]
    · simp [h0]
  have hdata := ffRequestParseDataChunk_packet (r := delivered requestId total os contains cs)
    expects_delivered hb hin (by simp) hlt (Or.inr ⟨rfl, rfl⟩)
    (not_overlaps_delivered hc)
  rw [hflag, acceptNode_delivered hc (by omega)] at hdata
  rw [ffRequestParseChunk, if_neg (by simp [delivered, ffVersion1]), hdata]

/-- The first packet, with the header options, starts what is delivered. -/
theorem parseChunk_alloc (hb : b.bytes = c.packet requestId total (encodeOptions os brk))
    (h0 : c.offset = 0) (hin : c.span.stop ≤ total.toNat) (htot : 0 < total.toNat)
    (hd : ∀ o ∈ os, o.IsData) (hlt : os.length < ffRequestMaxOptions) :
    ffRequestParseChunk ffRequestAlloc b = delivered requestId total os brk [c] := by
  have hstart : ({ ffRequestAlloc with
      version := (readHeader b.mem).version.toNat
      requestId := (readHeader b.mem).requestId
      payloadLength := (readHeader b.mem).totalLength.toUInt64 } : Request) =
      delivered requestId total [] false [] := by
    have hne : ¬ 0 = total.toNat := Nat.ne_of_lt htot
    simp only [readHeader_packet hb, delivered, List.map_nil, Span.total, if_neg hne]
    rfl
  have hc : Span.Consecutive 0 (([] : List PayloadChunk).map PayloadChunk.span) c.offset := h0.symm
  have hdata := ffRequestParseDataChunk_packet (r := delivered requestId total [] false [])
    expects_delivered hb hin hd (by simpa [Request.optionsLength, delivered] using hlt)
    (Or.inl h0) (not_overlaps_delivered hc)
  have hadd : (delivered requestId total [] false []).addOptions os brk =
      delivered requestId total os brk [] := rfl
  rw [if_pos h0, hadd, acceptNode_delivered hc (by omega), List.nil_append] at hdata
  have hsz : ¬ b.size < requestHeaderSize := by
    rw [size_packet hb]
    omega
  have hfresh : ffRequestAlloc.version = 0 := rfl
  rw [ffRequestParseChunk, if_pos hfresh, ffRequestParseFirstChunk,
    if_neg (by simp [not_rawHttp_packet hb]), if_neg hsz]
  simp only [hstart, hdata]

/-- A first packet with more options than a request has slots for is refused. -/
theorem parseChunk_alloc_full (hb : b.bytes = c.packet requestId total (encodeOptions os brk))
    (h0 : c.offset = 0) (hd : ∀ o ∈ os, o.IsData) (hmany : ffRequestMaxOptions ≤ os.length) :
    ffRequestParseChunk ffRequestAlloc b =
      { ffRequestAlloc with
        version := ffVersion1
        requestId := requestId
        payloadLength := total.toUInt64
        state := .receivingFail } := by
  have hsz : ¬ b.size < requestHeaderSize := by
    rw [size_packet hb]
    omega
  have hfresh : ffRequestAlloc.version = 0 := rfl
  have hencoded : encodeOptions os brk <+: (b.advance requestHeaderSize).bytes := by
    rw [Buffer.bytes_advance, drop_header hb]
    exact List.prefix_append _ _
  have hnode (r : Request) : parseChunkNode r b = (r, none) := by
    have hparse := ffRequestParseOptions_of_full r (by omega) hd hencoded
    have hoptions : parseChunkOptions r b = (r, none) := by
      rw [parseChunkOptions, readHeader_packet hb, if_pos (offset_eq_zero_iff.mpr h0), hparse]
    rw [parseChunkNode, hoptions]
    exact ite_self _
  rw [ffRequestParseChunk, if_pos hfresh, ffRequestParseFirstChunk,
    if_neg (by simp [not_rawHttp_packet hb]), if_neg hsz]
  dsimp only
  rw [ffRequestParseDataChunk, hnode, readHeader_packet hb]
  rfl

/-- The following packets in order extend what was delivered by their chunks. -/
theorem parseChunks_delivered {rest : List PayloadChunk} {bufs : List Buffer} {stop : Nat}
    (hb : bufs.map Buffer.bytes = rest.map fun c ↦ c.packet requestId total emptyOptionList)
    (hc : Span.Consecutive 0 ((cs ++ rest).map PayloadChunk.span) stop)
    (hstop : stop ≤ total.toNat) (hpos : ∀ c ∈ rest, 0 < c.data.length)
    (hlt : os.length < ffRequestMaxOptions) :
    parseChunks (delivered requestId total os contains cs) bufs =
      delivered requestId total os (contains && rest.all fun c ↦ decide (c.offset ≠ 0))
        (cs ++ rest) := by
  induction rest generalizing cs bufs contains with
  | nil =>
    rw [List.map_nil, List.map_eq_nil_iff] at hb
    simp [hb, parseChunks]
  | cons c rest ih =>
    obtain ⟨b, bufs, rfl⟩ : ∃ b bufs', bufs = b :: bufs' := by
      cases bufs with
      | nil => simp at hb
      | cons b bufs => exact ⟨b, bufs, rfl⟩
    obtain ⟨hb, hbs⟩ := List.cons.inj hb
    have hc' := hc
    rw [List.map_append, Span.consecutive_append_iff] at hc'
    obtain ⟨middle, hpre, hmid, hpost⟩ := hc'
    have hin : c.span.stop ≤ total.toNat := Nat.le_trans hpost.start_le_stop hstop
    have hoff : c.offset = middle := hmid
    have hstep : ffRequestParseChunk (delivered requestId total os contains cs) b = _ :=
      parseChunk_delivered hb (by rw [hoff]; exact hpre) (hpos c (by simp)) hin hlt
    have hrun : parseChunks (delivered requestId total os (contains && decide (c.offset ≠ 0))
        (cs ++ [c])) bufs = _ :=
      ih hbs (by rw [List.append_assoc]; exact hc) (fun c' hc' ↦ hpos c' (by simp [hc']))
    rw [parseChunks, List.foldl_cons, hstep, ← parseChunks, hrun, List.append_assoc, List.all_cons,
      Bool.and_assoc]
    rfl

/-- The packets state the lengths of their chunks. -/
theorem sum_chunkLength {chunks : List PayloadChunk} {bufs : List Buffer}
    (hb : bufs.map Buffer.bytes = chunks.map fun c ↦ c.packet requestId total emptyOptionList) :
    (bufs.map fun b ↦ (readHeader b.mem).chunkLength.toNat).sum =
      Span.total (chunks.map PayloadChunk.span) := by
  induction chunks generalizing bufs with
  | nil =>
    rw [List.map_nil, List.map_eq_nil_iff] at hb
    rw [hb]
    rfl
  | cons c chunks ih =>
    cases bufs with
    | nil => simp at hb
    | cons b bufs =>
      obtain ⟨hb, hbs⟩ := List.cons.inj hb
      rw [List.map_cons, List.sum_cons, ih hbs, readHeader_packet hb, c.toNat_length]
      rfl

end InOrder

/-! ### A whole request -/

/-- The packets of one request: the header options go with the first chunk, all later
chunks carry data, and together they run through the whole payload. -/
structure PacketStream (requestId : UInt64) (total : UInt32) (os : List OptionNode) (brk : Bool)
    (first : PayloadChunk) (chunks : List PayloadChunk) (packets : List (List UInt8)) : Prop where
  packets_eq : packets = first.packet requestId total (encodeOptions os brk) ::
    chunks.map fun c ↦ c.packet requestId total emptyOptionList
  consecutive : Span.Consecutive 0 ((first :: chunks).map PayloadChunk.span) total.toNat
  data : ∀ c ∈ chunks, 0 < c.data.length
  positive : 0 < total.toNat
  options : ∀ o ∈ os, o.IsData

namespace PacketStream

variable {requestId : UInt64} {total : UInt32} {os : List OptionNode} {brk : Bool}
  {first : PayloadChunk} {chunks : List PayloadChunk} {packets : List (List UInt8)}
  {bufs : List Buffer}

private theorem parse_take (h : PacketStream requestId total os brk first chunks packets)
    (hlt : os.length < ffRequestMaxOptions) {b : Buffer}
    (hb : b.bytes = first.packet requestId total (encodeOptions os brk))
    (hbs : bufs.map Buffer.bytes = chunks.map fun c ↦ c.packet requestId total emptyOptionList)
    (k : Nat) :
    ∃ contains, parseChunks ffRequestAlloc (b :: bufs.take k) =
        delivered requestId total os contains (first :: chunks.take k) ∧
      contains = (brk && (chunks.take k).all fun c ↦ decide (c.offset ≠ 0)) := by
  have hc := h.consecutive
  rw [← List.take_append_drop k chunks, ← List.cons_append, List.map_append,
    Span.consecutive_append_iff] at hc
  obtain ⟨middle, hpre, hpost⟩ := hc
  have hfirst : first.offset = 0 := h.consecutive.1
  have hstart := parseChunk_alloc hb hfirst (h.consecutive.inside (by simp)).2 h.positive h.options
    hlt
  have hrun : parseChunks (delivered requestId total os brk [first]) (bufs.take k) = _ :=
    parseChunks_delivered (by rw [List.map_take, hbs, List.map_take]) hpre hpost.start_le_stop
      (fun c hc ↦ h.data c (List.mem_of_mem_take hc)) hlt
  exact ⟨_, by rw [parseChunks, List.foldl_cons, hstart, ← parseChunks, hrun]; rfl, rfl⟩

private theorem split_bufs (h : PacketStream requestId total os brk first chunks packets)
    (hb : bufs.map Buffer.bytes = packets) :
    ∃ b rest, bufs = b :: rest ∧ b.bytes = first.packet requestId total (encodeOptions os brk) ∧
      rest.map Buffer.bytes = chunks.map fun c ↦ c.packet requestId total emptyOptionList := by
  rw [h.packets_eq] at hb
  cases bufs with
  | nil => simp at hb
  | cons b rest => exact ⟨b, rest, rfl, (List.cons.inj hb).1, (List.cons.inj hb).2⟩

/-- In-order delivery leaves the whole request. -/
theorem parse (h : PacketStream requestId total os brk first chunks packets)
    (hlt : os.length < ffRequestMaxOptions) (hb : bufs.map Buffer.bytes = packets) :
    parseChunks ffRequestAlloc bufs = delivered requestId total os
      (brk && chunks.all fun c ↦ decide (c.offset ≠ 0)) (first :: chunks) := by
  obtain ⟨b, rest, rfl, hbyte, hrest⟩ := h.split_bufs hb
  have hlen : rest.length = chunks.length := by
    have := congrArg List.length hrest
    simpa using this
  obtain ⟨contains, hrun, rfl⟩ := h.parse_take hlt hbyte hrest chunks.length
  rwa [← hlen, List.take_length, hlen, List.take_length] at hrun

/-- The request is complete. -/
theorem received (h : PacketStream requestId total os brk first chunks packets) (contains : Bool) :
    (delivered requestId total os contains (first :: chunks)).state = .received := by
  have ht := h.consecutive.total_eq
  rw [Nat.zero_add] at ht
  exact if_pos ht

/-- Before the last packet, the request is still being received. -/
theorem receiving_of_prefix (h : PacketStream requestId total os brk first chunks packets)
    (hlt : os.length < ffRequestMaxOptions) (hb : bufs.map Buffer.bytes = packets)
    {p : List Buffer} (hp : p <+: bufs) (hne : p ≠ bufs) :
    (parseChunks ffRequestAlloc p).state = .receiving := by
  obtain ⟨b, rest, rfl, hbyte, hrest⟩ := h.split_bufs hb
  cases p with
  | nil => rfl
  | cons b' p =>
    obtain ⟨rfl, hpre⟩ := List.cons_prefix_cons.mp hp
    have hk := List.prefix_iff_eq_take.mp hpre
    have hshort : p.length < chunks.length := by
      have hlen : rest.length = chunks.length := by
        have := congrArg List.length hrest
        simpa using this
      rw [← hlen]
      apply Nat.lt_of_le_of_ne hpre.length_le
      intro he
      exact hne (by rw [hpre.eq_of_length he])
    obtain ⟨contains, hrun, _⟩ := h.parse_take hlt hbyte hrest p.length
    rw [← hk] at hrun
    rw [hrun]
    -- The chunks still to come are not empty, so the count is below the total.
    have ht := h.consecutive.total_eq
    rw [← List.take_append_drop p.length chunks, ← List.cons_append, List.map_append,
      Span.total_append] at ht
    have hrestpos : 0 < Span.total ((chunks.drop p.length).map PayloadChunk.span) := by
      rw [List.drop_eq_getElem_cons hshort, List.map_cons, Span.total]
      have := h.data chunks[p.length] (List.getElem_mem hshort)
      have hs : chunks[p.length].span.length = chunks[p.length].data.length := rfl
      omega
    exact if_neg (by omega)

/-- A request with more header options than a request has slots for fails with its first
packet. -/
theorem parse_first_full (h : PacketStream requestId total os brk first chunks packets)
    (hmany : ffRequestMaxOptions ≤ os.length) (hb : bufs.map Buffer.bytes = packets) :
    ∃ b rest, bufs = b :: rest ∧
      rest.map Buffer.bytes = chunks.map (fun c ↦ c.packet requestId total emptyOptionList) ∧
      ffRequestParseChunk ffRequestAlloc b = { ffRequestAlloc with
        version := ffVersion1
        requestId := requestId
        payloadLength := total.toUInt64
        state := .receivingFail } := by
  obtain ⟨b, rest, rfl, hbyte, hrest⟩ := h.split_bufs hb
  exact ⟨b, rest, rfl, hrest, parseChunk_alloc_full hbyte h.consecutive.1 h.options hmany⟩

/-- If the first chunk has data, no other chunk starts at offset 0. -/
theorem all_later (h : PacketStream requestId total os brk first chunks packets)
    (hfirst : 0 < first.data.length) : (chunks.all fun c ↦ decide (c.offset ≠ 0)) = true := by
  apply List.all_eq_true.mpr
  intro c hc
  have hin := (h.consecutive.2.inside (List.mem_map_of_mem hc)).1
  have hstop : first.span.stop = first.offset + first.data.length := rfl
  have hstart : c.span.start = c.offset := rfl
  exact decide_eq_true (by omega)

/-- The delivered payload runs through the whole request without a gap. -/
theorem vectorise (h : PacketStream requestId total os brk first chunks packets)
    (hs : total.toNat < 65536) (contains : Bool) (garbage : Nat → UInt8) :
    ∃ node, ffRequestVectorisePayload garbage
        (delivered requestId total os contains (first :: chunks)) =
        .ok { delivered requestId total os contains (first :: chunks) with payload := [node] } ∧
      node.length.toNat = total.toNat ∧
      node.bytes = (first :: chunks).flatMap PayloadChunk.data := by
  have hlen : (delivered requestId total os contains (first :: chunks)).payloadLength.toNat =
      total.toNat := UInt32.toNat_toUInt64 total
  have hpay : (delivered requestId total os contains (first :: chunks)).payload =
      (first :: chunks).map PayloadChunk.node := rfl
  obtain ⟨node, hv, _, hl, hbytes⟩ := ffRequestVectorisePayload_consecutive garbage
    (delivered requestId total os contains (first :: chunks)) (by simp [hpay])
    (by rw [hlen]; exact hs) (by rw [hlen, hpay, map_span_node]; exact h.consecutive)
  refine ⟨node, hv, by rw [hl, hlen], ?_⟩
  rw [hbytes, hpay, List.flatMap_map]
  simp only [PayloadChunk.bytes_node]

end PacketStream

/-- The packets of a payload of 1 to 65535 bytes with a closed list of header options that
fits the first packet. -/
theorem packetStream_of_packetise (requestId : UInt64) (r : Request) (node : PayloadNode)
    (os : List OptionNode) (brk : Bool) (hp : r.payload = [node])
    (h0 : 0 < r.payloadLength.toNat) (hs : r.payloadLength.toNat < 65536)
    (hv : r.payloadLength.toNat ≤ node.value.length) (ho : r.options = os ++ [terminator brk])
    (hfit : requestHeaderSize + (encodeOptions os brk).length ≤ ffClientMaxPacketLength)
    (hd : ∀ o ∈ os, o.IsData) :
    ∃ first chunks packets, ffClientPacketiseRequest requestId r = .ok packets ∧
      PacketStream requestId r.payloadLength.toUInt32 os brk first chunks packets ∧
      CutsOut node.value 0 (first :: chunks) r.payloadLength.toNat ∧
      (requestHeaderSize + (encodeOptions os brk).length < ffClientMaxPacketLength →
        0 < first.data.length) := by
  have henc : ffClientWriteOptions r.options = encodeOptions os brk := by rw [ho]; rfl
  obtain ⟨first, chunks, hrun, hcut, hdata, hroom⟩ := ffClientPacketiseRequest_spec requestId r node
    [] hp h0 hs hv (by rw [henc]; exact hfit)
  rw [henc] at hrun hroom
  have htotal : r.payloadLength.toUInt32.toNat = r.payloadLength.toNat := by
    rw [UInt64.toNat_toUInt32, Nat.mod_eq_of_lt (by omega)]
  refine ⟨first, chunks, _, hrun, ⟨rfl, ?_, hdata, ?_, hd⟩, hcut, hroom⟩
  · rw [htotal]
    exact hcut.consecutive
  · rw [htotal]
    exact h0

/-- The packets of a request with more header options than the proxy has slots for do not
complete it. -/
theorem not_received_of_full (requestId : UInt64) {r : Request} {os : List OptionNode} {brk : Bool}
    {body : List UInt8} (hr : r.Carries (os ++ [terminator brk]) body) (hne : body ≠ [])
    (hfit : requestHeaderSize + (encodeOptions os brk).length < ffClientMaxPacketLength)
    (hd : ∀ o ∈ os, o.IsData) (hmany : ffRequestMaxOptions ≤ os.length)
    {bufs : List Buffer} (hb : ffClientPacketiseRequest requestId r = .ok (bufs.map Buffer.bytes)) :
    (parseChunks ffRequestAlloc bufs).state ≠ .received := by
  obtain ⟨ho, hl, node, hp, rfl⟩ := hr
  have hpos := List.length_pos_iff.mpr hne
  have hlen := node.length_bytes
  have h16 : node.length.toNat < 65536 := node.length.toNat_lt
  obtain ⟨first, chunks, packets, hrun, hstream, _, hroom⟩ :=
    packetStream_of_packetise requestId r node os brk hp (by omega) (by omega)
      (by rw [hl, hlen]; exact node.length_le) ho (Nat.le_of_lt hfit) hd
  obtain ⟨b, rest, rfl, hrest, hfail⟩ :=
    hstream.parse_first_full hmany (Except.ok.inj (hb.symm.trans hrun))
  have hspan := hstream.consecutive.total_eq
  rw [List.map_cons, Span.total, Nat.zero_add] at hspan
  have hfirst : 0 < first.span.length := hroom hfit
  rw [parseChunks, List.foldl_cons, ← parseChunks, hfail]
  -- The bytes of the refused packet are missing for ever.
  refine parseChunks_ne_received (by simp [ffVersion1]) (fun _ ↦ rfl) (by simp) ?_
  rw [sum_chunkLength hrest, UInt32.toNat_toUInt64]
  change 0 + _ < _
  omega

/-- The packets of a request with a closed list of header options and a payload arrive as a
request that carries the same options and bytes, and is complete with the last of them. -/
theorem delivery_of_carries (requestId : UInt64) {r : Request} {os : List OptionNode} {brk : Bool}
    {body : List UInt8} (hr : r.Carries (os ++ [terminator brk]) body) (hne : body ≠ [])
    (hfit : requestHeaderSize + (encodeOptions os brk).length < ffClientMaxPacketLength)
    (hd : ∀ o ∈ os, o.IsData) (hlt : os.length < ffRequestMaxOptions) :
    ∃ packets, ffClientPacketiseRequest requestId r = .ok packets ∧
      ∀ (garbage : Nat → UInt8) (bufs : List Buffer), bufs.map Buffer.bytes = packets →
        (parseChunks ffRequestAlloc bufs).state = .received ∧
        (parseChunks ffRequestAlloc bufs).version = ffVersion1 ∧
        (∀ p, p <+: bufs → p ≠ bufs → (parseChunks ffRequestAlloc p).state = .receiving) ∧
        ∃ r', ffRequestVectorisePayload garbage (parseChunks ffRequestAlloc bufs) = .ok r' ∧
          r'.Carries os body ∧ r'.payloadContainsOptions = brk := by
  obtain ⟨ho, hl, node, hp, rfl⟩ := hr
  have hpos := List.length_pos_iff.mpr hne
  have hlen := node.length_bytes
  have h16 : node.length.toNat < 65536 := node.length.toNat_lt
  have htotal : r.payloadLength.toUInt32.toNat = node.bytes.length := by
    rw [UInt64.toNat_toUInt32, hl, Nat.mod_eq_of_lt (by omega)]
  obtain ⟨first, chunks, packets, hrun, hstream, hcut, hroom⟩ :=
    packetStream_of_packetise requestId r node os brk hp (by omega) (by omega)
      (by rw [hl, hlen]; exact node.length_le) ho (Nat.le_of_lt hfit) hd
  refine ⟨packets, hrun, fun garbage bufs hb ↦ ?_⟩
  rw [hstream.parse hlt hb]
  refine ⟨hstream.received _, rfl, fun p hp hne ↦ hstream.receiving_of_prefix hlt hb hp hne, ?_⟩
  obtain ⟨node', hv, hl', hb'⟩ := hstream.vectorise (by omega) _ garbage
  refine ⟨_, hv, ⟨rfl, ?_, node', rfl, ?_⟩, ?_⟩
  · exact (UInt32.toNat_toUInt64 _).trans htotal
  · rw [hb', hcut.flatMap_data, hl, hlen]
    rfl
  · rw [hstream.all_later (hroom hfit), Bool.and_true]
    rfl

end FfProxy
