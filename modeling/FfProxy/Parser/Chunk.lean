import FfProxy.Parser.Options

/-!
# The chunk parser

`ff_request_parse_chunk` and what it calls, `src/parser.c:13–254`. The parser works on
a pointer and a byte count, so a buffer may be followed by bytes of earlier packets.
Every failed check sets RECEIVING_FAIL and keeps what the packet changed before it.
-/

namespace FfProxy
open Base

/-- The bytes of an ASCII text. -/
def ascii (cs : List Char) : List UInt8 := cs.map fun c ↦ UInt8.ofNat c.toNat

/-- `HTTP_METHODS`, `src/constants.c:3–5`. -/
def httpMethods : List (List UInt8) :=
  [ascii ['G', 'E', 'T'], ascii ['H', 'E', 'A', 'D'], ascii ['P', 'O', 'S', 'T'],
    ascii ['P', 'U', 'T'], ascii ['D', 'E', 'L', 'E', 'T', 'E'],
    ascii ['C', 'O', 'N', 'N', 'E', 'C', 'T'], ascii ['O', 'P', 'T', 'I', 'O', 'N', 'S'],
    ascii ['T', 'R', 'A', 'C', 'E'], ascii ['P', 'A', 'T', 'C', 'H']]

/-- The loop of `ff_request_is_raw_http`, `src/parser.c:51–64`. -/
def isRawHttpLoop (b : Buffer) : List (List UInt8) → Bool
  | [] => false
  | method :: rest =>
    if b.size < method.length then false
    else if b.mem.take method.length = method then true
    else isRawHttpLoop b rest

/-- `ff_request_is_raw_http`, `src/parser.c:42–67`. -/
def ffRequestIsRawHttp (b : Buffer) : Bool :=
  if b.size = 0 then false else isRawHttpLoop b httpMethods

/-- `ff_request_parse_id`, `src/parser.c:27–40`. The header is read without a look at the
byte count. -/
def ffRequestParseId (b : Buffer) : UInt64 :=
  if ffRequestIsRawHttp b then 0 else (readHeader b.mem).requestId

/-- `ff_request_parse_raw_http`, `src/parser.c:93–102`: the packet is the whole payload. -/
def ffRequestParseRawHttp (r : Request) (b : Buffer) : Request :=
  { r with
    version := ffVersionRaw
    state := .received
    payloadLength := UInt64.ofNat b.size
    receivedLength := UInt64.ofNat b.size
    payload := [{
      offset := 0
      length := UInt16.ofNat b.size
      value := b.bytes
      length_le := by
        rw [b.length_bytes, UInt16.toNat_ofNat']
        exact Nat.mod_le _ _ }] }

/-- The checks of `ff_request_parse_data_chunk` on the header, `src/parser.c:108–165`. The
end of the chunk is a 32-bit sum. -/
def chunkHeaderAccepted (r : Request) (b : Buffer) : Bool :=
  let header := readHeader b.mem
  decide (requestHeaderSize ≤ b.size) &&
    decide (r.version = ffVersion1) &&
    decide ((header.version.toNat : Int) = r.version) &&
    decide (header.requestId = r.requestId) &&
    decide (header.totalLength.toUInt64 = r.payloadLength) &&
    decide ((header.chunkOffset + header.chunkLength.toUInt32).toUInt64 ≤ r.payloadLength) &&
    decide (requestHeaderSize + optionHeaderSize ≤ b.size)

/-- The option list of a packet, `src/parser.c:167–192`: the request with the options of a
packet at offset 0 added, and where the chunk data starts. Other packets carry the
three bytes of a terminator, of which only the type is looked at. -/
def parseChunkOptions (r : Request) (b : Buffer) : Request × Option Nat :=
  if (readHeader b.mem).chunkOffset = 0 then
    match ffRequestParseOptions r (b.advance requestHeaderSize) with
    | (r, 0) => (r, none)
    | (r, n + 1) => (r, some (requestHeaderSize + (n + 1)))
  else if b.mem.getD requestHeaderSize 0 = OptionType.eol then
    (r, some (requestHeaderSize + optionHeaderSize))
  else (r, none)

/-- The new payload node of a packet, `src/parser.c:194–208`; `none` when a check before it
failed. The node keeps the low 16 bits of the chunk offset, and its block holds the
rest of the packet. -/
def parseChunkNode (r : Request) (b : Buffer) : Request × Option PayloadNode :=
  if chunkHeaderAccepted r b then
    match parseChunkOptions r b with
    | (r, none) => (r, none)
    | (r, some i) =>
      if h : b.size < i + (readHeader b.mem).chunkLength.toNat then (r, none)
      else (r, some {
        offset := (readHeader b.mem).chunkOffset.toUInt16
        length := (readHeader b.mem).chunkLength
        value := slice b.mem i (b.size - i)
        length_le := by
          have hb := b.size_le
          rw [length_slice _ _ _ (by omega)]
          omega })
  else (r, none)

/-- The overlap test of `src/parser.c:222`. The 16-bit fields are added as `int`. -/
def overlapsExistingNode (node current : PayloadNode) : Bool :=
  decide (node.offset.toNat < current.offset.toNat + current.length.toNat) &&
    decide (current.offset.toNat ≤ node.offset.toNat + node.length.toNat)

/-- Link the node at the end of the payload, `src/parser.c:210–243`; `none` when it
overlaps a node that is already there. -/
def linkNode (r : Request) (node : PayloadNode) : Option Request :=
  match r.payload with
  | [] => some { r with payload := [node], receivedLength := node.length.toUInt64 }
  | nodes =>
    if nodes.any (overlapsExistingNode node) then none
    else some { r with
      payload := nodes ++ [node]
      receivedLength := r.receivedLength + node.length.toUInt64 }

/-- `ff_request_parse_data_chunk`, `src/parser.c:104–254`. -/
def ffRequestParseDataChunk (r : Request) (b : Buffer) : Request :=
  match parseChunkNode r b with
  | (r, none) => { r with state := .receivingFail }
  | (r, some node) =>
    match linkNode r node with
    | none => { r with state := .receivingFail }
    | some r => if r.receivedLength = r.payloadLength then { r with state := .received } else r

/-- `ff_request_parse_first_chunk`, `src/parser.c:69–91`. -/
def ffRequestParseFirstChunk (r : Request) (b : Buffer) : Request :=
  if ffRequestIsRawHttp b then ffRequestParseRawHttp r b
  else if b.size < requestHeaderSize then { r with state := .receivingFail }
  else
    let header := readHeader b.mem
    ffRequestParseDataChunk { r with
      version := header.version.toNat
      requestId := header.requestId
      payloadLength := header.totalLength.toUInt64 } b

/-- `ff_request_parse_chunk`, `src/parser.c:13–25`. -/
def ffRequestParseChunk (r : Request) (b : Buffer) : Request :=
  if r.version = 0 then ffRequestParseFirstChunk r b else ffRequestParseDataChunk r b

/-- Feed packets to one request in the given order. -/
def parseChunks (r : Request) (packets : List Buffer) : Request :=
  packets.foldl ffRequestParseChunk r

/-- Feeding one packet more is one parser call more. -/
theorem parseChunks_concat (r : Request) (packets : List Buffer) (b : Buffer) :
    parseChunks r (packets ++ [b]) = ffRequestParseChunk (parseChunks r packets) b := by
  rw [parseChunks, List.foldl_append]
  rfl

/-! ### What a packet carries -/

/-- A chunk as its packet states it: the header fields at full width and the data. -/
structure WireChunk where
  offset : UInt32
  length : UInt16
  data : List UInt8
  deriving DecidableEq, Repr

/-- The payload positions a packet claims, with the end taken without wrap. -/
def WireChunk.span (c : WireChunk) : Span := ⟨c.offset.toNat, c.length.toNat⟩

/-- Where the data of a packet starts: after the header and the option list. -/
def chunkDataStart (b : Buffer) : Nat :=
  if (readHeader b.mem).chunkOffset = 0 then
    match parseOptionsLoop (b.advance requestHeaderSize) ffRequestMaxOptions 0 [] with
    | none => requestHeaderSize
    | some parsed => requestHeaderSize + parsed.consumed
  else requestHeaderSize + optionHeaderSize

/-- The options a packet carries: only the one at offset 0 may have any. -/
def packetOptions (b : Buffer) : List OptionNode :=
  if (readHeader b.mem).chunkOffset = 0 then
    match parseOptionsLoop (b.advance requestHeaderSize) ffRequestMaxOptions 0 [] with
    | none => []
    | some parsed => parsed.options
  else []

/-- Whether a packet says that options follow in the payload: its option list is closed by
BREAK. -/
def packetContainsOptions (b : Buffer) : Bool :=
  match parseOptionsLoop (b.advance requestHeaderSize) ffRequestMaxOptions 0 [] with
  | none => false
  | some parsed => parsed.containsOptions

/-- The chunk a packet carries. -/
def wireChunk (b : Buffer) : WireChunk where
  offset := (readHeader b.mem).chunkOffset
  length := (readHeader b.mem).chunkLength
  data := (b.bytes.drop (chunkDataStart b)).take (readHeader b.mem).chunkLength.toNat

/-- A payload node that was made from a packet. -/
structure PayloadNode.MadeFrom (node : PayloadNode) (b : Buffer) : Prop where
  offset : node.offset = (wireChunk b).offset.toUInt16
  length : node.length = (wireChunk b).length
  bytes : node.bytes = (wireChunk b).data

/-- A closed list is what the loop finds in an empty request. -/
theorem parseOptionsLoop_of_encoded {b : Buffer} {os : List OptionNode} {brk : Bool}
    (hlt : os.length < ffRequestMaxOptions) (hd : ∀ o ∈ os, o.IsData)
    (hp : encodeOptions os brk <+: b.bytes) :
    parseOptionsLoop b ffRequestMaxOptions 0 [] =
      some ⟨(encodeOptions os brk).length, os, brk⟩ :=
  (parseOptionsLoop_eq_some_iff b ffRequestMaxOptions 0 [] _).mpr
    ⟨os, hlt, hd, by simpa using hp, rfl, by simp⟩

private theorem chunkDataStart_of_encoded (b : Buffer) (os : List OptionNode) (brk : Bool)
    (ho : (readHeader b.mem).chunkOffset = 0) (hlt : os.length < ffRequestMaxOptions)
    (hd : ∀ o ∈ os, o.IsData)
    (hp : encodeOptions os brk <+: (b.advance requestHeaderSize).bytes) :
    chunkDataStart b = requestHeaderSize + (encodeOptions os brk).length ∧
      packetOptions b = os := by
  rw [chunkDataStart, packetOptions, if_pos ho, if_pos ho, parseOptionsLoop_of_encoded hlt hd hp]
  exact ⟨rfl, rfl⟩

/-- How an acceptable option list of a packet changes the request: only the packet at
offset 0 adds options. -/
def TookOptions (r : Request) (b : Buffer) (r' : Request) : Prop :=
  (readHeader b.mem).chunkOffset ≠ 0 ∧ r' = r ∨
    (readHeader b.mem).chunkOffset = 0 ∧
    ∃ os brk, r.optionsLength + os.length < ffRequestMaxOptions ∧ (∀ o ∈ os, o.IsData) ∧
      encodeOptions os brk <+: (b.advance requestHeaderSize).bytes ∧ r' = r.addOptions os brk

/-- What a packet adds to the options are the options it carries. -/
theorem TookOptions.options {r r' : Request} {b : Buffer} (h : TookOptions r b r') :
    r'.options = r.options ++ packetOptions b := by
  rcases h with ⟨hne, rfl⟩ | ⟨ho, os, brk, hlt, hd, hp, rfl⟩
  · rw [packetOptions, if_neg hne, List.append_nil]
  · rw [(chunkDataStart_of_encoded b os brk ho (by omega) hd hp).2]
    rfl

/-- Taking the options of a packet at offset 0 notes how its list is closed. -/
theorem TookOptions.containsOptions {r r' : Request} {b : Buffer} (h : TookOptions r b r')
    (ho : (readHeader b.mem).chunkOffset = 0) :
    r'.payloadContainsOptions = packetContainsOptions b := by
  rcases h with ⟨hne, _⟩ | ⟨_, os, brk, hlt, hd, hp, rfl⟩
  · exact absurd ho hne
  · have hlt : os.length < ffRequestMaxOptions := Nat.lt_of_le_of_lt (Nat.le_add_left _ _) hlt
    have hparsed := parseOptionsLoop_of_encoded hlt hd hp
    unfold packetContainsOptions
    simp only [hparsed, Request.addOptions]

/-- The options of a packet are taken and its data found, or the packet is refused with the
request unchanged. -/
theorem parseChunkOptions_cases (r : Request) (b : Buffer) :
    parseChunkOptions r b = (r, none) ∨
      ∃ r', TookOptions r b r' ∧ parseChunkOptions r b = (r', some (chunkDataStart b)) := by
  unfold parseChunkOptions
  by_cases ho : (readHeader b.mem).chunkOffset = 0
  · rw [if_pos ho]
    rcases ffRequestParseOptions_cases r (b.advance requestHeaderSize) with
      h | ⟨os, brk, hlt, hd, hp, h⟩
    · exact Or.inl (by rw [h])
    · have hpos := optionHeaderSize_le_encodeOptions os brk
      obtain ⟨n, hn⟩ : ∃ n, (encodeOptions os brk).length = n + 1 := by
        unfold optionHeaderSize at hpos
        exact ⟨(encodeOptions os brk).length - 1, by omega⟩
      refine Or.inr ⟨r.addOptions os brk, Or.inr ⟨ho, os, brk, hlt, hd, hp, rfl⟩, ?_⟩
      rw [(chunkDataStart_of_encoded b os brk ho (by omega) hd hp).1, h, hn]
  · rw [if_neg ho]
    split
    · exact Or.inr ⟨r, Or.inl ⟨ho, rfl⟩, by rw [chunkDataStart, if_neg ho]⟩
    · exact Or.inl rfl

/-- The request after a node was linked. -/
def Request.acceptNode (r : Request) (node : PayloadNode) : Request :=
  { r with
    payload := r.payload ++ [node]
    receivedLength := r.receivedLength + node.length.toUInt64
    state := if r.receivedLength + node.length.toUInt64 = r.payloadLength then .received
      else r.state }

/-- A packet yields a node made from it, or is refused. -/
theorem parseChunkNode_cases (r : Request) (b : Buffer) :
    (parseChunkNode r b = (r, none) ∨
      ∃ r', TookOptions r b r' ∧ parseChunkNode r b = (r', none)) ∨
    ∃ r' node, TookOptions r b r' ∧ chunkHeaderAccepted r b = true ∧ node.MadeFrom b ∧
      parseChunkNode r b = (r', some node) := by
  unfold parseChunkNode
  split
  · next hh =>
    rcases parseChunkOptions_cases r b with h | ⟨r', ht, h⟩
    · exact Or.inl (Or.inl (by rw [h]))
    · rw [h]
      by_cases hs : b.size < chunkDataStart b + (readHeader b.mem).chunkLength.toNat
      · exact Or.inl (Or.inr ⟨r', ht, by simp only [hs, ↓reduceDIte]⟩)
      · simp only [hs, ↓reduceDIte]
        refine Or.inr ⟨r', _, ht, hh, ⟨rfl, rfl, ?_⟩, rfl⟩
        simp only [PayloadNode.bytes, wireChunk, Buffer.bytes, slice, List.drop_take]
  · exact Or.inl (Or.inl rfl)

/-- Linking a node that overlaps nothing appends it and adds its length. -/
theorem linkNode_eq (r : Request) (node : PayloadNode)
    (hz : r.payload = [] → r.receivedLength = 0) :
    linkNode r node =
      if r.payload.any (overlapsExistingNode node) then none
      else some { r with
        payload := r.payload ++ [node]
        receivedLength := r.receivedLength + node.length.toUInt64 } := by
  unfold linkNode
  split
  · next hp => simp [hp, hz hp]
  · rfl

/-- A node is linked behind the others. -/
theorem payload_of_linkNode {r r' : Request} {node : PayloadNode}
    (h : linkNode r node = some r') : r'.payload = r.payload ++ [node] := by
  unfold linkNode at h
  split at h
  · next hp => rw [← Option.some.inj h, hp, List.nil_append]
  · split at h
    · cases h
    · rw [← Option.some.inj h]

/-- Everything a packet can do to a request that is past its first packet: it is refused,
possibly after its options were taken, or its node is linked. -/
theorem ffRequestParseDataChunk_cases (r : Request) (b : Buffer)
    (hz : r.payload = [] → r.receivedLength = 0) :
    (∃ r', (r' = r ∨ TookOptions r b r') ∧
      ffRequestParseDataChunk r b = { r' with state := .receivingFail }) ∨
    ∃ r' node, TookOptions r b r' ∧ chunkHeaderAccepted r b = true ∧ node.MadeFrom b ∧
      r.payload.any (overlapsExistingNode node) = false ∧
      ffRequestParseDataChunk r b = r'.acceptNode node := by
  unfold ffRequestParseDataChunk
  rcases parseChunkNode_cases r b with (h | ⟨r', ht, h⟩) | ⟨r', node, ht, hh, hm, h⟩
  · exact Or.inl ⟨r, Or.inl rfl, by rw [h]⟩
  · exact Or.inl ⟨r', Or.inr ht, by rw [h]⟩
  · have hpay : r'.payload = r.payload ∧ r'.receivedLength = r.receivedLength := by
      rcases ht with ⟨_, rfl⟩ | ⟨_, os, brk, _, _, _, rfl⟩
      · exact ⟨rfl, rfl⟩
      · exact ⟨rfl, rfl⟩
    simp only [h, linkNode_eq r' node (by rw [hpay.1, hpay.2]; exact hz)]
    cases hany : r.payload.any (overlapsExistingNode node) with
    | true => exact Or.inl ⟨r', Or.inr ht, by simp [hpay.1, hany]⟩
    | false =>
      refine Or.inr ⟨r', node, ht, hh, hm, hany, ?_⟩
      rw [hpay.1, hany]
      simp only [Bool.false_eq_true, ↓reduceIte, Request.acceptNode, hpay.1]
      split <;> rfl

/-- The fields that only the first packet and the receiver set. -/
structure Request.SameIdentity (r r' : Request) : Prop where
  version : r'.version = r.version
  source : r'.source = r.source
  receivedAt : r'.receivedAt = r.receivedAt
  requestId : r'.requestId = r.requestId
  payloadLength : r'.payloadLength = r.payloadLength

/-- Taking options touches none of the identifying fields, nor the payload. -/
theorem TookOptions.sameIdentity {r r' : Request} {b : Buffer} (h : r' = r ∨ TookOptions r b r') :
    r.SameIdentity r' ∧ r'.payload = r.payload ∧ r'.receivedLength = r.receivedLength ∧
      r'.state = r.state := by
  rcases h with rfl | ⟨_, rfl⟩ | ⟨_, os, brk, _, _, _, rfl⟩
  · exact ⟨⟨rfl, rfl, rfl, rfl, rfl⟩, rfl, rfl, rfl⟩
  · exact ⟨⟨rfl, rfl, rfl, rfl, rfl⟩, rfl, rfl, rfl⟩
  · exact ⟨⟨rfl, rfl, rfl, rfl, rfl⟩, rfl, rfl, rfl⟩

/-- A packet is refused, or a node is linked behind the payload. -/
theorem ffRequestParseDataChunk_touches (r : Request) (b : Buffer) :
    (ffRequestParseDataChunk r b).state = .receivingFail ∨
      ∃ node, (ffRequestParseDataChunk r b).payload = r.payload ++ [node] := by
  unfold ffRequestParseDataChunk
  rcases parseChunkNode_cases r b with (h | ⟨r', _, h⟩) | ⟨r', node, ht, _, _, h⟩
  · exact Or.inl (by rw [h])
  · exact Or.inl (by rw [h])
  · obtain ⟨_, hpay, _⟩ := TookOptions.sameIdentity (Or.inr ht)
    rw [h]
    dsimp only
    cases hlink : linkNode r' node with
    | none => exact Or.inl rfl
    | some linked =>
      have hlinked := payload_of_linkNode hlink
      rw [hpay] at hlinked
      refine Or.inr ⟨node, ?_⟩
      dsimp only
      split
      · exact hlinked
      · exact hlinked

private theorem linkNode_sameIdentity {r r' : Request} {node : PayloadNode}
    (h : linkNode r node = some r') : r.SameIdentity r' ∧ r'.state = r.state := by
  unfold linkNode at h
  split at h
  · rw [← Option.some.inj h]
    exact ⟨⟨rfl, rfl, rfl, rfl, rfl⟩, rfl⟩
  · split at h
    · simp at h
    · rw [← Option.some.inj h]
      exact ⟨⟨rfl, rfl, rfl, rfl, rfl⟩, rfl⟩

private theorem Request.SameIdentity.trans {r s t : Request} (h : r.SameIdentity s)
    (h' : s.SameIdentity t) : r.SameIdentity t :=
  ⟨h'.version.trans h.version, h'.source.trans h.source, h'.receivedAt.trans h.receivedAt,
    h'.requestId.trans h.requestId, h'.payloadLength.trans h.payloadLength⟩

private theorem Request.SameIdentity.setState {r s : Request} (h : r.SameIdentity s)
    (state : RequestState) : r.SameIdentity { s with state := state } :=
  ⟨h.version, h.source, h.receivedAt, h.requestId, h.payloadLength⟩

/-- A data chunk never changes the identifying fields, and the state only to say that the
request failed or is complete. -/
theorem ffRequestParseDataChunk_frame (r : Request) (b : Buffer) :
    r.SameIdentity (ffRequestParseDataChunk r b) ∧
      ((ffRequestParseDataChunk r b).state = .receivingFail ∨
        (ffRequestParseDataChunk r b).state = .received ∨
        (ffRequestParseDataChunk r b).state = r.state) := by
  have hfail (r' : Request) (ht : r' = r ∨ TookOptions r b r') :
      r.SameIdentity { r' with state := .receivingFail } :=
    (TookOptions.sameIdentity ht).1.setState _
  unfold ffRequestParseDataChunk
  rcases parseChunkNode_cases r b with (h | ⟨r', ht, h⟩) | ⟨r', node, ht, _, _, h⟩
  · rw [h]
    exact ⟨hfail r (Or.inl rfl), Or.inl rfl⟩
  · rw [h]
    exact ⟨hfail r' (Or.inr ht), Or.inl rfl⟩
  · simp only [h]
    cases hl : linkNode r' node with
    | none => exact ⟨hfail r' (Or.inr ht), Or.inl rfl⟩
    | some r'' =>
      obtain ⟨hi, _, _, hstate⟩ := TookOptions.sameIdentity (Or.inr ht)
      obtain ⟨hi', hstate'⟩ := linkNode_sameIdentity hl
      simp only
      split
      · exact ⟨(hi.trans hi').setState _, Or.inr (Or.inl rfl)⟩
      · exact ⟨hi.trans hi', Or.inr (Or.inr (hstate'.trans hstate))⟩

/-- A data chunk never changes the identifying fields. -/
theorem ffRequestParseDataChunk_sameIdentity (r : Request) (b : Buffer) :
    r.SameIdentity (ffRequestParseDataChunk r b) :=
  (ffRequestParseDataChunk_frame r b).1

/-- A request is not complete before its packets stated as many bytes as it has. -/
theorem parseChunks_ne_received {r : Request} {bufs : List Buffer} (hv : r.version ≠ 0)
    (hz : r.payload = [] → r.receivedLength = 0) (hstate : r.state ≠ .received)
    (hlt : r.receivedLength.toNat +
      (bufs.map fun b ↦ (readHeader b.mem).chunkLength.toNat).sum < r.payloadLength.toNat) :
    (parseChunks r bufs).state ≠ .received := by
  induction bufs generalizing r with
  | nil => exact hstate
  | cons b bufs ih =>
    rw [List.map_cons, List.sum_cons] at hlt
    rw [parseChunks, List.foldl_cons, ← parseChunks, ffRequestParseChunk, if_neg hv]
    rcases ffRequestParseDataChunk_cases r b hz with ⟨r', ht, h⟩ | ⟨r', node, ht, _, hm, _, h⟩
    · obtain ⟨hid, hpay, hrec, _⟩ := TookOptions.sameIdentity ht
      rw [h]
      refine ih (by rwa [hid.version]) (by rwa [hpay, hrec]) (by simp) ?_
      rw [hrec, hid.payloadLength]
      omega
    · obtain ⟨hid, _, hrec, hsame⟩ := TookOptions.sameIdentity (.inr ht)
      have hlength : node.length.toNat = (readHeader b.mem).chunkLength.toNat := by
        rw [hm.length]
        rfl
      have hsum : (r'.receivedLength + node.length.toUInt64).toNat =
          r.receivedLength.toNat + (readHeader b.mem).chunkLength.toNat := by
        have htotal := r.payloadLength.toNat_lt
        rw [UInt64.toNat_add, hrec, UInt16.toNat_toUInt64, hlength, Nat.mod_eq_of_lt (by omega)]
      have hopen : r'.receivedLength + node.length.toUInt64 ≠ r'.payloadLength := by
        intro heq
        rw [heq, hid.payloadLength] at hsum
        omega
      rw [h]
      refine ih (by rwa [Request.acceptNode, hid.version]) (by simp [Request.acceptNode]) ?_ ?_
      · rw [Request.acceptNode, if_neg hopen, hsame]
        exact hstate
      · rw [Request.acceptNode, hsum, hid.payloadLength]
        omega

/-- A request whose version is not 1 refuses every data chunk. -/
theorem ffRequestParseDataChunk_of_version {r : Request} (hv : r.version ≠ ffVersion1)
    (b : Buffer) : ffRequestParseDataChunk r b = { r with state := .receivingFail } := by
  have hh : chunkHeaderAccepted r b = false := by
    simp [chunkHeaderAccepted, hv]
  rw [ffRequestParseDataChunk, parseChunkNode, hh]
  rfl

/-- A packet that is shorter than a header, and no raw HTTP, is refused. -/
theorem ffRequestParseChunk_of_short (r : Request) {b : Buffer}
    (hraw : ffRequestIsRawHttp b = false) (hs : b.size < requestHeaderSize) :
    (ffRequestParseChunk r b).state = .receivingFail := by
  unfold ffRequestParseChunk
  split
  · rw [ffRequestParseFirstChunk, hraw, if_neg Bool.false_ne_true, if_pos hs]
  · have hh : chunkHeaderAccepted r b = false := by
      simp [chunkHeaderAccepted, Nat.not_le.mpr hs]
    rw [ffRequestParseDataChunk, parseChunkNode, hh]
    rfl

/-- The request as it is once the header of its first packet was read, `src/parser.c:86–89`. -/
def Request.identified (r : Request) (b : Buffer) : Request :=
  if r.version = 0 then { r with
    version := (readHeader b.mem).version.toNat
    requestId := (readHeader b.mem).requestId
    payloadLength := (readHeader b.mem).totalLength.toUInt64 }
  else r

/-- A packet with a header that is not raw HTTP is parsed as a data chunk. -/
theorem ffRequestParseChunk_eq (r : Request) {b : Buffer} (hraw : ffRequestIsRawHttp b = false)
    (hs : requestHeaderSize ≤ b.size) :
    ffRequestParseChunk r b = ffRequestParseDataChunk (r.identified b) b := by
  rw [ffRequestParseChunk, Request.identified]
  split
  · rw [ffRequestParseFirstChunk, if_neg (by rw [hraw]; exact Bool.false_ne_true),
      if_neg (Nat.not_lt.mpr hs)]
  · rfl

/-- A packet never changes the source of a request. -/
theorem ffRequestParseChunk_source (r : Request) (b : Buffer) :
    (ffRequestParseChunk r b).source = r.source := by
  unfold ffRequestParseChunk ffRequestParseFirstChunk
  split
  · split
    · rfl
    · split
      · rfl
      · exact (ffRequestParseDataChunk_sameIdentity _ b).source
  · exact (ffRequestParseDataChunk_sameIdentity r b).source

/-- The request with another source and time of arrival. -/
def Request.stamped (r : Request) (source : List UInt8) (time : Int) : Request :=
  { r with source := source, receivedAt := time }

section Stamped

variable (r : Request) (source : List UInt8) (time : Int) (b : Buffer)

@[simp] theorem Request.state_stamped : (r.stamped source time).state = r.state := rfl

private theorem ffRequestParseOptions_stamped :
    ffRequestParseOptions (r.stamped source time) b =
      ((ffRequestParseOptions r b).1.stamped source time, (ffRequestParseOptions r b).2) := by
  have hlength : (r.stamped source time).optionsLength = r.optionsLength := rfl
  rw [ffRequestParseOptions, ffRequestParseOptions, hlength]
  split <;> rfl

private theorem parseChunkOptions_stamped :
    parseChunkOptions (r.stamped source time) b =
      ((parseChunkOptions r b).1.stamped source time, (parseChunkOptions r b).2) := by
  unfold parseChunkOptions
  rw [ffRequestParseOptions_stamped]
  split
  · cases ffRequestParseOptions r (b.advance requestHeaderSize) with
    | mk r' n => cases n <;> rfl
  · split <;> rfl

private theorem parseChunkNode_stamped :
    parseChunkNode (r.stamped source time) b =
      ((parseChunkNode r b).1.stamped source time, (parseChunkNode r b).2) := by
  have haccepted : chunkHeaderAccepted (r.stamped source time) b = chunkHeaderAccepted r b := rfl
  unfold parseChunkNode
  rw [haccepted, parseChunkOptions_stamped]
  split
  · cases parseChunkOptions r b with
    | mk r' start =>
      cases start with
      | none => rfl
      | some i =>
        dsimp only
        split <;> rfl
  · rfl

private theorem linkNode_stamped (node : PayloadNode) :
    linkNode (r.stamped source time) node =
      (linkNode r node).map fun r' ↦ r'.stamped source time := by
  have hpayload : (r.stamped source time).payload = r.payload := rfl
  unfold linkNode
  rw [hpayload]
  split
  · rfl
  · split <;> rfl

private theorem ffRequestParseDataChunk_stamped :
    ffRequestParseDataChunk (r.stamped source time) b =
      (ffRequestParseDataChunk r b).stamped source time := by
  rw [ffRequestParseDataChunk, ffRequestParseDataChunk, parseChunkNode_stamped]
  cases parseChunkNode r b with
  | mk r' node =>
    cases node with
    | none => rfl
    | some node =>
      simp only [linkNode_stamped]
      cases linkNode r' node with
      | none => rfl
      | some r'' =>
        have hcount : (r''.stamped source time).receivedLength = r''.receivedLength ∧
          (r''.stamped source time).payloadLength = r''.payloadLength := ⟨rfl, rfl⟩
        simp only [Option.map_some, hcount]
        split <;> rfl

/-- The parser neither looks at the source and the time of a request nor changes them. -/
theorem ffRequestParseChunk_stamped :
    ffRequestParseChunk (r.stamped source time) b =
      (ffRequestParseChunk r b).stamped source time := by
  have hversion : (r.stamped source time).version = r.version := rfl
  unfold ffRequestParseChunk
  rw [hversion]
  split
  · unfold ffRequestParseFirstChunk
    split
    · rfl
    · split
      · rfl
      · exact ffRequestParseDataChunk_stamped { r with
          version := (readHeader b.mem).version.toNat
          requestId := (readHeader b.mem).requestId
          payloadLength := (readHeader b.mem).totalLength.toUInt64 } source time b
  · exact ffRequestParseDataChunk_stamped r source time b

end Stamped

/-! ### Bytes behind the buffer -/

section Agreement

variable {b b' : Buffer}

/-- Buffers with the same bytes have the same size. -/
theorem size_eq_of_bytes (h : b.bytes = b'.bytes) : b.size = b'.size := by
  rw [← b.length_bytes, h, b'.length_bytes]

/-- Windows inside two buffers with the same bytes are the same. -/
private theorem slice_of_bytes (h : b.bytes = b'.bytes) {i n : Nat} (hle : i + n ≤ b.size) :
    slice b.mem i n = slice b'.mem i n := by
  rw [b.slice_mem i n hle, b'.slice_mem i n (by rw [← size_eq_of_bytes h]; exact hle), h]

/-- The id of a packet lies in its first ten bytes. -/
theorem requestId_of_bytes (h : b.bytes = b'.bytes) (hs : 10 ≤ b.size) :
    (readHeader b.mem).requestId = (readHeader b'.mem).requestId := by
  simp only [readHeader]
  rw [slice_of_bytes h hs]

private theorem readHeader_of_bytes (h : b.bytes = b'.bytes) (hs : requestHeaderSize ≤ b.size) :
    readHeader b.mem = readHeader b'.mem := by
  unfold requestHeaderSize at hs
  simp only [readHeader]
  rw [slice_of_bytes h (show 0 + 2 ≤ b.size by omega),
    slice_of_bytes h (show 2 + 8 ≤ b.size by omega),
    slice_of_bytes h (show 10 + 4 ≤ b.size by omega),
    slice_of_bytes h (show 14 + 4 ≤ b.size by omega),
    slice_of_bytes h (show 18 + 2 ≤ b.size by omega)]

private theorem getD_of_bytes (h : b.bytes = b'.bytes) {i : Nat} (hi : i < b.size) :
    b.mem.getD i 0 = b'.mem.getD i 0 := by
  have hget (c : Buffer) (hc : i < c.size) : c.mem[i]? = c.bytes[i]? := by
    rw [Buffer.bytes, List.getElem?_take_of_lt hc]
  rw [List.getD_eq_getElem?_getD, List.getD_eq_getElem?_getD, hget b hi,
    hget b' (by rw [← size_eq_of_bytes h]; exact hi), h]

private theorem isRawHttpLoop_of_bytes (h : b.bytes = b'.bytes) (methods : List (List UInt8)) :
    isRawHttpLoop b methods = isRawHttpLoop b' methods := by
  induction methods with
  | nil => rfl
  | cons method rest ih =>
    rw [isRawHttpLoop, isRawHttpLoop, ih, ← size_eq_of_bytes h]
    by_cases hs : b.size < method.length
    · rw [if_pos hs, if_pos hs]
    · have htake : b.mem.take method.length = b'.mem.take method.length :=
        slice_of_bytes h (show 0 + method.length ≤ b.size by omega)
      rw [if_neg hs, if_neg hs, htake]

/-- Whether a packet is raw HTTP is decided by its own bytes. -/
theorem ffRequestIsRawHttp_of_bytes (h : b.bytes = b'.bytes) :
    ffRequestIsRawHttp b = ffRequestIsRawHttp b' := by
  rw [ffRequestIsRawHttp, ffRequestIsRawHttp, size_eq_of_bytes h, isRawHttpLoop_of_bytes h]

private theorem ffRequestParseOptions_of_bytes (r : Request) (h : b.bytes = b'.bytes) :
    ffRequestParseOptions r b = ffRequestParseOptions r b' := by
  have hloop : parseOptionsLoop b (ffRequestMaxOptions - r.optionsLength) 0 [] =
      parseOptionsLoop b' (ffRequestMaxOptions - r.optionsLength) 0 [] := by
    apply Option.ext
    intro parsed
    rw [parseOptionsLoop_eq_some_iff, parseOptionsLoop_eq_some_iff, h]
  rw [ffRequestParseOptions, ffRequestParseOptions, hloop]

private theorem chunkHeaderAccepted_of_bytes (r : Request) (h : b.bytes = b'.bytes) :
    chunkHeaderAccepted r b = chunkHeaderAccepted r b' := by
  unfold chunkHeaderAccepted
  dsimp only
  rw [← size_eq_of_bytes h]
  by_cases hs : requestHeaderSize ≤ b.size
  · rw [readHeader_of_bytes h hs]
  · simp only [hs, decide_false, Bool.false_and]

private theorem parseChunkOptions_of_bytes (r : Request) (h : b.bytes = b'.bytes)
    (hs : requestHeaderSize + optionHeaderSize ≤ b.size) :
    parseChunkOptions r b = parseChunkOptions r b' := by
  have hadvance : (b.advance requestHeaderSize).bytes = (b'.advance requestHeaderSize).bytes := by
    rw [b.bytes_advance, b'.bytes_advance, h]
  unfold optionHeaderSize at hs
  unfold parseChunkOptions
  rw [readHeader_of_bytes h (by omega), ffRequestParseOptions_of_bytes r hadvance,
    getD_of_bytes h (by omega)]

private theorem parseChunkNode_of_bytes (r : Request) (h : b.bytes = b'.bytes) :
    parseChunkNode r b = parseChunkNode r b' := by
  unfold parseChunkNode
  rw [← chunkHeaderAccepted_of_bytes r h]
  by_cases hh : chunkHeaderAccepted r b = true
  · have hs : requestHeaderSize + optionHeaderSize ≤ b.size := by
      simp only [chunkHeaderAccepted, Bool.and_eq_true, decide_eq_true_eq] at hh
      exact hh.2
    rw [if_pos hh, if_pos hh, parseChunkOptions_of_bytes r h hs]
    have hheader := readHeader_of_bytes h (Nat.le_trans (Nat.le_add_right _ _) hs)
    cases parseChunkOptions r b' with
    | mk r' start =>
      cases start with
      | none => rfl
      | some i =>
        by_cases hlt : b.size < i + (readHeader b.mem).chunkLength.toNat
        · have hlt' := hlt
          rw [size_eq_of_bytes h, hheader] at hlt'
          simp only [hlt, hlt', ↓reduceDIte]
        · have hlt' := hlt
          rw [size_eq_of_bytes h, hheader] at hlt'
          have hvalue : slice b.mem i (b.size - i) = slice b'.mem i (b'.size - i) := by
            rw [← size_eq_of_bytes h]
            exact slice_of_bytes h (by omega)
          dsimp only
          rw [dif_neg hlt, dif_neg hlt']
          simp only [hheader, hvalue]
  · rw [if_neg hh, if_neg hh]

private theorem ffRequestParseDataChunk_of_bytes (r : Request) (h : b.bytes = b'.bytes) :
    ffRequestParseDataChunk r b = ffRequestParseDataChunk r b' := by
  rw [ffRequestParseDataChunk, ffRequestParseDataChunk, parseChunkNode_of_bytes r h]

/-- What a packet does to a request depends on its own bytes only. -/
theorem ffRequestParseChunk_of_bytes (r : Request) (h : b.bytes = b'.bytes) :
    ffRequestParseChunk r b = ffRequestParseChunk r b' := by
  have hraw : ffRequestParseRawHttp r b = ffRequestParseRawHttp r b' := by
    have hs := size_eq_of_bytes h
    simp only [ffRequestParseRawHttp, hs, h]
  have hfirst : ffRequestParseFirstChunk r b = ffRequestParseFirstChunk r b' := by
    unfold ffRequestParseFirstChunk
    rw [ffRequestIsRawHttp_of_bytes h, hraw, ← size_eq_of_bytes h]
    by_cases hs : b.size < requestHeaderSize
    · simp only [if_pos hs]
    · simp only [if_neg hs, readHeader_of_bytes h (Nat.not_lt.mp hs),
        ffRequestParseDataChunk_of_bytes _ h]
  rw [ffRequestParseChunk, ffRequestParseChunk, hfirst, ffRequestParseDataChunk_of_bytes r h]

end Agreement

end FfProxy
