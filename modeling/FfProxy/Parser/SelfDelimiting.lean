import FfProxy.Parser.Classify
import FfProxy.Parser.Reassembly

/-!
# Packets are self-delimiting

An accepted packet ends behind its header, its option list and its chunk. The parser compares
the size of a packet with the ends it has computed from the bytes in front of them, so bytes
behind the chunk change nothing, and a packet that is cut anywhere in front of its end is
refused.
-/

namespace FfProxy
open Base

/-- A payload node without the bytes of its block that do not belong to the payload. -/
def PayloadNode.view (node : PayloadNode) : UInt16 × UInt16 × List UInt8 :=
  (node.offset, node.length, node.bytes)

/-- Two requests have received the same. -/
structure Request.SameReception (r r' : Request) : Prop where
  state : r'.state = r.state
  receivedLength : r'.receivedLength = r.receivedLength
  payloadLength : r'.payloadLength = r.payloadLength
  options : r'.options = r.options
  payloadContainsOptions : r'.payloadContainsOptions = r.payloadContainsOptions
  payload : r'.payload.map PayloadNode.view = r.payload.map PayloadNode.view

theorem Request.SameReception.trans {r r' r'' : Request} (h : r.SameReception r')
    (h' : r'.SameReception r'') : r.SameReception r'' :=
  ⟨h'.state.trans h.state, h'.receivedLength.trans h.receivedLength,
    h'.payloadLength.trans h.payloadLength, h'.options.trans h.options,
    h'.payloadContainsOptions.trans h.payloadContainsOptions, h'.payload.trans h.payload⟩

/-- The option list of a packet has `n` bytes: a closed list at offset 0, and a single
terminator elsewhere. -/
def HasOptionBytes (b : Buffer) (n : Nat) : Prop :=
  if (readHeader b.mem).chunkOffset = 0 then
    ∃ os brk, (∀ o ∈ os, o.IsData) ∧ encodeOptions os brk <+: b.bytes.drop requestHeaderSize ∧
      n = (encodeOptions os brk).length
  else n = optionHeaderSize

/-- Where a packet with an option list of `n` bytes ends. -/
def packetEnd (b : Buffer) (n : Nat) : Nat :=
  requestHeaderSize + n + (readHeader b.mem).chunkLength.toNat

/-! ### The option list -/

/-- The packet has an option list of `n` bytes that the request takes and becomes `r'`. -/
def TakesOptions (r : Request) (b : Buffer) (n : Nat) (r' : Request) : Prop :=
  (readHeader b.mem).chunkOffset ≠ 0 ∧ b.mem.getD requestHeaderSize 0 = OptionType.eol ∧
      n = optionHeaderSize ∧ r' = r ∨
    (readHeader b.mem).chunkOffset = 0 ∧
    ∃ os brk, r.optionsLength + os.length < ffRequestMaxOptions ∧ (∀ o ∈ os, o.IsData) ∧
      encodeOptions os brk <+: (b.advance requestHeaderSize).bytes ∧
      n = (encodeOptions os brk).length ∧ r' = r.addOptions os brk

section Options

variable {r r' : Request} {b b' : Buffer} {n i : Nat}

/-- The list that the request takes is the list of the packet. -/
theorem TakesOptions.hasOptionBytes (h : TakesOptions r b n r') : HasOptionBytes b n := by
  unfold HasOptionBytes
  rcases h with ⟨hne, _, hn, _⟩ | ⟨ho, os, brk, _, hd, hp, hn, _⟩
  · rw [if_neg hne]
    exact hn
  · rw [if_pos ho]
    exact ⟨os, brk, hd, by rwa [b.bytes_advance] at hp, hn⟩

/-- Every option list has at least the bytes of a terminator. -/
theorem TakesOptions.le (h : TakesOptions r b n r') : optionHeaderSize ≤ n := by
  rcases h with ⟨_, _, rfl, _⟩ | ⟨_, os, brk, _, _, _, rfl, _⟩
  · exact Nat.le_refl _
  · exact optionHeaderSize_le_encodeOptions os brk

/-- A closed list at offset 0 is taken in full. -/
private theorem parseChunkOptions_of_encoded (ho : (readHeader b.mem).chunkOffset = 0)
    {os : List OptionNode} {brk : Bool}
    (h : ffRequestParseOptions r (b.advance requestHeaderSize) =
      (r', (encodeOptions os brk).length)) :
    parseChunkOptions r b =
      (r', some (requestHeaderSize + (encodeOptions os brk).length)) := by
  have hpos := optionHeaderSize_le_encodeOptions os brk
  unfold optionHeaderSize at hpos
  obtain ⟨m, hm⟩ : ∃ m, (encodeOptions os brk).length = m + 1 :=
    ⟨(encodeOptions os brk).length - 1, by omega⟩
  rw [parseChunkOptions, if_pos ho, h, hm]

/-- The options of a packet are parsed exactly when its option list is taken. -/
theorem parseChunkOptions_eq_some_iff :
    parseChunkOptions r b = (r', some i) ↔
      ∃ n, i = requestHeaderSize + n ∧ TakesOptions r b n r' := by
  by_cases ho : (readHeader b.mem).chunkOffset = 0
  · constructor
    · intro h
      rcases ffRequestParseOptions_cases r (b.advance requestHeaderSize) with
        hnone | ⟨os, brk, hlt, hd, hp, hsome⟩
      · rw [parseChunkOptions, if_pos ho, hnone] at h
        cases h
      · rw [parseChunkOptions_of_encoded ho hsome] at h
        cases h
        exact ⟨_, rfl, .inr ⟨ho, os, brk, hlt, hd, hp, rfl, rfl⟩⟩
    · rintro ⟨n, rfl, ⟨hne, _⟩ | ⟨_, os, brk, hlt, hd, hp, rfl, rfl⟩⟩
      · exact absurd ho hne
      · exact parseChunkOptions_of_encoded ho
          (ffRequestParseOptions_of_encoded r _ os brk hlt hd hp)
  · rw [parseChunkOptions, if_neg ho]
    constructor
    · intro h
      split at h
      · next heol =>
        cases h
        exact ⟨_, rfl, .inl ⟨ho, heol, rfl, rfl⟩⟩
      · cases h
    · rintro ⟨n, rfl, ⟨_, heol, rfl, rfl⟩ | ⟨hzero, _⟩⟩
      · rw [if_pos heol]
      · exact absurd hzero ho

/-- A list is taken from every packet with the same bytes that reaches to the end of it. -/
theorem TakesOptions.resize (h : TakesOptions r b n r') (hmem : b'.mem = b.mem)
    (hs : requestHeaderSize + n ≤ b'.size) : TakesOptions r b' n r' := by
  unfold TakesOptions at h ⊢
  rw [hmem]
  rcases h with h | ⟨ho, os, brk, hlt, hd, hp, hn, hr⟩
  · exact .inl h
  · refine .inr ⟨ho, os, brk, hlt, hd, ?_, hn, hr⟩
    have hbytes (c : Buffer) : (c.advance requestHeaderSize).bytes =
      (c.mem.drop requestHeaderSize).take (c.size - requestHeaderSize) := rfl
    rw [hbytes, List.prefix_take_iff] at hp ⊢
    rw [hmem]
    exact ⟨hp.1, by omega⟩

/-- A packet has one option list. -/
theorem TakesOptions.unique {n' : Nat} {r'' : Request} (h : TakesOptions r b n r')
    (h' : TakesOptions r b n' r'') : n = n' := by
  have hparse := parseChunkOptions_eq_some_iff.mpr ⟨n, rfl, h⟩
  have hparse' := parseChunkOptions_eq_some_iff.mpr ⟨n', rfl, h'⟩
  rw [hparse] at hparse'
  exact Nat.add_left_cancel (Option.some.inj (congrArg Prod.snd hparse'))

end Options

/-! ### The chunk -/

section Chunk

variable {r r' : Request} {b b' : Buffer} {n : Nat} {node node' : PayloadNode}

/-- A packet that reaches to its end yields a node with its chunk. -/
theorem parseChunkNode_of_options (hh : chunkHeaderAccepted r b = true)
    (ho : TakesOptions r b n r') (hs : packetEnd b n ≤ b.size) :
    ∃ node, parseChunkNode r b = (r', some node) ∧ node.view =
      ((readHeader b.mem).chunkOffset.toUInt16, (readHeader b.mem).chunkLength,
        slice b.mem (requestHeaderSize + n) (readHeader b.mem).chunkLength.toNat) := by
  have hlt : ¬ b.size < requestHeaderSize + n + (readHeader b.mem).chunkLength.toNat :=
    Nat.not_lt.mpr hs
  unfold parseChunkNode
  rw [if_pos hh, parseChunkOptions_eq_some_iff.mpr ⟨n, rfl, ho⟩]
  dsimp only
  rw [dif_neg hlt]
  refine ⟨_, rfl, ?_⟩
  rw [packetEnd] at hs
  simp only [PayloadNode.view, PayloadNode.bytes, slice, List.take_take,
    Nat.min_eq_left (show (readHeader b.mem).chunkLength.toNat ≤
      b.size - (requestHeaderSize + n) by omega)]

/-- A packet that is not refused passed the header checks, had its options taken and reaches
to its end. -/
theorem ffRequestParseDataChunk_accepted
    (h : (ffRequestParseDataChunk r b).state ≠ .receivingFail) :
    ∃ n r', chunkHeaderAccepted r b = true ∧ TakesOptions r b n r' ∧ packetEnd b n ≤ b.size := by
  rw [ffRequestParseDataChunk, parseChunkNode] at h
  by_cases hh : chunkHeaderAccepted r b = true
  · rw [if_pos hh] at h
    cases hparse : parseChunkOptions r b with
    | mk r' start =>
      rw [hparse] at h
      cases start with
      | none => exact absurd rfl h
      | some i =>
        obtain ⟨n, rfl, ho⟩ := parseChunkOptions_eq_some_iff.mp hparse
        refine ⟨n, r', hh, ho, ?_⟩
        by_contra hshort
        have hlt : b.size < requestHeaderSize + n + (readHeader b.mem).chunkLength.toNat :=
          Nat.lt_of_not_le hshort
        simp only [hlt, ↓reduceDIte, ne_eq, not_true_eq_false] at h
  · rw [if_neg hh] at h
    exact absurd rfl h

/-- Nodes with the same view meet the same nodes. -/
private theorem overlapsExistingNode_view (hv : node'.view = node.view) (current : PayloadNode) :
    overlapsExistingNode node' current = overlapsExistingNode node current := by
  obtain ⟨ho, hl, _⟩ : node'.offset = node.offset ∧ node'.length = node.length ∧
    node'.bytes = node.bytes := by simpa [PayloadNode.view] using hv
  rw [overlapsExistingNode, overlapsExistingNode, ho, hl]

/-- Nodes with the same view are linked alike. -/
private theorem linkNode_view (hv : node'.view = node.view) :
    (linkNode r node = none ∧ linkNode r node' = none) ∨
      ∃ s s', linkNode r node = some s ∧ linkNode r node' = some s' ∧ s.SameReception s' := by
  have hl : node'.length = node.length := congrArg (fun v ↦ v.2.1) hv
  unfold linkNode
  split
  · refine .inr ⟨_, _, rfl, rfl, rfl, ?_, rfl, rfl, rfl, ?_⟩
    · simp only [hl]
    · simp only [List.map_cons, List.map_nil, hv]
  · rw [show overlapsExistingNode node' = overlapsExistingNode node from
      funext (overlapsExistingNode_view hv)]
    split
    · exact .inl ⟨rfl, rfl⟩
    · refine .inr ⟨_, _, rfl, rfl, rfl, ?_, rfl, rfl, rfl, ?_⟩
      · simp only [hl]
      · simp only [List.map_append, List.map_cons, List.map_nil, hv]

/-- Two packets in the same memory that both reach to the end of the packet do the same. -/
theorem ffRequestParseDataChunk_resize (hmem : b'.mem = b.mem)
    (hh : chunkHeaderAccepted r b = true) (ho : TakesOptions r b n r')
    (hs : packetEnd b n ≤ b.size) (hs' : packetEnd b n ≤ b'.size) :
    (ffRequestParseDataChunk r b).SameReception (ffRequestParseDataChunk r b') := by
  have hle := ho.le
  have hs'' : packetEnd b' n ≤ b'.size := by rwa [packetEnd, hmem]
  have hh' : chunkHeaderAccepted r b' = true := by
    rw [chunkHeaderAccepted_iff] at hh ⊢
    rw [hmem]
    exact ⟨by rw [packetEnd] at hs'; omega, hh.2⟩
  have ho' := ho.resize hmem (by rw [packetEnd] at hs'; omega)
  obtain ⟨node, hnode, hview⟩ := parseChunkNode_of_options hh ho hs
  obtain ⟨node', hnode', hview'⟩ := parseChunkNode_of_options hh' ho' hs''
  have hsame : node'.view = node.view := by rw [hview, hview', hmem]
  rw [ffRequestParseDataChunk, ffRequestParseDataChunk, hnode, hnode']
  dsimp only
  rcases linkNode_view (r := r') hsame with ⟨hl, hl'⟩ | ⟨s, s', hl, hl', h⟩
  · rw [hl, hl']
    exact ⟨rfl, rfl, rfl, rfl, rfl, rfl⟩
  · rw [hl, hl']
    dsimp only
    by_cases hdone : s.receivedLength = s.payloadLength
    · rw [if_pos hdone, if_pos (by rw [h.receivedLength, h.payloadLength, hdone])]
      exact ⟨rfl, h.receivedLength, h.payloadLength, h.options, h.payloadContainsOptions,
        h.payload⟩
    · rw [if_neg hdone, if_neg (by rwa [h.receivedLength, h.payloadLength])]
      exact h

/-- A packet that is cut in front of its end is refused. -/
theorem ffRequestParseDataChunk_cut {k : Nat} (ho : TakesOptions r b n r')
    (hs : packetEnd b n ≤ b.size) (hk : k < packetEnd b n) :
    (ffRequestParseDataChunk r (b.cut k)).state = .receivingFail := by
  by_contra hstate
  obtain ⟨m, s, _, hm, hend⟩ := ffRequestParseDataChunk_accepted hstate
  have hsize : (b.cut k).size = k := Nat.min_eq_left (by omega)
  have hend : packetEnd b m ≤ k := hsize ▸ hend
  have hm : TakesOptions r b m s := hm.resize rfl (by rw [packetEnd] at hend; omega)
  rw [← ho.unique hm] at hend
  omega

end Chunk

/-! ### A packet -/

section Packet

variable {r r' : Request} {b b' : Buffer} {n : Nat}

/-- An accepted packet is of version 1, so no packet in the same memory is raw HTTP. -/
theorem not_raw_of_accepted (hh : chunkHeaderAccepted r b = true)
    (hmem : b'.mem = b.mem) : ffRequestIsRawHttp b' = false := by
  obtain ⟨hs, _⟩ := (chunkHeaderAccepted_iff r b).mp hh
  have hlen : 2 ≤ b.mem.length := Nat.le_trans (Nat.le_trans (by decide) hs) b.size_le
  apply ffRequestIsRawHttp_of_version1
  · rwa [hmem]
  · rw [hmem]
    exact version_of_chunkHeaderAccepted hh

/-- A packet that is not refused is a data chunk that reaches to its end. -/
theorem ffRequestParseChunk_accepted (hraw : ffRequestIsRawHttp b = false)
    (h : (ffRequestParseChunk r b).state ≠ .receivingFail) :
    ∃ n r', chunkHeaderAccepted (r.identified b) b = true ∧
      TakesOptions (r.identified b) b n r' ∧ packetEnd b n ≤ b.size := by
  have hs : requestHeaderSize ≤ b.size := by
    by_contra hshort
    exact h (ffRequestParseChunk_of_short r hraw (Nat.lt_of_not_le hshort))
  rw [ffRequestParseChunk_eq r hraw hs] at h
  exact ffRequestParseDataChunk_accepted h

/-- Two packets in the same memory that both reach to the end of the packet do the same. -/
theorem ffRequestParseChunk_resize (hmem : b'.mem = b.mem)
    (hh : chunkHeaderAccepted (r.identified b) b = true)
    (ho : TakesOptions (r.identified b) b n r') (hs : packetEnd b n ≤ b.size)
    (hs' : packetEnd b n ≤ b'.size) :
    (ffRequestParseChunk r b).SameReception (ffRequestParseChunk r b') := by
  have hheader : requestHeaderSize ≤ packetEnd b n := by
    rw [packetEnd, Nat.add_assoc]
    exact Nat.le_add_right _ _
  have hsame : r.identified b' = r.identified b := by
    rw [Request.identified, Request.identified, hmem]
  rw [ffRequestParseChunk_eq r (not_raw_of_accepted hh rfl) (Nat.le_trans hheader hs),
    ffRequestParseChunk_eq r (not_raw_of_accepted hh hmem) (Nat.le_trans hheader hs'), hsame]
  exact ffRequestParseDataChunk_resize hmem hh ho hs hs'

/-- A packet that is cut in front of its end is refused. -/
private theorem ffRequestParseChunk_cut (hh : chunkHeaderAccepted (r.identified b) b = true)
    (ho : TakesOptions (r.identified b) b n r') (hs : packetEnd b n ≤ b.size) {k : Nat}
    (hk : k < packetEnd b n) : (ffRequestParseChunk r (b.cut k)).state = .receivingFail := by
  have hraw : ffRequestIsRawHttp (b.cut k) = false := not_raw_of_accepted hh rfl
  by_cases hlong : requestHeaderSize ≤ (b.cut k).size
  · rw [ffRequestParseChunk_eq r hraw hlong]
    exact ffRequestParseDataChunk_cut ho hs hk
  · exact ffRequestParseChunk_of_short r hraw (Nat.lt_of_not_le hlong)

/-- An accepted packet is self-delimiting: it ends where its header, its option list and its
chunk end. Whatever starts with the bytes up to there does the same to the request, and
every shorter front of it is refused. -/
theorem ffRequestParseChunk_selfDelimiting (r : Request) (b : Buffer)
    (hraw : ffRequestIsRawHttp b = false)
    (haccepted : (ffRequestParseChunk r b).state ≠ .receivingFail) :
    ∃ n, HasOptionBytes b n ∧ packetEnd b n ≤ b.size ∧
      (∀ b' : Buffer, b.bytes.take (packetEnd b n) <+: b'.bytes →
        (ffRequestParseChunk r b).SameReception (ffRequestParseChunk r b')) ∧
      ∀ b' : Buffer, b'.bytes <+: b.bytes.take (packetEnd b n) → b'.size < packetEnd b n →
        (ffRequestParseChunk r b').state = .receivingFail := by
  obtain ⟨n, r', hh, ho, hs⟩ := ffRequestParseChunk_accepted hraw haccepted
  refine ⟨n, ho.hasOptionBytes, hs, fun b' hfront ↦ ?_, fun b' hfront hshort ↦ ?_⟩
  · -- Both packets are cut to the common bytes, and then compared with what was cut off.
    have hcut : (b.cut (packetEnd b n)).size = packetEnd b n := Nat.min_eq_left hs
    have hbytes : (b.cut (packetEnd b n)).bytes = (b'.cut (packetEnd b n)).bytes := by
      rw [b.bytes_cut, b'.bytes_cut, List.prefix_iff_eq_take.mp hfront, List.length_take,
        b.length_bytes, Nat.min_eq_left hs]
    have hleft : (ffRequestParseChunk r b).SameReception
        (ffRequestParseChunk r (b.cut (packetEnd b n))) :=
      ffRequestParseChunk_resize rfl hh ho hs (Nat.le_of_eq hcut.symm)
    rw [ffRequestParseChunk_of_bytes r hbytes] at hleft
    refine hleft.trans ?_
    obtain ⟨m, r'', hh', ho', hs'⟩ := ffRequestParseChunk_accepted
      (b := b'.cut (packetEnd b n)) (r := r)
      (by rw [← ffRequestIsRawHttp_of_bytes hbytes]; exact not_raw_of_accepted hh rfl)
      (by rw [hleft.state]; exact haccepted)
    exact ffRequestParseChunk_resize rfl hh' ho' hs' (Nat.le_trans hs' (Nat.min_le_right _ _))
  · have hbytes : b'.bytes = (b.cut b'.size).bytes := by
      rw [b.bytes_cut, ← b'.length_bytes]
      exact List.prefix_iff_eq_take.mp (hfront.trans (List.take_prefix _ _))
    rw [ffRequestParseChunk_of_bytes r hbytes]
    exact ffRequestParseChunk_cut hh ho hs hshort

/-- A packet of version 1 with an HTTPS option, two bytes of data and two bytes behind them. -/
def samplePaddedPacket : Buffer :=
  .ofBytes (writeHeader ⟨1, 9, 2, 0, 2⟩ ++ [4, 0, 1, 1, 0, 0, 0, 71, 10, 0, 0])

/-- The sample packet ends behind 29 of its 31 bytes. -/
theorem ffRequestParseChunk_selfDelimiting_sample :
    (ffRequestParseChunk ffRequestAlloc samplePaddedPacket).state = .received ∧
      ∃ n, HasOptionBytes samplePaddedPacket n ∧ packetEnd samplePaddedPacket n ≤ 31 ∧
        ∀ b' : Buffer, b'.bytes <+: samplePaddedPacket.bytes.take
          (packetEnd samplePaddedPacket n) → b'.size < packetEnd samplePaddedPacket n →
          (ffRequestParseChunk ffRequestAlloc b').state = .receivingFail := by
  have hstate : (ffRequestParseChunk ffRequestAlloc samplePaddedPacket).state = .received := by
    decide
  obtain ⟨n, hn, hs, _, hcut⟩ := ffRequestParseChunk_selfDelimiting ffRequestAlloc
    samplePaddedPacket (by decide) (by rw [hstate]; decide)
  exact ⟨hstate, n, hn, hs, hcut⟩

end Packet

end FfProxy
