import FfProxy.Parser.Reassembly

/-!
# Where the options of a request come from

"Only first request can contain options", says `src/parser.c:167` of the packet at offset 0.
Nothing keeps a request from having two such packets: an empty chunk overlaps nothing, and
the options of a packet are added before its chunk is looked at, so that they stay if the
packet is refused. The options of a complete request are those of a single packet if its
packets fit and only one of them offers options.
-/

namespace FfProxy
open Base

/-- A packet at offset 0 with an option list that an empty request would take. -/
def offersOptions (b : Buffer) : Bool :=
  decide ((readHeader b.mem).chunkOffset = 0) &&
    (parseOptionsLoop (b.advance requestHeaderSize) ffRequestMaxOptions 0 []).isSome

/-- The options of a request and its note whether more follow in the payload. -/
def Request.headerOptions (r : Request) : List OptionNode × Bool :=
  (r.options, r.payloadContainsOptions)

/-! ### One packet -/

section Packet

variable {r r' : Request} {b : Buffer}

/-- Only a packet that offers options has any taken. -/
theorem TookOptions.headerOptions_eq (h : TookOptions r b r') (hb : offersOptions b = false) :
    r'.headerOptions = r.headerOptions := by
  rcases h with ⟨_, rfl⟩ | ⟨ho, os, brk, hlt, hd, hp, rfl⟩
  · rfl
  · rw [offersOptions, ho, parseOptionsLoop_of_encoded (by omega) hd hp] at hb
    cases hb

/-- A packet at offset 0 whose options were taken offers them. -/
theorem TookOptions.offersOptions_eq (h : TookOptions r b r')
    (hoffset : (readHeader b.mem).chunkOffset = 0) : offersOptions b = true := by
  rcases h with ⟨hne, _⟩ | ⟨_, os, brk, hlt, hd, hp, _⟩
  · exact absurd hoffset hne
  · have hroom : os.length < ffRequestMaxOptions := Nat.lt_of_le_of_lt (Nat.le_add_left _ _) hlt
    rw [offersOptions, hoffset, parseOptionsLoop_of_encoded hroom hd hp]
    rfl

private theorem linkNode_headerOptions {node : PayloadNode} (h : linkNode r node = some r') :
    r'.headerOptions = r.headerOptions := by
  unfold linkNode at h
  split at h
  · cases h
    rfl
  · split at h
    · cases h
    · cases h
      rfl

/-- A data chunk changes the options by taking those of the packet, if at all. -/
private theorem ffRequestParseDataChunk_headerOptions (r : Request) (b : Buffer) :
    ∃ r', (r' = r ∨ TookOptions r b r') ∧
      (ffRequestParseDataChunk r b).headerOptions = r'.headerOptions := by
  unfold ffRequestParseDataChunk
  rcases parseChunkNode_cases r b with (h | ⟨r', ht, h⟩) | ⟨r', node, ht, _, _, h⟩
  · exact ⟨r, .inl rfl, by rw [h]; rfl⟩
  · exact ⟨r', .inr ht, by rw [h]; rfl⟩
  · refine ⟨r', .inr ht, ?_⟩
    simp only [h]
    cases hl : linkNode r' node with
    | none => rfl
    | some r'' =>
      rw [← linkNode_headerOptions hl]
      dsimp only
      split <;> rfl

/-- Reading the header of the first packet leaves the options alone. -/
private theorem headerOptions_identified (r : Request) (b : Buffer) :
    (r.identified b).headerOptions = r.headerOptions := by
  unfold Request.identified
  split <;> rfl

/-- A packet that offers no options changes none. -/
theorem ffRequestParseChunk_headerOptions (r : Request) (hb : offersOptions b = false) :
    (ffRequestParseChunk r b).headerOptions = r.headerOptions := by
  have hdata (r : Request) :
      (ffRequestParseDataChunk r b).headerOptions = r.headerOptions := by
    obtain ⟨r', rfl | ht, h⟩ := ffRequestParseDataChunk_headerOptions r b
    · exact h
    · rw [h, ht.headerOptions_eq hb]
  unfold ffRequestParseChunk ffRequestParseFirstChunk
  split
  · split
    · rfl
    · split
      · rfl
      · rw [hdata]
        rfl
  · exact hdata r

/-- Once a request has a version it keeps it. -/
theorem ffRequestParseChunk_version (hv : r.version ≠ 0) (b : Buffer) :
    (ffRequestParseChunk r b).version = r.version := by
  rw [ffRequestParseChunk, if_neg hv]
  exact (ffRequestParseDataChunk_sameIdentity r b).version

/-- A request becomes one of version 1 by a packet of version 1 only. -/
theorem version1_of_parseChunk (h : (ffRequestParseChunk r b).version = ffVersion1) :
    r.version = ffVersion1 ∨ (readHeader b.mem).version = 1 := by
  by_cases hv : r.version = 0
  · rw [ffRequestParseChunk, if_pos hv, ffRequestParseFirstChunk] at h
    split at h
    · exact absurd h (show ffVersionRaw ≠ ffVersion1 by decide)
    split at h
    · exact absurd (hv.symm.trans h) (by decide)
    · rw [(ffRequestParseDataChunk_sameIdentity _ b).version] at h
      exact .inr (version_eq_one h)
  · exact .inl ((ffRequestParseChunk_version hv b).symm.trans h)

/-- Some packet of a version-1 request is one of version 1. -/
theorem exists_version1 {packets : List Buffer}
    (h : (parseChunks r packets).version = ffVersion1) :
    r.version = ffVersion1 ∨ ∃ b ∈ packets, (readHeader b.mem).version = 1 := by
  induction packets generalizing r with
  | nil => exact .inl h
  | cons b packets ih =>
    rcases ih (r := ffRequestParseChunk r b) h with hv | ⟨b', hb', hv⟩
    · exact (version1_of_parseChunk hv).imp_right fun hb ↦ ⟨b, List.mem_cons_self, hb⟩
    · exact .inr ⟨b', List.mem_cons_of_mem b hb', hv⟩

/-- A packet whose chunk is added to a request that is no raw one had its options taken. -/
theorem tookOptions_of_accepted (hz : r.payload = [] → r.receivedLength = 0)
    (hraw : (ffRequestParseChunk r b).version ≠ ffVersionRaw) (hacc : acceptedChunk r b ≠ []) :
    ∃ r', TookOptions (r.identified b) b r' ∧
      (ffRequestParseChunk r b).headerOptions = r'.headerOptions := by
  have hgrows : (ffRequestParseChunk r b).payload.length ≠ r.payload.length := by
    intro heq
    exact hacc (by rw [acceptedChunk, if_pos heq])
  have hdata (hpay : (r.identified b).payload = r.payload)
      (hrec : (r.identified b).receivedLength = r.receivedLength)
      (heq : ffRequestParseChunk r b = ffRequestParseDataChunk (r.identified b) b) :
      ∃ r', TookOptions (r.identified b) b r' ∧
        (ffRequestParseChunk r b).headerOptions = r'.headerOptions := by
    rcases ffRequestParseDataChunk_cases (r.identified b) b (by rwa [hpay, hrec]) with
      ⟨r', ht, h⟩ | ⟨r', node, ht, _, _, _, h⟩
    · refine absurd ?_ hgrows
      rw [heq, h, (TookOptions.sameIdentity ht).2.1, hpay]
    · exact ⟨r', ht, by rw [heq, h]; rfl⟩
  by_cases hv : r.version = 0
  · have hfirst : ffRequestParseChunk r b = ffRequestParseFirstChunk r b := if_pos hv
    have hid : r.identified b = _ := if_pos hv
    cases hr : ffRequestIsRawHttp b with
    | true =>
      refine absurd ?_ hraw
      rw [hfirst, ffRequestParseFirstChunk, if_pos hr]
      rfl
    | false =>
      by_cases hs : requestHeaderSize ≤ b.size
      · exact hdata (by rw [hid]) (by rw [hid]) (ffRequestParseChunk_eq r hr hs)
      · refine absurd ?_ hgrows
        rw [hfirst, ffRequestParseFirstChunk, hr, if_neg Bool.false_ne_true,
          if_pos (Nat.lt_of_not_le hs)]
  · have hid : r.identified b = r := if_neg hv
    exact hdata (by rw [hid]) (by rw [hid]) (by rw [hid, ffRequestParseChunk, if_neg hv])

/-- A packet whose chunk is added brings just the chunk of its header. -/
theorem acceptedChunk_eq (hacc : acceptedChunk r b ≠ []) : acceptedChunk r b = [wireChunk b] := by
  unfold acceptedChunk at hacc ⊢
  split
  · next hsame => exact absurd (if_pos hsame) hacc
  · rfl

end Packet

/-! ### A run of packets -/

private theorem parseChunks_append_cons (r : Request) (front : List Buffer) (b : Buffer)
    (back : List Buffer) : parseChunks r (front ++ b :: back) =
      parseChunks (ffRequestParseChunk (parseChunks r front) b) back := by
  simp only [parseChunks, List.foldl_append, List.foldl_cons]

/-- Packets that offer no options change none. -/
theorem parseChunks_headerOptions (r : Request) {packets : List Buffer}
    (h : ∀ b ∈ packets, offersOptions b = false) :
    (parseChunks r packets).headerOptions = r.headerOptions := by
  induction packets generalizing r with
  | nil => rfl
  | cons b packets ih =>
    rw [parseChunks, List.foldl_cons, ← parseChunks,
      ih _ fun b' hb' ↦ h b' (List.mem_cons_of_mem b hb'),
      ffRequestParseChunk_headerOptions r (h b List.mem_cons_self)]

/-- Once a request has a version, no packet changes it. -/
theorem parseChunks_version {r : Request} (hv : r.version ≠ 0) (packets : List Buffer) :
    (parseChunks r packets).version = r.version := by
  induction packets generalizing r with
  | nil => rfl
  | cons b packets ih =>
    have hb := ffRequestParseChunk_version hv b
    rw [parseChunks, List.foldl_cons, ← parseChunks, ih (by rwa [hb]), hb]

/-- A run that ends in version 1 has no version or version 1 before each of its packets, and
does not become a raw one by it. -/
theorem version_of_parseChunks {r : Request} {b : Buffer} {back : List Buffer}
    (hv : (parseChunks (ffRequestParseChunk r b) back).version = ffVersion1) :
    (r.version = 0 ∨ r.version = ffVersion1) ∧
      (ffRequestParseChunk r b).version ≠ ffVersionRaw := by
  constructor
  · by_cases h0 : r.version = 0
    · exact .inl h0
    · have hb := ffRequestParseChunk_version h0 b
      rw [parseChunks_version (by rwa [hb]), hb] at hv
      exact .inr hv
  · intro hraw
    rw [parseChunks_version (by rw [hraw]; decide), hraw] at hv
    exact absurd hv (by decide)

/-- An accepted chunk came with one of the packets. -/
theorem exists_of_mem_acceptedChunks {r : Request} {packets : List Buffer} {c : WireChunk}
    (h : c ∈ acceptedChunks r packets) :
    ∃ front b back, packets = front ++ b :: back ∧
      acceptedChunk (parseChunks r front) b ≠ [] ∧ c = wireChunk b := by
  induction packets generalizing r with
  | nil => cases h
  | cons b packets ih =>
    rw [acceptedChunks] at h
    rcases List.mem_append.mp h with h | h
    · have hacc := List.ne_nil_of_mem h
      rw [acceptedChunk_eq hacc] at h
      exact ⟨[], b, packets, rfl, hacc, List.mem_singleton.mp h⟩
    · obtain ⟨front, b', back, rfl, hacc, hc⟩ := ih h
      exact ⟨b :: front, b', back, rfl, hacc, hc⟩

/-- The chunks of a complete request include one at offset 0. -/
theorem exists_offset_zero {r : Request} {chunks : List WireChunk} (h : Reassembling r chunks)
    (hs : r.state = .received) : ∃ c ∈ chunks, c.offset = 0 := by
  have hzero (c : WireChunk) (hc : c.span.start = 0) : c.offset = 0 := UInt32.toNat_inj.mp hc
  by_cases hempty : r.payloadLength.toNat = 0
  · -- The chunks of an empty payload are empty and lie at its start.
    obtain ⟨node, hnode⟩ := List.exists_mem_of_ne_nil _ (h.complete hs).1
    have hspan : node.span ∈ chunks.map WireChunk.span := by
      rw [← h.spans_eq]
      exact List.mem_map_of_mem hnode
    obtain ⟨c, hc, _⟩ := List.mem_map.mp hspan
    have hin := h.inside c hc
    simp only [Span.stop] at hin
    exact ⟨c, hc, hzero c (by omega)⟩
  · obtain ⟨s, hspan, hcovers⟩ := (h.tiling hs).covers 0 (Nat.pos_of_ne_zero hempty)
    obtain ⟨c, hc, rfl⟩ := List.mem_map.mp hspan
    exact ⟨c, hc, hzero c (Nat.le_zero.mp hcovers.1)⟩

/-- The header options of a run of packets are those of its packet `b`. That packet is at
offset 0 and its chunk was added, and no other packet changed the options or the note. -/
structure OptionsComeFrom (packets front : List Buffer) (b : Buffer) (back : List Buffer) :
    Prop where
  split : packets = front ++ b :: back
  offset : (readHeader b.mem).chunkOffset = 0
  accepted : acceptedChunk (parseChunks ffRequestAlloc front) b = [wireChunk b]
  options : (parseChunks ffRequestAlloc packets).options = packetOptions b
  containsOptions : (parseChunks ffRequestAlloc packets).payloadContainsOptions =
    packetContainsOptions b
  alone : ∀ front' b' back', packets = front' ++ b' :: back' → front'.length ≠ front.length →
    (ffRequestParseChunk (parseChunks ffRequestAlloc front') b').headerOptions =
      (parseChunks ffRequestAlloc front').headerOptions

/-- The header options of a complete request come from a single packet. -/
def HeaderOptionsOfOne (packets : List Buffer) : Prop :=
  (parseChunks ffRequestAlloc packets).version = ffVersion1 →
    (parseChunks ffRequestAlloc packets).state = .received →
    ∃ front b back, OptionsComeFrom packets front b back

/-- An element at another place of a list lies in front of the split or behind it. -/
private theorem mem_of_other_split {front front' back back' : List Buffer} {b b' : Buffer}
    (h : front ++ b :: back = front' ++ b' :: back') (hne : front'.length ≠ front.length) :
    b' ∈ front ∨ b' ∈ back := by
  rcases List.append_eq_append_iff.mp h with ⟨as, rfl, hrest⟩ | ⟨bs, rfl, hrest⟩
  · cases as with
    | nil => exact absurd (by rw [List.append_nil]) hne
    | cons a as =>
      obtain ⟨_, rfl⟩ := List.cons.inj hrest
      exact .inr (by simp)
  · cases bs with
    | nil => exact absurd (by rw [List.append_nil]) hne
    | cons b'' bs =>
      obtain ⟨rfl, _⟩ := List.cons.inj hrest
      exact .inl (by simp)

/-- A request between packets of a version-1 run counts nothing before its first node. -/
private theorem receivedLength_of_nil {r : Request} {chunks : List WireChunk}
    (hinv : ReassemblyInv r chunks) (hv : r.version = 0 ∨ r.version = ffVersion1)
    (hp : r.payload = []) : r.receivedLength = 0 := by
  rcases hv with hv | hv
  · exact (hinv.unversioned hv).2.1.receivedLength_of_nil hp
  · exact (hinv.version1 hv).receiving.receivedLength_of_nil hp

/-- If at most one packet offers options and `b` does, no packet beside it does. -/
private theorem offersOptions_beside {front back : List Buffer} {b : Buffer}
    (hone : (front ++ b :: back).countP offersOptions ≤ 1) (hb : offersOptions b = true) :
    (∀ b' ∈ front, offersOptions b' = false) ∧ ∀ b' ∈ back, offersOptions b' = false := by
  rw [List.countP_append, List.countP_cons_of_pos hb] at hone
  have hfront : front.countP offersOptions = 0 := by omega
  have hback : back.countP offersOptions = 0 := by omega
  exact ⟨fun b' hb' ↦ Bool.eq_false_of_not_eq_true (List.countP_eq_zero.mp hfront b' hb'),
    fun b' hb' ↦ Bool.eq_false_of_not_eq_true (List.countP_eq_zero.mp hback b' hb')⟩

/-- The options of a run are those of the packet that had its options taken, if no packet
beside it offers any. -/
private theorem optionsComeFrom_of_tookOptions {front back : List Buffer} {b : Buffer}
    {r' : Request} (hoffset : (readHeader b.mem).chunkOffset = 0)
    (hacc : acceptedChunk (parseChunks ffRequestAlloc front) b ≠ [])
    (htook : TookOptions ((parseChunks ffRequestAlloc front).identified b) b r')
    (heq : (ffRequestParseChunk (parseChunks ffRequestAlloc front) b).headerOptions =
      r'.headerOptions)
    (hfront : ∀ b' ∈ front, offersOptions b' = false)
    (hback : ∀ b' ∈ back, offersOptions b' = false) :
    OptionsComeFrom (front ++ b :: back) front b back := by
  have hfinal : (parseChunks ffRequestAlloc (front ++ b :: back)).headerOptions =
      r'.headerOptions := by
    rw [parseChunks_append_cons, parseChunks_headerOptions _ hback, heq]
  have hnone : ((parseChunks ffRequestAlloc front).identified b).headerOptions = ([], false) := by
    rw [headerOptions_identified, parseChunks_headerOptions ffRequestAlloc hfront]
    rfl
  refine ⟨rfl, hoffset, acceptedChunk_eq hacc, ?_, ?_, ?_⟩
  · have hempty : ((parseChunks ffRequestAlloc front).identified b).options = [] :=
      congrArg Prod.fst hnone
    have hoptions : (parseChunks ffRequestAlloc (front ++ b :: back)).options = r'.options :=
      congrArg Prod.fst hfinal
    rw [hoptions, htook.options, hempty, List.nil_append]
  · have hflag : (parseChunks ffRequestAlloc (front ++ b :: back)).payloadContainsOptions =
        r'.payloadContainsOptions := congrArg Prod.snd hfinal
    rw [hflag, htook.containsOptions hoffset]
  · intro front' b' back' hsplit hne
    apply ffRequestParseChunk_headerOptions
    rcases mem_of_other_split hsplit hne with hmem | hmem
    · exact hfront b' hmem
    · exact hback b' hmem

/-- If the packets of a run fit and at most one of them offers options, the header options of a
complete request come from a single packet. -/
theorem headerOptionsOfOne_of_fits (packets : List Buffer) (hf : ∀ b ∈ packets, FitsNode b)
    (hone : packets.countP offersOptions ≤ 1) : HeaderOptionsOfOne packets := by
  intro hv hs
  -- The chunk at offset 0 came with a packet `b` of the run.
  have h := (reassemblyInv_alloc.parseChunks packets hf).version1 hv
  obtain ⟨c, hc, hoffset⟩ := exists_offset_zero h hs
  obtain ⟨front, b, back, rfl, hacc, rfl⟩ := exists_of_mem_acceptedChunks hc
  -- It had its options taken.
  rw [parseChunks_append_cons] at hv
  obtain ⟨hbefore, hafter⟩ := version_of_parseChunks hv
  have hinv := reassemblyInv_alloc.parseChunks front fun b' hb' ↦
    hf b' (List.mem_append_left _ hb')
  obtain ⟨r', htook, heq⟩ :=
    tookOptions_of_accepted (receivedLength_of_nil hinv hbefore) hafter hacc
  -- So it offers them, and no other packet does.
  obtain ⟨hfront, hback⟩ := offersOptions_beside hone (htook.offersOptions_eq hoffset)
  exact ⟨front, b, back, optionsComeFrom_of_tookOptions hoffset hacc htook heq hfront hback⟩

/-- A packet of request 9 with one byte of payload in all, an HTTPS option and the data. -/
def sampleHttpsPacket (https : UInt8) (data : List UInt8) : Buffer :=
  .ofBytes (writeHeader ⟨1, 9, 1, 0, UInt16.ofNat data.length⟩ ++ [4, 0, 1, https, 0, 0, 0] ++
    data)

/-- The first of two packets of request 9, with an HTTPS option and a time stamp. -/
def sampleStampedPacket : Buffer :=
  .ofBytes (writeHeader ⟨1, 9, 2, 0, 1⟩ ++
    encodeOptions [.ofByte OptionType.https 1, timestampOption 1000] false ++ [65])

/-- A request of two packets has the options of the first one. -/
theorem headerOptionsOfOne_two_packets :
    (parseChunks ffRequestAlloc [sampleStampedPacket, samplePacket 2 1 [66]]).state = .received ∧
      (parseChunks ffRequestAlloc [sampleStampedPacket, samplePacket 2 1 [66]]).options =
        [.ofByte OptionType.https 1, timestampOption 1000] ∧
      HeaderOptionsOfOne [sampleStampedPacket, samplePacket 2 1 [66]] :=
  ⟨by decide, by decide, headerOptionsOfOne_of_fits _ (by decide) (by decide)⟩

/-- An empty chunk at offset 0 and then the whole payload, each with an HTTPS option: the
request is complete and has both options. -/
theorem not_headerOptionsOfOne_empty_chunk :
    (parseChunks ffRequestAlloc [sampleHttpsPacket 1 [], sampleHttpsPacket 0 [65]]).options =
        [.ofByte OptionType.https 1, .ofByte OptionType.https 0] ∧
      ¬ HeaderOptionsOfOne [sampleHttpsPacket 1 [], sampleHttpsPacket 0 [65]] := by
  refine ⟨by decide, fun h ↦ ?_⟩
  obtain ⟨front, b, back, hfrom⟩ := h (by decide) (by decide)
  have hb : b ∈ [sampleHttpsPacket 1 [], sampleHttpsPacket 0 [65]] := by
    rw [hfrom.split]
    simp
  have hlength : ∀ b' ∈ [sampleHttpsPacket 1 [], sampleHttpsPacket 0 [65]],
      (packetOptions b').length = 1 := by decide
  have htwo := congrArg List.length hfrom.options
  rw [hlength b hb] at htwo
  exact absurd htwo (by decide)

end FfProxy
