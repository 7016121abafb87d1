import FfProxy.Server.Process

/-!
# The pre-shared-key gate

With a pre-shared key configured, a worker forwards a request only after a tag was
checked over its payload. The check covers the whole payload with a full tag as long as
no version-1 packet carries a shorter tag and none announces 65536 bytes or more. Raw HTTP
requests have no mode option and do not get past a configured key.
-/

namespace FfProxy
open Base

/-- A worker forwards the request that `packets` make only if AES-256-GCM under the derived
key accepted the whole reassembled payload with a tag of 16 bytes. -/
def KeyGate (env : Environment) (fudge : UInt16) (key : EncryptionConfig)
    (packets : List Buffer) : Prop :=
  let r := parseChunks ffRequestAlloc packets
  r.state = .received → ∀ p q,
    ffProxyProcessRequest env ⟨fudge, some key⟩ r = .ok p → p.forwarded = some q →
    ∃ node tag, ffRequestVectorisePayload (env.garbage 0) r = .ok { r with payload := [node] } ∧
      node.length.toNat = r.payloadLength.toNat ∧ tag.length = 16 ∧
      TagChecked env.ssl key r.options node.bytes tag

/-- If the packet is one of version 1, its header announces less than 65536 bytes and its options
hold no tag of 1 to 15 bytes. -/
def FullTag (b : Buffer) : Prop :=
  requestHeaderSize ≤ b.size → (readHeader b.mem).version = 1 →
    (readHeader b.mem).totalLength.toNat < 65536 ∧
    ∀ o ∈ packetOptions b, o.type = OptionType.encryptionTag →
      o.length.toNat = 0 ∨ 16 ≤ o.length.toNat

instance (b : Buffer) : Decidable (FullTag b) := inferInstanceAs (Decidable (_ → _ → _ ∧ _))

/-- What full-tag packets keep: tags are full, only a version-1 request has options, and a
complete payload of one node has the announced length. -/
structure GateInv (r : Request) : Prop where
  tags : ∀ o ∈ r.options, o.type = OptionType.encryptionTag →
    o.length.toNat = 0 ∨ 16 ≤ o.length.toNat
  unversioned : r.version ≠ ffVersion1 → r.options = []
  fresh : r.version = 0 → r.payload = []
  nothing : r.payload = [] → r.receivedLength = 0 ∧ r.state ≠ .received
  short : r.version = ffVersion1 → r.payloadLength.toNat < 65536
  whole : r.version = ffVersion1 → r.state = .received → ∀ node, r.payload = [node] →
    node.length.toNat = r.payloadLength.toNat

/-- The invariant holds of a fresh request. -/
theorem gateInv_alloc : GateInv ffRequestAlloc where
  tags := by simp [ffRequestAlloc]
  unversioned _ := rfl
  fresh _ := rfl
  nothing _ := ⟨rfl, by simp [ffRequestAlloc]⟩
  short h := absurd h (by decide)
  whole h := absurd h (by decide)

namespace GateInv

variable {r r' : Request} {b : Buffer} {node : PayloadNode}

/-- A refused packet keeps the invariant. -/
theorem fail (h : GateInv r) : GateInv { r with state := .receivingFail } where
  tags := h.tags
  unversioned := h.unversioned
  fresh := h.fresh
  nothing hp := ⟨(h.nothing hp).1, by simp⟩
  short := h.short
  whole _ hs := by cases hs

/-- Taking the options of a full-tag packet keeps the invariant. -/
theorem of_tookOptions (h : GateInv r) (hv : r.version = ffVersion1)
    (ht : r' = r ∨ TookOptions r b r')
    (hb : ∀ o ∈ packetOptions b, o.type = OptionType.encryptionTag →
      o.length.toNat = 0 ∨ 16 ≤ o.length.toNat) : GateInv r' := by
  obtain ⟨hid, hp, hr, hs⟩ := TookOptions.sameIdentity ht
  have hopt : ∀ o ∈ r'.options, o ∈ r.options ∨ o ∈ packetOptions b := by
    intro o ho
    rcases ht with rfl | ht
    · exact Or.inl ho
    · rwa [ht.options, List.mem_append] at ho
  refine ⟨?_, fun hn ↦ absurd (hid.version.trans hv) hn, ?_, ?_, ?_, ?_⟩
  · intro o ho hty
    rcases hopt o ho with ho | ho
    · exact h.tags o ho hty
    · exact hb o ho hty
  · rw [hid.version, hp]
    exact h.fresh
  · rw [hp, hr, hs]
    exact h.nothing
  · rw [hid.version, hid.payloadLength]
    exact h.short
  · rw [hid.version, hid.payloadLength, hp, hs]
    exact h.whole

/-- Linking a node keeps the invariant. -/
theorem acceptNode (h : GateInv r) (hv : r.version = ffVersion1) :
    GateInv (r.acceptNode node) where
  tags := h.tags
  unversioned := h.unversioned
  fresh hf := absurd (hv.symm.trans hf) (by decide)
  nothing hp := by simp [Request.acceptNode] at hp
  short := h.short
  whole _ hs n hp := by
    -- A single node is the first one, and only its length can have completed the request.
    have hnil : r.payload = [] ∧ node = n := by
      cases hr : r.payload with
      | nil => simpa [Request.acceptNode, hr] using hp
      | cons a l => simp [Request.acceptNode, hr] at hp
    obtain ⟨hz, hne⟩ := h.nothing hnil.1
    have hsum : r.receivedLength + node.length.toUInt64 = r.payloadLength := by
      by_contra hn
      simp only [Request.acceptNode, if_neg hn] at hs
      exact hne hs
    rw [hz, UInt64.zero_add] at hsum
    change n.length.toNat = r.payloadLength.toNat
    rw [← hnil.2, ← hsum, UInt16.toNat_toUInt64]

/-- One data chunk keeps the invariant. -/
theorem dataChunk (h : GateInv r) (hb : FullTag b) : GateInv (ffRequestParseDataChunk r b) := by
  by_cases hv : r.version = ffVersion1
  · by_cases hh : chunkHeaderAccepted r b = true
    · obtain ⟨hsz, _⟩ := (chunkHeaderAccepted_iff r b).mp hh
      have htag := (hb (Nat.le_of_add_right_le hsz) (version_of_chunkHeaderAccepted hh)).2
      rcases ffRequestParseDataChunk_cases r b (fun hp ↦ (h.nothing hp).1) with
        ⟨r', ht, hc⟩ | ⟨r', node, ht, _, _, _, hc⟩
      · rw [hc]
        exact (h.of_tookOptions hv ht htag).fail
      · rw [hc]
        have hv' := (TookOptions.sameIdentity (Or.inr ht)).1.version.trans hv
        exact (h.of_tookOptions hv (Or.inr ht) htag).acceptNode hv'
    · have hc : ffRequestParseDataChunk r b = { r with state := .receivingFail } := by
        rw [ffRequestParseDataChunk, parseChunkNode, Bool.eq_false_iff.mpr hh]
        rfl
      rw [hc]
      exact h.fail
  · rw [ffRequestParseDataChunk_of_version hv]
    exact h.fail

/-- One packet keeps the invariant. -/
theorem parseChunk (h : GateInv r) (hb : FullTag b) : GateInv (ffRequestParseChunk r b) := by
  unfold ffRequestParseChunk
  by_cases hv : r.version = 0
  · have hopt : r.options = [] := h.unversioned (by rw [hv]; decide)
    have hpay := h.fresh hv
    rw [if_pos hv]
    unfold ffRequestParseFirstChunk
    split
    · have hraw : (ffRequestParseRawHttp r b).version = ffVersionRaw := rfl
      refine ⟨h.tags, fun _ ↦ hopt, fun h0 ↦ ?_, fun h0 ↦ ?_, fun h1 ↦ ?_, fun h1 ↦ ?_⟩
      · exact absurd (hraw.symm.trans h0) (by decide)
      · exact absurd h0 (by simp [ffRequestParseRawHttp])
      · exact absurd (hraw.symm.trans h1) (by decide)
      · exact absurd (hraw.symm.trans h1) (by decide)
    · split
      · exact h.fail
      · next hsz =>
        apply dataChunk _ hb
        refine ⟨h.tags, fun _ ↦ hopt, fun _ ↦ hpay, h.nothing, fun hv1 ↦ ?_, fun _ hs ↦ ?_⟩
        · simpa using (hb (Nat.not_lt.mp hsz) (version_eq_one hv1)).1
        · exact absurd hs (h.nothing hpay).2
  · rw [if_neg hv]
    exact h.dataChunk hb

/-- Every sequence of full-tag packets keeps the invariant. -/
theorem parseChunks {packets : List Buffer} (hb : ∀ b ∈ packets, FullTag b) :
    GateInv (FfProxy.parseChunks ffRequestAlloc packets) := by
  induction packets using List.reverseRecOn with
  | nil => exact gateInv_alloc
  | append_singleton packets b ih =>
    rw [parseChunks_concat]
    exact (ih fun b' hb' ↦ hb b' (by simp [hb'])).parseChunk (hb b (by simp))

end GateInv

/-- The vectorised payload of a complete version-1 request has the announced length. -/
theorem GateInv.length_vectorised {r : Request} {node : PayloadNode} (h : GateInv r)
    (hv : r.version = ffVersion1) (hs : r.state = .received)
    (hn : r.payload = [node] ∨ node.length = r.payloadLength.toUInt16) :
    node.length.toNat = r.payloadLength.toNat := by
  rcases hn with hp | hl
  · exact h.whole hv hs node hp
  · rw [hl, UInt64.toNat_toUInt16, Nat.mod_eq_of_lt (h.short hv)]

/-- Full-tag packets cannot get a request past the gate unauthenticated. -/
theorem keyGate_of_fullTag (env : Environment) (hssl : env.ssl.ChecksTag) (fudge : UInt16)
    (key : EncryptionConfig) (packets : List Buffer) (hb : ∀ b ∈ packets, FullTag b) :
    KeyGate env fudge key packets := by
  intro hs p q hp hq
  have hinv := GateInv.parseChunks hb
  generalize parseChunks ffRequestAlloc packets = r at hs hp hinv ⊢
  obtain ⟨r₁, r₂, h₁, h₂, hd, _⟩ := stages_of_forwarded hp hq
  obtain ⟨node, rfl, hn⟩ := ffRequestVectorisePayload_cases h₁
  obtain ⟨tag, hone, hle, hcheck⟩ := tagChecked_of_decrypted hssl h₂ hd
  rw [List.flatMap_singleton] at hcheck
  obtain ⟨salt, hsalt, iv, hiv, t, ht, k, hst, hit, htt, htv, hrest⟩ := hcheck
  have hv : r.version = ffVersion1 := by
    by_contra hne
    rw [hinv.unversioned hne] at ht
    cases ht
  have hlen : tag.length = 16 := by
    have := hinv.tags t ht htt
    rw [← t.length_eq, htv] at this
    omega
  exact ⟨node, tag, h₁, hinv.length_vectorised hv hs hn, hlen, salt, hsalt, iv, hiv, t, ht, k, hst,
    hit, htt, htv, hrest⟩

/-- A one-byte request of id 9 sealed with the given tag. -/
def sampleSealedPacket (tag : OptionNode) : Buffer :=
  Buffer.ofBytes (writeHeader ⟨1, 9, 1, 0, 1⟩ ++
    encodeOptions [.ofByte OptionType.encryptionMode 1, .ofByte OptionType.encryptionIv 5, tag,
      .ofByte OptionType.keyDeriveMode 1, .ofByte OptionType.keyDeriveSalt 6] false ++ [71])

/-- The full tag of the sealed sample. -/
def sampleFullTag : OptionNode := ⟨OptionType.encryptionTag, 16, 71 :: List.replicate 15 0, rfl⟩

/-- A request sealed with a full tag is forwarded and authenticated. -/
theorem keyGate_sealed :
    isForwarded (ffProxyProcessRequest sampleEnvironment ⟨30, some ⟨[107], 1000⟩⟩
        (parseChunks ffRequestAlloc [sampleSealedPacket sampleFullTag])) = true ∧
      KeyGate sampleEnvironment 30 ⟨[107], 1000⟩ [sampleSealedPacket sampleFullTag] :=
  ⟨by decide, keyGate_of_fullTag _ sampleSsl_checksTag _ _ _ (by decide)⟩

/-- A tag of one byte is enough to have a request forwarded. -/
theorem not_keyGate_short_tag :
    sampleEnvironment.ssl.ChecksTag ∧
      ¬ KeyGate sampleEnvironment 30 ⟨[107], 1000⟩
        [sampleSealedPacket (.ofByte OptionType.encryptionTag 71)] := by
  refine ⟨sampleSsl_checksTag, fun h ↦ ?_⟩
  obtain ⟨node, tag, _, _, hlen, _, _, _, _, t, ht, _, _, _, htt, htv, _⟩ :=
    h (by decide) _ _ rfl rfl
  -- The only tag option of the request has one byte.
  have hall : ∀ o ∈ (parseChunks ffRequestAlloc
      [sampleSealedPacket (.ofByte OptionType.encryptionTag 71)]).options,
      o.type = OptionType.encryptionTag → o.value.length = 1 := by decide
  have := hall t ht htt
  rw [htv] at this
  omega

end FfProxy
