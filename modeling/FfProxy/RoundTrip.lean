import FfProxy.Envelope

/-!
# The round trip

The C client builds, encrypts and cuts a request; the proxy receives the packets in order,
joins, decrypts and parses. Each stage of one side is undone by a stage of the other, so
the proxy ends with the message of the client and with its options.
-/

namespace FfProxy
open Base

/-! ### Both sides together -/

/-- Delivered in order, the packets are complete with the last one, and joining, decrypting and
parsing leave the message and the options. -/
def Recovers (ssl : OpenSsl) (encryption : Option EncryptionConfig) (packets : List (List UInt8))
    (options : List OptionNode) (message : List UInt8) : Prop :=
  ∀ (garbage : Nat → Nat → UInt8) (bufs : List Buffer), bufs.map Buffer.bytes = packets →
    (parseChunks ffRequestAlloc bufs).state = .received ∧
    (∀ p, p <+: bufs → p ≠ bufs → (parseChunks ffRequestAlloc p).state = .receiving) ∧
    ∃ r₁ r₂ r₃, ffRequestVectorisePayload (garbage 0) (parseChunks ffRequestAlloc bufs) = .ok r₁ ∧
      ffDecryptRequest ssl (garbage 1) encryption r₁ = .ok r₂ ∧
      ffRequestParseOptionsFromPayload r₂ = .ok r₃ ∧
      r₃.state = .parsedOptions ∧ r₃.Carries options message

/-- Packets that convey a message give it back. -/
theorem Conveys.recovers {ssl : OpenSsl} {encryption : Option EncryptionConfig}
    {requestId : UInt64} {packets : List (List UInt8)} {header hidden : List OptionNode}
    {message : List UInt8}
    (h : Conveys ssl encryption requestId packets header hidden message) :
    Recovers ssl encryption packets (header ++ hidden) message := by
  intro garbage bufs hb
  obtain ⟨hreceived, hreceiving, _⟩ := h.exists_received hb
  obtain ⟨r₁, r₂, r₃, hjoin, hdecrypt, _, hparse, hstate, hcarries⟩ :=
    h.stages hb (.refl _) garbage
  exact ⟨hreceived, hreceiving, r₁, r₂, r₃, hjoin, hdecrypt, hparse, hstate, hcarries⟩

/-- The packets of the C client convey its message. -/
theorem messagePackets_conveys {ssl : OpenSsl} (hssl : ssl.RoundTrips)
    (env : ClientEnvironment) (config : ClientConfig) {m : List UInt8} (hm : m ≠ [])
    (hsize : (encodeOptions (clientPayloadOptions config.https env.now) false).length + m.length
      ≤ 65535)
    (hready : ∀ encryption, config.encryption = some encryption →
      EncryptionReady ssl encryption env.salt env.iv) :
    ∃ packets header, messagePackets ssl env config (.ofBytes m) = .ok (some packets) ∧
      (config.encryption = none ∧ header = [] ∨
        config.encryption ≠ none ∧ ∃ tag, header = clientCryptoOptions env.iv tag env.salt) ∧
      Conveys ssl config.encryption env.requestId packets header
        (clientPayloadOptions config.https env.now) m := by
  have hmax : ffRequestMaxOptions = 20 := rfl
  have hhidden : ∀ o ∈ clientPayloadOptions config.https env.now, o.IsData :=
    isData_clientPayloadOptions
  have hslots : (clientPayloadOptions config.https env.now).length ≤ 2 :=
    length_clientPayloadOptions
  have hplain : clientPlaintext config.https env.now m ≠ [] := clientPlaintext_ne_nil hm
  have hs : (clientPlaintext config.https env.now m).length < 65536 := by
    rw [clientPlaintext, List.length_append]
    omega
  obtain ⟨r, hv, hr⟩ := vectorise_clientRequest (env.garbage 0) config env.now m hs
  cases henc : config.encryption with
  | none =>
    have hclear : SealedAs ssl none [] (clientPlaintext config.https env.now m)
      (clientPlaintext config.https env.now m) := .clear _
    obtain ⟨packets, hrun, hconveys⟩ := exists_conveys env.requestId
      (closeOptions_carries hr config env.now) hclear hplain hm (by simp) hhidden
      (by rw [List.length_nil]; omega) (by decide)
    refine ⟨packets, [], ?_, Or.inl ⟨rfl, rfl⟩, hconveys⟩
    simp only [messagePackets, requestPackets, henc, hv, hrun, bind, Except.bind, pure, Except.pure]
  | some encryption =>
    obtain ⟨r', tag, ciphertext, he, hr', hopen⟩ :=
      ffClientEncryptRequest_of_ready hssl (env.garbage 1) (hready encryption henc) hr
    have hcipher : ciphertext ≠ [] := by
      rw [← List.length_pos_iff, hopen.length, List.length_pos_iff]
      exact hplain
    have hfive : (clientCryptoOptions env.iv tag env.salt).length = 5 := rfl
    obtain ⟨packets, hrun, hconveys⟩ := exists_conveys env.requestId
      (closeOptions_carries hr' config env.now)
      (.encrypted (.of_opens hopen) hopen.length.symm) hcipher hm isData_clientCryptoOptions
      hhidden (by omega) (by rw [length_encode_clientCryptoOptions]; decide)
    refine ⟨packets, _, ?_, Or.inr ⟨Option.some_ne_none _, tag, rfl⟩, hconveys⟩
    simp only [messagePackets, requestPackets, henc, hv, he, hrun, bind, Except.bind, pure,
      Except.pure]

/-- The proxy recovers every message that the client builds, with or without a key. -/
theorem roundTrip {ssl : OpenSsl} (hssl : ssl.RoundTrips) (env : ClientEnvironment)
    (config : ClientConfig) (m : List UInt8) (hm : m ≠ [])
    (hsize : (encodeOptions (clientPayloadOptions config.https env.now) false).length + m.length
      ≤ 65535)
    (hready : ∀ encryption, config.encryption = some encryption →
      EncryptionReady ssl encryption env.salt env.iv) :
    ∃ packets header, messagePackets ssl env config (.ofBytes m) = .ok (some packets) ∧
      (config.encryption = none → header = []) ∧
      (config.encryption ≠ none → ∃ tag, header = clientCryptoOptions env.iv tag env.salt) ∧
      Recovers ssl config.encryption packets
        (header ++ (if config.https then [.ofByte OptionType.https 1] else []) ++
          [timestampOption env.now.toNat]) m := by
  obtain ⟨packets, header, hmake, hheader, hconveys⟩ :=
    messagePackets_conveys hssl env config hm hsize hready
  refine ⟨packets, header, hmake, fun hnone ↦ ?_, fun hsome ↦ ?_, ?_⟩
  · obtain ⟨_, he⟩ | ⟨hsome, _⟩ := hheader
    · exact he
    · exact absurd hnone hsome
  · obtain ⟨hnone, _⟩ | ⟨_, he⟩ := hheader
    · exact absurd hnone hsome
    · exact he
  · have hrecovers := hconveys.recovers
    rwa [clientPayloadOptions, clientTimestamp_eq, ← List.append_assoc] at hrecovers

/-- Surroundings of a client run. -/
def sampleClientEnvironment : ClientEnvironment where
  now := 1700000000
  salt := ⟨List.replicate 16 5, rfl⟩
  iv := ⟨List.replicate 12 6, rfl⟩
  requestId := 9
  garbage _ _ := 0

/-- An encrypted request of the client comes back, message and options. -/
theorem roundTrip_sealed :
    ∃ packets header, messagePackets sampleSsl sampleClientEnvironment
        ⟨true, some ⟨[107], 1000⟩⟩ (.ofBytes [71, 69, 84]) = .ok (some packets) ∧
      (∃ tag, header = clientCryptoOptions sampleClientEnvironment.iv tag
        sampleClientEnvironment.salt) ∧
      Recovers sampleSsl (some ⟨[107], 1000⟩) packets
        (header ++ [.ofByte OptionType.https 1] ++ [timestampOption 1700000000]) [71, 69, 84] := by
  have hready : EncryptionReady sampleSsl ⟨[107], 1000⟩ sampleClientEnvironment.salt
      sampleClientEnvironment.iv :=
    ⟨_, rfl, rfl, fun _ ↦ ⟨rfl, rfl, rfl⟩⟩
  obtain ⟨packets, header, hmake, _, hheader, hrec⟩ := roundTrip sampleSsl_roundTrips
    sampleClientEnvironment ⟨true, some ⟨[107], 1000⟩⟩ [71, 69, 84] (by decide) (by decide)
    (by rintro _ ⟨⟩; exact hready)
  exact ⟨packets, header, hmake, hheader (by decide), hrec⟩

end FfProxy
