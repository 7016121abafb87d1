import FfProxy.Base.Simulation
import FfProxy.Crypto
import FfProxy.Http
import FfProxy.Parser.Reassembly

/-!
# The worker

`ff_proxy_process_request` and `ff_proxy_validate_request_timestamp`,
`src/server.c:207–288`: what a dispatched request passes before it is forwarded. The
time stamp scan runs backwards and overwrites, so the first 8-byte time stamp of the
list decides, and a value of 0 counts as none.
-/

namespace FfProxy
open Base

/-- The part of `struct ff_config` that a worker reads, `src/config.h:10–18`. -/
structure Config where
  timestampFudgeFactor : UInt16
  encryption : Option EncryptionConfig
  deriving DecidableEq, Repr

/-! ### Time stamps -/

/-- A TIMESTAMP option of 8 bytes. -/
def OptionNode.isTimestamp (o : OptionNode) : Bool :=
  decide (o.type = OptionType.timestamp) && decide (o.length = 8)

/-- What one option does to the `timestamp` variable, `src/server.c:272–276`. -/
def timestampAnswer (o : OptionNode) : Option UInt64 :=
  if o.isTimestamp then some (UInt64.ofNat (ntohll (leValue o.value))) else none

/-- `ff_proxy_validate_request_timestamp`, `src/server.c:262–288`, at the time `now`. -/
def ffProxyValidateRequestTimestamp (config : Config) (now : UInt64) (r : Request) : Bool :=
  let timestamp := scanBackward timestampAnswer 0 r.options
  if timestamp = 0 then true
  else
    let diff := if timestamp < now then now - timestamp else timestamp - now
    decide (diff ≤ config.timestampFudgeFactor.toUInt64)

private theorem timestampAnswer_toNat {o : OptionNode} (h : o.isTimestamp = true) :
    ∃ t, timestampAnswer o = some t ∧ t.toNat = beValue o.value := by
  refine ⟨UInt64.ofNat (ntohll (leValue o.value)), if_pos h, ?_⟩
  have hl : o.value.length = 8 := by
    rw [o.length_eq]
    simp only [OptionNode.isTimestamp, Bool.and_eq_true, decide_eq_true_eq] at h
    rw [h.2]
    rfl
  have hlt : beValue o.value < 2 ^ 64 := by
    have := beValue_lt o.value
    rwa [hl] at this
  rw [ntohll_leValue _ hl, UInt64.toNat_ofNat', Nat.mod_eq_of_lt hlt]

private theorem scanBackward_timestamp {os : List OptionNode} {first : OptionNode}
    (h : os.find? OptionNode.isTimestamp = some first) :
    (scanBackward timestampAnswer 0 os).toNat = beValue first.value := by
  obtain ⟨t, ht, hv⟩ := timestampAnswer_toNat (List.find?_some h)
  have hf : os.findSome? timestampAnswer = some t := by
    induction os with
    | nil => cases h
    | cons o os ih =>
      rw [List.find?_cons] at h
      rw [List.findSome?_cons]
      cases ho : o.isTimestamp with
      | false =>
        rw [ho] at h
        simp only [timestampAnswer, ho, Bool.false_eq_true, ↓reduceIte]
        exact ih h
      | true =>
        rw [ho] at h
        rw [Option.some.inj h, ht]
  rw [scanBackward_eq, hf, Option.getD_some, hv]

private theorem diff_toNat (now t : UInt64) :
    (if t < now then now - t else t - now).toNat = ((now.toNat : Int) - t.toNat).natAbs := by
  split
  · next h =>
    rw [UInt64.toNat_sub_of_le _ _ (UInt64.le_of_lt h)]
    have := UInt64.lt_iff_toNat_lt.mp h
    omega
  · next h =>
    have hle : now ≤ t := UInt64.not_lt.mp h
    rw [UInt64.toNat_sub_of_le _ _ hle]
    have := UInt64.le_iff_toNat_le.mp hle
    omega

/-- The check passes when the first 8-byte time stamp is 0 or close to the current time. -/
theorem ffProxyValidateRequestTimestamp_iff {config : Config} {now : UInt64} {r : Request}
    {first : OptionNode} (h : r.options.find? OptionNode.isTimestamp = some first) :
    ffProxyValidateRequestTimestamp config now r = true ↔
      beValue first.value = 0 ∨
        ((now.toNat : Int) - beValue first.value).natAbs ≤ config.timestampFudgeFactor.toNat := by
  have hv := scanBackward_timestamp h
  simp only [ffProxyValidateRequestTimestamp]
  generalize scanBackward timestampAnswer 0 r.options = t at hv
  rw [← hv]
  by_cases hz : t = 0
  · simp [hz]
  · have hz' : t.toNat ≠ 0 := fun h0 ↦ hz (UInt64.toNat_inj.mp h0)
    rw [if_neg hz, decide_eq_true_eq, UInt64.le_iff_toNat_le, diff_toNat, UInt16.toNat_toUInt64,
      or_iff_right hz']

/-- A request is refused whenever its last encrypted time stamp is outside the window
exactly when that stamp is not 0 and equals the first stamp of the whole option list. -/
theorem replayWindow_iff (r : Request) (header payload : List OptionNode) (last : OptionNode)
    (hr : r.options = header ++ payload)
    (hl : payload.reverse.find? OptionNode.isTimestamp = some last) :
    (∀ config now, ffProxyValidateRequestTimestamp config now r = true →
        ((now.toNat : Int) - beValue last.value).natAbs ≤ config.timestampFudgeFactor.toNat) ↔
      beValue last.value ≠ 0 ∧
        ∃ first, (header ++ payload).find? OptionNode.isTimestamp = some first ∧
          beValue first.value = beValue last.value := by
  obtain ⟨first, hf⟩ : ∃ first, (header ++ payload).find? OptionNode.isTimestamp = some first := by
    rw [← Option.isSome_iff_exists, List.find?_isSome]
    exact ⟨last, by simpa using Or.inr (List.mem_of_find?_eq_some hl), List.find?_some hl⟩
  have hval (config : Config) (now : UInt64) :
      ffProxyValidateRequestTimestamp config now r = true ↔ beValue first.value = 0 ∨
        ((now.toNat : Int) - beValue first.value).natAbs ≤ config.timestampFudgeFactor.toNat :=
    ffProxyValidateRequestTimestamp_iff (hr ▸ hf)
  constructor
  · intro h
    -- A clock that stands at the first stamp, with no leeway, forces the two to agree.
    have hlt : beValue first.value < 2 ^ 64 := by
      obtain ⟨t, _, ht⟩ := timestampAnswer_toNat (List.find?_some hf)
      rw [← ht]
      exact t.toNat_lt
    have hclock : (UInt64.ofNat (beValue first.value)).toNat = beValue first.value := by
      rw [UInt64.toNat_ofNat', Nat.mod_eq_of_lt hlt]
    have heq : beValue first.value = beValue last.value := by
      have := h ⟨0, none⟩ (UInt64.ofNat (beValue first.value))
        ((hval _ _).mpr (Or.inr (by rw [hclock]; simp)))
      rw [hclock] at this
      simp only [UInt16.toNat_zero] at this
      omega
    refine ⟨fun h0 ↦ ?_, first, hf, heq⟩
    -- A zero stamp passes at any time, for example at 1.
    have := h ⟨0, none⟩ 1 ((hval _ _).mpr (Or.inl (heq.trans h0)))
    rw [h0] at this
    exact absurd this (by decide)
  · rintro ⟨hne, first', hf', heq⟩ config now hvalid
    obtain rfl : first = first' := Option.some.inj (hf.symm.trans hf')
    rcases (hval config now).mp hvalid with h0 | hle
    · exact absurd (heq ▸ h0) hne
    · rw [← heq]
      exact hle

/-- A request with one clear time stamp and one at the start of its payload. -/
def sampleStampedRequest (clear encrypted : Nat) : Request :=
  { ffRequestAlloc with
    options := [timestampOption clear]
    payloadContainsOptions := true
    payloadLength := 15
    payload := [⟨0, 15, [8, 0, 8] ++ beBytes 8 encrypted ++ [0, 0, 0, 71], by simp⟩] }

/-- A request with the stamp 1000 in its header and in its payload is accepted at 1010, inside the
window of both. -/
theorem replayWindow_equal_stamps :
    ∃ r, ffRequestParseOptionsFromPayload (sampleStampedRequest 1000 1000) = .ok r ∧
      r.options = [timestampOption 1000] ++ [timestampOption 1000] ∧
      ffProxyValidateRequestTimestamp ⟨30, none⟩ 1010 r = true ∧
      (((1010 : UInt64).toNat : Int) - beValue (timestampOption 1000).value).natAbs ≤
        (30 : UInt16).toNat := by
  obtain ⟨r, hr, hoptions, hvalid⟩ : ∃ r,
      ffRequestParseOptionsFromPayload (sampleStampedRequest 1000 1000) = .ok r ∧
        r.options = [timestampOption 1000] ++ [timestampOption 1000] ∧
        ffProxyValidateRequestTimestamp ⟨30, none⟩ 1010 r = true :=
    ⟨_, rfl, by decide, by decide⟩
  refine ⟨r, hr, hoptions, hvalid, ?_⟩
  exact (replayWindow_iff r _ _ (timestampOption 1000) hoptions (by decide)).mpr
    ⟨by decide, timestampOption 1000, by decide, rfl⟩ ⟨30, none⟩ 1010 hvalid

/-- A request stamped 1 and replayed at 1000 passes a window of 30 seconds once a clear time
stamp of 1000 is put in its header. -/
theorem replayWindow_bypassed :
    ∃ r, ffRequestParseOptionsFromPayload (sampleStampedRequest 1000 1) = .ok r ∧
      r.state = .parsedOptions ∧
      r.options = [timestampOption 1000] ++ [timestampOption 1] ∧
      ffProxyValidateRequestTimestamp ⟨30, none⟩ 1000 r = true ∧
      ¬ (((1000 : UInt64).toNat : Int) - beValue (timestampOption 1).value).natAbs ≤
        (30 : UInt16).toNat :=
  ⟨_, rfl, by decide, by decide, by decide, by decide⟩

/-! ### The worker -/

/-- What a worker finds outside: OpenSSL, the network, the clock, and the contents of fresh
memory, one block for each allocation. -/
structure Environment where
  ssl : OpenSsl
  upstream : Upstream
  now : UInt64
  garbage : Nat → Nat → UInt8

/-- An environment in which everything succeeds. -/
def sampleEnvironment : Environment :=
  ⟨sampleSsl, ⟨fun _ ↦ some [], fun _ _ ↦ true, fun _ _ ↦ true⟩, 0, fun _ _ ↦ 0⟩

/-- What a worker leaves: the request it releases, and the request as it was handed to
`ff_http_send_request`, if it came to that. -/
structure Processed where
  request : Request
  forwarded : Option Request

/-- Whether a worker came to forward its request. -/
def isForwarded : Except Fault Processed → Bool
  | .error _ => false
  | .ok p => p.forwarded.isSome

/-- `ff_proxy_process_request` up to its cleanup label, `src/server.c:207–250`. -/
def ffProxyProcessRequest (env : Environment) (config : Config) (r : Request) :
    Except Fault Processed := do
  let r ← ffRequestVectorisePayload (env.garbage 0) r
  let r ← ffDecryptRequest env.ssl (env.garbage 1) config.encryption r
  if r.state ≠ .decrypted then return ⟨r, none⟩
  let r ← ffRequestParseOptionsFromPayload r
  if r.state ≠ .parsedOptions then return ⟨r, none⟩
  if ffProxyValidateRequestTimestamp config env.now r then
    return ⟨ffHttpSendRequest env.upstream r, some r⟩
  else return ⟨r, none⟩

/-- A forwarded request has passed every stage. -/
theorem stages_of_forwarded {env : Environment} {config : Config} {r q : Request} {p : Processed}
    (h : ffProxyProcessRequest env config r = .ok p) (hq : p.forwarded = some q) :
    ∃ r₁ r₂, ffRequestVectorisePayload (env.garbage 0) r = .ok r₁ ∧
      ffDecryptRequest env.ssl (env.garbage 1) config.encryption r₁ = .ok r₂ ∧
      r₂.state = .decrypted ∧ ffRequestParseOptionsFromPayload r₂ = .ok q ∧
      q.state = .parsedOptions ∧ ffProxyValidateRequestTimestamp config env.now q = true := by
  obtain ⟨r₁, h₁, h⟩ := bind_eq_ok h
  obtain ⟨r₂, h₂, h⟩ := bind_eq_ok h
  split at h
  · obtain rfl := Except.ok.inj h
    cases hq
  · next hd =>
    obtain ⟨r₃, h₃, h⟩ := bind_eq_ok h
    split at h
    · obtain rfl := Except.ok.inj h
      cases hq
    · next hp =>
      split at h
      · next hv =>
        obtain rfl := Except.ok.inj h
        obtain rfl := Option.some.inj hq
        exact ⟨r₁, r₂, h₁, h₂, not_not.mp hd, h₃, not_not.mp hp, hv⟩
      · obtain rfl := Except.ok.inj h
        cases hq

end FfProxy
