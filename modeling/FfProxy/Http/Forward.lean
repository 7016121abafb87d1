import FfProxy.Http
import FfProxy.Http.Response

/-!
# Forwarding over a network

`ff_http_send_request` with its two ways to send, `src/http.c:21–376`, over a network that may
refuse any step of the setup, take any part of what a write offers, and fail at any call. The
state that the request is left in says the same in all cases, so it means that the payload was
sent only if the host was found and the network took all of it.
-/

namespace FfProxy
open Base

/-- The calls that set up a connection and may fail: the three of `src/http.c:106–140` for a
plain connection and those of `src/http.c:227–329` for TLS. -/
inductive SetupStep
  | lookup
  | socket
  | connect
  | sslMethod
  | sslContext
  | sslConnection
  | sslPort
  | sslSession
  | sslCiphers
  | sslServerName
  | sslHostValidation
  | sslConnect
  | sslHandshake
  | sslCertificate
  | sslVerifyResult
  deriving DecidableEq, Repr

/-- The setup of each transport in the order of the source. -/
def setupSteps : Transport → List SetupStep
  | .unencrypted => [.lookup, .socket, .connect]
  | .tls => [.sslMethod, .sslContext, .sslConnection, .sslPort, .sslSession, .sslCiphers,
      .sslServerName, .sslHostValidation, .sslConnect, .sslHandshake, .sslCertificate,
      .sslVerifyResult]

/-- The network: which steps of the setup succeed, how many bytes each write takes at most, what
each read returns, and the answers of `BIO_should_retry`. A call that returns −1 is `none`. -/
structure Network where
  succeeds : SetupStep → Bool
  write : Nat → Option Nat
  read : Nat → Option (List UInt8)
  shouldRetry : Nat → Bool

/-- The state of a write loop: the count and what the network has taken so far. -/
structure WriteState where
  sent : Nat
  accepted : List UInt8

/-- The state in front of the loop. -/
def WriteState.start : WriteState := ⟨0, []⟩

/-- What a write loop leaves. Only the one over a plain connection fails with a write. -/
structure Written where
  accepted : List UInt8
  failed : Bool

/-- One round of the write loop over a plain connection, `src/http.c:142–158`. The count has 32
bits. -/
def plainWriteRound (write : Nat → Option Nat) (value : List UInt8) (payloadLength : Nat)
    (call : Nat) (s : WriteState) : Except Fault (Turn WriteState Written) :=
  if value.length < s.sent + (payloadLength - s.sent) then .error .outOfBounds
  else
    match write call with
    | none => .ok (.done ⟨s.accepted, true⟩)
    | some room =>
      let chunk := min room (payloadLength - s.sent)
      if chunk = 0 then .ok (.done ⟨s.accepted, false⟩)
      else
        let sent := (s.sent + chunk) % 2 ^ 32
        let accepted := s.accepted ++ slice value s.sent chunk
        if sent < payloadLength then .ok (.again ⟨sent, accepted⟩)
        else .ok (.done ⟨accepted, false⟩)

/-- The size that `BIO_write` is given, `src/http.c:333`: `payload_length - sent` as an `int`;
nothing is offered if it is negative. -/
def tlsOffered (payloadLength sent : Nat) : Nat :=
  (((payloadLength : Int) - sent).bmod (2 ^ 32)).toNat

/-- One round of the write loop over TLS, `src/http.c:331–335`. It ends when nothing is taken. -/
def tlsWriteRound (write : Nat → Option Nat) (value : List UInt8) (payloadLength : Nat)
    (call : Nat) (s : WriteState) : Except Fault (Turn WriteState Written) :=
  if value.length < s.sent + tlsOffered payloadLength s.sent then .error .outOfBounds
  else
    match write call with
    | none => .ok (.done ⟨s.accepted, false⟩)
    | some room =>
      let chunk := min room (tlsOffered payloadLength s.sent)
      if chunk = 0 then .ok (.done ⟨s.accepted, false⟩)
      else .ok (.again ⟨s.sent + chunk, s.accepted ++ slice value s.sent chunk⟩)

/-- What a send function leaves: the bytes that the network took, and its return value. -/
structure SendResult where
  accepted : List UInt8
  success : Bool

/-- `ff_http_send_request_unencrypted`, `src/http.c:83–210`, for at most `fuel` rounds of each
loop. Of the search for the end of the first line the result is only logged. -/
def ffHttpSendRequestUnencrypted (net : Network) (fuel : Nat) (value : List UInt8)
    (payloadLength : Nat) : Except Fault SendResult :=
  if (setupSteps .unencrypted).all net.succeeds then do
    let written ← runLoop (plainWriteRound net.write value payloadLength) .divergence fuel 0 .start
    if written.failed then .ok ⟨written.accepted, false⟩
    else do
      let received ← runLoop (plainReadRound net.read) .divergence fuel 0 .start
      match received with
      | none => return ⟨written.accepted, false⟩
      | some response => do
        let _ ← strchr 10 response.val
        return ⟨written.accepted, true⟩
  else .ok ⟨[], false⟩

/-- `ff_http_send_request_tls`, `src/http.c:212–376`, for at most `fuel` rounds of each loop. -/
def ffHttpSendRequestTls (net : Network) (fuel : Nat) (value : List UInt8)
    (payloadLength : Nat) : Except Fault SendResult :=
  if (setupSteps .tls).all net.succeeds then do
    let written ← runLoop (tlsWriteRound net.write value payloadLength) .divergence fuel 0 .start
    let response ← runLoop (tlsReadRound net.read net.shouldRetry) .divergence fuel 0 .start
    let _ ← strchr 10 response.val
    return ⟨written.accepted, true⟩
  else .ok ⟨[], false⟩

/-- The way to send that a transport stands for, `src/http.c:48–55`. -/
def sendOver (net : Network) (fuel : Nat) (value : List UInt8) (payloadLength : Nat) :
    Transport → Except Fault SendResult
  | .tls => ffHttpSendRequestTls net fuel value payloadLength
  | .unencrypted => ffHttpSendRequestUnencrypted net fuel value payloadLength

/-- A forwarded request, the host that was found for it and the bytes that the network took. -/
structure Forwarded where
  request : Request
  host : Option (List UInt8)
  accepted : List UInt8

/-- The outcome of the search and of the chosen way to send, as `ff_http_send_request` sees
them. -/
def upstreamOf (host : Option (List UInt8)) (success : Bool) : Upstream :=
  ⟨fun _ ↦ host, fun _ _ ↦ success, fun _ _ ↦ success⟩

/-- `ff_http_send_request`, `src/http.c:21–81`, over a network. -/
def ffHttpForward (net : Network) (fuel : Nat) (r : Request) : Except Fault Forwarded :=
  match r.payload with
  | [] => .error .nullDereference
  | node :: _ => do
    let host ← ffHttpGetDestinationHost r
    match host with
    | none => return ⟨ffHttpSendRequest (upstreamOf none false) r, none, []⟩
    | some hostName =>
      let result ← sendOver net fuel node.value r.payloadLength.toNat (ffHttpTransport r.options)
      return ⟨ffHttpSendRequest (upstreamOf host result.success) r, some hostName,
        result.accepted⟩

/-- The payload of a request. -/
def Request.payloadBytes (r : Request) : List UInt8 :=
  match r.payload with
  | [] => []
  | node :: _ => node.value.take r.payloadLength.toNat

/-- A request that is left in a state that counts as SENT has been sent. -/
def SentMeansSent (r : Request) (f : Forwarded) : Prop :=
  f.request.state = .sent → (∃ hostName, f.host = some hostName) ∧ f.accepted = r.payloadBytes

/-- From call `call` on the writes take `n` bytes before one takes nothing or fails. -/
inductive Takes (write : Nat → Option Nat) : Nat → Nat → Prop
  | all (call : Nat) : Takes write call 0
  | more {call n room : Nat} (hwrite : write call = some room) (hroom : 0 < room)
      (hrest : Takes write (call + 1) (n - room)) : Takes write call n

/-- The largest payload that the counters of a transport can follow. -/
def payloadLimit : Transport → Nat
  | .unencrypted => 2 ^ 32
  | .tls => 2 ^ 31

/-- The host can be found, the connection can be set up, and the network takes a payload that
the transport can count. -/
structure Delivers (net : Network) (r : Request) : Prop where
  host : ∃ hostName, ffHttpGetDestinationHost r = .ok (some hostName)
  setup : ∀ step ∈ setupSteps (ffHttpTransport r.options), net.succeeds step = true
  length : r.payloadLength.toNat < payloadLimit (ffHttpTransport r.options)
  takes : Takes net.write 0 r.payloadLength.toNat

/-! ### The write loops -/

section Writes

variable {write : Nat → Option Nat} {value : List UInt8} {payloadLength call n room : Nat}

/-- What is left to take behind a write that takes something. -/
theorem takes_iff_of_write (hn : 0 < n) (hwrite : write call = some room) (hroom : 0 < room) :
    Takes write call n ↔ Takes write (call + 1) (n - min room n) := by
  have hmin : n - min room n = n - room := by omega
  rw [hmin]
  constructor
  · intro h
    cases h with
    | all => exact absurd hn (Nat.lt_irrefl 0)
    | more hwrite' _ hrest =>
      obtain rfl := Option.some.inj (hwrite.symm.trans hwrite')
      exact hrest
  · exact fun h ↦ .more hwrite hroom h

/-- A write that takes nothing or fails is the last one. -/
theorem not_takes_of_write (hn : 0 < n) (hwrite : ∀ room, write call = some room → room = 0) :
    ¬ Takes write call n := by
  intro h
  cases h with
  | all => exact Nat.lt_irrefl 0 hn
  | more hwrite' hroom _ => exact absurd (hwrite _ hwrite') (Nat.ne_of_gt hroom)

/-- At each round the network has taken the payload up to the count, and it takes the whole if
it takes the rest from there on. -/
structure WriteProgress (write : Nat → Option Nat) (value : List UInt8) (payloadLength call : Nat)
    (s : WriteState) : Prop where
  le : s.sent ≤ payloadLength
  accepted : s.accepted = value.take s.sent
  takes : Takes write 0 payloadLength ↔ Takes write call (payloadLength - s.sent)

/-- The network has taken the payload exactly if it takes all of it. -/
def TookAll (write : Nat → Option Nat) (value : List UInt8) (payloadLength : Nat)
    (w : Written) : Prop :=
  w.accepted = value.take payloadLength ↔ Takes write 0 payloadLength

theorem writeProgress_start (payloadLength : Nat) :
    WriteProgress write value payloadLength 0 .start :=
  ⟨Nat.zero_le _, rfl, Iff.rfl⟩

/-- A write that takes something makes progress. -/
theorem WriteProgress.next {s : WriteState} (h : WriteProgress write value payloadLength call s)
    (hwrite : write call = some room) (hpos : 0 < min room (payloadLength - s.sent)) :
    WriteProgress write value payloadLength (call + 1)
      ⟨s.sent + min room (payloadLength - s.sent),
        s.accepted ++ slice value s.sent (min room (payloadLength - s.sent))⟩ where
  le := by
    have hle := h.le
    dsimp only
    omega
  accepted := by rw [h.accepted, slice, ← List.take_add]
  takes := by
    dsimp only
    rw [h.takes, takes_iff_of_write (by omega) hwrite (by omega), Nat.sub_sub]

/-- A write that takes nothing or fails ends the loop with the payload taken only if nothing was
left. -/
theorem WriteProgress.stop {s : WriteState} (h : WriteProgress write value payloadLength call s)
    (hvalue : payloadLength ≤ value.length)
    (hwrite : ∀ room, write call = some room → min room (payloadLength - s.sent) = 0)
    (failed : Bool) : TookAll write value payloadLength ⟨s.accepted, failed⟩ := by
  have hle := h.le
  rw [TookAll, h.takes, h.accepted]
  rcases Nat.eq_or_lt_of_le hle with heq | hlt
  · rw [heq, Nat.sub_self]
    exact iff_of_true rfl (.all call)
  · refine iff_of_false (fun htaken ↦ ?_) (not_takes_of_write (by omega) fun room hroom ↦ ?_)
    · have hlength := congrArg List.length htaken
      rw [List.length_take, List.length_take] at hlength
      omega
    · have := hwrite room hroom
      omega

theorem WriteProgress.stop_of_none {s : WriteState}
    (h : WriteProgress write value payloadLength call s) (hvalue : payloadLength ≤ value.length)
    (hwrite : write call = none) (failed : Bool) :
    TookAll write value payloadLength ⟨s.accepted, failed⟩ := by
  apply h.stop hvalue
  intro room hroom
  rw [hwrite] at hroom
  cases hroom

theorem WriteProgress.stop_of_zero {s : WriteState}
    (h : WriteProgress write value payloadLength call s) (hvalue : payloadLength ≤ value.length)
    (hwrite : write call = some room) (hzero : min room (payloadLength - s.sent) = 0)
    (failed : Bool) : TookAll write value payloadLength ⟨s.accepted, failed⟩ := by
  apply h.stop hvalue
  intro room' hroom
  rwa [← Option.some.inj (hwrite.symm.trans hroom)]

/-- Once the count has reached the length the network has taken the payload. -/
theorem WriteProgress.complete {s : WriteState}
    (h : WriteProgress write value payloadLength call s) (hsent : s.sent = payloadLength)
    (failed : Bool) : TookAll write value payloadLength ⟨s.accepted, failed⟩ := by
  rw [TookAll, h.takes, h.accepted, hsent, Nat.sub_self]
  exact iff_of_true rfl (.all call)

/-- A round that goes on has made progress, and one that ends says whether the network takes the
payload. -/
def WriteTurn (write : Nat → Option Nat) (value : List UInt8) (payloadLength call : Nat) :
    Turn WriteState Written → Prop
  | .again s => WriteProgress write value payloadLength (call + 1) s
  | .done w => TookAll write value payloadLength w

/-- Every round over a plain connection is one of these. -/
theorem plainWriteRound_turn (hn : payloadLength < 2 ^ 32) {s : WriteState}
    {turn : Turn WriteState Written} (h : WriteProgress write value payloadLength call s)
    (hround : plainWriteRound write value payloadLength call s = .ok turn) :
    WriteTurn write value payloadLength call turn := by
  have hle := h.le
  unfold plainWriteRound at hround
  split at hround
  · cases hround
  next hvalue =>
    have hlength : payloadLength ≤ value.length := by omega
    split at hround
    · next hwrite =>
      cases hround
      exact h.stop_of_none hlength hwrite true
    · next room hwrite =>
      dsimp only at hround
      split at hround
      · next hzero =>
        cases hround
        exact h.stop_of_zero hlength hwrite hzero false
      · next hpos =>
        -- Below 4 GiB the count does not wrap.
        have hnext := h.next hwrite (Nat.pos_of_ne_zero hpos)
        have hnextle := hnext.le
        dsimp only at hnextle
        rw [Nat.mod_eq_of_lt (by omega)] at hround
        split at hround
        · cases hround
          exact hnext
        · next hend =>
          cases hround
          exact hnext.complete (Nat.le_antisymm hnextle (Nat.not_lt.mp hend)) false

/-- Below 2 GiB TLS is offered what is left. -/
theorem tlsOffered_eq {sent : Nat} (hn : payloadLength < 2 ^ 31) (hle : sent ≤ payloadLength) :
    tlsOffered payloadLength sent = payloadLength - sent := by
  rw [tlsOffered, Int.bmod_eq_of_le (by omega) (by omega)]
  omega

/-- Every round over TLS is one of these. -/
theorem tlsWriteRound_turn (hn : payloadLength < 2 ^ 31) {s : WriteState}
    {turn : Turn WriteState Written} (h : WriteProgress write value payloadLength call s)
    (hround : tlsWriteRound write value payloadLength call s = .ok turn) :
    WriteTurn write value payloadLength call turn := by
  have hle := h.le
  unfold tlsWriteRound at hround
  rw [tlsOffered_eq hn hle] at hround
  split at hround
  · cases hround
  next hvalue =>
    have hlength : payloadLength ≤ value.length := by omega
    split at hround
    · next hwrite =>
      cases hround
      exact h.stop_of_none hlength hwrite false
    · next room hwrite =>
      dsimp only at hround
      split at hround
      · next hzero =>
        cases hround
        exact h.stop_of_zero hlength hwrite hzero false
      · next hpos =>
        cases hround
        exact h.next hwrite (Nat.pos_of_ne_zero hpos)

/-- A loop whose rounds are of this kind says whether the network takes the payload. -/
theorem tookAll_of_rounds {round : Nat → WriteState → Except Fault (Turn WriteState Written)}
    {fuel : Nat} {w : Written}
    (hround : ∀ call s turn, WriteProgress write value payloadLength call s →
      round call s = .ok turn → WriteTurn write value payloadLength call turn)
    (h : runLoop round .divergence fuel 0 .start = .ok w) :
    TookAll write value payloadLength w :=
  runLoop_post h (writeProgress_start payloadLength) (fun _ _ _ hs heq ↦ hround _ _ _ hs heq)
    (fun _ _ _ hs heq ↦ hround _ _ _ hs heq)

/-- From 2 GiB on TLS is offered nothing at first. -/
theorem tlsWrites_nothing (hn : 2 ^ 31 ≤ payloadLength) (hlt : payloadLength < 2 ^ 32)
    {fuel : Nat} {w : Written}
    (h : runLoop (tlsWriteRound write value payloadLength) .divergence fuel 0 .start = .ok w) :
    w.accepted = [] := by
  have hoffered : tlsOffered payloadLength 0 = 0 := by
    rw [tlsOffered]
    have hneg : ((payloadLength : Int) - (0 : Nat)).bmod (2 ^ 32) =
        (payloadLength : Int) - 2 ^ 32 := by
      rw [Int.bmod_def]
      omega
    omega
  have hstay : ∀ call turn, tlsWriteRound write value payloadLength call .start = .ok turn →
      ∃ w, turn = .done w ∧ w.accepted = [] := by
    intro call turn hround
    unfold tlsWriteRound at hround
    rw [WriteState.start, hoffered] at hround
    dsimp only at hround
    split at hround
    · cases hround
    split at hround
    · cases hround
      exact ⟨_, rfl, rfl⟩
    · rw [Nat.min_zero, if_pos rfl] at hround
      cases hround
      exact ⟨_, rfl, rfl⟩
  refine runLoop_post (I := fun _ s ↦ s = .start) (Q := fun w ↦ w.accepted = []) h rfl ?_ ?_
  · rintro call _ s' rfl heq
    obtain ⟨_, hturn, _⟩ := hstay call _ heq
    cases hturn
  · rintro call _ w rfl heq
    obtain ⟨_, hturn, hnone⟩ := hstay call _ heq
    cases hturn
    exact hnone

end Writes

/-! ### Sending and forwarding -/

section Send

variable {net : Network} {fuel : Nat} {value : List UInt8} {payloadLength : Nat}
  {result : SendResult}

/-- What a transport that is set up hands to the network comes from its write loop. -/
theorem sendOver_written {t : Transport} (h : sendOver net fuel value payloadLength t = .ok result)
    (hsetup : (setupSteps t).all net.succeeds = true) (hlimit : payloadLength < payloadLimit t) :
    result.accepted = value.take payloadLength ↔ Takes net.write 0 payloadLength := by
  cases t with
  | tls =>
    rw [sendOver, ffHttpSendRequestTls, if_pos hsetup] at h
    obtain ⟨written, hwritten, h⟩ := bind_eq_ok h
    obtain ⟨_, _, h⟩ := bind_eq_ok h
    obtain ⟨_, _, h⟩ := bind_eq_ok h
    cases h
    exact tookAll_of_rounds (fun _ _ _ ↦ tlsWriteRound_turn hlimit) hwritten
  | unencrypted =>
    rw [sendOver, ffHttpSendRequestUnencrypted, if_pos hsetup] at h
    obtain ⟨written, hwritten, h⟩ := bind_eq_ok h
    have htook : TookAll net.write value payloadLength written :=
      tookAll_of_rounds (fun _ _ _ ↦ plainWriteRound_turn hlimit) hwritten
    split at h
    · cases h
      exact htook
    · obtain ⟨received, _, h⟩ := bind_eq_ok h
      cases received with
      | none =>
        cases h
        exact htook
      | some response =>
        obtain ⟨_, _, h⟩ := bind_eq_ok h
        cases h
        exact htook

/-- A transport that is not set up hands nothing to the network, nor does one that is offered a
payload it cannot count. -/
theorem sendOver_nothing {t : Transport} (h : sendOver net fuel value payloadLength t = .ok result)
    (hlt : payloadLength < 2 ^ 32)
    (hfails : (setupSteps t).all net.succeeds = false ∨ payloadLimit t ≤ payloadLength) :
    result.accepted = [] := by
  cases t with
  | tls =>
    rw [sendOver, ffHttpSendRequestTls] at h
    split at h
    · next hsetup =>
      obtain ⟨written, hwritten, h⟩ := bind_eq_ok h
      obtain ⟨_, _, h⟩ := bind_eq_ok h
      obtain ⟨_, _, h⟩ := bind_eq_ok h
      cases h
      refine tlsWrites_nothing (hfails.resolve_left ?_) hlt hwritten
      exact fun hfalse ↦ Bool.false_ne_true (hfalse.symm.trans hsetup)
    · cases h
      rfl
  | unencrypted =>
    rw [sendOver, ffHttpSendRequestUnencrypted] at h
    split at h
    · next hsetup =>
      refine absurd (hfails.resolve_left ?_) (Nat.not_le.mpr hlt)
      exact fun hfalse ↦ Bool.false_ne_true (hfalse.symm.trans hsetup)
    · cases h
      rfl

/-- A run that found no host has handed nothing to the network, and another one is left with what
its transport did. -/
theorem ffHttpForward_cases {r : Request} {f : Forwarded} (h : ffHttpForward net fuel r = .ok f) :
    f.request.state = .sent ∧
      (ffHttpGetDestinationHost r = .ok none ∧ f.host = none ∨
        ∃ node rest hostName result, r.payload = node :: rest ∧
          ffHttpGetDestinationHost r = .ok (some hostName) ∧ f.host = some hostName ∧
          sendOver net fuel node.value r.payloadLength.toNat (ffHttpTransport r.options) =
            .ok result ∧ f.accepted = result.accepted) := by
  unfold ffHttpForward at h
  split at h
  · cases h
  next node rest hp =>
    obtain ⟨host, hhost, h⟩ := bind_eq_ok h
    cases host with
    | none =>
      cases h
      exact ⟨congrArg Request.state (ffHttpSendRequest_eq _ _), .inl ⟨hhost, rfl⟩⟩
    | some hostName =>
      obtain ⟨result, hresult, h⟩ := bind_eq_ok h
      cases h
      exact ⟨congrArg Request.state (ffHttpSendRequest_eq _ _),
        .inr ⟨node, rest, hostName, result, hp, hhost, rfl, hresult, rfl⟩⟩

/-- No host is found in a payload of length 0. -/
private theorem scanPayload_zero (mem hostName : List UInt8) :
    scanPayload mem 0 ≠ .ok hostName := by
  intro h
  rw [scanPayload, if_pos rfl] at h
  obtain ⟨_, hconsumed, _⟩ := bind_eq_ok h
  unfold consumed at hconsumed
  cases hconsumed

/-- No host is found in an empty block. -/
private theorem scanPayload_nil (n : Nat) (hostName : List UInt8) :
    scanPayload [] n ≠ .ok hostName := by
  intro h
  by_cases hn : n = 0
  · exact scanPayload_zero [] hostName (hn ▸ h)
  rw [scanPayload, if_neg hn, hostHeaderMaxSearchLength] at h
  obtain ⟨ended, hended, h⟩ := bind_eq_ok h
  rw [endsHeaders, if_neg (fun hlater ↦ hlater.2 rfl)] at hended
  cases hended
  obtain ⟨found, hfound, h⟩ := bind_eq_ok h
  rw [startsHost] at hfound
  split at hfound
  · cases hfound
  · cases hfound
    obtain ⟨_, hnext, _⟩ := bind_eq_ok h
    cases hnext

/-- A host is found in a payload that is there. -/
theorem payloadBytes_ne_nil {r : Request} {hostName : List UInt8}
    (h : ffHttpGetDestinationHost r = .ok (some hostName)) : r.payloadBytes ≠ [] := by
  cases hp : r.payload with
  | nil =>
    rw [ffHttpGetDestinationHost, hp] at h
    cases h
  | cons node rest =>
    rw [ffHttpGetDestinationHost_eq_some_iff hp] at h
    rw [Request.payloadBytes, hp]
    intro hnil
    rcases List.take_eq_nil_iff.mp hnil with hzero | hempty
    · rw [hzero] at h
      exact scanPayload_zero _ _ h
    · rw [hempty] at h
      exact scanPayload_nil _ _ h

end Send

/-- On every run that returns, a network that delivers the payload leaves a request that counts
as SENT sent, and below 4 GiB no other network does. -/
theorem sentMeansSent_iff (net : Network) (fuel : Nat) (r : Request) (f : Forwarded)
    (hrun : ffHttpForward net fuel r = .ok f) :
    (Delivers net r → SentMeansSent r f) ∧
      (r.payloadLength.toNat < 2 ^ 32 → SentMeansSent r f → Delivers net r) := by
  obtain ⟨hstate, hcases⟩ := ffHttpForward_cases hrun
  constructor
  · rintro ⟨⟨hostName, hhost⟩, hsetup, hlimit, htakes⟩ _
    obtain ⟨hnone, _⟩ | ⟨node, rest, found, result, hp, hfound, hf, hsend, haccepted⟩ := hcases
    · cases hnone.symm.trans hhost
    · refine ⟨⟨found, hf⟩, ?_⟩
      rw [haccepted, Request.payloadBytes, hp]
      exact (sendOver_written hsend (List.all_eq_true.mpr hsetup) hlimit).mpr htakes
  · intro hlt hsent
    obtain ⟨⟨hostName, hf⟩, hall⟩ := hsent hstate
    obtain ⟨_, hnone⟩ | ⟨node, rest, found, result, hp, hfound, _, hsend, haccepted⟩ := hcases
    · cases hnone.symm.trans hf
    have hne : result.accepted ≠ [] := by
      rw [← haccepted, hall]
      exact payloadBytes_ne_nil hfound
    have hsetup : (setupSteps (ffHttpTransport r.options)).all net.succeeds = true := by
      by_contra hfails
      exact hne (sendOver_nothing hsend hlt (.inl (Bool.eq_false_iff.mpr hfails)))
    have hlimit : r.payloadLength.toNat < payloadLimit (ffHttpTransport r.options) := by
      by_contra hlong
      exact hne (sendOver_nothing hsend hlt (.inr (Nat.not_lt.mp hlong)))
    refine ⟨⟨found, hfound⟩, List.all_eq_true.mp hsetup, hlimit, ?_⟩
    refine (sendOver_written hsend hsetup hlimit).mp ?_
    rw [← haccepted, hall, Request.payloadBytes, hp]

/-- A request for the host `a`. -/
def sampleForwarded : Request := holding (ascii ['H', 'o', 's', 't', ':', 'a', '\n'])

/-- A network that takes four bytes with each write and closes the connection. -/
def sampleNetwork : Network := ⟨fun _ ↦ true, fun _ ↦ some 4, fun _ ↦ some [], fun _ ↦ false⟩

/-- A network in which every write fails. -/
def sampleBrokenNetwork : Network := ⟨fun _ ↦ true, fun _ ↦ none, fun _ ↦ none, fun _ ↦ false⟩

/-- Two writes that take four bytes at most take the sample. -/
theorem sentMeansSent_partial_writes :
    ∃ f, ffHttpForward sampleNetwork 3 sampleForwarded = .ok f ∧
      SentMeansSent sampleForwarded f := by
  refine ⟨_, rfl, (sentMeansSent_iff sampleNetwork 3 sampleForwarded _ rfl).1
    ⟨⟨ascii ['a'], rfl⟩, fun _ _ ↦ rfl, by decide, ?_⟩⟩
  exact .more rfl (by decide) (.more rfl (by decide) (.all 2))

/-- If the write fails, nothing is sent, but the request is left in the state SENT. -/
theorem not_sentMeansSent_failed_write :
    ∃ f, ffHttpForward sampleBrokenNetwork 3 sampleForwarded = .ok f ∧
      f.request.state = .sent ∧ f.accepted = [] ∧ ¬ SentMeansSent sampleForwarded f := by
  refine ⟨_, rfl, rfl, rfl, fun hsent ↦ ?_⟩
  exact absurd (hsent rfl).2 (by decide)

end FfProxy
