import FfProxy.Base.Loop
import FfProxy.Http.DestinationHost

/-!
# Reading the response

The loops of `src/http.c:162–183` and `src/http.c:339–349` that read the response of the
destination into a buffer of 4096 bytes. The one over a plain connection looks at the result of
`recv` before it counts it. The one over TLS counts the −1 of a failed `BIO_read` and reads again
if `BIO_should_retry` says so, so its count can fall below 0. Behind both loops `strchr` looks for
the end of the first line of the response. A plain connection leaves the last byte of the buffer
free, so the search ends in the buffer; over TLS the response may fill it.
-/

namespace FfProxy
open Base

/-- `FF_HTTP_RESPONSE_BUFF_SIZE`, `src/http_p.h:8`. -/
def responseBuffSize : Nat := 4096

/-- The buffer of the response. -/
abbrev ResponseBuffer := Block responseBuffSize

/-- The buffer as it is initialised. -/
def ResponseBuffer.zero : ResponseBuffer :=
  ⟨List.replicate responseBuffSize 0, List.length_replicate⟩

/-- Store what a read returned; `none` if it leaves the buffer. -/
def ResponseBuffer.store (response : ResponseBuffer) (off : Nat) (bytes : List UInt8) :
    Option ResponseBuffer :=
  match h : overwrite response.val off bytes with
  | none => none
  | some out => some ⟨out, (length_overwrite _ _ _ _ h).trans response.property⟩

/-- The test for the start of an HTTP response in any case. -/
def ResponseBuffer.startsHttp (response : ResponseBuffer) : Bool :=
  (response.val.take 5).map toLower == ascii ['h', 't', 't', 'p', '/']

/-- The state of the loop over a plain connection: the count and the buffer. -/
structure PlainRead where
  received : UInt32
  response : ResponseBuffer

/-- `sizeof(response) - received - 1`, `src/http.c:164`. -/
def PlainRead.offered (s : PlainRead) : UInt64 :=
  UInt64.ofNat responseBuffSize - s.received.toUInt64 - 1

/-- The state in front of the loop. -/
def PlainRead.start : PlainRead := ⟨0, .zero⟩

/-- One round over a plain connection, `src/http.c:164–183`. The result is the buffer with which
the function goes on to succeed, or `none` if it fails; from `recv`, `none` is the −1. -/
def plainReadRound (recv : Nat → Option (List UInt8)) (call : Nat) (s : PlainRead) :
    Except Fault (Turn PlainRead (Option ResponseBuffer)) :=
  if responseBuffSize < s.received.toNat + s.offered.toNat then .error .outOfBounds
  else
    match recv call with
    | none => .ok (.done none)
    | some bytes =>
      let chunk := bytes.take s.offered.toNat
      if chunk = [] then .ok (.done (some s.response))
      else
        match s.response.store s.received.toNat chunk with
        | none => .error .outOfBounds
        | some response =>
          let received := s.received + UInt32.ofNat chunk.length
          if 0 < received ∧ response.startsHttp then .ok (.done (some response))
          else if received.toNat < responseBuffSize - 1 then .ok (.again ⟨received, response⟩)
          else .ok (.done (some response))

/-- The state of the loop over TLS. -/
structure TlsRead where
  received : Int
  response : ResponseBuffer

/-- `sizeof(response) - received`, `src/http.c:341`. -/
def TlsRead.offered (s : TlsRead) : Int := responseBuffSize - s.received

/-- The state in front of the loop. -/
def TlsRead.start : TlsRead := ⟨0, .zero⟩

/-- The loop over TLS goes on if it read something or `BIO_should_retry` says so, unless the
response has been recognised, `src/http.c:345–349`. -/
def tlsReadTurn (retry : Bool) (chunk : Int) (s : TlsRead) : Turn TlsRead ResponseBuffer :=
  if 5 < s.received ∧ s.response.startsHttp then .done s.response
  else if 0 < chunk ∨ retry then .again s
  else .done s.response

/-- One round over TLS, `src/http.c:341–349`. The result is the buffer that the loop leaves. -/
def tlsReadRound (bioRead : Nat → Option (List UInt8)) (shouldRetry : Nat → Bool) (call : Nat)
    (s : TlsRead) : Except Fault (Turn TlsRead ResponseBuffer) :=
  if s.received < 0 ∨ responseBuffSize < s.received + s.offered then .error .outOfBounds
  else
    match bioRead call with
    | none => .ok (tlsReadTurn (shouldRetry call) (-1) { s with received := s.received - 1 })
    | some bytes =>
      let chunk := bytes.take s.offered.toNat
      match s.response.store s.received.toNat chunk with
      | none => .error .outOfBounds
      | some response =>
        .ok (tlsReadTurn (shouldRetry call) chunk.length ⟨s.received + chunk.length, response⟩)

/-- `strchr`: where a byte stands first in a string, or `none` if the string ends in front of it.
A block in which neither the byte nor the NUL of a string stands is read beyond its end. -/
def strchr (c : UInt8) : List UInt8 → Except Fault (Option Nat)
  | [] => .error .outOfBounds
  | b :: bs =>
    if b = c then .ok (some 0)
    else if b = 0 then .ok none
    else do
      let found ← strchr c bs
      return found.map (· + 1)

/-- At every read the count lies between 0 and the size of the buffer and the target lies inside
the buffer. -/
structure ReadsInside (recv bioRead : Nat → Option (List UInt8)) (shouldRetry : Nat → Bool) :
    Prop where
  plain : ∀ call s, RoundAt (plainReadRound recv) .start call s →
    s.received.toNat ≤ responseBuffSize ∧
      s.received.toNat + s.offered.toNat ≤ responseBuffSize
  tls : ∀ call s, RoundAt (tlsReadRound bioRead shouldRetry) .start call s →
    0 ≤ s.received ∧ s.received ≤ responseBuffSize ∧
      s.received + s.offered ≤ responseBuffSize

/-- Below the last byte of the buffer the offered size does not wrap. -/
theorem PlainRead.offered_toNat {s : PlainRead} (h : s.received.toNat < responseBuffSize) :
    s.offered.toNat = responseBuffSize - s.received.toNat - 1 := by
  have hsize : (UInt64.ofNat responseBuffSize).toNat = responseBuffSize := rfl
  have hreceived : s.received.toUInt64 ≤ UInt64.ofNat responseBuffSize := by
    rw [UInt64.le_iff_toNat_le, UInt32.toNat_toUInt64, hsize]
    exact Nat.le_of_lt h
  have hrest := UInt64.toNat_sub_of_le _ _ hreceived
  rw [UInt32.toNat_toUInt64, hsize] at hrest
  have hone : (1 : UInt64) ≤ UInt64.ofNat responseBuffSize - s.received.toUInt64 := by
    rw [UInt64.le_iff_toNat_le, hrest, UInt64.toNat_one]
    omega
  rw [PlainRead.offered, UInt64.toNat_sub_of_le _ _ hone, hrest, UInt64.toNat_one]

/-- The loop goes on with a free byte only. -/
theorem plainReadRound_again {recv : Nat → Option (List UInt8)} {call : Nat} {s s' : PlainRead}
    (h : plainReadRound recv call s = .ok (.again s')) :
    s'.received.toNat < responseBuffSize - 1 := by
  unfold plainReadRound at h
  split at h
  · cases h
  split at h
  · cases h
  dsimp only at h
  split at h
  · cases h
  split at h
  · cases h
  split at h
  · cases h
  split at h
  · next hfree =>
    rw [← Turn.again.inj (Except.ok.inj h)]
    exact hfree
  · cases h

/-- At every read over a plain connection a byte of the buffer is free. -/
theorem plainRead_free {recv : Nat → Option (List UInt8)} {call : Nat} {s : PlainRead}
    (h : RoundAt (plainReadRound recv) .start call s) :
    s.received.toNat < responseBuffSize - 1 :=
  h.invariant (I := fun _ s ↦ s.received.toNat < responseBuffSize - 1) (by decide)
    fun _ _ _ _ hround ↦ plainReadRound_again hround

/-! ### Over TLS -/

section Tls

variable {bioRead : Nat → Option (List UInt8)} {shouldRetry : Nat → Bool}

/-- The number of the first reads that fail. -/
def failedReads (bioRead : Nat → Option (List UInt8)) : Nat → Nat
  | 0 => 0
  | call + 1 => failedReads bioRead call + if bioRead call = none then 1 else 0

/-- The number of bytes that the first reads have. -/
def bytesRead (bioRead : Nat → Option (List UInt8)) : Nat → Nat
  | 0 => 0
  | call + 1 => bytesRead bioRead call + ((bioRead call).getD []).length

/-- Every failed read that is tried again comes behind more bytes, up to the size of the buffer,
than failed reads. -/
def RetriesCovered (bioRead : Nat → Option (List UInt8)) (shouldRetry : Nat → Bool) : Prop :=
  ∀ call, bioRead call = none → shouldRetry call = true →
    failedReads bioRead call < min responseBuffSize (bytesRead bioRead call)

/-- The count has every byte, up to the size of the buffer, less the failed reads. -/
structure TlsCount (bioRead : Nat → Option (List UInt8)) (call : Nat) (s : TlsRead) : Prop where
  nonneg : 0 ≤ s.received
  le : s.received ≤ responseBuffSize
  covers : (min responseBuffSize (bytesRead bioRead call) : Nat) ≤
    s.received + failedReads bioRead call

theorem tlsCount_start : TlsCount bioRead 0 .start :=
  ⟨Int.le_refl 0, by decide, by rw [bytesRead, failedReads]; decide⟩

/-- A round goes on with a counted failure that may be tried again, or with counted bytes. -/
theorem tlsReadRound_again {call : Nat} {s s' : TlsRead}
    (h : tlsReadRound bioRead shouldRetry call s = .ok (.again s')) :
    bioRead call = none ∧ shouldRetry call = true ∧ s'.received = s.received - 1 ∨
      ∃ bytes, bioRead call = some bytes ∧
        s'.received = s.received + (bytes.take s.offered.toNat).length := by
  have hturn : ∀ retry chunk s₁, tlsReadTurn retry chunk s₁ = .again s' →
      s' = s₁ ∧ (0 < chunk ∨ retry = true) := by
    intro retry chunk s₁ hagain
    unfold tlsReadTurn at hagain
    split at hagain
    · cases hagain
    split at hagain
    · next hgo =>
      cases hagain
      exact ⟨rfl, hgo⟩
    · cases hagain
  unfold tlsReadRound at h
  split at h
  · cases h
  split at h
  · next hread =>
    obtain ⟨rfl, hgo⟩ := hturn _ _ _ (Except.ok.inj h)
    exact .inl ⟨hread, hgo.resolve_left (by decide), rfl⟩
  · next bytes hread =>
    dsimp only at h
    split at h
    · cases h
    · obtain ⟨rfl, _⟩ := hturn _ _ _ (Except.ok.inj h)
      exact .inr ⟨bytes, hread, rfl⟩

/-- A round keeps the count. -/
theorem TlsCount.next (hretry : RetriesCovered bioRead shouldRetry) {call : Nat} {s s' : TlsRead}
    (h : TlsCount bioRead call s)
    (hround : tlsReadRound bioRead shouldRetry call s = .ok (.again s')) :
    TlsCount bioRead (call + 1) s' := by
  obtain ⟨hnonneg, hle, hcovers⟩ := h
  obtain ⟨hread, hagain, hcount⟩ | ⟨bytes, hread, hcount⟩ := tlsReadRound_again hround
  · have hbehind := hretry call hread hagain
    have hfailed : failedReads bioRead (call + 1) = failedReads bioRead call + 1 := by
      rw [failedReads, if_pos hread]
    have hbytes : bytesRead bioRead (call + 1) = bytesRead bioRead call := by
      rw [bytesRead, hread]
      rfl
    refine ⟨by omega, by omega, ?_⟩
    rw [hfailed, hbytes, hcount]
    omega
  · have hfailed : failedReads bioRead (call + 1) = failedReads bioRead call := by
      rw [failedReads, if_neg (by rw [hread]; exact nofun), Nat.add_zero]
    have hbytes : bytesRead bioRead (call + 1) = bytesRead bioRead call + bytes.length := by
      rw [bytesRead, hread]
      rfl
    rw [List.length_take, TlsRead.offered] at hcount
    refine ⟨by omega, by omega, ?_⟩
    rw [hfailed, hbytes, hcount]
    omega

end Tls

/-- If every failed read that is tried again is covered by bytes read before, the response loops
stay in the buffer. -/
theorem readsInside_of_retriesCovered (recv bioRead : Nat → Option (List UInt8))
    (shouldRetry : Nat → Bool) (h : RetriesCovered bioRead shouldRetry) :
    ReadsInside recv bioRead shouldRetry := by
  constructor
  · intro call s hround
    have hfree := plainRead_free hround
    rw [PlainRead.offered_toNat (by omega)]
    omega
  · intro call s hround
    have hcount := hround.invariant tlsCount_start fun _ _ _ hcount heq ↦ hcount.next h heq
    refine ⟨hcount.nonneg, hcount.le, ?_⟩
    rw [TlsRead.offered]
    omega

/-- One byte, a failed read that is tried again, and the end. -/
theorem readsInside_byte_then_failure :
    ReadsInside (fun _ ↦ none) (fun call ↦ if call = 0 then some [72] else none)
      (fun call ↦ call == 1) := by
  refine readsInside_of_retriesCovered _ _ _ fun call _ hagain ↦ ?_
  rw [beq_iff_eq] at hagain
  subst hagain
  decide

/-- A first read that fails and is tried again reads to the address in front of the buffer. -/
theorem not_readsInside_failure_first :
    ¬ ReadsInside (fun _ ↦ none) (fun _ ↦ none) (fun _ ↦ true) ∧
      ∀ fuel, runLoop (tlsReadRound (fun _ ↦ none) fun _ ↦ true) .divergence (fuel + 1 + 1) 0
        .start = .error .outOfBounds := by
  have hround : RoundAt (tlsReadRound (fun _ ↦ none) fun _ ↦ true) .start 1
      ⟨-1, ResponseBuffer.zero⟩ := .next .first rfl
  refine ⟨fun hinside ↦ ?_, fun fuel ↦ (hround.runLoop_eq _ _).trans rfl⟩
  exact absurd (hinside.tls 1 _ hround).1 (by decide)

end FfProxy
