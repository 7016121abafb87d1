import FfProxy.Base.Scan
import FfProxy.Parser.PayloadOptions

/-!
# Forwarding a request

`ff_http_send_request`, `src/http.c:21–81`. The name lookup and the two ways to send are
parameters; modelled here is which of the two is chosen. The option scan runs backwards
and overwrites, so the first HTTPS option of the list decides.
-/

namespace FfProxy
open Base

/-- The two ways to reach the destination. -/
inductive Transport
  | tls
  | unencrypted
  deriving DecidableEq, Repr

/-- `ff_http_get_destination_host`, `ff_http_send_request_tls` and
`ff_http_send_request_unencrypted`. -/
structure Upstream where
  getDestinationHost : Request → Option (List UInt8)
  sendRequestTls : Request → List UInt8 → Bool
  sendRequestUnencrypted : Request → List UInt8 → Bool

/-- An option of type HTTPS. -/
def OptionNode.isHttps (o : OptionNode) : Bool := decide (o.type = OptionType.https)

/-- Whether an HTTPS option asks for TLS, `src/http.c:32`. -/
def OptionNode.asksTls (o : OptionNode) : Bool :=
  decide (o.length = 1) && decide (o.value.head? = some 1)

/-- What one option does to the `https` variable, `src/http.c:29–37`. -/
def httpsAnswer (o : OptionNode) : Option Bool := if o.isHttps then some o.asksTls else none

/-- The option scan of `ff_http_send_request` and the choice it leads to,
`src/http.c:23–38,48–55`. -/
def ffHttpTransport (options : List OptionNode) : Transport :=
  if scanBackward httpsAnswer false options then .tls else .unencrypted

/-- `ff_http_send_request`, `src/http.c:21–81`. -/
def ffHttpSendRequest (up : Upstream) (r : Request) : Request :=
  match up.getDestinationHost r with
  | none => { r with state := .sendingFailed }
  | some hostName =>
    let success := match ffHttpTransport r.options with
      | .tls => up.sendRequestTls r hostName
      | .unencrypted => up.sendRequestUnencrypted r hostName
    if success then { r with state := .sent } else { r with state := .sendingFailed }

/-- Sending changes the state only, and the state does not tell whether it succeeded. -/
theorem ffHttpSendRequest_eq (up : Upstream) (r : Request) :
    ffHttpSendRequest up r = { r with state := .sent } := by
  unfold ffHttpSendRequest
  split
  · rfl
  · exact ite_self _

private theorem findSome?_httpsAnswer (os : List OptionNode) :
    os.findSome? httpsAnswer = (os.find? OptionNode.isHttps).map OptionNode.asksTls := by
  induction os with
  | nil => rfl
  | cons o os ih =>
    rw [List.findSome?_cons, List.find?_cons, httpsAnswer]
    cases o.isHttps with
    | false => exact ih
    | true => rfl

private theorem ffHttpTransport_congr {os os' : List OptionNode} :
    ffHttpTransport os = ffHttpTransport os' ↔
      scanBackward httpsAnswer false os = scanBackward httpsAnswer false os' := by
  unfold ffHttpTransport
  cases scanBackward httpsAnswer false os <;> cases scanBackward httpsAnswer false os' <;> simp

/-- The transport for header options followed by payload options is the one the payload asks
for exactly when the header has no HTTPS option or its first one agrees. -/
theorem ffHttpTransport_append_iff (header payload : List OptionNode)
    (hp : ∃ o ∈ payload, o.type = OptionType.https) :
    ffHttpTransport (header ++ payload) = ffHttpTransport payload ↔
      ∀ h p, header.find? OptionNode.isHttps = some h →
        payload.find? OptionNode.isHttps = some p → h.asksTls = p.asksTls := by
  obtain ⟨o, ho, ht⟩ := hp
  obtain ⟨p, hfind⟩ : ∃ p, payload.find? OptionNode.isHttps = some p := by
    rw [← Option.isSome_iff_exists, List.find?_isSome]
    exact ⟨o, ho, by simp [OptionNode.isHttps, ht]⟩
  rw [ffHttpTransport_congr, scanBackward_append, scanBackward_eq, findSome?_httpsAnswer,
    findSome?_httpsAnswer, hfind]
  cases header.find? OptionNode.isHttps with
  | none => simp
  | some h => simp

/-- A request with one clear HTTPS option and one at the start of its payload. -/
def sampleHttpsRequest (clear encrypted : UInt8) : Request :=
  { ffRequestAlloc with
    options := [.ofByte OptionType.https clear]
    payloadContainsOptions := true
    payloadLength := 8
    payload := [⟨0, 8, [4, 0, 1, encrypted, 0, 0, 0, 71], Nat.le_refl 8⟩] }

/-- Header options that agree with the payload do no harm. -/
theorem ffHttpTransport_append_agree :
    ffHttpTransport ([OptionNode.ofByte OptionType.https 1] ++ [.ofByte OptionType.https 1]) =
      ffHttpTransport [.ofByte OptionType.https 1] :=
  (ffHttpTransport_append_iff _ _ (by decide)).mpr (by
    rintro h p hh hp
    rw [hh] at hp
    rw [Option.some.inj hp])

/-- A clear `HTTPS = 0` in front of an encrypted `HTTPS = 1` sends the request in the clear. -/
theorem ffHttpTransport_downgraded :
    ∃ r, ffRequestParseOptionsFromPayload (sampleHttpsRequest 0 1) = .ok r ∧
      r.state = .parsedOptions ∧
      r.options = (sampleHttpsRequest 0 1).options ++
        [OptionNode.ofByte OptionType.https 1] ∧
      ffHttpTransport r.options = .unencrypted ∧
      ffHttpTransport [OptionNode.ofByte OptionType.https 1] = .tls :=
  ⟨_, rfl, by decide, by decide, by decide, by decide⟩

end FfProxy
