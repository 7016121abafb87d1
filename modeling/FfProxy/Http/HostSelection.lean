import FfProxy.Http.HostScan

/-!
# Which Host header is used

On a payload of up to 8000 bytes without zeros, `ff_http_get_destination_host` uses the first
line of the headers that starts with `host:`, and none behind the first empty line. What is
read from it are the host characters behind the colon and the spaces.
-/

namespace FfProxy
open Base

/-- The line at `s` belongs to the headers: neither it nor a line in front of it, other than the
first one, is empty. -/
def InHeaders (text : List UInt8) (s : Nat) : Prop :=
  LineStart text s ∧ ∀ e, LineStart text e → e ≠ 0 → e ≤ s → ¬ BlankAt text e

/-- The host characters from position `p` on. The byte behind the payload is looked at too, and
no more than 256 characters are stored. -/
def hostRun (text : List UInt8) (next : UInt8) (p : Nat) : List UInt8 :=
  (((text ++ [next]).drop p).takeWhile isHostChar).take 256

/-- The end of the search with a run of host characters in the block of 256 bytes: the
terminator behind 256 characters would leave the block. -/
def returnedHost (run : List UInt8) : Except Fault (Option (List UInt8)) :=
  if run.length < posixHostNameMax + 1 then .ok (some run) else .error .outOfBounds

/-- What selecting the host of a payload is to do. A Host line of the headers with no other one
in front of it is used if its colon is followed by spaces and another byte; without a Host
line in the headers there is no host; and the search ends. -/
structure SelectsHost (text : List UInt8) (next : UInt8)
    (outcome : Except Fault (Option (List UInt8))) : Prop where
  first : ∀ s k, InHeaders text s → HostLineAt text s →
    (∀ e, e < s → LineStart text e → ¬ HostLineAt text e) →
    (∀ j, j < k → text[s + 5 + j]? = some 32) → s + 5 + k < text.length →
    text[s + 5 + k]? ≠ some 32 → outcome = returnedHost (hostRun text next (s + 5 + k))
  absent : (∀ s, InHeaders text s → ¬ HostLineAt text s) → outcome = .ok none
  ends : outcome ≠ .error .divergence

/-! ### From line to line -/

section Lines

variable {text after : List UInt8} {s t fuel : Nat}

/-- The first Host line of the headers is reached. -/
theorem InHeaders.reached (h : InHeaders text t) (hclear : ∀ j, j < text.length → Clear text j)
    (hfirst : ∀ e, e < t → LineStart text e → ¬ HostLineAt text e) : Reached text t where
  start := h.1
  undecided := fun e he het ↦
    ⟨fun hends ↦ h.2 e he hends.1 (Nat.le_of_lt het) hends.2.2, hfirst e het he⟩
  clear := fun j _ hj ↦ hclear j (Nat.lt_of_le_of_lt hj h.1.1)

/-- A Host line that is reached belongs to the headers: an empty line in front of it has enough
bytes behind it to end them. -/
theorem Reached.inHeaders (h : Reached text t) (hhost : HostLineAt text t) :
    InHeaders text t := by
  refine ⟨h.start, fun e he h0 het hblank ↦ ?_⟩
  have hends : EndsHeadersAt text e := ⟨h0, by have := hhost.1; omega, hblank⟩
  rcases Nat.eq_or_lt_of_le het with rfl | hlt
  · exact hhost.not_endsHeaders hends
  · exact (h.undecided e he hlt).1 hends

/-- Without a Host line in the headers the scan ends. -/
private theorem scanLines_absent {next : UInt8} (hclear : ∀ j, j < text.length → Clear text j)
    (habsent : ∀ s, InHeaders text s → ¬ HostLineAt text s) (hs : Reached text s)
    (hfuel : text.length < s + fuel) :
    scanLines text.length fuel ((text ++ next :: after).drop s) s = .error .error := by
  have htext := hs.start.1
  induction fuel generalizing s with
  | zero => omega
  | succ fuel ih =>
    by_cases hends : EndsHeadersAt text s
    · exact scanLines_endsHeaders hends
    have hhost : ¬ HostLineAt text s := fun hhost ↦ habsent s (hs.inHeaders hhost) hhost
    obtain ⟨d, hwalk, hlast | ⟨hin, hbarred | ⟨hlf, hnext⟩⟩⟩ := exists_walk htext
    · obtain ⟨fuel, rfl⟩ := Nat.exists_eq_succ_of_ne_zero (show fuel ≠ 0 by omega)
      rw [scanLines_nextLine htext hends hhost, hwalk.scan_off hlast]
    · exact absurd (hclear _ hin) hbarred
    · have hsd := hwalk.le
      rw [scanLines_passes hends hhost hwalk hlf hin hnext]
      exact ih (hs.next hends hhost hwalk hlf hin hnext) (by omega) hin

end Lines

/-! ### The host of a line -/

/-- The host is read from the first byte behind the colon that is no space. -/
theorem hostOfLine_at {text after : List UInt8} {next : UInt8} {s k : Nat}
    (hclear : ∀ j, j < text.length → Clear text j)
    (hspaces : ∀ j, j < k → text[s + 5 + j]? = some 32) (hin : s + 5 + k < text.length)
    (hother : text[s + 5 + k]? ≠ some 32) :
    hostOfLine text.length ((text ++ next :: after).drop s) s =
      terminated (hostRun text next (s + 5 + k)) := by
  have hlen : s + 5 + k + (text.drop (s + 5 + k)).length = text.length := by
    rw [List.length_drop]
    omega
  have hrun : hostRun text next (s + 5 + k) =
      ((text.drop (s + 5 + k) ++ [next]).takeWhile isHostChar).take 256 := by
    rw [hostRun, List.drop_append_of_le_length (Nat.le_of_lt hin)]
  rw [hostOfLine_eq, List.drop_drop, skipSpacesFrom_spaces (Nat.le_of_lt hin) hspaces
    (fun j _ ↦ hclear _ (by omega)), skipSpacesFrom_stop hin (hclear _ hin) hother,
    bind_of_ok rfl, hrun, List.drop_append_of_le_length (Nat.le_of_lt hin)]
  dsimp only
  by_cases hall : (text.drop (s + 5 + k)).takeWhile isHostChar = text.drop (s + 5 + k)
  · rw [readHostName_behind hlen (Nat.zero_le _) hall, List.nil_append]
  · have hshort : ((text.drop (s + 5 + k)).takeWhile isHostChar).length ≠
        (text.drop (s + 5 + k)).length := fun h ↦
      hall ((List.takeWhile_prefix isHostChar).eq_of_length h)
    rw [readHostName_inside hlen (Nat.zero_le _) hall, List.nil_append, List.takeWhile_append,
      if_neg hshort]

/-! ### The host of a payload -/

/-- A terminated run is what the search returns. -/
theorem ffHttpGetDestinationHost_terminated {r : Request} {node : PayloadNode}
    {rest : List PayloadNode} {run : List UInt8} (hp : r.payload = node :: rest)
    (hscan : scanPayload node.value r.payloadLength.toNat = terminated run) :
    ffHttpGetDestinationHost r = returnedHost run := by
  rw [ffHttpGetDestinationHost, hp]
  dsimp only
  rw [hscan, terminated, returnedHost]
  by_cases hroom : run.length < posixHostNameMax + 1
  · rw [if_pos hroom, if_pos hroom, hostFound]
  · rw [if_neg hroom, if_neg hroom, hostFound]

/-- The search for the host always ends. -/
theorem ffHttpGetDestinationHost_ends (r : Request) :
    ffHttpGetDestinationHost r ≠ .error .divergence := by
  intro heq
  rw [ffHttpGetDestinationHost] at heq
  split at heq
  · cases heq
  · next node _ _ =>
    have hends := ends_scanPayload node.value r.payloadLength.toNat
    cases hscan : scanPayload node.value r.payloadLength.toNat with
    | ok hostName =>
      rw [hscan] at heq
      cases heq
    | error e =>
      rw [hscan] at heq
      cases e with
      | error => cases heq
      | fault f => exact hends (by rw [hscan, Except.error.inj heq])

/-- On every payload of 1 to 8000 bytes without zeros, whatever follows it in memory, the first
Host line of the headers is used. -/
theorem ffHttpGetDestinationHost_selects (r : Request) (node : PayloadNode)
    (rest : List PayloadNode) (text after : List UInt8) (next : UInt8)
    (hp : r.payload = node :: rest) (hmem : node.value = text ++ next :: after)
    (hlength : r.payloadLength.toNat = text.length) (hne : text ≠ [])
    (hshort : text.length ≤ 8000) (hzero : 0 ∉ text) :
    SelectsHost text next (ffHttpGetDestinationHost r) := by
  have hpos : 0 < text.length := List.length_pos_iff.mpr hne
  have hclear : ∀ j, j < text.length → Clear text j := fun j hj ↦
    ⟨fun h ↦ hzero (List.mem_of_getElem? h), by rw [hostHeaderMaxSearchLength]; omega⟩
  have hstart : Reached text 0 := reached_zero hne
  have hscan : scanPayload node.value r.payloadLength.toNat =
      scanLines text.length hostHeaderMaxSearchLength ((text ++ next :: after).drop 0) 0 := by
    rw [hlength, hmem, scanPayload, if_neg (by omega)]
    rfl
  have hfuel : text.length < 0 + hostHeaderMaxSearchLength := by
    rw [hostHeaderMaxSearchLength]
    omega
  constructor
  · intro s k hs hhost hfirst hspaces hin hother
    refine ffHttpGetDestinationHost_terminated hp ?_
    obtain ⟨fuel, hreaches⟩ := (hs.reached hclear hfirst).scanLines_eq hstart.start
      (Nat.zero_le s) (Nat.lt_trans hs.1.1 hfuel)
    rw [hscan, hreaches, scanLines_hostLine hhost]
    exact hostOfLine_at hclear hspaces hin hother
  · intro habsent
    rw [ffHttpGetDestinationHost, hp]
    dsimp only
    rw [hscan, scanLines_absent hclear habsent hstart hfuel, hostFound]
  · exact ffHttpGetDestinationHost_ends r

/-- A payload with the Host header in its second line. -/
def sampleHostText : List UInt8 := ascii ['x', '\n', 'H', 'o', 's', 't', ':', ' ', 'b', '\n']

/-- A request with this payload and one more byte in the block. -/
def sampleHostRequest : Request :=
  { ffRequestAlloc with
    payloadLength := 10
    payload := [⟨0, 10, sampleHostText ++ [0], by decide⟩] }

/-- The Host header of the sample payload is used. -/
theorem ffHttpGetDestinationHost_selects_sample :
    SelectsHost sampleHostText 0 (ffHttpGetDestinationHost sampleHostRequest) ∧
      ffHttpGetDestinationHost sampleHostRequest = .ok (some (ascii ['b'])) :=
  ⟨ffHttpGetDestinationHost_selects sampleHostRequest _ [] sampleHostText [] 0 rfl rfl rfl
    (by decide) (by decide) (by decide), rfl⟩

end FfProxy
