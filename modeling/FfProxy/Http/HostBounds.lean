import FfProxy.Http.HostScan

/-!
# Bounds of the host search

`ff_http_get_destination_host` looks at `*line` before it compares `i` with the length of the
payload in all its loops, so a last line without an end, spaces or a host up to the end of the
payload make it read the byte behind. The terminator behind 256 host characters is stored
behind the block of the host. Apart from these it stays inside and its result depends on the
payload alone.
-/

namespace FfProxy
open Base

/-- The first node of the request holds the payload `text`, followed by other bytes. -/
def Request.HoldsBefore (r : Request) (text after : List UInt8) : Prop :=
  ∃ node rest, r.payload = node :: rest ∧ node.value = text ++ after ∧
    r.payloadLength.toNat = text.length

/-- The search for the host stays inside its buffers. It makes no fault, not even if the block
ends with the payload, and what follows the payload makes no difference. -/
structure StaysInside (text : List UInt8) : Prop where
  faultless : ∀ r after, r.HoldsBefore text after → ∃ host, ffHttpGetDestinationHost r = .ok host
  agrees : ∀ r r' after after', r.HoldsBefore text after → r'.HoldsBefore text after' →
    ffHttpGetDestinationHost r = ffHttpGetDestinationHost r'

/-- The number of host characters from position `p` on. -/
def hostCharsAt (text : List UInt8) (p : Nat) : Nat :=
  ((text.drop p).takeWhile isHostChar).length

/-- Behind the colon of the line at `s` and spaces that may be passed stand more than 255 host
characters, or host characters up to the end of the payload. -/
def HostRunsOut (text : List UInt8) (s : Nat) : Prop :=
  ∃ k, s + 5 + k ≤ text.length ∧ (∀ j, j < k → text[s + 5 + j]? = some 32) ∧
    (∀ j, j ≤ k → s + 5 + j < text.length → Clear text (s + 5 + j)) ∧
    (posixHostNameMax < hostCharsAt text (s + 5 + k) ∨
      s + 5 + k + hostCharsAt text (s + 5 + k) = text.length)

/-- The search leaves its bounds at the line at `s`: it is a Host line that runs out, or another
line that goes on to the last byte of the payload. -/
def RunsOutAt (text : List UInt8) (s : Nat) : Prop :=
  HostLineAt text s ∧ HostRunsOut text s ∨
    ¬ HostLineAt text s ∧ ¬ EndsHeadersAt text s ∧ Walk text s (text.length - 1)

/-- Some line that the search arrives at makes it leave its bounds. -/
def RunsOut (text : List UInt8) : Prop := ∃ s, Reached text s ∧ RunsOutAt text s

/-- The outcome is no fault and the same whatever follows the payload. -/
def Settles (scan : List UInt8 → Except ScanExit (List UInt8)) : Prop :=
  ∃ x, (∀ f, x ≠ .error (.fault f)) ∧ ∀ after, scan after = x

theorem Settles.congr {scan scan' : List UInt8 → Except ScanExit (List UInt8)} (h : Settles scan)
    (heq : ∀ after, scan' after = scan after) : Settles scan' := by
  obtain ⟨x, hx, hall⟩ := h
  exact ⟨x, hx, fun after ↦ (heq after).trans (hall after)⟩

theorem settles_error : Settles fun _ ↦ .error .error :=
  ⟨.error .error, nofun, fun _ ↦ rfl⟩

/-! ### The host of a line -/

section Host

variable {text : List UInt8} {s p k : Nat}

/-- Host characters up to the end of the text. -/
private theorem takeWhile_eq_drop_iff (hp : p ≤ text.length) :
    (text.drop p).takeWhile isHostChar = text.drop p ↔ p + hostCharsAt text p = text.length := by
  rw [hostCharsAt]
  constructor
  · intro hall
    rw [hall, List.length_drop]
    omega
  · intro hlen
    refine (List.takeWhile_prefix isHostChar).eq_of_length ?_
    rw [List.length_drop]
    omega

/-- Where host characters stand there is no space. -/
private theorem ne_space_of_hostCharsAt (h : hostCharsAt text p ≠ 0) :
    text[p]? ≠ some 32 := by
  intro hspace
  obtain ⟨hp, hc⟩ := List.getElem?_eq_some_iff.mp hspace
  rw [hostCharsAt, List.drop_eq_getElem_cons hp, hc,
    List.takeWhile_cons_of_neg (by decide)] at h
  exact h rfl

/-- The spaces behind the colon go on to the end of the text, to a position that may not be
arrived at, or to another byte. -/
private theorem exists_spaces (hp : p ≤ text.length) :
    ∃ k, p + k ≤ text.length ∧ (∀ j, j < k → text[p + j]? = some 32 ∧ Clear text (p + j)) ∧
      (p + k < text.length → Clear text (p + k) → text[p + k]? ≠ some 32) := by
  induction hn : text.length - p generalizing p with
  | zero => exact ⟨0, hp, nofun, fun hlt ↦ absurd hlt (by omega)⟩
  | succ n ih =>
    by_cases hpass : text[p]? = some 32 ∧ Clear text p
    · obtain ⟨k, hk, hspaces, hstop⟩ := ih (p := p + 1) (by omega) (by omega)
      rw [Nat.add_assoc, Nat.add_comm 1 k] at hk hstop
      refine ⟨k + 1, hk, fun j hj ↦ ?_, hstop⟩
      cases j with
      | zero => exact hpass
      | succ j =>
        rw [Nat.add_comm j 1, ← Nat.add_assoc]
        exact hspaces j (by omega)
    · exact ⟨0, hp, nofun, fun _ hclear hspace ↦ hpass ⟨hspace, hclear⟩⟩

/-- Behind the spaces the text may end, or the position may not be arrived at, or the host is
read from there. -/
theorem hostOfLine_spaces (after : List UInt8) (hk : s + 5 + k ≤ text.length)
    (hspaces : ∀ j, j < k → text[s + 5 + j]? = some 32 ∧ Clear text (s + 5 + j)) :
    hostOfLine text.length ((text ++ after).drop s) s = (do
      let (line, i) ← skipSpacesFrom text.length ((text ++ after).drop (s + 5 + k)) (s + 5 + k)
      readHostName text.length line i []) := by
  rw [hostOfLine_eq, List.drop_drop, skipSpacesFrom_spaces hk (fun j hj ↦ (hspaces j hj).1)
    fun j hj ↦ (hspaces j hj).2]

/-- From the first byte behind the spaces the host is read. -/
theorem hostOfLine_read (after : List UInt8) (hin : s + 5 + k < text.length)
    (hspaces : ∀ j, j < k → text[s + 5 + j]? = some 32 ∧ Clear text (s + 5 + j))
    (hclear : Clear text (s + 5 + k)) (hother : text[s + 5 + k]? ≠ some 32) :
    hostOfLine text.length ((text ++ after).drop s) s =
      readHostName text.length (text.drop (s + 5 + k) ++ after) (s + 5 + k) [] := by
  rw [hostOfLine_spaces after (Nat.le_of_lt hin) hspaces, skipSpacesFrom_stop hin hclear hother,
    bind_of_ok rfl, List.drop_append_of_le_length (Nat.le_of_lt hin)]

/-- A host that runs out makes the search leave its bounds if the memory ends with the
payload. -/
theorem HostRunsOut.hostOfLine_faults (h : HostRunsOut text s) :
    hostOfLine text.length ((text ++ []).drop s) s = .error (.fault .outOfBounds) := by
  obtain ⟨k, hk, hspace, hclear, hout⟩ := h
  have hspaces : ∀ j, j < k → text[s + 5 + j]? = some 32 ∧ Clear text (s + 5 + j) := fun j hj ↦
    ⟨hspace j hj, hclear j (Nat.le_of_lt hj) (by omega)⟩
  rcases Nat.eq_or_lt_of_le hk with hend | hin
  · rw [hostOfLine_spaces [] hk hspaces]
    refine bind_of_error (bind_of_error ?_ _) _
    rw [hend, List.drop_left, consumed, if_neg (by omega)]
  · have hother : text[s + 5 + k]? ≠ some 32 := by
      refine ne_space_of_hostCharsAt ?_
      rcases hout with hlong | hlast <;> omega
    have hlen : s + 5 + k + (text.drop (s + 5 + k)).length = text.length := by
      rw [List.length_drop]
      omega
    rw [hostOfLine_read [] hin hspaces (hclear k (Nat.le_refl k) hin) hother]
    by_cases hall : (text.drop (s + 5 + k)).takeWhile isHostChar = text.drop (s + 5 + k)
    · rw [List.append_nil, readHostName_off hlen (Nat.zero_le _) hall]
    · have hlong := hout.resolve_right fun hlast ↦ hall ((takeWhile_eq_drop_iff hk).mpr hlast)
      rw [hostCharsAt] at hlong
      rw [readHostName_inside hlen (Nat.zero_le _) hall, List.nil_append, terminated, if_neg]
      rw [List.length_take, posixHostNameMax] at *
      omega

/-- Any other host is read inside the bounds. -/
theorem hostOfLine_settles (hhost : HostLineAt text s) (h : ¬ HostRunsOut text s) :
    Settles fun after ↦ hostOfLine text.length ((text ++ after).drop s) s := by
  have hlong := hhost.1
  obtain ⟨k, hk, hspaces, hstop⟩ := exists_spaces (show s + 5 ≤ text.length by omega)
  have hspace : ∀ j, j < k → text[s + 5 + j]? = some 32 := fun j hj ↦ (hspaces j hj).1
  by_cases hend : s + 5 + k = text.length
  · refine absurd ⟨k, hk, hspace, fun j hj hin ↦ ?_, .inr ?_⟩ h
    · exact (hspaces j (by omega)).2
    · rw [hostCharsAt, hend, List.drop_length]
      rfl
  have hin : s + 5 + k < text.length := by omega
  by_cases hclear : Clear text (s + 5 + k)
  · have hclears : ∀ j, j ≤ k → s + 5 + j < text.length → Clear text (s + 5 + j) := by
      intro j hj _
      rcases Nat.eq_or_lt_of_le hj with rfl | hlt
      · exact hclear
      · exact (hspaces j hlt).2
    have hlen : s + 5 + k + (text.drop (s + 5 + k)).length = text.length := by
      rw [List.length_drop]
      omega
    have hends : (text.drop (s + 5 + k)).takeWhile isHostChar ≠ text.drop (s + 5 + k) :=
      fun hall ↦ h ⟨k, hk, hspace, hclears, .inr ((takeWhile_eq_drop_iff hk).mp hall)⟩
    have hshort : ((text.drop (s + 5 + k)).takeWhile isHostChar).length < posixHostNameMax + 1 := by
      by_contra hlong
      exact h ⟨k, hk, hspace, hclears, .inl (Nat.not_lt.mp hlong)⟩
    refine ⟨.ok ((text.drop (s + 5 + k)).takeWhile isHostChar), nofun, fun after ↦ ?_⟩
    dsimp only
    rw [hostOfLine_read after hin hspaces hclear (hstop hin hclear),
      readHostName_inside hlen (Nat.zero_le _) hends, List.nil_append,
      List.take_of_length_le (show _ ≤ 256 from Nat.le_of_lt hshort), terminated, if_pos hshort]
  · refine settles_error.congr fun after ↦ (hostOfLine_spaces after hk hspaces).trans ?_
    exact bind_of_error (skipSpacesFrom_barred hin hclear) _

end Host

/-! ### The whole search -/

section Search

variable {text : List UInt8} {s fuel : Nat}

/-- A line that is reached lies below the search limit. -/
theorem Reached.lt_limit (h : Reached text s) : s < hostHeaderMaxSearchLength := by
  cases s with
  | zero => decide
  | succ s => exact (h.clear (s + 1) (Nat.succ_pos s) (Nat.le_refl _)).2

/-- At a line that makes the search leave its bounds it faults if the memory ends with the
payload. -/
theorem RunsOutAt.scanLines_faults (h : RunsOutAt text s) (hs : s < text.length) :
    scanLines text.length (fuel + 1) ((text ++ []).drop s) s = .error (.fault .outOfBounds) := by
  obtain ⟨hhost, hout⟩ | ⟨hhost, hends, hwalk⟩ := h
  · rw [scanLines_hostLine hhost, hout.hostOfLine_faults]
  · rw [scanLines_nextLine hs hends hhost]
    exact bind_of_error (hwalk.nextLine_off (by omega)) _

/-- If no line that is reached makes the search leave its bounds, it settles. -/
theorem scanLines_settles (hsafe : ¬ RunsOut text) (hs : Reached text s)
    (hfuel : hostHeaderMaxSearchLength ≤ s + fuel) :
    Settles fun after ↦ scanLines text.length fuel ((text ++ after).drop s) s := by
  have hlimit := hs.lt_limit
  have hin := hs.start.1
  induction fuel generalizing s with
  | zero => omega
  | succ fuel ih =>
    by_cases hends : EndsHeadersAt text s
    · exact settles_error.congr fun after ↦ scanLines_endsHeaders hends
    by_cases hhost : HostLineAt text s
    · have hinside := hostOfLine_settles hhost fun hout ↦ hsafe ⟨s, hs, .inl ⟨hhost, hout⟩⟩
      exact hinside.congr fun after ↦ scanLines_hostLine hhost
    obtain ⟨d, hwalk, hlast | ⟨hin', hbarred | ⟨hlf, hclear⟩⟩⟩ := exists_walk hin
    · refine absurd ⟨s, hs, .inr ⟨hhost, hends, ?_⟩⟩ hsafe
      rwa [← hlast, Nat.add_sub_cancel]
    · refine settles_error.congr fun after ↦ (scanLines_nextLine hin hends hhost).trans ?_
      exact bind_of_error (hwalk.nextLine_barred hin' hbarred) _
    · have hnext := hs.next hends hhost hwalk hlf hin' hclear
      have hsd := hwalk.le
      refine (ih hnext (by omega) hnext.lt_limit hin').congr fun after ↦ ?_
      exact scanLines_passes hends hhost hwalk hlf hin' hclear

/-- The scan of a payload settles unless some line makes it leave its bounds. -/
theorem scanPayload_settles (hsafe : ¬ RunsOut text) :
    Settles fun after ↦ scanPayload (text ++ after) text.length := by
  by_cases hne : text = []
  · subst hne
    refine settles_error.congr fun after ↦ (if_pos List.length_nil).trans (bind_of_error ?_ _)
    unfold consumed
    exact if_pos (by decide)
  · have hscan := scanLines_settles hsafe (reached_zero hne) (Nat.le_add_left _ 0)
    exact hscan.congr fun after ↦ if_neg fun h ↦ hne (List.length_eq_zero_iff.mp h)

/-- Otherwise it faults if the memory ends with the payload. -/
theorem RunsOut.scanPayload_faults (h : RunsOut text) :
    scanPayload text text.length = .error (.fault .outOfBounds) := by
  obtain ⟨s, hs, hout⟩ := h
  have hpos : 0 < text.length := Nat.lt_of_le_of_lt (Nat.zero_le s) hs.start.1
  have hlimit := hs.lt_limit
  obtain ⟨fuel, heq⟩ := hs.scanLines_eq ⟨hpos, nofun⟩ (Nat.zero_le s)
    (show s < 0 + hostHeaderMaxSearchLength by omega)
  have hfault := heq.trans (hout.scanLines_faults hs.start.1)
  rw [List.append_nil] at hfault
  exact (if_neg (Nat.ne_of_gt hpos)).trans hfault

end Search

/-! ### The search in a request -/

theorem Request.HoldsBefore.destinationHost {r : Request} {text after : List UInt8}
    (h : r.HoldsBefore text after) :
    ffHttpGetDestinationHost r = hostFound (scanPayload (text ++ after) text.length) := by
  obtain ⟨node, rest, hp, hvalue, hlength⟩ := h
  rw [ffHttpGetDestinationHost, hp]
  dsimp only
  rw [hvalue, hlength]

theorem holding_holds {text : List UInt8} (h : text.length < 2 ^ 64) :
    (holding text).HoldsBefore text [] := by
  refine ⟨PayloadNode.ofBytes text, [], rfl, (List.append_nil text).symm, ?_⟩
  exact (UInt64.toNat_ofNat' ..).trans (Nat.mod_eq_of_lt h)

/-- The search stays inside its buffers exactly when no line that it arrives at runs out. -/
theorem staysInside_iff (text : List UInt8) (hlength : text.length < 2 ^ 64) :
    StaysInside text ↔ ¬ RunsOut text := by
  constructor
  · intro hinside hout
    have hholds := holding_holds hlength
    obtain ⟨host, hhost⟩ := hinside.faultless _ _ hholds
    rw [hholds.destinationHost, List.append_nil, hout.scanPayload_faults] at hhost
    cases hhost
  · intro hsafe
    obtain ⟨x, hx, hscan⟩ := scanPayload_settles hsafe
    have hfound : ∀ r after, r.HoldsBefore text after → ffHttpGetDestinationHost r = hostFound x :=
      fun r after h ↦ h.destinationHost.trans (congrArg hostFound (hscan after))
    constructor
    · intro r after h
      rw [hfound r after h]
      cases x with
      | ok hostName => exact ⟨_, rfl⟩
      | error e =>
        cases e with
        | error => exact ⟨_, rfl⟩
        | fault f => exact absurd rfl (hx f)
    · intro r r' after after' h h'
      rw [hfound r after h, hfound r' after' h']

/-- A payload whose Host header ends in a line feed. -/
def sampleEndedHost : List UInt8 := ascii ['H', 'o', 's', 't', ':', 'a', '\n']

/-- A payload that ends with its Host header. -/
def sampleOpenHost : List UInt8 := ascii ['H', 'o', 's', 't', ':', 'a']

/-- A Host header that ends in a line feed does not run out. -/
theorem staysInside_ended : StaysInside sampleEndedHost := by
  refine (staysInside_iff sampleEndedHost (by decide)).mpr ?_
  have hhost : HostLineAt sampleEndedHost 0 := ⟨by decide, by decide⟩
  rintro ⟨s, hs, hout⟩
  rcases Nat.eq_zero_or_pos s with rfl | hpos
  · obtain ⟨_, k, _, hspace, _, hend⟩ := hout.resolve_right fun h ↦ h.1 hhost
    cases k with
    | zero => exact absurd hend (by decide)
    | succ k => exact absurd (hspace 0 (Nat.succ_pos k)) (by decide)
  · exact (hs.undecided 0 ⟨by decide, nofun⟩ hpos).2 hhost

/-- The payload `Host:a` in a block of its size makes the search read behind the block; in a
larger block the next byte becomes part of the host. -/
theorem not_staysInside_open :
    ¬ StaysInside sampleOpenHost ∧
      ffHttpGetDestinationHost (holding sampleOpenHost) = .error .outOfBounds ∧
      ffHttpGetDestinationHost
          { ffRequestAlloc with
            payloadLength := 6
            payload := [⟨0, 6, sampleOpenHost ++ ascii ['b'], by decide⟩] } =
        .ok (some (ascii ['a', 'b'])) := by
  have hfault : ffHttpGetDestinationHost (holding sampleOpenHost) = .error .outOfBounds := rfl
  refine ⟨fun hinside ↦ ?_, hfault, rfl⟩
  obtain ⟨host, hhost⟩ := hinside.faultless _ _ (holding_holds (by decide))
  rw [hfault] at hhost
  cases hhost

end FfProxy
