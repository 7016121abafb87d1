import Mathlib.Data.List.TakeWhile
import FfProxy.Http.DestinationHost

/-!
# The host scan by position

One round of `ff_http_get_destination_host`, `src/http.c:406–446`, described by positions of
the payload `text`. The memory goes on behind the payload with some bytes `after`, and the scan
looks at the first of them when it runs off the payload. A round at the start of a line ends
the scan, reads the host, goes on at the next line or runs off the payload.
-/

namespace FfProxy
open Base

/-- A line of the text starts at `s`. -/
def LineStart (text : List UInt8) (s : Nat) : Prop :=
  s < text.length ∧ ∀ e, s = e + 1 → text[e]? = some 10

/-- The line at `s` is empty: a line feed or CR LF. -/
def BlankAt (text : List UInt8) (s : Nat) : Prop :=
  text[s]? = some 10 ∨ text[s]? = some 13 ∧ text[s + 1]? = some 10

/-- At `s` stands `host:` in any case and at least one byte more. -/
def HostLineAt (text : List UInt8) (s : Nat) : Prop :=
  s + 6 ≤ text.length ∧ isHostLine (text.drop s) = true

/-- The scan takes the line at `s` for the end of the headers: it is empty, not the first line,
and more than two bytes are left, `src/http.c:408`. -/
def EndsHeadersAt (text : List UInt8) (s : Nat) : Prop :=
  s ≠ 0 ∧ s + 2 < text.length ∧ BlankAt text s

/-- The position may be arrived at: it holds no zero and lies below the search limit. -/
def Clear (text : List UInt8) (j : Nat) : Prop :=
  text[j]? ≠ some 0 ∧ j < hostHeaderMaxSearchLength

/-- The positions from `s` to `d` lie on one line and may be arrived at. -/
structure Walk (text : List UInt8) (s d : Nat) : Prop where
  le : s ≤ d
  inside : d < text.length
  line : ∀ e, s ≤ e → e < d → text[e]? ≠ some 10
  clear : ∀ j, s < j → j ≤ d → Clear text j

/-! ### Reading at a position -/

section Position

variable {text after : List UInt8} {s : Nat}

/-- The memory from a position of the text on. -/
private theorem drop_memory (hs : s ≤ text.length) :
    (text ++ after).drop s = text.drop s ++ after :=
  List.drop_append_of_le_length hs

/-- The memory at a position is the byte there and the memory behind it. -/
theorem drop_eq_cons {c : UInt8} (hc : text[s]? = some c) :
    (text ++ after).drop s = c :: (text ++ after).drop (s + 1) := by
  obtain ⟨hs, rfl⟩ := List.getElem?_eq_some_iff.mp hc
  rw [drop_memory (Nat.le_of_lt hs), drop_memory hs, List.drop_eq_getElem_cons hs,
    List.cons_append]

theorem consumed_clear (hs : s < text.length) (hclear : Clear text s) :
    consumed text.length ((text ++ after).drop s) s = .ok () := by
  have hc := List.getElem?_eq_getElem hs
  have hne : text[s] ≠ 0 := fun hzero ↦ hclear.1 (by rw [hc, hzero])
  rw [drop_eq_cons hc]
  exact consumed_of_ne (Nat.le_of_lt hs) hclear.2 hne

theorem consumed_not_clear (hs : s < text.length) (hclear : ¬ Clear text s) :
    consumed text.length ((text ++ after).drop s) s = .error .error := by
  have hc := List.getElem?_eq_getElem hs
  rw [drop_eq_cons hc, consumed, if_neg (by omega)]
  by_cases hzero : text[s] = 0
  · exact if_pos hzero
  · refine (if_neg hzero).trans (if_pos ?_)
    by_contra hlimit
    exact hclear ⟨by rw [hc]; simpa using hzero, by omega⟩

/-- The test for the end of the headers. -/
theorem endsHeaders_at (after : List UInt8) (hs : s < text.length) :
    ∃ ended, endsHeaders text.length ((text ++ after).drop s) s = .ok ended ∧
      (ended = true ↔ EndsHeadersAt text s) := by
  unfold endsHeaders
  split
  · next hlong =>
    have h0 := List.getElem?_eq_getElem hs
    have h1 := List.getElem?_eq_getElem (show s + 1 < text.length by omega)
    have hends : EndsHeadersAt text s ↔ text[s] = 10 ∨ text[s] = 13 ∧ text[s + 1] = 10 := by
      rw [EndsHeadersAt, BlankAt, h0, h1, Option.some.injEq, Option.some.injEq,
        Option.some.injEq, and_iff_right hlong.2, and_iff_right (by omega)]
    rw [drop_eq_cons h0, drop_eq_cons h1, hends]
    dsimp only
    split
    · next hlf => exact ⟨true, rfl, by simp [hlf]⟩
    · next hlf =>
      split
      · next hcr => exact ⟨_, rfl, by simp [hcr]⟩
      · next hcr => exact ⟨false, rfl, by simp [hlf, hcr]⟩
  · next hshort =>
    refine ⟨false, rfl, iff_of_false Bool.false_ne_true fun h ↦ hshort ⟨?_, h.1⟩⟩
    have := h.2.1
    omega

/-- Text that is long enough is compared without a look behind it. -/
private theorem startsWithIgnoringCase_append {u pre : List UInt8} (h : pre.length ≤ u.length) :
    startsWithIgnoringCase (u ++ after) pre = .ok ((u.take pre.length).map toLower == pre) := by
  induction pre generalizing u with
  | nil => rw [startsWithIgnoringCase]; rfl
  | cons d pre ih =>
    cases u with
    | nil => exact absurd h (by simp)
    | cons c u =>
      rw [List.cons_append, startsWithIgnoringCase, ih (by simpa using h)]
      by_cases hc : toLower c = d
      · simp [hc]
      · simp [hc]

/-- The test for the Host header. -/
theorem startsHost_at (after : List UInt8) (hs : s < text.length) :
    ∃ found, startsHost text.length ((text ++ after).drop s) s = .ok found ∧
      (found = true ↔ HostLineAt text s) := by
  unfold startsHost
  split
  · next hlong =>
    have hlen : hostPrefix.length ≤ (text.drop s).length := by
      rw [List.length_drop]
      exact Nat.le_of_lt hlong
    rw [drop_memory (Nat.le_of_lt hs), startsWithIgnoringCase_append hlen]
    exact ⟨_, rfl, (and_iff_right (by omega)).symm⟩
  · next hshort =>
    refine ⟨false, rfl, iff_of_false Bool.false_ne_true fun h ↦ hshort ?_⟩
    have := h.1
    omega

end Position

/-! ### One round -/

section Round

variable {text after : List UInt8} {s d fuel : Nat}

/-- A line with the Host header does not end the headers. -/
theorem HostLineAt.not_endsHeaders (h : HostLineAt text s) : ¬ EndsHeadersAt text s := by
  intro hends
  have hs : s < text.length := by have := h.1; omega
  have hhead := congrArg List.head? (beq_iff_eq.mp h.2)
  rw [List.drop_eq_getElem_cons hs, List.take_succ_cons, List.map_cons, List.head?_cons] at hhead
  have hc := List.getElem?_eq_getElem hs
  rcases hends.2.2 with hlf | ⟨hcr, _⟩
  · rw [Option.some.inj (hc.symm.trans hlf)] at hhead
    exact absurd hhead (by decide)
  · rw [Option.some.inj (hc.symm.trans hcr)] at hhead
    exact absurd hhead (by decide)

/-- The end of the headers ends the scan. -/
theorem scanLines_endsHeaders (hends : EndsHeadersAt text s) :
    scanLines text.length (fuel + 1) ((text ++ after).drop s) s = .error .error := by
  obtain ⟨ended, hended, hiff⟩ := endsHeaders_at after
    (show s < text.length by have := hends.2.1; omega)
  rw [scanLines, bind_of_ok hended, if_pos (hiff.mpr hends)]

/-- A line with the Host header is read. -/
theorem scanLines_hostLine (hhost : HostLineAt text s) :
    scanLines text.length (fuel + 1) ((text ++ after).drop s) s =
      hostOfLine text.length ((text ++ after).drop s) s := by
  have hs : s < text.length := by have := hhost.1; omega
  obtain ⟨ended, hended, hiff⟩ := endsHeaders_at after hs
  obtain ⟨found, hfound, hiff'⟩ := startsHost_at after hs
  rw [scanLines, bind_of_ok hended, if_neg (fun h ↦ hhost.not_endsHeaders (hiff.mp h)),
    bind_of_ok hfound, if_pos (hiff'.mpr hhost)]

/-- From any other line the scan goes on to the next one. -/
theorem scanLines_nextLine (hs : s < text.length) (hends : ¬ EndsHeadersAt text s)
    (hhost : ¬ HostLineAt text s) :
    scanLines text.length (fuel + 1) ((text ++ after).drop s) s = (do
      let (line, i) ← nextLine text.length ((text ++ after).drop s) s
      scanLines text.length fuel line i) := by
  obtain ⟨ended, hended, hiff⟩ := endsHeaders_at after hs
  obtain ⟨found, hfound, hiff'⟩ := startsHost_at after hs
  rw [scanLines, bind_of_ok hended, if_neg (fun h ↦ hends (hiff.mp h)),
    bind_of_ok hfound, if_neg (fun h ↦ hhost (hiff'.mp h))]

/-- The search for the next line walks along a line. -/
theorem Walk.nextLine_eq (h : Walk text s d) :
    nextLine text.length ((text ++ after).drop s) s =
      nextLine text.length ((text ++ after).drop d) d := by
  obtain ⟨n, rfl⟩ := Nat.exists_eq_add_of_le h.le
  induction n with
  | zero => rfl
  | succ n ih =>
    have hin : s + n + 1 < text.length := h.inside
    have hclear : Clear text (s + n + 1) := h.clear _ (by omega) (Nat.le_refl _)
    have hshort : Walk text s (s + n) :=
      ⟨Nat.le_add_right s n, Nat.lt_of_succ_lt hin, fun e hse hed ↦ h.line e hse (by omega),
        fun j hsj hjd ↦ h.clear j hsj (by omega)⟩
    have hc := List.getElem?_eq_getElem (Nat.lt_of_succ_lt hin)
    have hlf : text[s + n] ≠ 10 := fun hlf ↦
      h.line (s + n) (Nat.le_add_right s n) (by omega) (by rw [hc, hlf])
    rw [ih hshort, drop_eq_cons hc, nextLine, bind_of_ok (consumed_clear hin hclear), if_neg hlf]
    rfl

/-- A line feed that may be passed leads to the next line. -/
theorem Walk.nextLine_passes (h : Walk text s d) (hlf : text[d]? = some 10)
    (hin : d + 1 < text.length) (hclear : Clear text (d + 1)) :
    nextLine text.length ((text ++ after).drop s) s =
      .ok ((text ++ after).drop (d + 1), d + 1) := by
  rw [h.nextLine_eq, drop_eq_cons hlf, nextLine, bind_of_ok (consumed_clear hin hclear),
    if_pos rfl]
  rfl

/-- A position that may not be arrived at ends the scan. -/
theorem Walk.nextLine_barred (h : Walk text s d) (hin : d + 1 < text.length)
    (hclear : ¬ Clear text (d + 1)) :
    nextLine text.length ((text ++ after).drop s) s = .error .error := by
  have hc := List.getElem?_eq_getElem h.inside
  rw [h.nextLine_eq, drop_eq_cons hc, nextLine]
  exact bind_of_error (consumed_not_clear hin hclear) _

/-- Behind the byte that follows the payload there is no further line. -/
private theorem nextLine_past {payloadLen : Nat} (c : UInt8) (rest : List UInt8) :
    nextLine payloadLen (c :: rest) payloadLen = .error .error :=
  bind_of_error (by unfold consumed; exact if_pos (Nat.lt_succ_self payloadLen)) _

/-- At the end of the payload the scan ends. -/
private theorem scanLines_past {payloadLen : Nat} (c : UInt8) (rest : List UInt8) :
    scanLines payloadLen (fuel + 1) (c :: rest) payloadLen = .error .error := by
  have hends : endsHeaders payloadLen (c :: rest) payloadLen = .ok false := by
    unfold endsHeaders
    exact if_neg (by omega)
  have hhost : startsHost payloadLen (c :: rest) payloadLen = .ok false := by
    unfold startsHost
    exact if_neg (by omega)
  rw [scanLines, bind_of_ok hends, if_neg Bool.false_ne_true, bind_of_ok hhost,
    if_neg Bool.false_ne_true]
  exact bind_of_error (nextLine_past c rest) _

/-- If a byte follows the payload, a last line that decides nothing ends the scan. -/
theorem Walk.scan_off {next : UInt8} (h : Walk text s d) (hlast : d + 1 = text.length) :
    (do
      let (line, i) ← nextLine text.length ((text ++ next :: after).drop s) s
      scanLines text.length (fuel + 1) line i) = .error .error := by
  have hc := List.getElem?_eq_getElem h.inside
  have hend : (text ++ next :: after).drop (d + 1) = next :: after := by rw [hlast, List.drop_left]
  rw [h.nextLine_eq, drop_eq_cons hc, hend, nextLine]
  obtain ⟨hok, _⟩ | herror := consumed_cons text.length (d + 1) next after
  · rw [bind_of_ok hok, hlast]
    split
    · exact scanLines_past next after
    · exact bind_of_error (nextLine_past next after) _
  · rw [bind_of_error herror]
    rfl

/-- If the memory ends with the payload, a last line that decides nothing is read too far. -/
theorem Walk.nextLine_off (h : Walk text s d) (hlast : d + 1 = text.length) :
    nextLine text.length ((text ++ []).drop s) s = .error (.fault .outOfBounds) := by
  have hc := List.getElem?_eq_getElem h.inside
  have hend : (text ++ []).drop (d + 1) = [] := by rw [hlast, List.drop_left]
  rw [h.nextLine_eq, drop_eq_cons hc, hend, nextLine]
  refine bind_of_error ?_ _
  rw [consumed, if_neg (by omega)]

/-- A walk goes on to a line feed, to a position that may not be arrived at, or to the end of
the text. -/
theorem exists_walk (hs : s < text.length) :
    ∃ d, Walk text s d ∧ (d + 1 = text.length ∨ d + 1 < text.length ∧
      (¬ Clear text (d + 1) ∨ text[d]? = some 10 ∧ Clear text (d + 1))) := by
  induction hn : text.length - s generalizing s with
  | zero => omega
  | succ n ih =>
    have hself : Walk text s s :=
      ⟨Nat.le_refl s, hs, fun e hse hes ↦ absurd hes (by omega),
        fun j hsj hjs ↦ absurd hjs (by omega)⟩
    by_cases hlast : s + 1 = text.length
    · exact ⟨s, hself, .inl hlast⟩
    by_cases hclear : Clear text (s + 1)
    · by_cases hlf : text[s]? = some 10
      · exact ⟨s, hself, .inr ⟨by omega, .inr ⟨hlf, hclear⟩⟩⟩
      · obtain ⟨d, hwalk, hstop⟩ := ih (s := s + 1) (by omega) (by omega)
        refine ⟨d, ⟨by have := hwalk.le; omega, hwalk.inside, ?_, ?_⟩, hstop⟩
        · intro e hse hed
          by_cases he : e = s
          · rwa [he]
          · exact hwalk.line e (by omega) hed
        · intro j hsj hjd
          by_cases hj : j = s + 1
          · rwa [hj]
          · exact hwalk.clear j (by omega) hjd
    · exact ⟨s, hself, .inr ⟨by omega, .inl hclear⟩⟩

end Round

/-! ### Round after round -/

/-- The scan arrives at the line that starts at `t`: no line in front of it decides, and every
position up to it may be arrived at. -/
structure Reached (text : List UInt8) (t : Nat) : Prop where
  start : LineStart text t
  undecided : ∀ e, LineStart text e → e < t → ¬ EndsHeadersAt text e ∧ ¬ HostLineAt text e
  clear : ∀ j, 0 < j → j ≤ t → Clear text j

section Rounds

variable {text after : List UInt8} {s d t fuel : Nat}

/-- The scan starts at the first line. -/
theorem reached_zero (hne : text ≠ []) : Reached text 0 :=
  ⟨⟨List.length_pos_iff.mpr hne, nofun⟩, fun _ _ he ↦ absurd he (Nat.not_lt_zero _),
    fun _ hpos hj ↦ absurd hj (Nat.not_le.mpr hpos)⟩

/-- Behind a line feed starts the next line. -/
theorem lineStart_succ (hlf : text[d]? = some 10) (hin : d + 1 < text.length) :
    LineStart text (d + 1) :=
  ⟨hin, fun _ he ↦ Nat.succ.inj he ▸ hlf⟩

/-- Along a walk no line starts. -/
theorem Walk.lt_of_lineStart (h : Walk text s d) (hst : s < t) (ht : LineStart text t) :
    d < t := by
  by_contra hle
  obtain ⟨e, rfl⟩ := Nat.exists_eq_succ_of_ne_zero (show t ≠ 0 by omega)
  exact h.line e (by omega) (by omega) (ht.2 e rfl)

/-- From a line that does not decide the scan arrives at the next one. -/
theorem Reached.next (h : Reached text s) (hends : ¬ EndsHeadersAt text s)
    (hhost : ¬ HostLineAt text s) (hwalk : Walk text s d) (hlf : text[d]? = some 10)
    (hin : d + 1 < text.length) (hclear : Clear text (d + 1)) : Reached text (d + 1) where
  start := lineStart_succ hlf hin
  undecided := by
    intro e he hed
    rcases Nat.lt_trichotomy e s with hes | rfl | hse
    · exact h.undecided e he hes
    · exact ⟨hends, hhost⟩
    · have := hwalk.lt_of_lineStart hse he
      omega
  clear := by
    intro j hpos hj
    by_cases hjs : j ≤ s
    · exact h.clear j hpos hjs
    · by_cases hjd : j ≤ d
      · exact hwalk.clear j (by omega) hjd
      · rwa [show j = d + 1 by omega]

/-- A walk from a line in front of a line that is reached leads to a line feed. -/
theorem Reached.exists_walk_to (h : Reached text t) (hs : LineStart text s) (hst : s < t) :
    ∃ d, Walk text s d ∧ d < t ∧ text[d]? = some 10 ∧ d + 1 < text.length := by
  have ht := h.start.1
  obtain ⟨d, hwalk, hstop⟩ := exists_walk hs.1
  have hdt := hwalk.lt_of_lineStart hst h.start
  obtain hlast | ⟨hin, hbarred | ⟨hlf, _⟩⟩ := hstop
  · omega
  · exact absurd (h.clear (d + 1) (Nat.succ_pos d) hdt) hbarred
  · exact ⟨d, hwalk, hdt, hlf, hin⟩

/-- A line that does not decide leads to the next one. -/
theorem scanLines_passes (hends : ¬ EndsHeadersAt text s) (hhost : ¬ HostLineAt text s)
    (hwalk : Walk text s d) (hlf : text[d]? = some 10) (hin : d + 1 < text.length)
    (hclear : Clear text (d + 1)) :
    scanLines text.length (fuel + 1) ((text ++ after).drop s) s =
      scanLines text.length fuel ((text ++ after).drop (d + 1)) (d + 1) := by
  rw [scanLines_nextLine (Nat.lt_of_le_of_lt hwalk.le hwalk.inside) hends hhost,
    bind_of_ok (hwalk.nextLine_passes hlf hin hclear)]

/-- The scan goes on to every line that is reached. -/
theorem Reached.scanLines_eq (h : Reached text t) (hs : LineStart text s) (hst : s ≤ t)
    (hfuel : t < s + fuel) :
    ∃ fuel', scanLines text.length fuel ((text ++ after).drop s) s =
      scanLines text.length (fuel' + 1) ((text ++ after).drop t) t := by
  induction fuel generalizing s with
  | zero => omega
  | succ fuel ih =>
    rcases Nat.eq_or_lt_of_le hst with rfl | hlt
    · exact ⟨fuel, rfl⟩
    · obtain ⟨hends, hhost⟩ := h.undecided s hs hlt
      obtain ⟨d, hwalk, hdt, hlf, hin⟩ := h.exists_walk_to hs hlt
      have hsd := hwalk.le
      rw [scanLines_passes hends hhost hwalk hlf hin (h.clear (d + 1) (Nat.succ_pos d) hdt)]
      exact ih (lineStart_succ hlf hin) hdt (by omega)

end Rounds

/-! ### Reading the host -/

section Host

variable {text after : List UInt8} {s p k : Nat}

/-- Arrive at a position behind the colon and skip the spaces. -/
def skipSpacesFrom (payloadLen : Nat) (line : List UInt8) (i : Nat) :
    Except ScanExit (List UInt8 × Nat) := do
  consumed payloadLen line i
  skipSpaces payloadLen line i

/-- The host of a line is what is read behind the spaces. -/
theorem hostOfLine_eq (payloadLen : Nat) (line : List UInt8) (i : Nat) :
    hostOfLine payloadLen line i = (do
      let (line, i) ← skipSpacesFrom payloadLen (line.drop 5) (i + 5)
      readHostName payloadLen line i []) := by
  rw [hostOfLine, skipSpacesFrom, bind_assoc]

/-- A position that may not be arrived at ends the scan. -/
theorem skipSpacesFrom_barred (hin : p < text.length) (hclear : ¬ Clear text p) :
    skipSpacesFrom text.length ((text ++ after).drop p) p = .error .error :=
  bind_of_error (consumed_not_clear hin hclear) _

/-- Spaces are skipped up to the first other byte. -/
theorem skipSpacesFrom_stop (hin : p < text.length) (hclear : Clear text p)
    (hother : text[p]? ≠ some 32) :
    skipSpacesFrom text.length ((text ++ after).drop p) p = .ok ((text ++ after).drop p, p) := by
  have hc := List.getElem?_eq_getElem hin
  have hne : text[p] ≠ 32 := fun heq ↦ hother (by rw [hc, heq])
  rw [skipSpacesFrom, bind_of_ok (consumed_clear hin hclear), drop_eq_cons hc, skipSpaces,
    if_neg hne]

/-- Spaces that may be passed are skipped. -/
theorem skipSpacesFrom_spaces (hin : p + k ≤ text.length)
    (hspaces : ∀ j, j < k → text[p + j]? = some 32) (hclear : ∀ j, j < k → Clear text (p + j)) :
    skipSpacesFrom text.length ((text ++ after).drop p) p =
      skipSpacesFrom text.length ((text ++ after).drop (p + k)) (p + k) := by
  induction k with
  | zero => rfl
  | succ k ih =>
    have hlt : p + k < text.length := by omega
    rw [ih (by omega) (fun j hj ↦ hspaces j (by omega)) (fun j hj ↦ hclear j (by omega)),
      skipSpacesFrom, bind_of_ok (consumed_clear hlt (hclear k (by omega))),
      drop_eq_cons (hspaces k (by omega)), skipSpaces, if_pos rfl]
    rfl

/-- A name that ends in front of the end of the payload is read without a look behind it; the
block has room for 256 characters. -/
theorem readHostName_inside {payloadLen i : Nat} {u name : List UInt8}
    (hlen : i + u.length = payloadLen) (hname : name.length ≤ 256)
    (hends : u.takeWhile isHostChar ≠ u) :
    readHostName payloadLen (u ++ after) i name =
      terminated ((name ++ u.takeWhile isHostChar).take 256) := by
  induction u generalizing i name with
  | nil => exact absurd rfl hends
  | cons c u ih =>
    rw [List.length_cons] at hlen
    rw [List.cons_append, readHostName, if_pos (by omega)]
    by_cases hc : isHostChar c = true
    · rw [List.takeWhile_cons_of_pos hc] at hends ⊢
      by_cases hroom : name.length ≤ 255
      · rw [if_pos ⟨hc, hroom⟩, ih (by omega) (by simp; omega) (by simpa using hends),
          List.append_assoc, List.singleton_append]
      · rw [if_neg (fun h ↦ hroom h.2), List.take_append_of_le_length (by omega),
          List.take_of_length_le hname]
    · rw [List.takeWhile_cons_of_neg hc, if_neg (fun h ↦ hc h.1), List.append_nil,
        List.take_of_length_le hname]

/-- Behind the byte that follows the payload nothing is read. -/
private theorem readHostName_past {payloadLen i : Nat} (h : payloadLen < i)
    (line name : List UInt8) : readHostName payloadLen line i name = terminated name := by
  unfold readHostName
  exact if_neg (Nat.not_le.mpr h)

/-- Of a name that goes on to the end of the payload the byte behind it may be read as well. -/
theorem readHostName_behind {payloadLen i : Nat} {u name : List UInt8} {next : UInt8}
    (hlen : i + u.length = payloadLen) (hname : name.length ≤ 256)
    (hall : u.takeWhile isHostChar = u) :
    readHostName payloadLen (u ++ next :: after) i name =
      terminated ((name ++ (u ++ [next]).takeWhile isHostChar).take 256) := by
  induction u generalizing i name with
  | nil =>
    rw [List.length_nil, Nat.add_zero] at hlen
    rw [List.nil_append, List.nil_append, readHostName, if_pos (Nat.le_of_eq hlen)]
    by_cases hc : isHostChar next = true
    · rw [List.takeWhile_cons_of_pos hc, List.takeWhile_nil]
      by_cases hroom : name.length ≤ 255
      · rw [if_pos ⟨hc, hroom⟩, readHostName_past (by omega),
          List.take_of_length_le (by simp; omega)]
      · rw [if_neg (fun h ↦ hroom h.2), List.take_append_of_le_length (by omega),
          List.take_of_length_le hname]
    · rw [List.takeWhile_cons_of_neg hc, if_neg (fun h ↦ hc h.1), List.append_nil,
        List.take_of_length_le hname]
  | cons c u ih =>
    rw [List.length_cons] at hlen
    have hc : isHostChar c = true := List.takeWhile_eq_self_iff.mp hall c List.mem_cons_self
    rw [List.takeWhile_cons_of_pos hc, List.cons.injEq] at hall
    rw [List.cons_append, List.cons_append, readHostName, if_pos (by omega),
      List.takeWhile_cons_of_pos hc]
    by_cases hroom : name.length ≤ 255
    · rw [if_pos ⟨hc, hroom⟩, ih (by omega) (by simp; omega) hall.2,
        List.append_assoc, List.singleton_append]
    · rw [if_neg (fun h ↦ hroom h.2), List.take_append_of_le_length (by omega),
        List.take_of_length_le hname]

/-- If the memory ends with the payload, a name that goes on to its end is read too far or does
not fit. -/
theorem readHostName_off {payloadLen i : Nat} {u name : List UInt8}
    (hlen : i + u.length = payloadLen) (hname : name.length ≤ 256)
    (hall : u.takeWhile isHostChar = u) :
    readHostName payloadLen u i name = .error (.fault .outOfBounds) := by
  induction u generalizing i name with
  | nil =>
    rw [List.length_nil, Nat.add_zero] at hlen
    rw [readHostName, if_pos (Nat.le_of_eq hlen)]
  | cons c u ih =>
    rw [List.length_cons] at hlen
    have hc : isHostChar c = true := List.takeWhile_eq_self_iff.mp hall c List.mem_cons_self
    rw [List.takeWhile_cons_of_pos hc, List.cons.injEq] at hall
    rw [readHostName, if_pos (by omega)]
    by_cases hroom : name.length ≤ 255
    · rw [if_pos ⟨hc, hroom⟩, ih (by omega) (by simp; omega) hall.2]
    · rw [if_neg (fun h ↦ hroom h.2), terminated, if_neg (by rw [posixHostNameMax]; omega)]

end Host

end FfProxy
