import FfProxy.Base.Simulation
import FfProxy.Parser.Chunk

/-!
# The destination of a request

`ff_http_get_destination_host`, `src/http.c:378–455`, looks for the Host header in the payload.
The pointer `line` is the memory from there on and `i` is its distance from the start of the
payload. The scan goes from line to line, and only line feeds end a line.
-/

namespace FfProxy
open Base

/-- `FF_HTTP_HOST_HEADER_MAX_SEARCH_LENGTH`, `src/http_p.h:7`. -/
def hostHeaderMaxSearchLength : Nat := 8096

/-- `_POSIX_HOST_NAME_MAX`. -/
def posixHostNameMax : Nat := 255

/-- How the scan ends without a host: the jump to `error`, or a fault. -/
inductive ScanExit
  | error
  | fault (f : Fault)
  deriving DecidableEq, Repr

/-- `*line`. -/
def currentChar : List UInt8 → Except ScanExit UInt8
  | [] => .error (.fault .outOfBounds)
  | c :: _ => .ok c

/-- The checks of `FF_HTTP_DESTINATION_CONSUME_CHAR`, `src/http.c:390–399`, once `line` and `i`
have moved. -/
def consumed (payloadLen : Nat) (line : List UInt8) (i : Nat) : Except ScanExit Unit :=
  if payloadLen < i then .error .error
  else
    match line with
    | [] => .error (.fault .outOfBounds)
    | c :: _ =>
      if c = 0 then .error .error
      else if hostHeaderMaxSearchLength ≤ i then .error .error
      else .ok ()

/-- The characters of a host name; `isalnum` in the C locale. -/
def isHostChar (c : UInt8) : Bool :=
  c == 46 || c == 45 || (48 ≤ c && c ≤ 57) || (65 ≤ c && c ≤ 90) || (97 ≤ c && c ≤ 122)

/-- The character in front of a host that is skipped. -/
def isSpace (c : UInt8) : Bool := c == 32

/-- `tolower` in the C locale. -/
def toLower (c : UInt8) : UInt8 := if 65 ≤ c ∧ c ≤ 90 then c + 32 else c

/-- `strncasecmp(line, s, strlen(s)) == 0` for a lower case `s`. -/
def startsWithIgnoringCase : List UInt8 → List UInt8 → Except ScanExit Bool
  | _, [] => .ok true
  | [], _ :: _ => .error (.fault .outOfBounds)
  | c :: line, d :: s => if toLower c = d then startsWithIgnoringCase line s else .ok false

/-- The text `"host:"`. -/
def hostPrefix : List UInt8 := ascii ['h', 'o', 's', 't', ':']

/-- The test for the end of the headers, `src/http.c:408`. Whenever it is made, `i` has not
passed the payload. -/
def endsHeaders (payloadLen : Nat) (line : List UInt8) (i : Nat) : Except ScanExit Bool :=
  if 2 < payloadLen - i ∧ i ≠ 0 then
    match line with
    | [] => .error (.fault .outOfBounds)
    | c :: rest =>
      if c = 10 then .ok true
      else if c = 13 then (currentChar rest).map (· == 10)
      else .ok false
  else .ok false

/-- The test for the Host header, `src/http.c:415`. -/
def startsHost (payloadLen : Nat) (line : List UInt8) (i : Nat) : Except ScanExit Bool :=
  if 5 < payloadLen - i then startsWithIgnoringCase line hostPrefix else .ok false

/-- The loop over the spaces in front of the host, `src/http.c:419–422`. -/
def skipSpaces (payloadLen : Nat) : List UInt8 → Nat → Except ScanExit (List UInt8 × Nat)
  | [], _ => .error (.fault .outOfBounds)
  | c :: rest, i =>
    if c = 32 then do
      consumed payloadLen rest (i + 1)
      skipSpaces payloadLen rest (i + 1)
    else .ok (c :: rest, i)

/-- The store of the terminator into the block of `_POSIX_HOST_NAME_MAX + 1` bytes,
`src/http.c:435`. -/
def terminated (hostName : List UInt8) : Except ScanExit (List UInt8) :=
  if hostName.length < posixHostNameMax + 1 then .ok hostName else .error (.fault .outOfBounds)

/-- The loop over the characters of the host, `src/http.c:427–435`. A character is stored at an
index of at most 255. -/
def readHostName (payloadLen : Nat) :
    List UInt8 → Nat → List UInt8 → Except ScanExit (List UInt8)
  | line, i, hostName =>
    if i ≤ payloadLen then
      match line with
      | [] => .error (.fault .outOfBounds)
      | c :: rest =>
        if isHostChar c ∧ hostName.length ≤ 255 then
          readHostName payloadLen rest (i + 1) (hostName ++ [c])
        else terminated hostName
    else terminated hostName

/-- What is read from a line with the Host header, `src/http.c:417–436`. -/
def hostOfLine (payloadLen : Nat) (line : List UInt8) (i : Nat) :
    Except ScanExit (List UInt8) := do
  consumed payloadLen (line.drop 5) (i + 5)
  let (line, i) ← skipSpaces payloadLen (line.drop 5) (i + 5)
  readHostName payloadLen line i []

/-- The step to the next line, `src/http.c:440–445`. -/
def nextLine (payloadLen : Nat) : List UInt8 → Nat → Except ScanExit (List UInt8 × Nat)
  | [], _ => .error (.fault .outOfBounds)
  | c :: rest, i => do
    consumed payloadLen rest (i + 1)
    if c = 10 then return (rest, i + 1) else nextLine payloadLen rest (i + 1)

/-- The loop over the lines, `src/http.c:406–446`. -/
def scanLines (payloadLen : Nat) : Nat → List UInt8 → Nat → Except ScanExit (List UInt8)
  | 0, _, _ => .error (.fault .divergence)
  | fuel + 1, line, i => do
    let ended ← endsHeaders payloadLen line i
    if ended then .error .error
    else do
      let found ← startsHost payloadLen line i
      if found then hostOfLine payloadLen line i
      else do
        let (line, i) ← nextLine payloadLen line i
        scanLines payloadLen fuel line i

/-- The scan of a payload at the start of a block, `src/http.c:383–446`. The search limit
bounds the number of lines. -/
def scanPayload (mem : List UInt8) (payloadLen : Nat) : Except ScanExit (List UInt8) :=
  if payloadLen = 0 then do
    consumed payloadLen (mem.drop 1) 1
    scanLines payloadLen hostHeaderMaxSearchLength (mem.drop 1) 1
  else scanLines payloadLen hostHeaderMaxSearchLength mem 0

/-- What is returned at the end of a scan, `src/http.c:448–454`. -/
def hostFound : Except ScanExit (List UInt8) → Except Fault (Option (List UInt8))
  | .ok hostName => .ok (some hostName)
  | .error .error => .ok none
  | .error (.fault f) => .error f

/-- `ff_http_get_destination_host`, `src/http.c:378–455`. -/
def ffHttpGetDestinationHost (r : Request) : Except Fault (Option (List UInt8)) :=
  match r.payload with
  | [] => .error .nullDereference
  | node :: _ => hostFound (scanPayload node.value r.payloadLength.toNat)

/-- A host is returned exactly when the scan finds it. -/
theorem ffHttpGetDestinationHost_eq_some_iff {r : Request} {node : PayloadNode}
    {nodes : List PayloadNode} (hp : r.payload = node :: nodes) {h : List UInt8} :
    ffHttpGetDestinationHost r = .ok (some h) ↔
      scanPayload node.value r.payloadLength.toNat = .ok h := by
  rw [ffHttpGetDestinationHost, hp]
  dsimp only
  cases scanPayload node.value r.payloadLength.toNat with
  | ok hostName => rw [hostFound, Except.ok.injEq, Option.some.injEq, Except.ok.injEq]
  | error e => cases e <;> simp [hostFound]

/-! ### The scan ends -/

/-- The computation does not run out of fuel. -/
def Ends {α : Type} (x : Except ScanExit α) : Prop := x ≠ .error (.fault .divergence)

theorem Ends.bind {α β : Type} {x : Except ScanExit α} {f : α → Except ScanExit β} (hx : Ends x)
    (hf : ∀ a, x = .ok a → Ends (f a)) : Ends (x >>= f) := by
  cases x with
  | error e => exact fun h ↦ hx (by cases h; rfl)
  | ok a => exact hf a rfl

theorem ends_consumed (payloadLen : Nat) (line : List UInt8) (i : Nat) :
    Ends (consumed payloadLen line i) := by
  unfold consumed Ends
  split
  · simp
  split
  · simp
  split
  · simp
  split <;> simp

theorem ends_startsWithIgnoringCase (line s : List UInt8) :
    Ends (startsWithIgnoringCase line s) := by
  fun_induction startsWithIgnoringCase line s with
  | case1 => exact nofun
  | case2 => exact nofun
  | case3 _ _ _ ih => exact ih
  | case4 => exact nofun

theorem ends_endsHeaders (payloadLen : Nat) (line : List UInt8) (i : Nat) :
    Ends (endsHeaders payloadLen line i) := by
  unfold endsHeaders
  split
  · split
    · exact nofun
    · next c rest =>
      split
      · exact nofun
      · split
        · cases rest <;> exact nofun
        · exact nofun
  · exact nofun

theorem ends_startsHost (payloadLen : Nat) (line : List UInt8) (i : Nat) :
    Ends (startsHost payloadLen line i) := by
  unfold startsHost
  split
  · exact ends_startsWithIgnoringCase _ _
  · exact nofun

theorem ends_skipSpaces (payloadLen : Nat) (line : List UInt8) (i : Nat) :
    Ends (skipSpaces payloadLen line i) := by
  induction line generalizing i with
  | nil => exact nofun
  | cons c rest ih =>
    rw [skipSpaces]
    split
    · exact (ends_consumed _ _ _).bind fun _ _ ↦ ih _
    · exact nofun

theorem ends_terminated (hostName : List UInt8) : Ends (terminated hostName) := by
  unfold terminated
  split <;> exact nofun

theorem ends_readHostName (payloadLen : Nat) (line : List UInt8) (i : Nat)
    (hostName : List UInt8) : Ends (readHostName payloadLen line i hostName) := by
  induction line generalizing i hostName with
  | nil =>
    unfold readHostName
    split
    · exact nofun
    · exact ends_terminated _
  | cons c rest ih =>
    unfold readHostName
    split
    · dsimp only
      split
      · exact ih _ _
      · exact ends_terminated _
    · exact ends_terminated _

theorem ends_hostOfLine (payloadLen : Nat) (line : List UInt8) (i : Nat) :
    Ends (hostOfLine payloadLen line i) :=
  (ends_consumed _ _ _).bind fun _ _ ↦ (ends_skipSpaces _ _ _).bind fun _ _ ↦
    ends_readHostName _ _ _ _

theorem ends_nextLine (payloadLen : Nat) (line : List UInt8) (i : Nat) :
    Ends (nextLine payloadLen line i) := by
  induction line generalizing i with
  | nil => exact nofun
  | cons c rest ih =>
    refine (ends_consumed _ _ _).bind fun _ _ ↦ ?_
    split
    · exact nofun
    · exact ih _

theorem lt_limit_of_consumed {payloadLen i : Nat} {line : List UInt8}
    (h : consumed payloadLen line i = .ok ()) : i < hostHeaderMaxSearchLength := by
  unfold consumed at h
  split at h
  · cases h
  split at h
  · cases h
  split at h
  · cases h
  split at h
  · cases h
  · omega

/-- The next line is further on and within the limit of the search. -/
theorem lt_of_nextLine {payloadLen i j : Nat} {line line' : List UInt8}
    (h : nextLine payloadLen line i = .ok (line', j)) :
    i < j ∧ j < hostHeaderMaxSearchLength := by
  induction line generalizing i with
  | nil => cases h
  | cons c rest ih =>
    obtain ⟨_, hconsumed, h⟩ := bind_eq_ok h
    split at h
    · cases h
      exact ⟨Nat.lt_succ_self i, lt_limit_of_consumed hconsumed⟩
    · have := ih h
      exact ⟨by omega, this.2⟩

/-- A scan with a round for every position within the limit ends. -/
theorem ends_scanLines {payloadLen fuel i : Nat} (line : List UInt8)
    (hi : i < hostHeaderMaxSearchLength) (hfuel : hostHeaderMaxSearchLength ≤ i + fuel) :
    Ends (scanLines payloadLen fuel line i) := by
  induction fuel generalizing line i with
  | zero => omega
  | succ fuel ih =>
    rw [scanLines]
    refine (ends_endsHeaders _ _ _).bind fun ended _ ↦ ?_
    split
    · exact nofun
    refine (ends_startsHost _ _ _).bind fun found _ ↦ ?_
    split
    · exact ends_hostOfLine _ _ _
    refine (ends_nextLine _ _ _).bind fun next hnext ↦ ?_
    have hlt := lt_of_nextLine hnext
    exact ih _ hlt.2 (by omega)

/-- Every scan ends. -/
theorem ends_scanPayload (mem : List UInt8) (payloadLen : Nat) :
    Ends (scanPayload mem payloadLen) := by
  unfold scanPayload
  split
  · refine (ends_consumed _ _ _).bind fun _ _ ↦ ?_
    exact ends_scanLines _ (by decide) (Nat.le_add_left _ _)
  · exact ends_scanLines _ (by decide) (Nat.le_add_left _ _)

/-! ### One line -/

/-- A line that ends the headers. -/
def isBlank (l : List UInt8) : Bool := l == [] || l == [13]

/-- A line with the Host header. -/
def isHostLine (l : List UInt8) : Bool := (l.take 5).map toLower == hostPrefix

/-- The host that such a line names: the host characters behind the colon and the spaces. -/
def namedHost (l : List UInt8) : List UInt8 :=
  ((l.drop 5).dropWhile isSpace).takeWhile isHostChar

section Line

variable {payloadLen i : Nat} {l rest : List UInt8} {c : UInt8}

theorem consumed_of_ne (hlen : i ≤ payloadLen) (hlimit : i < hostHeaderMaxSearchLength)
    (hc : c ≠ 0) : consumed payloadLen (c :: rest) i = .ok () := by
  rw [consumed, if_neg (by omega), if_neg hc, if_neg (by omega)]

/-- At a character the checks pass or end the scan. -/
theorem consumed_cons (payloadLen i : Nat) (c : UInt8) (rest : List UInt8) :
    consumed payloadLen (c :: rest) i = .ok () ∧ c ≠ 0 ∨
      consumed payloadLen (c :: rest) i = .error .error := by
  rw [consumed]
  split
  · exact .inr rfl
  split
  · exact .inr rfl
  next hc =>
    split
    · exact .inr rfl
    · exact .inl ⟨rfl, hc⟩

theorem consumed_line (h0 : 0 ∉ l) (hlen : i ≤ payloadLen)
    (hlimit : i < hostHeaderMaxSearchLength) :
    consumed payloadLen (l ++ 10 :: rest) i = .ok () := by
  cases l with
  | nil => exact consumed_of_ne hlen hlimit (by decide)
  | cons c l => exact consumed_of_ne hlen hlimit fun hc ↦ h0 (hc ▸ List.mem_cons_self)

/-- Text without line feeds is found in a line only. -/
theorem startsWithIgnoringCase_line (hl : 10 ∉ l) {s : List UInt8} (hs : 10 ∉ s) :
    startsWithIgnoringCase (l ++ 10 :: rest) s = .ok ((l.take s.length).map toLower == s) := by
  induction s generalizing l with
  | nil => cases l <;> rfl
  | cons d s ih =>
    rw [List.mem_cons, not_or] at hs
    cases l with
    | nil =>
      have hd : toLower 10 ≠ d := hs.1
      rw [List.nil_append, startsWithIgnoringCase, if_neg hd]
      rfl
    | cons c l =>
      rw [List.mem_cons, not_or] at hl
      rw [List.cons_append, startsWithIgnoringCase, ih hl.2 hs.2]
      by_cases hc : toLower c = d
      · simp [hc]
      · simp [hc]

/-- A line starts a Host header if it says so. -/
theorem startsHost_line (hl : 10 ∉ l) (hlen : i + 5 < payloadLen) :
    startsHost payloadLen (l ++ 10 :: rest) i = .ok (isHostLine l) := by
  rw [startsHost, if_pos (by omega), startsWithIgnoringCase_line hl (by decide)]
  rfl

/-- A line behind the first one ends the headers if it is blank. -/
theorem endsHeaders_line (hl : 10 ∉ l) (hi : i ≠ 0) (hlen : i + 2 < payloadLen) :
    endsHeaders payloadLen (l ++ 10 :: rest) i = .ok (isBlank l) := by
  have hlater : 2 < payloadLen - i ∧ i ≠ 0 := ⟨by omega, hi⟩
  cases l with
  | nil => rw [List.nil_append, endsHeaders, if_pos hlater, if_pos rfl]; rfl
  | cons c l =>
    rw [List.mem_cons, not_or] at hl
    rw [List.cons_append, endsHeaders, if_pos hlater, if_neg (Ne.symm hl.1)]
    split
    · next hc =>
      subst hc
      cases l with
      | nil => rfl
      | cons d l =>
        rw [List.mem_cons, not_or] at hl
        simp [currentChar, Except.map, isBlank, Ne.symm hl.2.1]
    · next hc => simp [isBlank, hc]

/-- The next line is found if no character in between is zero. -/
theorem nextLine_line (hl : 10 ∉ l) (h0 : 0 ∉ l) (hlen : i + l.length ≤ payloadLen)
    (hlimit : i + l.length < hostHeaderMaxSearchLength) :
    nextLine payloadLen (l ++ 10 :: rest) i = do
      consumed payloadLen rest (i + l.length + 1)
      return (rest, i + l.length + 1) := by
  induction l generalizing i with
  | nil => rfl
  | cons c l ih =>
    rw [List.mem_cons, not_or] at hl h0
    rw [List.length_cons] at hlen hlimit
    rw [List.cons_append, nextLine, bind_of_ok (consumed_line h0.2 (by omega) (by omega)),
      if_neg (Ne.symm hl.1), ih hl.2 h0.2 (by omega) (by omega), List.length_cons,
      Nat.add_right_comm i 1, Nat.add_assoc i _ 1]

/-- A zero in a line, other than its first character, ends the scan. -/
theorem nextLine_zero (hl : 10 ∉ l) (h0 : 0 ∈ l) (hhead : l.head? ≠ some 0) :
    nextLine payloadLen (l ++ rest) i = .error .error := by
  induction l generalizing i with
  | nil => exact absurd h0 List.not_mem_nil
  | cons c l ih =>
    rw [List.mem_cons, not_or] at hl
    have hc : c ≠ 0 := fun hc ↦ hhead (by rw [hc]; rfl)
    rw [List.mem_cons, or_iff_right (Ne.symm hc)] at h0
    cases l with
    | nil => exact absurd h0 List.not_mem_nil
    | cons d l =>
      rw [List.cons_append, List.cons_append, nextLine]
      obtain ⟨hok, hd⟩ | herror := consumed_cons payloadLen (i + 1) d (l ++ rest)
      · rw [bind_of_ok hok, if_neg (Ne.symm hl.1)]
        exact ih hl.2 h0 fun hhead' ↦ hd (Option.some.inj hhead')
      · exact bind_of_error herror _

/-- The spaces in front of a host are skipped, unless a zero follows them. -/
theorem skipSpaces_line {v : List UInt8} (hlen : i + v.length ≤ payloadLen)
    (hlimit : i + (v.takeWhile isSpace).length < hostHeaderMaxSearchLength) :
    (do
      consumed payloadLen (v ++ 10 :: rest) i
      skipSpaces payloadLen (v ++ 10 :: rest) i) =
      if (v.dropWhile isSpace).head? = some 0 then .error .error
      else .ok (v.dropWhile isSpace ++ 10 :: rest, i + (v.takeWhile isSpace).length) := by
  induction v generalizing i with
  | nil =>
    rw [List.length_nil, Nat.add_zero] at hlen
    rw [List.takeWhile_nil, List.length_nil, Nat.add_zero] at hlimit
    rw [List.nil_append, bind_of_ok (consumed_of_ne hlen hlimit (by decide))]
    rfl
  | cons c v ih =>
    rw [List.length_cons] at hlen
    by_cases hc : c = 32
    · subst hc
      rw [List.takeWhile_cons_of_pos (by decide), List.length_cons] at hlimit
      rw [List.cons_append, bind_of_ok (consumed_of_ne (by omega) (by omega) (by decide)),
        skipSpaces, if_pos rfl, ih (by omega) (by omega), List.dropWhile_cons_of_pos (by decide),
        List.takeWhile_cons_of_pos (by decide), List.length_cons, Nat.add_right_comm i 1,
        Nat.add_assoc i _ 1]
    · have hspace : ¬ isSpace c = true := by simpa [isSpace] using hc
      rw [List.dropWhile_cons_of_neg hspace, List.takeWhile_cons_of_neg hspace, List.head?_cons,
        List.cons_append]
      by_cases h0 : c = 0
      · obtain ⟨_, h⟩ | h := consumed_cons payloadLen i c (v ++ 10 :: rest)
        · exact absurd h0 h
        · rw [bind_of_error h, if_pos (by rw [h0])]
      · rw [bind_of_ok (consumed_of_ne (by omega) (by omega) h0), skipSpaces, if_neg hc,
          if_neg (by simpa using h0)]
        rfl

/-- The host characters up to the first other one are read. -/
theorem readHostName_line {u hostName : List UInt8} (hlen : i + u.length ≤ payloadLen)
    (hname : hostName.length ≤ 256) :
    readHostName payloadLen (u ++ 10 :: rest) i hostName =
      terminated (hostName ++ u.takeWhile isHostChar) := by
  induction u generalizing i hostName with
  | nil =>
    rw [List.nil_append, readHostName, if_pos (by simpa using hlen), List.takeWhile_nil,
      List.append_nil]
    rfl
  | cons c u ih =>
    rw [List.length_cons] at hlen
    rw [List.cons_append, readHostName, if_pos (by omega)]
    by_cases hc : isHostChar c = true
    · rw [List.takeWhile_cons_of_pos hc]
      by_cases hroom : hostName.length ≤ 255
      · rw [if_pos ⟨hc, hroom⟩, ih (by omega) (by simp; omega), List.append_assoc,
          List.singleton_append]
      · -- The block is full.
        have hfull : ¬ hostName.length < posixHostNameMax + 1 := by
          rw [posixHostNameMax]
          omega
        rw [if_neg (fun h ↦ hroom h.2), terminated, terminated, if_neg hfull,
          if_neg (by rw [List.length_append]; omega)]
    · rw [List.takeWhile_cons_of_neg hc, if_neg (fun h ↦ hc h.1), List.append_nil]

private theorem five_le_length (h : isHostLine l) : 5 ≤ l.length := by
  have hlen := congrArg List.length (beq_iff_eq.mp h)
  rw [List.length_map, List.length_take, show hostPrefix.length = 5 from rfl] at hlen
  omega

/-- What is read from a line with the Host header. -/
theorem hostOfLine_line (h : isHostLine l) (hlen : i + l.length ≤ payloadLen)
    (hlimit : i + 5 + ((l.drop 5).takeWhile isSpace).length < hostHeaderMaxSearchLength) :
    hostOfLine payloadLen (l ++ 10 :: rest) i =
      if ((l.drop 5).dropWhile isSpace).head? = some 0 then .error .error
      else terminated (namedHost l) := by
  have hfive := five_le_length h
  have hlength : (l.drop 5).length = l.length - 5 := List.length_drop
  rw [hostOfLine, List.drop_append_of_le_length hfive, ← bind_assoc,
    skipSpaces_line (by omega) hlimit]
  split
  · rfl
  · have hsplit : ((l.drop 5).takeWhile isSpace).length + ((l.drop 5).dropWhile isSpace).length =
        (l.drop 5).length := by
      rw [← List.length_append, List.takeWhile_append_dropWhile]
    exact readHostName_line (by omega) (Nat.zero_le _)

/-- A host is read exactly when the line names it. -/
theorem hostOfLine_eq_ok_iff {h : List UInt8} (hne : h ≠ []) (hshort : h.length ≤ posixHostNameMax)
    (hhost : isHostLine l) (hlen : i + l.length ≤ payloadLen)
    (hlimit : i + 5 + ((l.drop 5).takeWhile isSpace).length < hostHeaderMaxSearchLength) :
    hostOfLine payloadLen (l ++ 10 :: rest) i = .ok h ↔ namedHost l = h := by
  rw [hostOfLine_line hhost hlen hlimit]
  split
  · next h0 =>
    -- A zero is not a host character, so the line names nothing.
    refine iff_of_false (by simp) fun heq ↦ hne ?_
    rw [← heq, namedHost]
    cases hv : (l.drop 5).dropWhile isSpace with
    | nil => rfl
    | cons c v =>
      rw [hv, List.head?_cons, Option.some.injEq] at h0
      rw [h0]
      exact List.takeWhile_cons_of_neg (by decide)
  · rw [terminated]
    split
    · rw [Except.ok.injEq]
    · next hlong =>
      refine iff_of_false (by simp) fun heq ↦ hlong ?_
      rw [heq]
      omega

end Line

/-! ### Line after line -/

/-- Arrive at a line and scan on from there. -/
def scanFrom (payloadLen fuel : Nat) (line : List UInt8) (i : Nat) :
    Except ScanExit (List UInt8) := do
  consumed payloadLen line i
  scanLines payloadLen fuel line i

/-- A line that decides the scan: a blank one, one with the Host header or one with a zero. -/
def decides (l : List UInt8) : Bool := isBlank l || isHostLine l || l.contains 0

section Lines

variable {payloadLen fuel i : Nat} {l rest h : List UInt8}

/-- Behind a line without zeros the scan arrives at the next one. -/
theorem nextLine_arrives (hl : 10 ∉ l) (h0 : 0 ∉ l) (hlen : i + l.length ≤ payloadLen)
    (hlimit : i + l.length < hostHeaderMaxSearchLength) :
    (do
      let (line, i) ← nextLine payloadLen (l ++ 10 :: rest) i
      scanLines payloadLen fuel line i) = scanFrom payloadLen fuel rest (i + l.length + 1) := by
  rw [nextLine_line hl h0 hlen hlimit, scanFrom, bind_assoc]
  rfl

/-- A line that does not decide is passed. -/
theorem scanFrom_passes (hl : 10 ∉ l) (hd : decides l = false) (hi : i ≠ 0)
    (hlen : i + l.length + 5 < payloadLen) (hlimit : i + l.length < hostHeaderMaxSearchLength) :
    scanFrom payloadLen (fuel + 1) (l ++ 10 :: rest) i =
      scanFrom payloadLen fuel rest (i + l.length + 1) := by
  obtain ⟨⟨hblank, hhost⟩, h0⟩ : (isBlank l = false ∧ isHostLine l = false) ∧ 0 ∉ l := by
    simpa [decides] using hd
  rw [scanFrom, bind_of_ok (consumed_line h0 (by omega) (by omega)), scanLines,
    bind_of_ok (endsHeaders_line hl hi (by omega)), hblank, if_neg (by decide),
    bind_of_ok (startsHost_line hl (by omega)), hhost, if_neg (by decide)]
  exact nextLine_arrives hl h0 (by omega) hlimit

/-- At a line with the Host header the host is read. -/
theorem scanFrom_hostLine (hl : 10 ∉ l) (hhost : isHostLine l) (hi : i ≠ 0)
    (hlen : i + 5 < payloadLen) (hlimit : i < hostHeaderMaxSearchLength) :
    scanFrom payloadLen (fuel + 1) (l ++ 10 :: rest) i =
      hostOfLine payloadLen (l ++ 10 :: rest) i := by
  have hfive := five_le_length hhost
  have hblank : isBlank l = false := by
    rw [isBlank, Bool.or_eq_false_iff, beq_eq_false_iff_ne, beq_eq_false_iff_ne]
    constructor
    · rintro rfl
      exact absurd hfive (by decide)
    · rintro rfl
      exact absurd hfive (by decide)
  have hconsumed : consumed payloadLen (l ++ 10 :: rest) i = .ok () := by
    cases l with
    | nil => exact absurd hfive (by decide)
    | cons c l =>
      refine consumed_of_ne (by omega) hlimit ?_
      rintro rfl
      have hhead := congrArg List.head? (beq_iff_eq.mp hhost)
      rw [List.take_succ_cons, List.map_cons, List.head?_cons] at hhead
      exact absurd hhead (by decide)
  rw [scanFrom, bind_of_ok hconsumed, scanLines, bind_of_ok (endsHeaders_line hl hi (by omega)),
    hblank, if_neg (by decide), bind_of_ok (startsHost_line hl (by omega)), if_pos hhost]

/-- A line that decides leads to a host exactly when it names it. -/
theorem scanFrom_decides_iff (hne : h ≠ []) (hshort : h.length ≤ posixHostNameMax)
    (hl : 10 ∉ l) (hd : decides l) (hi : i ≠ 0)
    (hlen : i + l.length + 5 < payloadLen) (hlimit : i + l.length < hostHeaderMaxSearchLength) :
    scanFrom payloadLen (fuel + 1) (l ++ 10 :: rest) i = .ok h ↔
      isHostLine l ∧ namedHost l = h := by
  by_cases hhost : isHostLine l
  · have hspaces : ((l.drop 5).takeWhile isSpace).length ≤ (l.drop 5).length :=
      (List.takeWhile_prefix isSpace).length_le
    rw [List.length_drop] at hspaces
    have hfive := five_le_length hhost
    rw [and_iff_right hhost, scanFrom_hostLine hl hhost hi (by omega) (by omega)]
    exact hostOfLine_eq_ok_iff hne hshort hhost (by omega) (by omega)
  · refine iff_of_false (fun hscan ↦ ?_) fun hnamed ↦ hhost hnamed.1
    obtain ⟨_, hconsumed, hscan⟩ := bind_eq_ok hscan
    rw [scanLines, bind_of_ok (endsHeaders_line hl hi (by omega))] at hscan
    by_cases hblank : isBlank l
    · rw [if_pos hblank] at hscan
      cases hscan
    have h0 : 0 ∈ l := by simpa [decides, hblank, hhost] using hd
    rw [if_neg hblank, bind_of_ok (startsHost_line hl (by omega)), if_neg hhost] at hscan
    have hhead : l.head? ≠ some 0 := by
      intro hhead
      obtain ⟨rest', rfl⟩ := List.head?_eq_some_iff.mp hhead
      obtain ⟨_, hzero⟩ | herror := consumed_cons payloadLen i 0 (rest' ++ 10 :: rest)
      · exact hzero rfl
      · rw [List.cons_append, herror] at hconsumed
        cases hconsumed
    rw [bind_of_error (nextLine_zero hl h0 hhead)] at hscan
    cases hscan

/-- The lines of a text followed by a line that names a host lead to it exactly when the first
line that decides names it too. -/
theorem scanFrom_lines_iff {text tail : List UInt8} (hne : h ≠ [])
    (hshort : h.length ≤ posixHostNameMax)
    (htail : ∀ fuel, scanFrom payloadLen (fuel + 1) tail (i + text.length + 1) = .ok h)
    (hi : i ≠ 0) (hlen : i + text.length + 5 < payloadLen)
    (hlimit : i + text.length < hostHeaderMaxSearchLength) (hfuel : text.length + 1 < fuel) :
    scanFrom payloadLen fuel (text ++ 10 :: tail) i = .ok h ↔
      ∀ l, (text.splitOn 10).find? decides = some l → isHostLine l ∧ namedHost l = h := by
  induction hn : text.length using Nat.strong_induction_on generalizing text i fuel with
  | h n ih =>
    subst hn
    obtain ⟨fuel, rfl⟩ := Nat.exists_eq_succ_of_ne_zero (show fuel ≠ 0 by omega)
    by_cases hlf : 10 ∈ text
    · obtain ⟨l, text, rfl, hl⟩ := List.eq_append_cons_of_mem hlf
      rw [List.length_append, List.length_cons] at hlen hlimit hfuel htail
      rw [List.splitOn_append_cons_self_of_not_mem hl, List.append_assoc, List.cons_append,
        List.find?_cons]
      cases hd : decides l with
      | true =>
        rw [scanFrom_decides_iff hne hshort hl hd hi (by omega) (by omega)]
        simp
      | false =>
        rw [scanFrom_passes hl hd hi (by omega) (by omega)]
        refine ih text.length (by simp; omega) (fun fuel ↦ ?_) (by omega) (by omega) (by omega)
          (by omega) rfl
        rw [show i + l.length + 1 + text.length + 1 = i + (l.length + (text.length + 1)) + 1 by
          omega]
        exact htail fuel
    · rw [List.splitOn_eq_singleton hlf, List.find?_singleton]
      cases hd : decides text with
      | true =>
        rw [scanFrom_decides_iff hne hshort hlf hd hi (by omega) (by omega)]
        simp
      | false =>
        obtain ⟨fuel, rfl⟩ := Nat.exists_eq_succ_of_ne_zero (show fuel ≠ 0 by omega)
        rw [scanFrom_passes hlf hd hi (by omega) (by omega), htail]
        simp

/-- The first line is passed unless it holds a zero or starts with `host:`. -/
theorem scanLines_first (hl : 10 ∉ l) (hhost : isHostLine l = false) (hhead : l.head? ≠ some 0)
    (hlen : l.length + 5 < payloadLen) (hlimit : l.length < hostHeaderMaxSearchLength) :
    scanLines payloadLen (fuel + 1) (l ++ 10 :: rest) 0 =
      if 0 ∈ l then .error .error else scanFrom payloadLen fuel rest (l.length + 1) := by
  have hends : endsHeaders payloadLen (l ++ 10 :: rest) 0 = .ok false := by
    unfold endsHeaders
    exact if_neg fun h ↦ h.2 rfl
  rw [scanLines, bind_of_ok hends, if_neg (by decide), bind_of_ok (startsHost_line hl (by omega)),
    hhost, if_neg (by decide)]
  split
  · next h0 => exact bind_of_error (nextLine_zero hl h0 hhead) _
  · next h0 =>
    have harrives : _ = scanFrom payloadLen fuel rest (0 + l.length + 1) :=
      nextLine_arrives hl h0 (by omega) (by omega)
    rw [harrives, Nat.zero_add]

end Lines

end FfProxy
