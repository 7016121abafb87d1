import FfProxy.Http.DestinationHost
import Mathlib.Data.List.TakeWhile

/-!
# The destination of a request of the Java client

`serializeHttpRequest`, `client/java/src/main/java/com/timetoogo/ffclient/FfClient.java:149–203`,
writes the decoded path and the decoded query into the request line. A line feed among them
starts a new line for the scan of the proxy, in front of the Host header that the client writes.
Text stands as its UTF-8 bytes.
-/

namespace FfProxy
open Base

namespace Java

/-- What the getters of `java.net.URI` return: the host, and the path and the query with their
escapes decoded. -/
structure Uri where
  host : Option (List UInt8)
  path : List UInt8
  query : Option (List UInt8)

/-- `HttpRequest.BodyPublisher`: the length that it announces and the bytes that it publishes. -/
structure BodyPublisher where
  contentLength : Int
  body : List UInt8

/-- The characters of a method, the tokens that the builder of `java.net.http` admits. -/
def isTokenChar (c : UInt8) : Bool :=
  (48 ≤ c && c ≤ 57) || (65 ≤ c && c ≤ 90) || (97 ≤ c && c ≤ 122) ||
    [33, 35, 36, 37, 38, 39, 42, 43, 45, 46, 94, 95, 96, 124, 126].contains c

/-- `java.net.http.HttpRequest`. -/
structure HttpRequest where
  method : List UInt8
  uri : Uri
  headers : List (List UInt8 × List (List UInt8))
  bodyPublisher : Option BodyPublisher
  method_ne_nil : method ≠ []
  method_token : ∀ c ∈ method, isTokenChar c

/-- The line of the Host header, `FfClient.java:166–167`. -/
def hostLine (h : List UInt8) : List UInt8 := ascii ['H', 'o', 's', 't', ':'] ++ 32 :: h

namespace HttpRequest

/-- The path and the query of the request line, `FfClient.java:155–161`. -/
def target (request : HttpRequest) : List UInt8 :=
  (if request.uri.path = [] then [47] else request.uri.path) ++
    match request.uri.query with
    | none => []
    | some query => if query = [] then [] else 63 :: query

/-- The request line without its line feed, `FfClient.java:153–163`. -/
def requestLine (request : HttpRequest) : List UInt8 :=
  request.method ++ 32 ::
    (request.target ++ ascii [' ', 'H', 'T', 'T', 'P', '/', '1', '.', '1'])

/-- `FfClient.java:165–169`. -/
def hostHeader (request : HttpRequest) : List UInt8 :=
  match request.uri.host with
  | none => []
  | some host => hostLine host ++ [10]

/-- `FfClient.java:171–176`. -/
def contentLengthHeader (request : HttpRequest) : List UInt8 :=
  match request.bodyPublisher with
  | none => []
  | some publisher =>
    ascii ['C', 'o', 'n', 't', 'e', 'n', 't', '-', 'L', 'e', 'n', 'g', 't', 'h', ':', ' '] ++
      ascii (toString publisher.contentLength).toList ++ [10]

/-- `FfClient.java:178–185`. -/
def otherHeaders (request : HttpRequest) : List UInt8 :=
  request.headers.flatMap fun header ↦
    header.2.flatMap fun value ↦ header.1 ++ ascii [':', ' '] ++ value ++ [10]

/-- `serializeHttpRequest`, `FfClient.java:149–203`. -/
def serializeHttpRequest (request : HttpRequest) : List UInt8 :=
  request.requestLine ++ 10 :: (request.hostHeader ++ (request.contentLengthHeader ++
    (request.otherHeaders ++ 10 :: (request.bodyPublisher.map BodyPublisher.body).getD [])))

/-- The line feeds of the request line do no harm: its first line holds no zero, and the first
further line that decides the scan, if there is one, names the host. -/
def Undiverted (request : HttpRequest) (h : List UInt8) : Prop :=
  ∀ first more, request.requestLine.splitOn 10 = first :: more →
    0 ∉ first ∧ ∀ l, more.find? decides = some l → isHostLine l ∧ namedHost l = h

/-- The Host header follows the request line. -/
theorem serializeHttpRequest_eq (request : HttpRequest) {h : List UInt8}
    (hhost : request.uri.host = some h) :
    ∃ after, request.serializeHttpRequest =
      request.requestLine ++ 10 :: (hostLine h ++ 10 :: after) := by
  refine ⟨request.contentLengthHeader ++ (request.otherHeaders ++
    10 :: (request.bodyPublisher.map BodyPublisher.body).getD []), ?_⟩
  rw [serializeHttpRequest, hostHeader, hhost]
  dsimp only
  rw [List.append_assoc, List.singleton_append]

/-! ### The request line -/

private theorem tokenChar_ne {c d : UInt8} (hc : isTokenChar c) (hd : isTokenChar d = false) :
    c ≠ d := by
  rintro rfl
  rw [hc] at hd
  cases hd

private theorem eq_colon {c : UInt8} (h : toLower c = 58) : c = 58 := by
  unfold toLower at h
  split at h
  · next hc =>
    have hlow := UInt8.le_iff_toNat_le.mp hc.1
    have hsum := congrArg UInt8.toNat h
    rw [UInt8.toNat_add] at hsum
    have hhigh := UInt8.le_iff_toNat_le.mp hc.2
    simp only [UInt8.reduceToNat] at hlow hhigh hsum
    omega
  · exact h

/-- Whatever follows the space behind a method, the line does not start with `host:`. -/
theorem isHostLine_method (request : HttpRequest) (x : List UInt8) :
    isHostLine (request.method ++ 32 :: x) = false := by
  rw [isHostLine, beq_eq_false_iff_ne]
  intro h
  by_cases hlen : 5 ≤ request.method.length
  · -- The colon would be a character of the method.
    rw [List.take_append_of_le_length hlen] at h
    have hmem : 58 ∈ (request.method.take 5).map toLower := by
      rw [h]
      decide
    obtain ⟨c, hc, hcolon⟩ := List.mem_map.mp hmem
    exact tokenChar_ne (request.method_token c (List.mem_of_mem_take hc)) (by decide)
      (eq_colon hcolon)
  · -- The space would be a character of `host:`.
    obtain ⟨n, hn⟩ := Nat.exists_eq_succ_of_ne_zero (show 5 - request.method.length ≠ 0 by omega)
    rw [List.take_append, hn, List.take_succ_cons, List.map_append, List.map_cons] at h
    have hmem : toLower 32 ∈ hostPrefix := by
      rw [← h]
      exact List.mem_append_right _ List.mem_cons_self
    exact absurd hmem (by decide)

/-- The first character of a method is not zero. -/
theorem head_method (request : HttpRequest) (x : List UInt8) :
    (request.method ++ 32 :: x).head? ≠ some 0 := by
  cases hm : request.method with
  | nil => exact absurd hm request.method_ne_nil
  | cons c m =>
    have hc : isTokenChar c := request.method_token c (by rw [hm]; exact List.mem_cons_self)
    rw [List.cons_append, List.head?_cons, Ne, Option.some.injEq]
    exact tokenChar_ne hc (by decide)

/-- The first line of a request line with a line feed holds the method. -/
theorem requestLine_split (request : HttpRequest) (hlf : 10 ∈ request.requestLine) :
    ∃ x text, request.requestLine = (request.method ++ 32 :: x) ++ 10 :: text ∧
      10 ∉ request.method ++ 32 :: x := by
  have hmethod : 10 ∉ request.method := fun hmem ↦
    tokenChar_ne (request.method_token 10 hmem) (by decide) rfl
  rw [requestLine, List.mem_append, or_iff_right hmethod, List.mem_cons,
    or_iff_right (by decide)] at hlf
  obtain ⟨x, text, htext, hx⟩ := List.eq_append_cons_of_mem hlf
  refine ⟨x, text, by rw [requestLine, htext]; simp, ?_⟩
  rw [List.mem_append, List.mem_cons, not_or, not_or]
  exact ⟨hmethod, by decide, hx⟩

/-- What it means for the lines of the request line to do no harm. -/
theorem undiverted_iff (request : HttpRequest) {h first : List UInt8} {more : List (List UInt8)}
    (hsplit : request.requestLine.splitOn 10 = first :: more) :
    request.Undiverted h ↔
      0 ∉ first ∧ ∀ l, more.find? decides = some l → isHostLine l ∧ namedHost l = h := by
  constructor
  · intro hun
    exact hun first more hsplit
  · intro hlines first' more' hsplit'
    rw [hsplit, List.cons.injEq] at hsplit'
    rw [← hsplit'.1, ← hsplit'.2]
    exact hlines

/-- Without line feeds and zeros there is no harm. -/
theorem undiverted_of_notMem (request : HttpRequest) {h : List UInt8}
    (hlf : 10 ∉ request.requestLine) (h0 : 0 ∉ request.requestLine) : request.Undiverted h := by
  rw [request.undiverted_iff (List.splitOn_eq_singleton hlf)]
  exact ⟨h0, fun l hl ↦ by cases hl⟩

end HttpRequest

section HostLine

variable {h : List UInt8} (hchars : ∀ c ∈ h, isHostChar c) (hne : h ≠ [])

include hchars

theorem lf_notMem_hostLine : 10 ∉ hostLine h := by
  intro hmem
  rw [hostLine, List.mem_append, List.mem_cons] at hmem
  obtain hmem | hmem | hmem := hmem
  · exact absurd hmem (by decide)
  · exact absurd hmem (by decide)
  · exact absurd (hchars 10 hmem) (by decide)

include hne

private theorem head_not_space : h.dropWhile isSpace = h ∧ h.takeWhile isSpace = [] := by
  cases h with
  | nil => exact absurd rfl hne
  | cons c h =>
    have hc : ¬ isSpace c = true := by
      intro hspace
      rw [isSpace, beq_iff_eq] at hspace
      exact absurd (hchars c List.mem_cons_self) (by rw [hspace]; decide)
    exact ⟨List.dropWhile_cons_of_neg hc, List.takeWhile_cons_of_neg hc⟩

/-- The Host header names the host. -/
theorem namedHost_hostLine : namedHost (hostLine h) = h := by
  have hdrop : (hostLine h).drop 5 = 32 :: h := rfl
  rw [namedHost, hdrop, List.dropWhile_cons_of_pos (by decide), (head_not_space hchars hne).1,
    List.takeWhile_eq_self_iff]
  exact hchars

/-- The scan finds the host in the Host header. -/
theorem scanFrom_hostHeader {payloadLen fuel i : Nat} {rest : List UInt8} (hi : i ≠ 0)
    (hshort : h.length ≤ posixHostNameMax) (hlen : i + (hostLine h).length ≤ payloadLen)
    (hlimit : i + 6 < hostHeaderMaxSearchLength) :
    scanFrom payloadLen (fuel + 1) (hostLine h ++ 10 :: rest) i = .ok h := by
  have hhost : isHostLine (hostLine h) := rfl
  have hlength : (hostLine h).length = h.length + 6 := by simp [hostLine, ascii]
  have hspaces : (((hostLine h).drop 5).takeWhile isSpace).length = 1 := by
    rw [show (hostLine h).drop 5 = 32 :: h from rfl, List.takeWhile_cons_of_pos (by decide),
      (head_not_space hchars hne).2]
    rfl
  rw [scanFrom_hostLine (lf_notMem_hostLine hchars) hhost hi (by omega) (by omega)]
  exact (hostOfLine_eq_ok_iff hne hshort hhost hlen (by omega)).mpr
    (namedHost_hostLine hchars hne)

end HostLine

/-- The scan of a request line and the Host header behind it. -/
theorem HttpRequest.scanLines_iff (request : HttpRequest) {h rest : List UInt8} {payloadLen : Nat}
    (hchars : ∀ c ∈ h, isHostChar c) (hne : h ≠ []) (hshort : h.length ≤ posixHostNameMax)
    (hline : request.requestLine.length < 8000)
    (hlen : request.requestLine.length + 8 + h.length ≤ payloadLen) :
    scanLines payloadLen hostHeaderMaxSearchLength
        (request.requestLine ++ 10 :: (hostLine h ++ 10 :: rest)) 0 = .ok h ↔
      request.Undiverted h := by
  have hhostLine : (hostLine h).length = h.length + 6 := by simp [hostLine, ascii]
  have hlimit : hostHeaderMaxSearchLength = 8095 + 1 := rfl
  by_cases hlf : 10 ∈ request.requestLine
  · obtain ⟨x, text, hsplit, hx⟩ := request.requestLine_split hlf
    have hlength : request.requestLine.length = (request.method ++ 32 :: x).length +
        (text.length + 1) := by
      rw [hsplit, List.length_append, List.length_cons]
    rw [request.undiverted_iff (by rw [hsplit, List.splitOn_append_cons_self_of_not_mem hx]),
      hsplit, List.append_assoc, List.cons_append, hlimit,
      scanLines_first hx (request.isHostLine_method x) (request.head_method x) (by omega)
        (by rw [hlimit]; omega)]
    by_cases h0 : 0 ∈ request.method ++ 32 :: x
    · rw [if_pos h0]
      exact iff_of_false (by simp) fun hun ↦ hun.1 h0
    · rw [if_neg h0, and_iff_right h0]
      refine scanFrom_lines_iff hne hshort (fun fuel ↦ ?_) (by omega) (by omega)
        (by rw [hlimit]; omega) (by omega)
      exact scanFrom_hostHeader hchars hne (by omega) hshort (by omega) (by rw [hlimit]; omega)
  · rw [request.undiverted_iff (List.splitOn_eq_singleton hlf), hlimit]
    have hx : request.requestLine = request.method ++ 32 :: _ := rfl
    rw [scanLines_first hlf (hx ▸ request.isHostLine_method _) (hx ▸ request.head_method _)
      (by omega) (by rw [hlimit]; omega)]
    by_cases h0 : 0 ∈ request.requestLine
    · rw [if_pos h0]
      exact iff_of_false (by simp) fun hun ↦ hun.1 h0
    · rw [if_neg h0, and_iff_right h0,
        scanFrom_hostHeader hchars hne (by omega) hshort (by omega) (by rw [hlimit]; omega)]
      simp

end Java

/-- The payload of a request starts with these bytes and has their length. -/
def Request.Holds (r : Request) (bytes : List UInt8) : Prop :=
  r.payloadLength.toNat = bytes.length ∧
    ∃ node nodes behind, r.payload = node :: nodes ∧ node.value = bytes ++ behind

/-- The proxy finds the host of a request of the Java client exactly when line feeds and zeros
in the decoded path and query do not divert it. -/
theorem java_destination_iff (request : Java.HttpRequest) {h : List UInt8}
    (hhost : request.uri.host = some h) (hchars : ∀ c ∈ h, isHostChar c) (hne : h ≠ [])
    (hshort : h.length ≤ 255) (hline : request.requestLine.length < 8000) {r : Request}
    (hr : r.Holds request.serializeHttpRequest) :
    ffHttpGetDestinationHost r = .ok (some h) ↔ request.Undiverted h := by
  obtain ⟨hlength, node, nodes, behind, hp, hv⟩ := hr
  obtain ⟨after, hbytes⟩ := request.serializeHttpRequest_eq hhost
  have hhostLine : (Java.hostLine h).length = h.length + 6 := by simp [Java.hostLine, ascii]
  have hlen : request.requestLine.length + 8 + h.length ≤ r.payloadLength.toNat := by
    rw [hlength, hbytes]
    simp only [List.length_append, List.length_cons]
    omega
  rw [ffHttpGetDestinationHost_eq_some_iff hp, hv, hbytes]
  generalize r.payloadLength.toNat = payloadLen at hlen
  simp only [List.append_assoc, List.cons_append]
  rw [scanPayload, if_neg (by omega)]
  exact request.scanLines_iff hchars hne hshort hline hlen

/-- A GET request to the host `a` with the given decoded path. -/
def sampleGet (path : List UInt8) : Java.HttpRequest :=
  ⟨ascii ['G', 'E', 'T'], ⟨some (ascii ['a']), path, none⟩, [], none, by decide,
    List.all_eq_true.mp rfl⟩

/-- A path without line feeds is harmless. -/
theorem java_destination_plain :
    ffHttpGetDestinationHost (holding (sampleGet (ascii ['/', 'x'])).serializeHttpRequest) =
      .ok (some (ascii ['a'])) :=
  (java_destination_iff (sampleGet (ascii ['/', 'x'])) rfl (List.all_eq_true.mp rfl) (by decide)
    (by decide) (by decide) ⟨by decide, _, [], [], rfl, by decide⟩).mpr
      ((sampleGet (ascii ['/', 'x'])).undiverted_of_notMem (by decide) (by decide))

/-- The path `/%0AHost:b` of a request to `a` sends it to `b`. -/
theorem java_destination_diverted :
    (sampleGet (ascii ['/', '\n', 'H', 'o', 's', 't', ':', 'b'])).uri.host = some (ascii ['a']) ∧
    ffHttpGetDestinationHost (holding
        (sampleGet (ascii ['/', '\n', 'H', 'o', 's', 't', ':', 'b'])).serializeHttpRequest) =
      .ok (some (ascii ['b'])) :=
  ⟨rfl, rfl⟩

end FfProxy
