import FfProxy.Base.Simulation
import FfProxy.Base.Text
import Mathlib.Data.List.Perm.Basic

/-!
# The HTTP message of the .NET client

`SerializeHttpMessage` and `NormaliseHttpMessage`, `client/dotnet/src/FfClient.cs:142–215`. The
request line and the headers are put together in a `StringBuilder`, whose length counts UTF-16
units. The buffer of the message is laid out with that length, and as many bytes of the UTF-8
encoding are copied; every byte beyond them is lost.
-/

namespace FfProxy
open Base

namespace DotNet

/-- A `string`: its UTF-16 units. -/
abbrev Text := List UInt16

/-- A literal of the source. -/
def units (text : List Char) : Text := text.map fun c ↦ UInt16.ofNat c.toNat

/-- Text of the first 128 units. -/
def Text.IsAscii (text : Text) : Prop := ∀ u ∈ text, u < 128

instance (text : Text) : Decidable text.IsAscii := List.decidableBAll (· < 128) text

/-- The exceptions that end the serialisation. -/
inductive Exception where
  | nullReference
  | invalidOperation
  | format
  | argument
  | overflow
  | outOfMemory
  deriving DecidableEq, Repr

/-- `Int32.MaxValue`, the largest capacity of a `StringBuilder`. -/
def maxInt : Nat := 0x7FFFFFFF

/-- The length of the longest `byte[]`. -/
def maxArrayLength : Nat := 0x7FFFFFC7

/-- The length of the longest `string`. -/
def maxStringLength : Nat := 0x3FFFFFDF

section Message

/-- An entry of `HttpHeaders`: the name and its values. -/
structure Header where
  key : Text
  values : List Text
  deriving DecidableEq

/-- `HttpContent`: its headers and what `ReadAsByteArrayAsync` returns. -/
structure HttpContent where
  headers : List Header
  bytes : List UInt8
  bytes_le : bytes.length ≤ maxArrayLength

/-- `Uri`: only an absolute one has a host and a path. -/
inductive Uri where
  | relative
  | absolute (host pathAndQuery : Text)

/-- `HttpRequestMessage`. -/
structure HttpRequestMessage where
  method : Text
  requestUri : Option Uri
  headers : List Header
  content : Option HttpContent

/-- The capitals as small letters. -/
def Text.lower (text : Text) : Text := text.map fun u ↦ if 65 ≤ u ∧ u ≤ 90 then u + 32 else u

/-- Names of headers are compared without regard to case. -/
def Header.isNamed (name : Text) (header : Header) : Bool := header.key.lower == name.lower

/-- The entry that the setter of `Headers.Host` writes; an empty host removes the entry. -/
def hostEntry (host : Text) : List Header :=
  if host = [] then [] else [⟨units ['H', 'o', 's', 't'], [host]⟩]

/-- `Content-Length`. -/
def contentLengthName : Text :=
  units ['C', 'o', 'n', 't', 'e', 'n', 't', '-', 'L', 'e', 'n', 'g', 't', 'h']

/-- The header collections of `System.Net.Http` and `Environment.NewLine`. The getter of
`Headers.Host` gives `null` if there is no Host header or none that it can read. A setter
replaces the entries of its name and keeps the others, in the order that the collection gives
them; the setter of `Headers.Host` raises an exception for a text that is no host. -/
structure HttpLibrary where
  newLine : Text
  host : List Header → Option Text
  setHost : List Header → Text → Option (List Header)
  setContentLength : List Header → Nat → List Header
  newLine_cases : newLine = units ['\n'] ∨ newLine = units ['\r', '\n']
  setHost_perm : ∀ {headers headers' : List Header} {name : Text},
    setHost headers name = some headers' →
      headers'.Perm (hostEntry name ++
        headers.filter fun header ↦ !header.isNamed (units ['H', 'o', 's', 't']))
  setContentLength_perm : ∀ (headers : List Header) (n : Nat),
    (setContentLength headers n).Perm (⟨contentLengthName, [units (Nat.toDigits 10 n)]⟩ ::
      headers.filter fun header ↦ !header.isNamed contentLengthName)

end Message

section Source

/-- `RequestUri.Host`. -/
def hostOf (requestUri : Option Uri) : Except Exception Text :=
  match requestUri with
  | none => .error .nullReference
  | some .relative => .error .invalidOperation
  | some (.absolute host _) => .ok host

/-- `RequestUri.PathAndQuery`. -/
def pathAndQueryOf (requestUri : Option Uri) : Except Exception Text :=
  match requestUri with
  | none => .error .nullReference
  | some .relative => .error .invalidOperation
  | some (.absolute _ pathAndQuery) => .ok pathAndQuery

/-- The first part of `NormaliseHttpMessage`, `FfClient.cs:206–209`. -/
def normaliseHost (lib : HttpLibrary) (httpRequest : HttpRequestMessage) :
    Except Exception (List Header) :=
  match lib.host httpRequest.headers with
  | some _ => .ok httpRequest.headers
  | none => do
    let host ← hostOf httpRequest.requestUri
    match lib.setHost httpRequest.headers host with
    | none => .error .format
    | some headers => .ok headers

/-- The second part of `NormaliseHttpMessage`, `FfClient.cs:211–214`. -/
def normaliseContent (lib : HttpLibrary) (content : HttpContent) : HttpContent :=
  { content with headers := lib.setContentLength content.headers content.bytes.length }

/-- `NormaliseHttpMessage`, `FfClient.cs:204–215`. -/
def normaliseHttpMessage (lib : HttpLibrary) (httpRequest : HttpRequestMessage) :
    Except Exception HttpRequestMessage := do
  let headers ← normaliseHost lib httpRequest
  return { httpRequest with headers, content := httpRequest.content.map (normaliseContent lib) }

/-- A `StringBuilder`. -/
structure StringBuilder where
  text : Text
  length_le : text.length ≤ maxInt

/-- `StringBuilder.Append`. -/
def StringBuilder.append (header : StringBuilder) (text : Text) :
    Except Exception StringBuilder :=
  if h : (header.text ++ text).length ≤ maxInt then .ok ⟨header.text ++ text, h⟩
  else .error .outOfMemory

/-- `StringBuilder.ToString`. -/
def StringBuilder.toText (header : StringBuilder) : Except Exception Text :=
  if header.text.length ≤ maxStringLength then .ok header.text else .error .outOfMemory

/-- The loop over the values of one header, `FfClient.cs:163–169`. -/
def appendHeader (lib : HttpLibrary) (header : StringBuilder) (httpHeader : Header) :
    Except Exception StringBuilder :=
  httpHeader.values.foldlM (fun header value ↦ do
    let header ← header.append httpHeader.key
    let header ← header.append (units [':', ' '])
    let header ← header.append value
    header.append lib.newLine) header

/-- The headers of the message and those of its content, `FfClient.cs:154–159`. -/
def HttpRequestMessage.allHeaders (httpRequest : HttpRequestMessage) : List Header :=
  httpRequest.headers ++ (httpRequest.content.map HttpContent.headers).getD []

/-- `httpContentBuffer`, `FfClient.cs:175–177`. -/
def HttpRequestMessage.contentBuffer (httpRequest : HttpRequestMessage) : List UInt8 :=
  (httpRequest.content.map HttpContent.bytes).getD []

/-- The text in front of the content, `FfClient.cs:146–172`. -/
def buildHeader (lib : HttpLibrary) (httpRequest : HttpRequestMessage) :
    Except Exception StringBuilder := do
  let header : StringBuilder := ⟨[], Nat.zero_le _⟩
  let header ← header.append httpRequest.method
  let header ← header.append (units [' '])
  let header ← header.append (← pathAndQueryOf httpRequest.requestUri)
  let header ← header.append (units [' ', 'H', 'T', 'T', 'P', '/', '1', '.', '1'])
  let header ← header.append lib.newLine
  let header ← httpRequest.allHeaders.foldlM (appendHeader lib) header
  header.append lib.newLine

/-- `new byte[length]`. -/
def newByteArray (length : Int) : Except Exception (List UInt8) :=
  if length < 0 then .error .overflow
  else if maxArrayLength < length then .error .outOfMemory
  else .ok (List.replicate length.toNat 0)

/-- `Encoding.UTF8.GetBytes`. -/
def getBytes (text : Text) : Except Exception (List UInt8) :=
  let bytes := utf8 (decodeUtf16 text)
  if maxInt < bytes.length then .error .argument
  else if maxArrayLength < bytes.length then .error .outOfMemory
  else .ok bytes

/-- `Buffer.BlockCopy`. -/
def blockCopy (src : List UInt8) (srcOffset : Nat) (dst : List UInt8) (dstOffset count : Nat) :
    Except Exception (List UInt8) :=
  if srcOffset + count ≤ src.length ∧ dstOffset + count ≤ dst.length then
    .ok (dst.take dstOffset ++ (src.drop srcOffset).take count ++ dst.drop (dstOffset + count))
  else .error .argument

/-- The two copies into the buffer of the message, `FfClient.cs:179–197`. -/
def fillMessage (header : StringBuilder) (httpContentBuffer : List UInt8) :
    Except Exception (List UInt8) := do
  -- The sum of two `int`s, which wraps around.
  let length := ((header.text.length + httpContentBuffer.length : Nat) : Int).bmod 0x100000000
  let message ← newByteArray length
  let message ← blockCopy (← getBytes (← header.toText)) 0 message 0 header.text.length
  blockCopy httpContentBuffer 0 message header.text.length httpContentBuffer.length

/-- `SerializeHttpMessage`, `FfClient.cs:142–202`. -/
def serializeHttpMessage (lib : HttpLibrary) (httpRequest : HttpRequestMessage) :
    Except Exception (List UInt8) := do
  let httpRequest ← normaliseHttpMessage lib httpRequest
  let header ← buildHeader lib httpRequest
  fillMessage header httpRequest.contentBuffer

end Source

section Specification

/-- The line of one value of a header. -/
def headerLine (lib : HttpLibrary) (key value : Text) : Text :=
  key ++ (units [':', ' '] ++ (value ++ lib.newLine))

/-- The request line, the header lines and the blank line. -/
def head (lib : HttpLibrary) (method pathAndQuery : Text) (headers : List Header) : Text :=
  method ++ (units [' '] ++ (pathAndQuery ++
    (units [' ', 'H', 'T', 'T', 'P', '/', '1', '.', '1'] ++ (lib.newLine ++
      (headers.flatMap (fun header ↦ header.values.flatMap (headerLine lib header.key)) ++
        lib.newLine)))))

/-- The serialised message is the UTF-8 encoding of the request line, of the lines of the headers
as they are normalised and of the blank line, with the whole content behind them. -/
def SerializesFully (lib : HttpLibrary) (httpRequest : HttpRequestMessage) : Prop :=
  ∃ host pathAndQuery normalised,
    httpRequest.requestUri = some (.absolute host pathAndQuery) ∧
    normaliseHttpMessage lib httpRequest = .ok normalised ∧
    serializeHttpMessage lib httpRequest =
      .ok (utf8 (decodeUtf16 (head lib httpRequest.method pathAndQuery normalised.allHeaders)) ++
        httpRequest.contentBuffer)

/-- The headers of a message with the host of its URI and the length of its content, up to their
order. -/
def HttpRequestMessage.sentHeaders (lib : HttpLibrary) (httpRequest : HttpRequestMessage)
    (host : Text) : List Header :=
  (match lib.host httpRequest.headers with
    | some _ => httpRequest.headers
    | none => hostEntry host ++
        httpRequest.headers.filter fun header ↦ !header.isNamed (units ['H', 'o', 's', 't'])) ++
  (match httpRequest.content with
    | none => []
    | some content =>
      ⟨contentLengthName, [units (Nat.toDigits 10 content.bytes.length)]⟩ ::
        content.headers.filter fun header ↦ !header.isNamed contentLengthName)

/-- A message of ASCII text that fits a buffer: its URI is absolute, it has a Host header or the
host of the URI is taken for one, and the method, the path and every header line are ASCII. -/
structure HttpRequestMessage.IsPlain (lib : HttpLibrary) (httpRequest : HttpRequestMessage)
    (host pathAndQuery : Text) : Prop where
  absolute : httpRequest.requestUri = some (.absolute host pathAndQuery)
  accepted : lib.host httpRequest.headers = none → (lib.setHost httpRequest.headers host).isSome
  method_ascii : httpRequest.method.IsAscii
  path_ascii : pathAndQuery.IsAscii
  headers_ascii : ∀ header ∈ httpRequest.sentHeaders lib host, ∀ value ∈ header.values,
    header.key.IsAscii ∧ value.IsAscii
  text_le : (head lib httpRequest.method pathAndQuery
    (httpRequest.sentHeaders lib host)).length ≤ maxStringLength
  message_le : (head lib httpRequest.method pathAndQuery
    (httpRequest.sentHeaders lib host)).length + httpRequest.contentBuffer.length ≤ maxArrayLength

end Specification

section Builder

variable {lib : HttpLibrary} {header : StringBuilder}

theorem StringBuilder.append_nil : header.append [] = .ok header := by
  rw [StringBuilder.append, dif_pos (by rw [List.append_nil]; exact header.length_le)]
  simp only [List.append_nil]

/-- Texts are appended one after the other as if they were one text. -/
theorem StringBuilder.append_append (a b : Text) :
    (header.append a >>= fun header' ↦ header'.append b) = header.append (a ++ b) := by
  by_cases ha : (header.text ++ a).length ≤ maxInt
  · have hbind : header.append a = .ok ⟨header.text ++ a, ha⟩ := dif_pos ha
    rw [bind_of_ok hbind]
    simp only [StringBuilder.append, List.append_assoc]
  · have hab : ¬ (header.text ++ (a ++ b)).length ≤ maxInt := by
      simp only [List.length_append] at ha ⊢
      omega
    rw [bind_of_error (dif_neg ha), StringBuilder.append, dif_neg hab]

theorem StringBuilder.append_bind (a b : Text)
    (k : StringBuilder → Except Exception StringBuilder) :
    (header.append a >>= fun header' ↦ header'.append b >>= k) = header.append (a ++ b) >>= k := by
  rw [← StringBuilder.append_append, bind_assoc]

/-- A loop that appends a text for every item. -/
theorem StringBuilder.foldlM_append {α : Type} (text : α → Text)
    (step : StringBuilder → α → Except Exception StringBuilder)
    (hstep : ∀ header x, step header x = header.append (text x)) (xs : List α) :
    xs.foldlM step header = header.append (xs.flatMap text) := by
  induction xs generalizing header with
  | nil => exact StringBuilder.append_nil.symm
  | cons x xs ih =>
    rw [List.foldlM_cons, hstep, List.flatMap_cons, ← StringBuilder.append_append]
    apply bind_congr_ok
    intro header' _
    exact ih

theorem appendHeader_eq (httpHeader : Header) : appendHeader lib header httpHeader =
    header.append (httpHeader.values.flatMap (headerLine lib httpHeader.key)) := by
  apply StringBuilder.foldlM_append
  intro header value
  rw [StringBuilder.append_bind, StringBuilder.append_bind, StringBuilder.append_append, headerLine,
    List.append_assoc, List.append_assoc]

/-- The builder holds the request line, the header lines and the blank line, unless they are too
long for it. -/
theorem buildHeader_eq {httpRequest : HttpRequestMessage} {pathAndQuery : Text}
    (hpath : pathAndQueryOf httpRequest.requestUri = .ok pathAndQuery) :
    buildHeader lib httpRequest = StringBuilder.append ⟨[], Nat.zero_le _⟩
      (head lib httpRequest.method pathAndQuery httpRequest.allHeaders) := by
  have hloop : ∀ header : StringBuilder, httpRequest.allHeaders.foldlM (appendHeader lib) header =
      header.append (httpRequest.allHeaders.flatMap fun httpHeader ↦
        httpHeader.values.flatMap (headerLine lib httpHeader.key)) := fun header ↦
    StringBuilder.foldlM_append _ _ (fun header httpHeader ↦ appendHeader_eq httpHeader) _
  rw [buildHeader]
  simp only [bind_of_ok hpath, hloop, StringBuilder.append_append, head]

end Builder

section Copy

/-- The first copy fills the front of a new array. -/
theorem blockCopy_front {src : List UInt8} {count n : Nat} (hsrc : count ≤ src.length)
    (hn : count ≤ n) : blockCopy src 0 (List.replicate n 0) 0 count =
      .ok (src.take count ++ List.replicate (n - count) 0) := by
  rw [blockCopy, if_pos ⟨by omega, by rw [List.length_replicate]; omega⟩]
  simp

/-- The second copy fills the rest of it. -/
theorem blockCopy_rest (front content : List UInt8) :
    blockCopy content 0 (front ++ List.replicate content.length 0) front.length content.length =
      .ok (front ++ content) := by
  have hroom : (front ++ List.replicate content.length (0 : UInt8)).length =
      front.length + content.length := by
    rw [List.length_append, List.length_replicate]
  rw [blockCopy, if_pos ⟨by omega, Nat.le_of_eq hroom.symm⟩]
  simp

/-- The array of a message that fits it has room for exactly its units and its content. -/
theorem newByteArray_eq {a b : Nat} (h : a + b ≤ maxArrayLength) :
    newByteArray (((a + b : Nat) : Int).bmod 0x100000000) = .ok (List.replicate (a + b) 0) := by
  rw [maxArrayLength] at h
  have hmod : ((a + b : Nat) : Int).bmod 0x100000000 = (a + b : Nat) := by
    apply Int.bmod_eq_of_le <;> omega
  rw [hmod, newByteArray, if_neg (by omega), if_neg (by rw [maxArrayLength]; omega),
    Int.toNat_natCast]

/-- There is no array for any other message. -/
theorem newByteArray_error {a b : Nat} (ha : a ≤ maxInt) (hb : b ≤ maxInt)
    (h : ¬ a + b ≤ maxArrayLength) :
    ∃ e, newByteArray (((a + b : Nat) : Int).bmod 0x100000000) = .error e := by
  rw [maxInt] at ha hb
  rw [newByteArray]
  split_ifs with hneg hbig
  · exact ⟨_, rfl⟩
  · exact ⟨_, rfl⟩
  · rw [maxArrayLength] at h hbig
    rw [Int.bmod] at hneg hbig
    omega

/-- The message has its first bytes from the encoded header, as many as the header has units. -/
theorem fillMessage_eq {header : StringBuilder} {content : List UInt8}
    (htext : header.text.length ≤ maxStringLength)
    (hfit : header.text.length + content.length ≤ maxArrayLength)
    (hbytes : (utf8 (decodeUtf16 header.text)).length ≤ maxArrayLength) :
    fillMessage header content =
      .ok ((utf8 (decodeUtf16 header.text)).take header.text.length ++ content) := by
  have hle := length_le_utf8_decodeUtf16 header.text
  have hint : maxArrayLength ≤ maxInt := by decide
  have hget : getBytes header.text = .ok (utf8 (decodeUtf16 header.text)) := by
    rw [getBytes, if_neg (by omega), if_neg (by omega)]
  have hto : header.toText = .ok header.text := if_pos htext
  have hfront : ((utf8 (decodeUtf16 header.text)).take header.text.length).length =
      header.text.length := List.length_take_of_le hle
  have hrest := blockCopy_rest ((utf8 (decodeUtf16 header.text)).take header.text.length) content
  rw [hfront] at hrest
  rw [fillMessage, bind_of_ok (newByteArray_eq hfit), bind_of_ok hto, bind_of_ok hget,
    bind_of_ok (blockCopy_front hle (Nat.le_add_right _ _)), Nat.add_sub_cancel_left]
  exact hrest

/-- A message is returned only if its parts fit their buffers. -/
theorem fits_of_fillMessage {header : StringBuilder} {content message : List UInt8}
    (hcontent : content.length ≤ maxArrayLength) (h : fillMessage header content = .ok message) :
    header.text.length ≤ maxStringLength ∧
      header.text.length + content.length ≤ maxArrayLength ∧
      (utf8 (decodeUtf16 header.text)).length ≤ maxArrayLength := by
  have hint : maxArrayLength ≤ maxInt := by decide
  obtain ⟨array, harray, h⟩ := bind_eq_ok h
  obtain ⟨text, htext, h⟩ := bind_eq_ok h
  obtain ⟨bytes, hbytes, _⟩ := bind_eq_ok h
  have hfit : header.text.length + content.length ≤ maxArrayLength := by
    by_contra hnot
    obtain ⟨e, he⟩ := newByteArray_error header.length_le (Nat.le_trans hcontent hint) hnot
    cases harray.symm.trans he
  rw [StringBuilder.toText] at htext
  split_ifs at htext with hshort
  cases htext
  rw [getBytes] at hbytes
  split_ifs at hbytes with hbig hlong
  exact ⟨hshort, hfit, Nat.le_of_not_lt hlong⟩

/-- The message is complete exactly if the header is ASCII text and the parts fit their buffers. -/
theorem fillMessage_full_iff {header : StringBuilder} {content : List UInt8}
    (hcontent : content.length ≤ maxArrayLength) :
    fillMessage header content = .ok (utf8 (decodeUtf16 header.text) ++ content) ↔
      header.text.IsAscii ∧ header.text.length ≤ maxStringLength ∧
        header.text.length + content.length ≤ maxArrayLength := by
  have hle := length_le_utf8_decodeUtf16 header.text
  constructor
  · intro h
    obtain ⟨htext, hfit, hbytes⟩ := fits_of_fillMessage hcontent h
    rw [fillMessage_eq htext hfit hbytes] at h
    have hcut := List.append_cancel_right (Except.ok.inj h)
    have hlength := congrArg List.length hcut
    rw [List.length_take_of_le hle] at hlength
    exact ⟨(length_utf8_decodeUtf16_eq_iff _).mp hlength.symm, htext, hfit⟩
  · rintro ⟨hascii, htext, hfit⟩
    have hlength := (length_utf8_decodeUtf16_eq_iff _).mpr hascii
    rw [fillMessage_eq htext hfit (by omega), ← hlength, List.take_length]

end Copy

section Normalise

variable {lib : HttpLibrary} {httpRequest normalised : HttpRequestMessage}
  {host pathAndQuery : Text}

/-- The Host header is kept, or made from the host of the URI. -/
theorem normaliseHost_ok_iff {headers : List Header}
    (habs : httpRequest.requestUri = some (.absolute host pathAndQuery)) :
    normaliseHost lib httpRequest = .ok headers ↔
      (lib.host httpRequest.headers ≠ none ∧ headers = httpRequest.headers) ∨
      (lib.host httpRequest.headers = none ∧
        lib.setHost httpRequest.headers host = some headers) := by
  rw [normaliseHost]
  cases lib.host httpRequest.headers with
  | some _ => simp [eq_comm]
  | none =>
    rw [habs]
    change (match lib.setHost httpRequest.headers host with
      | none => Except.error Exception.format
      | some headers => Except.ok headers) = _ ↔ _
    cases lib.setHost httpRequest.headers host with
    | none => simp
    | some _ => simp

theorem normaliseHttpMessage_ok_iff : normaliseHttpMessage lib httpRequest = .ok normalised ↔
    ∃ headers, normaliseHost lib httpRequest = .ok headers ∧ normalised =
      { httpRequest with headers, content := httpRequest.content.map (normaliseContent lib) } := by
  rw [normaliseHttpMessage]
  cases normaliseHost lib httpRequest with
  | error e => simp [bind, Except.bind]
  | ok headers => simp [bind, Except.bind, pure, Except.pure, eq_comm]

/-- A message with an absolute URI is normalised exactly if it has a Host header or its host is
taken for one. -/
theorem exists_normalised_iff
    (habs : httpRequest.requestUri = some (.absolute host pathAndQuery)) :
    (∃ normalised, normaliseHttpMessage lib httpRequest = .ok normalised) ↔
      (lib.host httpRequest.headers = none → (lib.setHost httpRequest.headers host).isSome) := by
  simp only [normaliseHttpMessage_ok_iff, normaliseHost_ok_iff habs]
  constructor
  · rintro ⟨_, _, ⟨hhost, _⟩ | ⟨_, hset⟩, _⟩ hnone
    · exact absurd hnone hhost
    · rw [hset]
      rfl
  · intro haccepted
    by_cases hhost : lib.host httpRequest.headers = none
    · obtain ⟨headers, hset⟩ := Option.isSome_iff_exists.mp (haccepted hhost)
      exact ⟨_, headers, Or.inr ⟨hhost, hset⟩, rfl⟩
    · exact ⟨_, _, Or.inl ⟨hhost, rfl⟩, rfl⟩

/-- The headers of a normalised message are those to be sent, in some order. -/
theorem normalised_perm (habs : httpRequest.requestUri = some (.absolute host pathAndQuery))
    (h : normaliseHttpMessage lib httpRequest = .ok normalised) :
    normalised.allHeaders.Perm (httpRequest.sentHeaders lib host) := by
  obtain ⟨headers, hhost, rfl⟩ := normaliseHttpMessage_ok_iff.mp h
  apply List.Perm.append
  · rcases (normaliseHost_ok_iff habs).mp hhost with ⟨hsome, rfl⟩ | ⟨hnone, hset⟩
    · obtain ⟨name, hname⟩ := Option.ne_none_iff_exists'.mp hsome
      rw [hname]
    · rw [hnone]
      exact lib.setHost_perm hset
  · cases httpRequest.content with
    | none => exact List.Perm.refl _
    | some content => exact lib.setContentLength_perm content.headers content.bytes.length

/-- The rest of a normalised message is as it was. -/
theorem normalised_frame (h : normaliseHttpMessage lib httpRequest = .ok normalised) :
    normalised.method = httpRequest.method ∧
      normalised.requestUri = httpRequest.requestUri ∧
      normalised.contentBuffer = httpRequest.contentBuffer := by
  obtain ⟨headers, -, rfl⟩ := normaliseHttpMessage_ok_iff.mp h
  refine ⟨rfl, rfl, ?_⟩
  cases hcontent : httpRequest.content with
  | none => simp [HttpRequestMessage.contentBuffer, hcontent]
  | some content => simp [HttpRequestMessage.contentBuffer, hcontent, normaliseContent]

end Normalise

section Head

variable (lib : HttpLibrary) (method pathAndQuery : Text) {headers headers' : List Header}

theorem Text.isAscii_append {a b : Text} : Text.IsAscii (a ++ b) ↔ a.IsAscii ∧ b.IsAscii :=
  List.forall_mem_append

theorem Text.isAscii_flatMap {α : Type} {text : α → Text} {xs : List α} :
    Text.IsAscii (xs.flatMap text) ↔ ∀ x ∈ xs, (text x).IsAscii :=
  List.forall_mem_flatMap

/-- The order of the headers is the order of their lines. -/
theorem head_perm (h : headers.Perm headers') :
    (head lib method pathAndQuery headers).Perm (head lib method pathAndQuery headers') := by
  have hlines := h.flatMap_right fun header ↦ header.values.flatMap (headerLine lib header.key)
  apply List.Perm.append_left
  apply List.Perm.append_left
  apply List.Perm.append_left
  apply List.Perm.append_left
  apply List.Perm.append_left
  exact hlines.append_right lib.newLine

theorem HttpLibrary.newLine_isAscii : lib.newLine.IsAscii := by
  rcases lib.newLine_cases with h | h
  · rw [h]
    decide
  · rw [h]
    decide

theorem head_isAscii_iff : (head lib method pathAndQuery headers).IsAscii ↔
    method.IsAscii ∧ pathAndQuery.IsAscii ∧ ∀ header ∈ headers, ∀ value ∈ header.values,
      header.key.IsAscii ∧ value.IsAscii := by
  have hspace : (units [' ']).IsAscii := by decide
  have hcolon : (units [':', ' ']).IsAscii := by decide
  have hversion : (units [' ', 'H', 'T', 'T', 'P', '/', '1', '.', '1']).IsAscii := by decide
  have hline := lib.newLine_isAscii
  simp only [head, headerLine, Text.isAscii_append, Text.isAscii_flatMap, hspace, hcolon,
    hversion, hline, true_and, and_true]

end Head

section Serialization

variable {lib : HttpLibrary} {httpRequest normalised : HttpRequestMessage}
  {host pathAndQuery : Text}

theorem HttpRequestMessage.contentBuffer_le :
    httpRequest.contentBuffer.length ≤ maxArrayLength := by
  rw [HttpRequestMessage.contentBuffer]
  cases httpRequest.content with
  | none => exact Nat.zero_le _
  | some content => exact content.bytes_le

/-- What is serialised after the message is normalised. -/
theorem serializeHttpMessage_eq
    (habs : httpRequest.requestUri = some (.absolute host pathAndQuery))
    (h : normaliseHttpMessage lib httpRequest = .ok normalised) :
    serializeHttpMessage lib httpRequest =
      StringBuilder.append ⟨[], Nat.zero_le _⟩
          (head lib httpRequest.method pathAndQuery normalised.allHeaders) >>= fun header ↦
        fillMessage header httpRequest.contentBuffer := by
  obtain ⟨hmethod, huri, hbuffer⟩ := normalised_frame h
  have hpath : pathAndQueryOf normalised.requestUri = .ok pathAndQuery := by
    rw [huri, habs]
    rfl
  rw [serializeHttpMessage, bind_of_ok h, buildHeader_eq hpath, hmethod, hbuffer]

/-- A normalised message is serialised in full exactly if its header is ASCII text and its parts
fit their buffers. -/
theorem serialize_full_iff
    (habs : httpRequest.requestUri = some (.absolute host pathAndQuery))
    (h : normaliseHttpMessage lib httpRequest = .ok normalised) {text : Text}
    (htext : text = head lib httpRequest.method pathAndQuery normalised.allHeaders) :
    serializeHttpMessage lib httpRequest =
        .ok (utf8 (decodeUtf16 text) ++ httpRequest.contentBuffer) ↔
      text.IsAscii ∧ text.length ≤ maxStringLength ∧
        text.length + httpRequest.contentBuffer.length ≤ maxArrayLength := by
  rw [serializeHttpMessage_eq habs h, ← htext]
  by_cases hint : text.length ≤ maxInt
  · have happend : StringBuilder.append ⟨[], Nat.zero_le _⟩ text = .ok ⟨text, hint⟩ := dif_pos hint
    rw [bind_of_ok happend]
    exact fillMessage_full_iff httpRequest.contentBuffer_le
  · have happend : StringBuilder.append ⟨[], Nat.zero_le _⟩ text = .error .outOfMemory :=
      dif_neg hint
    have hmax : maxStringLength ≤ maxInt := by decide
    rw [bind_of_error happend]
    apply iff_of_false
    · intro hok
      cases hok
    · rintro ⟨-, hshort, -⟩
      exact hint (Nat.le_trans hshort hmax)

/-- Whether a message is plain is seen from its normalised header. -/
theorem isPlain_iff (habs : httpRequest.requestUri = some (.absolute host pathAndQuery))
    (h : normaliseHttpMessage lib httpRequest = .ok normalised) {text : Text}
    (htext : text = head lib httpRequest.method pathAndQuery normalised.allHeaders) :
    httpRequest.IsPlain lib host pathAndQuery ↔
      text.IsAscii ∧ text.length ≤ maxStringLength ∧
        text.length + httpRequest.contentBuffer.length ≤ maxArrayLength := by
  have hperm := head_perm lib httpRequest.method pathAndQuery (normalised_perm habs h)
  rw [← htext] at hperm
  have hascii : text.IsAscii ↔
      (head lib httpRequest.method pathAndQuery (httpRequest.sentHeaders lib host)).IsAscii :=
    forall_congr' fun u ↦ by rw [hperm.mem_iff]
  rw [hascii, head_isAscii_iff, hperm.length_eq]
  constructor
  · intro hplain
    exact ⟨⟨hplain.method_ascii, hplain.path_ascii, hplain.headers_ascii⟩, hplain.text_le,
      hplain.message_le⟩
  · rintro ⟨⟨hmethod, hpath, hheaders⟩, htext_le, hmessage_le⟩
    exact ⟨habs, (exists_normalised_iff habs).mp ⟨normalised, h⟩, hmethod, hpath, hheaders,
      htext_le, hmessage_le⟩

end Serialization

/-- The message is serialised in full exactly if it is plain: `SerializeHttpMessage` copies as
many bytes of the encoded header as the header has units. -/
theorem serializesFully_iff (lib : HttpLibrary) (httpRequest : HttpRequestMessage) :
    SerializesFully lib httpRequest ↔
      ∃ host pathAndQuery, httpRequest.IsPlain lib host pathAndQuery := by
  constructor
  · rintro ⟨host, pathAndQuery, normalised, habs, hnorm, hfull⟩
    exact ⟨host, pathAndQuery, (isPlain_iff habs hnorm rfl).mpr
      ((serialize_full_iff habs hnorm rfl).mp hfull)⟩
  · rintro ⟨host, pathAndQuery, hplain⟩
    have habs := hplain.absolute
    obtain ⟨normalised, hnorm⟩ := (exists_normalised_iff habs).mpr hplain.accepted
    exact ⟨host, pathAndQuery, normalised, habs, hnorm, (serialize_full_iff habs hnorm rfl).mpr
      ((isPlain_iff habs hnorm rfl).mp hplain)⟩

/-- Header collections that write a new entry behind the others. -/
def plainLibrary : HttpLibrary where
  newLine := units ['\n']
  host headers :=
    (headers.find? (Header.isNamed (units ['H', 'o', 's', 't']))).bind fun header ↦
      header.values.head?
  setHost headers name :=
    some (headers.filter (fun header ↦ !header.isNamed (units ['H', 'o', 's', 't'])) ++
      hostEntry name)
  setContentLength headers n :=
    headers.filter (fun header ↦ !header.isNamed contentLengthName) ++
      [⟨contentLengthName, [units (Nat.toDigits 10 n)]⟩]
  newLine_cases := Or.inl rfl
  setHost_perm := by
    rintro headers headers' name h
    rw [← Option.some.inj h]
    exact List.perm_append_comm
  setContentLength_perm headers n := List.perm_append_comm

/-- A message with the header `X: é` and a content of one byte. -/
def accentRequest : HttpRequestMessage where
  method := units ['P', 'U', 'T']
  requestUri := some (.absolute (units ['a']) (units ['/']))
  headers := [⟨units ['X'], [units ['é']]⟩]
  content := some ⟨[], [66], by decide⟩

/-- One header value that is not ASCII, and the message loses the end of its blank line. -/
theorem not_serializesFully_accent :
    (serializeHttpMessage plainLibrary accentRequest).toOption =
      some (utf8 ['P', 'U', 'T', ' ', '/', ' ', 'H', 'T', 'T', 'P', '/', '1', '.', '1', '\n',
        'X', ':', ' ', 'é', '\n', 'H', 'o', 's', 't', ':', ' ', 'a', '\n',
        'C', 'o', 'n', 't', 'e', 'n', 't', '-', 'L', 'e', 'n', 'g', 't', 'h', ':', ' ', '1',
        '\n'] ++ [66]) ∧
      ¬ SerializesFully plainLibrary accentRequest := by
  constructor
  · decide +kernel
  · rintro ⟨host, pathAndQuery, normalised, habs, hnorm, hfull⟩
    have hplain := (isPlain_iff habs hnorm rfl).mpr ((serialize_full_iff habs hnorm rfl).mp hfull)
    obtain ⟨rfl, rfl⟩ := Uri.absolute.inj (Option.some.inj habs)
    have hvalue := hplain.headers_ascii ⟨units ['X'], [units ['é']]⟩ (by decide) (units ['é'])
      List.mem_cons_self
    exact absurd hvalue.2 (by decide)

end DotNet

end FfProxy
