import FfProxy.Base.Scan
import FfProxy.Parser.Chunk

/-!
# Telling raw HTTP from packets

`ff_request_is_raw_http`, `src/parser.c:42–67`, looks for a method of `HTTP_METHODS` at the
start of a packet. The scan ends at the first method that is longer than the packet, and the
table is not ordered by length. A short packet with a method behind a longer one is therefore
not recognised: `PUT` alone, and `TRACE` or `PATCH` with at most one byte behind it.
-/

namespace FfProxy
open Base

/-- The method of three bytes that follows two of four. -/
def methodPut : List UInt8 := ascii ['P', 'U', 'T']

/-- The first method of five bytes, which follows three longer ones. -/
def methodTrace : List UInt8 := ascii ['T', 'R', 'A', 'C', 'E']

/-- The second method of five bytes. -/
def methodPatch : List UInt8 := ascii ['P', 'A', 'T', 'C', 'H']

/-- One of the methods starts the packet. -/
def StartsWithMethod (b : Buffer) : Prop := ∃ method ∈ httpMethods, method <+: b.bytes

/-- The packet starts with a method, but the scan ends in front of it. -/
def CutShort (b : Buffer) : Prop :=
  b.bytes = methodPut ∨ b.size ≤ 6 ∧ (methodTrace <+: b.bytes ∨ methodPatch <+: b.bytes)

/-! ### The scan -/

/-- The scan finds a method exactly when no method in front of it is longer than the packet. -/
theorem isRawHttpLoop_iff (b : Buffer) (methods : List (List UInt8)) :
    isRawHttpLoop b methods = true ↔ ∃ front method rest, methods = front ++ method :: rest ∧
      (∀ m ∈ front, m.length ≤ b.size) ∧ method <+: b.bytes := by
  induction methods with
  | nil => simp [isRawHttpLoop]
  | cons m methods ih =>
    rw [isRawHttpLoop, exists_behind_cons_iff]
    split
    · next hlong =>
      -- The first method does not fit, so neither it nor one behind it is found.
      refine iff_of_false Bool.false_ne_true ?_
      rintro (hp | ⟨hfits, _⟩)
      · have hle := hp.length_le
        rw [b.length_bytes] at hle
        exact Nat.not_lt.mpr hle hlong
      · exact Nat.not_lt.mpr hfits hlong
    · next hfits =>
      have htake : b.mem.take m.length = m ↔ m <+: b.bytes := by
        rw [List.prefix_iff_eq_take, Buffer.bytes, List.take_take,
          Nat.min_eq_left (Nat.not_lt.mp hfits), eq_comm]
      split
      · next hp => exact iff_of_true rfl (.inl (htake.mp hp))
      · next hp =>
        rw [ih, or_iff_right (mt htake.mpr hp), and_iff_right (Nat.not_lt.mp hfits)]

section Scan

variable {b : Buffer}

/-- Raw packets start with a method. -/
theorem StartsWithMethod.of_raw (h : ffRequestIsRawHttp b = true) : StartsWithMethod b := by
  unfold ffRequestIsRawHttp at h
  split at h
  · cases h
  · obtain ⟨front, method, rest, heq, _, hp⟩ := (isRawHttpLoop_iff b httpMethods).mp h
    exact ⟨method, by rw [heq]; simp, hp⟩

/-- A method is found if the packet is as long as every method in front of it. -/
private theorem isRawHttp_of_reached {method : List UInt8} (k n : Nat)
    (hsplit : httpMethods = httpMethods.take k ++ method :: httpMethods.drop (k + 1))
    (hfront : ∀ m ∈ httpMethods.take k, m.length ≤ n) (hn : n ≤ b.size)
    (hpos : 0 < method.length) (hp : method <+: b.bytes) : ffRequestIsRawHttp b = true := by
  have hle := hp.length_le
  rw [b.length_bytes] at hle
  rw [ffRequestIsRawHttp, if_neg (by omega), isRawHttpLoop_iff]
  exact ⟨_, method, _, hsplit, fun m hm ↦ Nat.le_trans (hfront m hm) hn, hp⟩

/-- A packet that starts with a method is recognised unless the scan is cut short. -/
theorem StartsWithMethod.raw (h : StartsWithMethod b) (hcut : ¬ CutShort b) :
    ffRequestIsRawHttp b = true := by
  obtain ⟨method, hm, hp⟩ := h
  have hle := hp.length_le
  rw [b.length_bytes] at hle
  simp only [httpMethods, List.mem_cons, List.not_mem_nil, or_false] at hm
  rcases hm with rfl | rfl | rfl | rfl | rfl | rfl | rfl | rfl | rfl
  · exact isRawHttp_of_reached 0 0 rfl (by decide) (Nat.zero_le _) (by decide) hp
  · exact isRawHttp_of_reached 1 4 rfl (by decide) hle (by decide) hp
  · exact isRawHttp_of_reached 2 4 rfl (by decide) hle (by decide) hp
  · have hlong : b.size ≠ methodPut.length := by
      intro heq
      exact hcut (.inl (hp.eq_of_length (by rw [b.length_bytes, heq]; rfl)).symm)
    refine isRawHttp_of_reached 3 4 rfl (by decide) ?_ (by decide) hp
    exact Nat.lt_of_le_of_ne hle (Ne.symm hlong)
  · exact isRawHttp_of_reached 4 6 rfl (by decide) hle (by decide) hp
  · exact isRawHttp_of_reached 5 7 rfl (by decide) hle (by decide) hp
  · exact isRawHttp_of_reached 6 7 rfl (by decide) hle (by decide) hp
  · refine isRawHttp_of_reached 7 7 rfl (by decide) ?_ (by decide) hp
    exact Nat.lt_of_not_le fun hshort ↦ hcut (.inr ⟨hshort, .inl hp⟩)
  · refine isRawHttp_of_reached 8 7 rfl (by decide) ?_ (by decide) hp
    exact Nat.lt_of_not_le fun hshort ↦ hcut (.inr ⟨hshort, .inr hp⟩)

/-- A packet of five or six bytes is a word of five and at most one byte more. -/
private theorem bytes_of_prefix_five {method : List UInt8} (hlen : method.length = 5)
    (hshort : b.size ≤ 6) (hp : method <+: b.bytes) :
    b.bytes = method ∨ ∃ c, b.bytes = method ++ [c] := by
  obtain ⟨rest, hrest⟩ := hp
  have hsize := congrArg List.length hrest
  rw [List.length_append, hlen, b.length_bytes] at hsize
  match rest with
  | [] => exact .inl (by rw [← hrest, List.append_nil])
  | [c] => exact .inr ⟨c, hrest.symm⟩
  | _ :: _ :: _ =>
    simp only [List.length_cons] at hsize
    omega

/-- A packet at which the scan is cut short starts with a method and is not recognised. -/
theorem CutShort.missed (h : CutShort b) :
    StartsWithMethod b ∧ ffRequestIsRawHttp b = false := by
  have hraw {bs : List UInt8} (hbytes : b.bytes = bs) :
      ffRequestIsRawHttp b = ffRequestIsRawHttp (.ofBytes bs) :=
    ffRequestIsRawHttp_of_bytes (by rw [hbytes, Buffer.bytes_ofBytes])
  rcases h with hput | ⟨hshort, htrace | hpatch⟩
  · exact ⟨⟨methodPut, by decide, by rw [hput]⟩, by rw [hraw hput]; rfl⟩
  · refine ⟨⟨methodTrace, by decide, htrace⟩, ?_⟩
    obtain heq | ⟨c, heq⟩ := bytes_of_prefix_five rfl hshort htrace
    · rw [hraw heq]
      rfl
    · rw [hraw heq]
      rfl
  · refine ⟨⟨methodPatch, by decide, hpatch⟩, ?_⟩
    obtain heq | ⟨c, heq⟩ := bytes_of_prefix_five rfl hshort hpatch
    · rw [hraw heq]
      rfl
    · rw [hraw heq]
      rfl

/-- A packet whose first byte is no capital letter is never taken for raw HTTP. -/
theorem ffRequestIsRawHttp_of_head {c : UInt8} (hhead : b.bytes.head? = some c)
    (hc : ¬ (65 ≤ c ∧ c ≤ 90)) : ffRequestIsRawHttp b = false := by
  by_contra hraw
  obtain ⟨method, hm, hp⟩ := StartsWithMethod.of_raw (Bool.eq_true_of_not_eq_false hraw)
  have hcapital : ∀ m ∈ httpMethods, ∃ d, m.head? = some d ∧ 65 ≤ d ∧ d ≤ 90 := by
    simp only [httpMethods, List.forall_mem_cons, ascii, List.map_cons, List.head?_cons,
      Option.some.injEq, exists_eq_left', List.not_mem_nil, false_imp_iff, implies_true]
    decide
  obtain ⟨d, hd, hcap⟩ := hcapital method hm
  obtain ⟨rest, hrest⟩ := hp
  rw [← hrest, List.head?_append, hd, Option.some_or, Option.some.injEq] at hhead
  exact hc (hhead ▸ hcap)

/-- Memory that starts with the version 1 is never taken for raw HTTP. -/
theorem ffRequestIsRawHttp_of_version1 (hmem : 2 ≤ b.mem.length)
    (hv : (readHeader b.mem).version = 1) : ffRequestIsRawHttp b = false := by
  have hlen : (slice b.mem 0 2).length = 2 := length_slice _ _ _ hmem
  obtain ⟨x, y, hxy⟩ := List.length_eq_two.mp hlen
  have hvalue : (readHeader b.mem).version.toNat = y.toNat + 256 * x.toNat := by
    have hlt := ntohs_lt (leValue (slice b.mem 0 2))
    rw [readHeader, UInt16.toNat_ofNat', Nat.mod_eq_of_lt hlt, ntohs_leValue _ hlen, hxy]
    simp [beValue, leValue]
  have hx : x = 0 := by
    rw [hv, UInt16.toNat_one] at hvalue
    exact UInt8.toNat_inj.mp (by rw [UInt8.toNat_zero]; omega)
  by_cases hs : b.size = 0
  · rw [ffRequestIsRawHttp, if_pos hs]
  · refine ffRequestIsRawHttp_of_head (c := 0) ?_ (by decide)
    have hfront : b.mem.take 2 = [x, y] := hxy
    rw [Buffer.bytes, List.head?_take, if_neg hs, ← List.take_append_drop 2 b.mem, hfront, hx]
    rfl

end Scan

/-! ### The first packet -/

/-- The request is a received raw one and its payload is the whole packet. -/
structure Request.IsRawPacket (r : Request) (b : Buffer) : Prop where
  version : r.version = ffVersionRaw
  state : r.state = .received
  payloadLength : r.payloadLength.toNat = b.size
  receivedLength : r.receivedLength.toNat = b.size
  payload : ∃ node, r.payload = [node] ∧ node.offset = 0 ∧ node.length.toNat = b.size ∧
    node.bytes = b.bytes

/-- The first packet leads to such a request exactly when it is recognised as raw HTTP and its
size fits the 16-bit length of a payload node. -/
theorem isRawPacket_iff (r : Request) (b : Buffer) :
    (ffRequestParseFirstChunk r b).IsRawPacket b ↔
      ffRequestIsRawHttp b = true ∧ b.size < 65536 := by
  unfold ffRequestParseFirstChunk
  split
  · next hraw =>
    rw [and_iff_right hraw]
    constructor
    · intro h
      obtain ⟨node, _, _, hlen, _⟩ := h.payload
      rw [← hlen]
      exact node.length.toNat_lt
    · intro hs
      have h64 : (UInt64.ofNat b.size).toNat = b.size := by
        rw [UInt64.toNat_ofNat', Nat.mod_eq_of_lt (by omega)]
      have h16 : (UInt16.ofNat b.size).toNat = b.size := by
        rw [UInt16.toNat_ofNat', Nat.mod_eq_of_lt hs]
      refine ⟨rfl, rfl, h64, h64, _, rfl, rfl, h16, ?_⟩
      rw [PayloadNode.bytes]
      exact List.take_of_length_le (by rw [b.length_bytes, h16])
  · next hraw =>
    refine iff_of_false ?_ fun h ↦ hraw h.1
    split
    · exact fun h ↦ by cases h.state
    · intro h
      have hv := h.version
      rw [(ffRequestParseDataChunk_sameIdentity _ b).version] at hv
      exact absurd hv (by simp only [ffVersionRaw]; omega)

/-- What telling raw HTTP from packets is to do. Raw are the packets that start with a method;
they become received requests with the packet as payload. No packet is raw whose first byte
is no capital letter, and so none of version 1. -/
structure Classified (b : Buffer) : Prop where
  raw : ffRequestIsRawHttp b = true ↔ StartsWithMethod b
  received : ∀ r, (ffRequestParseFirstChunk r b).IsRawPacket b ↔ StartsWithMethod b
  capital : ∀ c, b.bytes.head? = some c → ¬ (65 ≤ c ∧ c ≤ 90) → ffRequestIsRawHttp b = false
  version1 : 2 ≤ b.size → (readHeader b.mem).version = 1 → ffRequestIsRawHttp b = false

/-- A packet is told apart as it should exactly when the scan is not cut short and, if it
starts with a method, it has fewer than 65536 bytes. -/
theorem classified_iff (b : Buffer) :
    Classified b ↔ ¬ CutShort b ∧ (StartsWithMethod b → b.size < 65536) := by
  constructor
  · intro h
    refine ⟨fun hcut ↦ ?_, fun hstarts ↦ ?_⟩
    · obtain ⟨hstarts, hmissed⟩ := hcut.missed
      exact absurd (h.raw.mpr hstarts) (by rw [hmissed]; exact Bool.false_ne_true)
    · exact ((isRawPacket_iff ffRequestAlloc b).mp ((h.received _).mpr hstarts)).2
  · rintro ⟨hcut, hsize⟩
    have hraw : ffRequestIsRawHttp b = true ↔ StartsWithMethod b :=
      ⟨StartsWithMethod.of_raw, fun h ↦ h.raw hcut⟩
    refine ⟨hraw, fun r ↦ ?_, fun c ↦ ffRequestIsRawHttp_of_head, fun hs hv ↦ ?_⟩
    · rw [isRawPacket_iff, hraw]
      exact and_iff_left_of_imp hsize
    · exact ffRequestIsRawHttp_of_version1 (Nat.le_trans hs b.size_le) hv

/-- A packet that starts with `GET` is told apart as it should. -/
theorem classified_get : Classified (.ofBytes (ascii ['G', 'E', 'T', ' ', '/'])) := by
  refine (classified_iff _).mpr ⟨?_, fun _ ↦ by decide⟩
  rintro (hput | ⟨_, htrace | hpatch⟩)
  · exact absurd hput (by decide)
  · exact absurd htrace (by decide)
  · exact absurd hpatch (by decide)

/-- The three bytes of `PUT` start with a method and are not recognised. -/
theorem not_classified_put : ¬ Classified (.ofBytes methodPut) := by
  intro h
  exact absurd (h.raw.mpr ⟨methodPut, by decide, by rw [Buffer.bytes_ofBytes]⟩) (by decide)

end FfProxy
