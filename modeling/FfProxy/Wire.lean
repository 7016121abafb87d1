import FfProxy.Base.Bytes

/-!
# Wire layout

Byte order helpers and the packed headers of `src/request.h:90–103`. The host is
little-endian, so a header field is loaded least significant byte first and then
normalised by `ntohs`, `ntohl` or the macro of `src/os/linux_endian.h:4–7`.
-/

namespace FfProxy
open Base

/-- `ntohs` and `htons` reverse the two bytes of a 16-bit word. -/
def ntohs (x : Nat) : Nat := beValue (leBytes 2 x)

/-- `ntohl` and `htonl` reverse the four bytes of a 32-bit word. -/
def ntohl (x : Nat) : Nat := beValue (leBytes 4 x)

/-- The macro `ntohll`, also `htonll`; `src/os/linux_endian.h:5–6`. -/
def ntohll (x : Nat) : Nat :=
  if 1 = ntohl 1 then x
  else (ntohl (x &&& 0xFFFFFFFF) <<< 32) ||| ntohl (x >>> 32)

/-- Size of the packed `struct __raw_ff_request_header`. -/
def requestHeaderSize : Nat := 20

/-- Size of the packed `struct __raw_ff_request_option_header`. -/
def optionHeaderSize : Nat := 3

/-- `struct __raw_ff_request_header`, `src/request.h:90–97`, in host byte order. -/
structure RequestHeader where
  version : UInt16
  requestId : UInt64
  totalLength : UInt32
  chunkOffset : UInt32
  chunkLength : UInt16
  deriving DecidableEq, Repr

/-- Load the header at the start of a block and normalise every field;
`src/parser.c:115–123`. -/
def readHeader (mem : List UInt8) : RequestHeader where
  version := UInt16.ofNat (ntohs (leValue (slice mem 0 2)))
  requestId := UInt64.ofNat (ntohll (leValue (slice mem 2 8)))
  totalLength := UInt32.ofNat (ntohl (leValue (slice mem 10 4)))
  chunkOffset := UInt32.ofNat (ntohl (leValue (slice mem 14 4)))
  chunkLength := UInt16.ofNat (ntohs (leValue (slice mem 18 2)))

/-- Store a header at the start of a block, every field in network byte order;
`client/c/client.c:204–208,227`. -/
def writeHeader (h : RequestHeader) : List UInt8 :=
  leBytes 2 (ntohs h.version.toNat) ++ leBytes 8 (ntohll h.requestId.toNat) ++
    leBytes 4 (ntohl h.totalLength.toNat) ++ leBytes 4 (ntohl h.chunkOffset.toNat) ++
    leBytes 2 (ntohs h.chunkLength.toNat)

/-- A normalised 16-bit field is a 16-bit number. -/
theorem ntohs_lt (x : Nat) : ntohs x < 65536 := by
  have h := beValue_lt (leBytes 2 x)
  rwa [length_leBytes] at h

/-- A loaded 16-bit field in host order is the big-endian value of its bytes. -/
theorem ntohs_leValue (bs : List UInt8) (h : bs.length = 2) : ntohs (leValue bs) = beValue bs := by
  rw [ntohs, ← h, leBytes_leValue]

/-- A loaded 32-bit field in host order is the big-endian value of its bytes. -/
theorem ntohl_leValue (bs : List UInt8) (h : bs.length = 4) : ntohl (leValue bs) = beValue bs := by
  rw [ntohl, ← h, leBytes_leValue]

private theorem ntohl_lt (x : Nat) : ntohl x < 2 ^ 32 := by
  have h := beValue_lt (leBytes 4 x)
  rw [length_leBytes] at h
  exact h

private theorem ntohll_eq (x : Nat) :
    ntohll x = ntohl (x % 2 ^ 32) * 2 ^ 32 + ntohl (x / 2 ^ 32) := by
  have h1 : ¬ 1 = ntohl 1 := by decide
  have hm : x &&& 0xFFFFFFFF = x % 2 ^ 32 := Nat.and_two_pow_sub_one_eq_mod x 32
  rw [ntohll, if_neg h1, hm, Nat.shiftRight_eq_div_pow,
    ← Nat.shiftLeft_add_eq_or_of_lt (ntohl_lt _), Nat.shiftLeft_eq]

private theorem beValue_append (a b : List UInt8) :
    beValue (a ++ b) = beValue a * 256 ^ b.length + beValue b := by
  rw [beValue, List.reverse_append, leValue_append, List.length_reverse, beValue, beValue]
  ring

/-- The macro gives the big-endian value of the eight bytes it is applied to. -/
theorem ntohll_leValue (bs : List UInt8) (h : bs.length = 8) :
    ntohll (leValue bs) = beValue bs := by
  have hs : bs = bs.take 4 ++ bs.drop 4 := (List.take_append_drop 4 bs).symm
  have hl : (bs.take 4).length = 4 := by rw [List.length_take]; omega
  have hr : (bs.drop 4).length = 4 := by rw [List.length_drop]; omega
  have hv : leValue bs = leValue (bs.take 4) + 2 ^ 32 * leValue (bs.drop 4) := by
    conv_lhs => rw [hs, leValue_append, hl]
    rfl
  have hlt : leValue (bs.take 4) < 2 ^ 32 := by
    have := leValue_lt (bs.take 4)
    rw [hl] at this
    exact this
  have hm : leValue bs % 2 ^ 32 = leValue (bs.take 4) := by omega
  have hd : leValue bs / 2 ^ 32 = leValue (bs.drop 4) := by omega
  rw [ntohll_eq, hm, hd, ntohl_leValue _ hl, ntohl_leValue _ hr]
  conv_rhs => rw [hs, beValue_append, hr]
  rfl

/-- A header field stored after byte swapping lies on the wire most significant byte first. -/
theorem leBytes_ntohs (x : Nat) : leBytes 2 (ntohs x) = beBytes 2 x :=
  leBytes_beValue_leBytes 2 x

private theorem leBytes_ntohl (x : Nat) : leBytes 4 (ntohl x) = beBytes 4 x :=
  leBytes_beValue_leBytes 4 x

private theorem ntohll_beBytes (x : Nat) (hx : x < 2 ^ 64) :
    ntohll x = leValue (beBytes 8 x) := by
  have h := ntohll_leValue (leBytes 8 x) (length_leBytes 8 x)
  rw [leValue_leBytes, Nat.mod_eq_of_lt (by omega)] at h
  exact h

/-- The same for the 64-bit macro. -/
theorem leBytes_ntohll (x : Nat) (hx : x < 2 ^ 64) : leBytes 8 (ntohll x) = beBytes 8 x := by
  rw [ntohll_beBytes x hx]
  have h := leBytes_leValue (beBytes 8 x)
  rwa [length_beBytes] at h

/-- The stored header spells its fields in big-endian order. -/
theorem writeHeader_eq (h : RequestHeader) :
    writeHeader h = beBytes 2 h.version.toNat ++ beBytes 8 h.requestId.toNat ++
      beBytes 4 h.totalLength.toNat ++ beBytes 4 h.chunkOffset.toNat ++
      beBytes 2 h.chunkLength.toNat := by
  rw [writeHeader, leBytes_ntohs, leBytes_ntohs, leBytes_ntohl, leBytes_ntohl,
    leBytes_ntohll _ h.requestId.toNat_lt]

/-- A stored header occupies exactly the packed size. -/
@[simp] theorem length_writeHeader (h : RequestHeader) :
    (writeHeader h).length = requestHeaderSize := by
  simp [writeHeader, requestHeaderSize]

/-- Loading what was stored gives the header back, whatever follows it. -/
theorem readHeader_writeHeader (h : RequestHeader) (rest : List UInt8) :
    readHeader (writeHeader h ++ rest) = h := by
  have hv : slice (writeHeader h ++ rest) 0 2 = beBytes 2 h.version.toNat := by
    simp only [writeHeader_eq, List.append_assoc]
    simp [slice]
  have hi : slice (writeHeader h ++ rest) 2 8 = beBytes 8 h.requestId.toNat := by
    simp only [writeHeader_eq, List.append_assoc]
    rw [slice_append_right _ _ _ _ (by simp)]
    simp [slice]
  have ht : slice (writeHeader h ++ rest) 10 4 = beBytes 4 h.totalLength.toNat := by
    simp only [writeHeader_eq, List.append_assoc]
    rw [slice_append_right _ _ _ _ (by simp), slice_append_right _ _ _ _ (by simp)]
    simp [slice]
  have ho : slice (writeHeader h ++ rest) 14 4 = beBytes 4 h.chunkOffset.toNat := by
    simp only [writeHeader_eq, List.append_assoc]
    rw [slice_append_right _ _ _ _ (by simp), slice_append_right _ _ _ _ (by simp),
      slice_append_right _ _ _ _ (by simp)]
    simp [slice]
  have hl : slice (writeHeader h ++ rest) 18 2 = beBytes 2 h.chunkLength.toNat := by
    simp only [writeHeader_eq, List.append_assoc]
    rw [slice_append_right _ _ _ _ (by simp), slice_append_right _ _ _ _ (by simp),
      slice_append_right _ _ _ _ (by simp), slice_append_right _ _ _ _ (by simp)]
    simp [slice]
  have bv : h.version.toNat < 256 ^ 2 := h.version.toNat_lt
  have bi : h.requestId.toNat < 256 ^ 8 := h.requestId.toNat_lt
  have bt : h.totalLength.toNat < 256 ^ 4 := h.totalLength.toNat_lt
  have bo : h.chunkOffset.toNat < 256 ^ 4 := h.chunkOffset.toNat_lt
  have bl : h.chunkLength.toNat < 256 ^ 2 := h.chunkLength.toNat_lt
  rw [readHeader, hv, hi, ht, ho, hl, ntohs_leValue _ (by simp), ntohs_leValue _ (by simp),
    ntohl_leValue _ (by simp), ntohl_leValue _ (by simp), ntohll_leValue _ (by simp)]
  simp only [beValue_beBytes_of_lt, bv, bi, bt, bo, bl, UInt16.ofNat_toNat, UInt32.ofNat_toNat,
    UInt64.ofNat_toNat]

/-- The id of a packet is spelled by its bytes 2 to 9. -/
theorem beBytes_requestId (mem : List UInt8) (h : 10 ≤ mem.length) :
    beBytes 8 (readHeader mem).requestId.toNat = slice mem 2 8 := by
  have hl : (slice mem 2 8).length = 8 := length_slice mem 2 8 h
  have hlt : beValue (slice mem 2 8) < 2 ^ 64 := by
    have := beValue_lt (slice mem 2 8)
    rwa [hl] at this
  rw [readHeader, ntohll_leValue _ hl, UInt64.toNat_ofNat', Nat.mod_eq_of_lt hlt]
  have := beBytes_beValue (slice mem 2 8)
  rwa [hl] at this

end FfProxy
