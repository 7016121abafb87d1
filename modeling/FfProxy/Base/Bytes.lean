import Mathlib.Data.List.Basic
import Mathlib.Tactic.Ring

/-!
# Byte lists and radix-256 numerals

Memory is observed as a list of bytes from some address on. This file gives the
window read, the little- and big-endian numerals a window spells, the bounded
overwrite that a `memcpy` into a block performs, and the pointer-and-size pair that
a parser is handed.
-/

namespace FfProxy.Base

/-- A block of exactly `n` bytes. -/
abbrev Block (n : Nat) := { bs : List UInt8 // bs.length = n }

/-- The `n` bytes of `bs` from position `i` on, or what is left of them. -/
def slice (bs : List UInt8) (i n : Nat) : List UInt8 := (bs.drop i).take n

/-- The number spelled by bytes stored least significant first. -/
def leValue : List UInt8 → Nat
  | [] => 0
  | b :: bs => b.toNat + 256 * leValue bs

/-- The low `n` bytes of a number, least significant first. -/
def leBytes : Nat → Nat → List UInt8
  | 0, _ => []
  | n + 1, v => UInt8.ofNat (v % 256) :: leBytes n (v / 256)

/-- The number spelled by bytes stored most significant first. -/
def beValue (bs : List UInt8) : Nat := leValue bs.reverse

/-- The low `n` bytes of a number, most significant first. -/
def beBytes (n v : Nat) : List UInt8 := (leBytes n v).reverse

/-- Overwrite the bytes of `dst` from `off` on with `src`; `none` when the copy
would leave the block. -/
def overwrite (dst : List UInt8) (off : Nat) (src : List UInt8) : Option (List UInt8) :=
  if off + src.length ≤ dst.length then
    some (dst.take off ++ src ++ dst.drop (off + src.length))
  else none

/-- The `size` bytes at the start of a memory block, as passed by a pointer and a
byte count. The block may go on after them. -/
structure Buffer where
  mem : List UInt8
  size : Nat
  size_le : size ≤ mem.length
  deriving DecidableEq, Repr

/-- A buffer that is a whole block. -/
def Buffer.ofBytes (bs : List UInt8) : Buffer := ⟨bs, bs.length, Nat.le_refl _⟩

/-- The buffer left after the first `i` bytes. -/
def Buffer.advance (b : Buffer) (i : Nat) : Buffer :=
  ⟨b.mem.drop i, b.size - i, by rw [List.length_drop]; have := b.size_le; omega⟩

/-- The buffer without what lies behind its first `n` bytes. -/
def Buffer.cut (b : Buffer) (n : Nat) : Buffer :=
  ⟨b.mem, min n b.size, Nat.le_trans (Nat.min_le_right _ _) b.size_le⟩

/-- The bytes that belong to the buffer. -/
def Buffer.bytes (b : Buffer) : List UInt8 := b.mem.take b.size

/-! ### Windows -/

/-- A window lying inside the list has its full length. -/
theorem length_slice (bs : List UInt8) (i n : Nat) (h : i + n ≤ bs.length) :
    (slice bs i n).length = n := by
  rw [slice, List.length_take, List.length_drop]
  omega

/-- A window never has more bytes than asked for. -/
theorem length_slice_le (bs : List UInt8) (i n : Nat) : (slice bs i n).length ≤ n := by
  rw [slice, List.length_take]
  omega

/-- A window reaching past a prefix is a window of what follows the prefix. -/
theorem slice_append_right (a b : List UInt8) (i n : Nat) (h : a.length ≤ i) :
    slice (a ++ b) i n = slice b (i - a.length) n := by
  rw [slice, slice, List.drop_append, List.drop_of_length_le h, List.nil_append]

/-- A window that ends inside a prefix does not see what follows. -/
theorem slice_append_left (a b : List UInt8) (i n : Nat) (h : i + n ≤ a.length) :
    slice (a ++ b) i n = slice a i n := by
  rw [slice, slice, List.drop_append, List.take_append]
  have hz : n - (a.drop i).length = 0 := by rw [List.length_drop]; omega
  rw [hz, List.take_zero, List.append_nil]

/-- A buffer's own bytes are as many as its size says. -/
@[simp] theorem Buffer.length_bytes (b : Buffer) : b.bytes.length = b.size := by
  rw [Buffer.bytes, List.length_take, Nat.min_eq_left b.size_le]

/-- A block passed whole has all its bytes. -/
@[simp] theorem Buffer.bytes_ofBytes (bs : List UInt8) : (Buffer.ofBytes bs).bytes = bs := by
  simp [Buffer.bytes, Buffer.ofBytes]

/-- Advancing a buffer drops the bytes passed over. -/
@[simp] theorem Buffer.bytes_advance (b : Buffer) (i : Nat) :
    (b.advance i).bytes = b.bytes.drop i := by
  rw [Buffer.bytes, Buffer.bytes, Buffer.advance, List.drop_take]

/-- Cutting a buffer keeps its first bytes. -/
@[simp] theorem Buffer.bytes_cut (b : Buffer) (n : Nat) : (b.cut n).bytes = b.bytes.take n := by
  rw [Buffer.bytes, Buffer.bytes, Buffer.cut, List.take_take]

/-- A buffer's block starts with its bytes. -/
theorem Buffer.mem_eq (b : Buffer) : b.mem = b.bytes ++ b.mem.drop b.size :=
  (List.take_append_drop b.size b.mem).symm

/-- A window inside the buffer does not see the block after it. -/
theorem Buffer.slice_mem (b : Buffer) (i n : Nat) (h : i + n ≤ b.size) :
    slice b.mem i n = (b.bytes.drop i).take n := by
  rw [b.mem_eq, slice_append_left _ _ _ _ (by rw [b.length_bytes]; exact h), slice]

/-! ### Numerals -/

/-- A numeral is below the radix power of its length. -/
theorem leValue_lt (bs : List UInt8) : leValue bs < 256 ^ bs.length := by
  induction bs with
  | nil => simp [leValue]
  | cons b bs ih =>
    have hb : b.toNat < 256 := b.toNat_lt
    simp only [leValue, List.length_cons, pow_succ]
    omega

/-- Numerals of adjacent blocks combine by the radix power of the first block. -/
theorem leValue_append (a b : List UInt8) :
    leValue (a ++ b) = leValue a + 256 ^ a.length * leValue b := by
  induction a with
  | nil => simp [leValue]
  | cons x a ih =>
    simp only [List.cons_append, leValue, ih, List.length_cons, pow_succ]
    ring

/-- The byte encoder emits exactly the requested width. -/
@[simp] theorem length_leBytes (n v : Nat) : (leBytes n v).length = n := by
  induction n generalizing v with
  | zero => rfl
  | succ n ih => simp [leBytes, ih]

/-- The bytes of a number are its digits to the base 256. -/
theorem getElem_leBytes (n v i : Nat) (h : i < (leBytes n v).length) :
    (leBytes n v)[i] = UInt8.ofNat (v / 256 ^ i % 256) := by
  induction n generalizing v i with
  | zero => simp [leBytes] at h
  | succ n ih =>
    cases i with
    | zero => simp [leBytes]
    | succ i =>
      have hi : i < (leBytes n (v / 256)).length := by simpa using h
      simp only [leBytes, List.getElem_cons_succ]
      rw [ih _ _ hi, Nat.div_div_eq_div_mul, ← Nat.pow_succ']

/-- Reading back encoded bytes reduces the number to their width. -/
theorem leValue_leBytes (n v : Nat) : leValue (leBytes n v) = v % 256 ^ n := by
  induction n generalizing v with
  | zero => simp [leBytes, leValue, Nat.mod_one]
  | succ n ih =>
    have hb : (UInt8.ofNat (v % 256)).toNat = v % 256 := by simp
    rw [leBytes, leValue, ih, hb, pow_succ, Nat.mul_comm (256 ^ n) 256, Nat.mod_mul]

/-- Every byte string of a width is the encoding of the number it spells. -/
theorem leBytes_leValue (bs : List UInt8) : leBytes bs.length (leValue bs) = bs := by
  induction bs with
  | nil => rfl
  | cons b bs ih =>
    have hb : b.toNat < 256 := b.toNat_lt
    have hm : (b.toNat + 256 * leValue bs) % 256 = b.toNat := by omega
    have hd : (b.toNat + 256 * leValue bs) / 256 = leValue bs := by omega
    rw [List.length_cons, leValue, leBytes, hm, hd, ih, UInt8.ofNat_toNat]

/-- The big-endian encoder emits exactly the requested width. -/
@[simp] theorem length_beBytes (n v : Nat) : (beBytes n v).length = n := by
  simp [beBytes]

/-- The byte at a position of a big-endian numeral. -/
theorem getElem_beBytes (n v i : Nat) (h : i < (beBytes n v).length) :
    (beBytes n v)[i] = UInt8.ofNat (v / 2 ^ (8 * (n - 1 - i)) % 256) := by
  simp only [beBytes, List.getElem_reverse, length_leBytes]
  rw [getElem_leBytes, Nat.pow_mul]

/-- A big-endian numeral is below the radix power of its length. -/
theorem beValue_lt (bs : List UInt8) : beValue bs < 256 ^ bs.length := by
  have h := leValue_lt bs.reverse
  rwa [List.length_reverse] at h

/-- Reading back big-endian bytes reduces the number to their width. -/
theorem beValue_beBytes (n v : Nat) : beValue (beBytes n v) = v % 256 ^ n := by
  rw [beValue, beBytes, List.reverse_reverse, leValue_leBytes]

/-- A number that fits its width survives the big-endian round trip. -/
theorem beValue_beBytes_of_lt (n v : Nat) (h : v < 256 ^ n) : beValue (beBytes n v) = v := by
  rw [beValue_beBytes, Nat.mod_eq_of_lt h]

/-- Numbers with the same numeral are the same. -/
theorem beBytes_inj {n x y : Nat} (hx : x < 256 ^ n) (hy : y < 256 ^ n)
    (h : beBytes n x = beBytes n y) : x = y := by
  rw [← beValue_beBytes_of_lt n x hx, h, beValue_beBytes_of_lt n y hy]

/-- Big-endian bytes of a width are the encoding of the number they spell. -/
theorem beBytes_beValue (bs : List UInt8) : beBytes bs.length (beValue bs) = bs := by
  have h := leBytes_leValue bs.reverse
  rw [List.length_reverse] at h
  rw [beBytes, beValue, h, List.reverse_reverse]

/-- Reversing the bytes of a word and storing it least significant byte first writes the word
most significant byte first. -/
theorem leBytes_beValue_leBytes (n v : Nat) : leBytes n (beValue (leBytes n v)) = beBytes n v := by
  have h := leBytes_leValue (leBytes n v).reverse
  rwa [List.length_reverse, length_leBytes] at h

/-! ### Bounded overwrites -/

/-- A copy inside the block keeps the block's size. -/
theorem length_overwrite (dst : List UInt8) (off : Nat) (src out : List UInt8)
    (h : overwrite dst off src = some out) : out.length = dst.length := by
  unfold overwrite at h
  split at h
  · next hl =>
    rw [← Option.some.inj h]
    simp only [List.length_append, List.length_take, List.length_drop]
    omega
  · simp at h

/-- A copy succeeds exactly when its whole target range lies in the block. -/
theorem overwrite_isSome_iff (dst : List UInt8) (off : Nat) (src : List UInt8) :
    (overwrite dst off src).isSome ↔ off + src.length ≤ dst.length := by
  unfold overwrite
  split <;> simp_all

/-- A copy to the end of a prefix extends it. -/
theorem overwrite_append (pre rest src : List UInt8) (h : src.length ≤ rest.length) :
    overwrite (pre ++ rest) pre.length src = some (pre ++ src ++ rest.drop src.length) := by
  have hl : pre.length + src.length ≤ (pre ++ rest).length := by
    rw [List.length_append]
    omega
  rw [overwrite, if_pos hl, List.take_left, List.drop_append, List.drop_of_length_le (by omega),
    Nat.add_sub_cancel_left, List.nil_append]

/-- After a copy, the target range holds the source and everything else is unchanged. -/
theorem getElem?_overwrite (dst : List UInt8) (off : Nat) (src out : List UInt8) (k : Nat)
    (h : overwrite dst off src = some out) :
    out[k]? = if off ≤ k ∧ k < off + src.length then src[k - off]? else dst[k]? := by
  unfold overwrite at h
  split at h
  · next hl =>
    rw [← Option.some.inj h, List.append_assoc, List.getElem?_append, List.getElem?_append]
    have ht : (dst.take off).length = off := by rw [List.length_take]; omega
    rw [ht]
    by_cases h1 : k < off
    · have hn : ¬ (off ≤ k ∧ k < off + src.length) := by omega
      rw [if_pos h1, if_neg hn, List.getElem?_take_of_lt h1]
    · by_cases h2 : k - off < src.length
      · rw [if_neg h1, if_pos h2, if_pos (by omega)]
      · rw [if_neg h1, if_neg h2, if_neg (by omega), List.getElem?_drop]
        congr 1
        omega
  · simp at h

end FfProxy.Base
