import Mathlib.Data.List.Basic

/-!
# Text and its encodings

Text as a list of characters, its UTF-8 encoding, and text that is given as UTF-16 units. A
character takes at least one byte, and exactly one only if it is an ASCII character; so the
bytes of a text are as many as its characters, or as its UTF-16 units, exactly for ASCII text.
-/

namespace FfProxy.Base

/-- The UTF-8 encoding of a text. -/
def utf8 (text : List Char) : List UInt8 := text.flatMap String.utf8EncodeChar

/-- The bytes of a string are its UTF-8 encoding. -/
theorem toList_toUTF8 (s : String) : s.toUTF8.data.toList = utf8 s.toList := by
  rw [utf8, String.toUTF8, ← String.utf8Encode_toList, List.utf8Encode]
  simp

theorem length_utf8_cons (c : Char) (text : List Char) :
    (utf8 (c :: text)).length = c.utf8Size + (utf8 text).length := by
  rw [utf8, List.flatMap_cons, List.length_append, String.length_utf8EncodeChar, utf8]

/-- A text has no fewer bytes than characters. -/
theorem length_le_utf8 (text : List Char) : text.length ≤ (utf8 text).length := by
  induction text with
  | nil => exact Nat.le_refl 0
  | cons c text ih =>
    have hc := c.utf8Size_pos
    rw [length_utf8_cons, List.length_cons]
    omega

/-- A text has as many bytes as characters exactly if it is ASCII text. -/
theorem length_utf8_eq_iff (text : List Char) :
    (utf8 text).length = text.length ↔ ∀ c ∈ text, c.val ≤ 127 := by
  induction text with
  | nil => simp [utf8]
  | cons c text ih =>
    have hc := c.utf8Size_pos
    have hle := length_le_utf8 text
    rw [length_utf8_cons, List.length_cons, List.forall_mem_cons, ← ih, ← Char.utf8Size_eq_one_iff]
    omega

section Utf16

/-- The first unit of a pair that stands for one character. -/
def isHighSurrogate (u : UInt16) : Bool := 0xD800 ≤ u.toNat && u.toNat < 0xDC00

/-- The second unit of a pair that stands for one character. -/
def isLowSurrogate (u : UInt16) : Bool := 0xDC00 ≤ u.toNat && u.toNat < 0xE000

/-- The character of a unit that is no part of a pair; half a pair has no character, and the
replacement character stands for it. -/
def charOfUnit (u : UInt16) : Char :=
  Char.ofNat (if isHighSurrogate u || isLowSurrogate u then 0xFFFD else u.toNat)

/-- The character of a pair. -/
def charOfPair (u v : UInt16) : Char :=
  Char.ofNat (0x10000 + (u.toNat - 0xD800) * 0x400 + (v.toNat - 0xDC00))

/-- The characters of a text that is given as UTF-16 units. -/
def decodeUtf16 : List UInt16 → List Char
  | [] => []
  | [u] => [charOfUnit u]
  | u :: v :: units =>
    if isHighSurrogate u && isLowSurrogate v then charOfPair u v :: decodeUtf16 units
    else charOfUnit u :: decodeUtf16 (v :: units)

private theorem toNat_char_of_valid {n : Nat} (h : n.isValidChar) : (Char.ofNat n).toNat = n := by
  rw [Char.ofNat, dif_pos h]
  rfl

/-- A single unit takes one byte exactly if it is an ASCII character. -/
theorem utf8Size_charOfUnit (u : UInt16) : (charOfUnit u).utf8Size = 1 ↔ u < 128 := by
  have hlt := u.toNat_lt
  rw [Char.utf8Size_eq_one_iff, UInt32.le_iff_toNat_le, UInt16.lt_iff_toNat_lt]
  change (charOfUnit u).toNat ≤ 127 ↔ u.toNat < 128
  rw [charOfUnit]
  split
  · rename_i h
    rw [toNat_char_of_valid (by decide)]
    simp only [isHighSurrogate, isLowSurrogate, Bool.or_eq_true, Bool.and_eq_true,
      decide_eq_true_eq] at h
    omega
  · rename_i h
    simp only [isHighSurrogate, isLowSurrogate, Bool.or_eq_true, Bool.and_eq_true,
      decide_eq_true_eq] at h
    rw [toNat_char_of_valid (by rw [Nat.isValidChar]; omega)]
    omega

/-- A pair takes four bytes. -/
theorem utf8Size_charOfPair {u v : UInt16} (hu : isHighSurrogate u) (hv : isLowSurrogate v) :
    (charOfPair u v).utf8Size = 4 := by
  simp only [isHighSurrogate, isLowSurrogate, Bool.and_eq_true, decide_eq_true_eq] at hu hv
  rw [Char.utf8Size_eq_four_iff, UInt32.lt_iff_toNat_lt]
  change 65535 < (charOfPair u v).toNat
  rw [charOfPair, toNat_char_of_valid (by rw [Nat.isValidChar]; omega)]
  omega

/-- A text has no fewer bytes than UTF-16 units. -/
theorem length_le_utf8_decodeUtf16 (units : List UInt16) :
    units.length ≤ (utf8 (decodeUtf16 units)).length := by
  fun_induction decodeUtf16 units with
  | case1 => exact Nat.le_refl 0
  | case2 u =>
    rw [length_utf8_cons, List.length_singleton]
    exact Nat.le_add_right_of_le (Char.utf8Size_pos _)
  | case3 u v units hpair ih =>
    rw [Bool.and_eq_true] at hpair
    rw [length_utf8_cons, utf8Size_charOfPair hpair.1 hpair.2, List.length_cons, List.length_cons]
    omega
  | case4 u v units hpair ih =>
    have hpos := (charOfUnit u).utf8Size_pos
    rw [length_utf8_cons, List.length_cons]
    omega

/-- A text has as many bytes as UTF-16 units exactly if it is ASCII text. -/
theorem length_utf8_decodeUtf16_eq_iff (units : List UInt16) :
    (utf8 (decodeUtf16 units)).length = units.length ↔ ∀ u ∈ units, u < 128 := by
  fun_induction decodeUtf16 units with
  | case1 => simp [utf8]
  | case2 u =>
    rw [length_utf8_cons, List.forall_mem_singleton, ← utf8Size_charOfUnit]
    exact Iff.rfl
  | case3 u v units hpair ih =>
    rw [Bool.and_eq_true] at hpair
    have hle := length_le_utf8_decodeUtf16 units
    rw [length_utf8_cons, utf8Size_charOfPair hpair.1 hpair.2, List.length_cons, List.length_cons]
    apply iff_of_false (by omega)
    intro hascii
    have hu : u.toNat < 128 := hascii u List.mem_cons_self
    simp only [isHighSurrogate, Bool.and_eq_true, decide_eq_true_eq] at hpair
    omega
  | case4 u v units hpair ih =>
    have hpos := (charOfUnit u).utf8Size_pos
    have hle := length_le_utf8_decodeUtf16 (v :: units)
    rw [length_utf8_cons, List.forall_mem_cons, ← ih, ← utf8Size_charOfUnit, List.length_cons]
    omega

end Utf16

end FfProxy.Base
