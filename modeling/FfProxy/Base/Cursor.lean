import FfProxy.Base.Bytes

/-!
# Filling a block from the front

A zeroed block of fixed size and the position up to which it has been written. A checked write
fails when it would leave the block, an unchecked one drops what lies outside.
-/

namespace FfProxy.Base

/-- A block and the position of the next write. -/
@[ext] structure Cursor where
  buff : List UInt8
  ptr : Nat
  deriving DecidableEq, Repr

namespace Cursor

/-- The front of a zeroed block. -/
def start (size : Nat) : Cursor := ⟨List.replicate size 0, 0⟩

/-- Write bytes and move behind them; `none` when they would leave the block. -/
def put (c : Cursor) (bytes : List UInt8) : Option Cursor :=
  (overwrite c.buff c.ptr bytes).map fun buff ↦ ⟨buff, c.ptr + bytes.length⟩

/-- Write bytes at some position and stay; `none` when they would leave the block. -/
def patch (c : Cursor) (pos : Nat) (bytes : List UInt8) : Option Cursor :=
  (overwrite c.buff pos bytes).map fun buff ↦ { c with buff := buff }

/-- Move on without writing. -/
def skip (c : Cursor) (n : Nat) : Cursor := { c with ptr := c.ptr + n }

/-- Write one byte and move behind it; a byte outside the block is dropped. -/
def store (c : Cursor) (b : UInt8) : Cursor := ⟨c.buff.set c.ptr b, c.ptr + 1⟩

/-- Write bytes one after the other. -/
def storeAll (c : Cursor) (bytes : List UInt8) : Cursor := bytes.foldl store c

/-- Write bytes one after the other from some position on and stay. -/
def amend (c : Cursor) (pos : Nat) (bytes : List UInt8) : Cursor :=
  { c with buff := (storeAll { c with ptr := pos } bytes).buff }

/-- A zeroed block whose front has been written. -/
def filled (size : Nat) (front : List UInt8) : Cursor :=
  ⟨front ++ List.replicate (size - front.length) 0, front.length⟩

variable {size : Nat} {front bytes : List UInt8}

/-- Nothing is written at the start. -/
theorem start_eq (size : Nat) : start size = filled size [] := rfl

/-- What has been written stands at the front. -/
theorem take_filled (size : Nat) (front : List UInt8) :
    (filled size front).buff.take (filled size front).ptr = front :=
  List.take_left

@[simp] theorem ptr_filled (size : Nat) (front : List UInt8) :
    (filled size front).ptr = front.length := rfl

/-- The front has been written, up to the end of the block. -/
private theorem length_rest (h : front.length + bytes.length ≤ size) :
    bytes.length ≤ (List.replicate (size - front.length) (0 : UInt8)).length := by
  rw [List.length_replicate]
  omega

/-- Bytes that fit the block extend the front. -/
theorem put_filled (h : front.length + bytes.length ≤ size) :
    (filled size front).put bytes = some (filled size (front ++ bytes)) := by
  rw [put, filled, overwrite_append _ _ _ (length_rest h), Option.map_some, filled,
    List.drop_replicate, List.length_append, Nat.sub_sub]

/-- Bytes that are left out are zero. -/
theorem skip_filled {n : Nat} (h : front.length + n ≤ size) :
    (filled size front).skip n = filled size (front ++ List.replicate n 0) := by
  have hrest : n + (size - (front.length + n)) = size - front.length := by omega
  rw [skip, filled, filled, List.length_append, List.length_replicate, List.append_assoc,
    List.replicate_append_replicate, hrest]

/-- Bytes written over a gap of their length take its place. -/
theorem patch_filled {gap back : List UInt8} (hgap : gap.length = bytes.length) :
    (filled size (front ++ (gap ++ back))).patch front.length bytes =
      some (filled size (front ++ (bytes ++ back))) := by
  have hlen : (front ++ (gap ++ back)).length = (front ++ (bytes ++ back)).length := by
    simp only [List.length_append, hgap]
  have hfits : bytes.length ≤ (gap ++ back ++
      List.replicate (size - (front ++ (gap ++ back)).length) 0).length := by
    simp only [List.length_append, hgap]
    omega
  rw [patch, filled, List.append_assoc, overwrite_append _ _ _ hfits, Option.map_some, filled,
    ← hlen, List.append_assoc gap, ← hgap, List.drop_left]
  simp only [List.append_assoc]

/-- Bytes that do not leave the block are all written. -/
theorem storeAll_of_put {c c' : Cursor} (h : c.put bytes = some c') : c.storeAll bytes = c' := by
  induction bytes generalizing c with
  | nil =>
    rw [put, overwrite] at h
    split at h
    · rw [← Option.some.inj h]
      simp [storeAll]
    · cases h
  | cons b bytes ih =>
    rw [put, overwrite] at h
    split at h
    · next hle =>
      rw [List.length_cons] at hle
      have hlt : c.ptr < c.buff.length := by omega
      have hbuff : (c.store b).buff.length = c.buff.length := List.length_set
      have hfits : (c.store b).ptr + bytes.length ≤ (c.store b).buff.length := by
        rw [hbuff]
        change c.ptr + 1 + bytes.length ≤ c.buff.length
        omega
      have hfront : (c.buff.set c.ptr b).take (c.ptr + 1) = c.buff.take c.ptr ++ [b] := by
        rw [List.take_set, List.take_succ_eq_append_getElem hlt,
          List.set_append_right _ _ (by rw [List.length_take]; omega), List.length_take,
          Nat.min_eq_left (Nat.le_of_lt hlt), Nat.sub_self, List.set_cons_zero]
      have hback : (c.buff.set c.ptr b).drop (c.ptr + 1 + bytes.length) =
          c.buff.drop (c.ptr + (bytes.length + 1)) := by
        rw [List.drop_set_of_lt (by omega), Nat.add_assoc, Nat.add_comm 1]
      rw [storeAll, List.foldl_cons]
      apply ih
      rw [put, overwrite, if_pos hfits, ← Option.some.inj h]
      refine congrArg some (Cursor.ext ?_ ?_)
      · change (c.buff.set c.ptr b).take (c.ptr + 1) ++ bytes ++
          (c.buff.set c.ptr b).drop (c.ptr + 1 + bytes.length) = _
        rw [hfront, hback, List.append_assoc (c.buff.take c.ptr), List.singleton_append]
        rfl
      · change c.ptr + 1 + bytes.length = c.ptr + (bytes.length + 1)
        omega
    · cases h

/-- Bytes that do not leave the block are all written. -/
theorem amend_of_patch {c c' : Cursor} {pos : Nat} (h : c.patch pos bytes = some c') :
    c.amend pos bytes = c' := by
  rw [patch] at h
  obtain ⟨buff, hbuff, rfl⟩ := Option.map_eq_some_iff.mp h
  have hput : ({ c with ptr := pos } : Cursor).put bytes = some ⟨buff, pos + bytes.length⟩ := by
    rw [put, hbuff, Option.map_some]
  rw [amend, storeAll_of_put hput]

end Cursor

end FfProxy.Base
