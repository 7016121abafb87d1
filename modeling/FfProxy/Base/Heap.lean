import Mathlib.Data.List.Basic

/-!
# A heap of separately allocated cells

Addresses are allocation numbers, so an address is never handed out twice and a
released cell stays empty. Reading a released or unallocated address gives `none`;
callers turn that into the fault the dereference would be.
-/

namespace FfProxy.Base

/-- Allocated cells in allocation order; `none` marks a released cell. -/
structure Heap (α : Type) where
  cells : List (Option α)

namespace Heap

variable {α : Type}

/-- The heap before any allocation. -/
def empty : Heap α := ⟨[]⟩

/-- The address the next allocation returns. -/
def next (h : Heap α) : Nat := h.cells.length

/-- The contents of a live cell. -/
def read (h : Heap α) (a : Nat) : Option α := h.cells[a]?.join

/-- Allocate a cell at address `h.next`. -/
def alloc (h : Heap α) (v : α) : Heap α := ⟨h.cells ++ [some v]⟩

/-- Replace the contents of a cell. -/
def write (h : Heap α) (a : Nat) (v : α) : Heap α := ⟨h.cells.set a (some v)⟩

/-- Release a cell. -/
def free (h : Heap α) (a : Nat) : Heap α := ⟨h.cells.set a none⟩

/-- Only allocated addresses can be read. -/
theorem lt_next_of_read {h : Heap α} {a : Nat} {v : α} (hr : h.read a = some v) :
    a < h.next := by
  by_contra hn
  rw [read, List.getElem?_eq_none (Nat.not_lt.mp hn)] at hr
  simp at hr

/-- The address of the next allocation is not live yet. -/
theorem read_next (h : Heap α) : h.read h.next = none := by
  rw [read, next, List.getElem?_eq_none (Nat.le_refl _)]
  rfl

/-- A live address differs from the next one to be allocated. -/
theorem ne_next_of_read {h : Heap α} {a : Nat} {v : α} (hr : h.read a = some v) :
    a ≠ h.next := Nat.ne_of_lt (lt_next_of_read hr)

/-- Allocation fills the fresh address and leaves every other one alone. -/
theorem read_alloc (h : Heap α) (v : α) (a : Nat) :
    (h.alloc v).read a = if a = h.next then some v else h.read a := by
  unfold read alloc
  by_cases ha : a = h.next
  · rw [if_pos ha, ha, next, List.getElem?_concat_length]
    rfl
  · rw [if_neg ha]
    by_cases hl : a < h.cells.length
    · rw [List.getElem?_append_left hl]
    · have hg : h.cells.length < a := Nat.lt_of_le_of_ne (Nat.not_lt.mp hl) (Ne.symm ha)
      rw [List.getElem?_eq_none (by simp; omega), List.getElem?_eq_none (by omega)]

/-- Writing a live cell changes that cell only. -/
theorem read_write (h : Heap α) (a b : Nat) (v : α) (ha : a < h.next) :
    (h.write a v).read b = if b = a then some v else h.read b := by
  simp only [read, write]
  by_cases hb : b = a
  · rw [if_pos hb, hb, List.getElem?_set_self ha]
    rfl
  · rw [if_neg hb, List.getElem?_set_ne (Ne.symm hb)]

/-- Writing what a cell holds changes nothing. -/
theorem write_self {h : Heap α} {a : Nat} {v : α} (hr : h.read a = some v) : h.write a v = h := by
  have hlt : a < h.cells.length := lt_next_of_read hr
  have hcell : h.cells[a] = some v := by
    rw [read, List.getElem?_eq_getElem hlt] at hr
    exact hr
  rw [write, ← hcell, List.set_getElem_self]

/-- Releasing a cell empties that cell only. -/
theorem read_free (h : Heap α) (a b : Nat) :
    (h.free a).read b = if b = a then none else h.read b := by
  simp only [read, free]
  by_cases hb : b = a
  · rw [if_pos hb, hb]
    by_cases hl : a < h.cells.length
    · rw [List.getElem?_set_self hl]
      rfl
    · rw [List.getElem?_eq_none (by simp; omega)]
      rfl
  · rw [if_neg hb, List.getElem?_set_ne (Ne.symm hb)]

/-- Allocation moves the next address on by one. -/
@[simp] theorem next_alloc (h : Heap α) (v : α) : (h.alloc v).next = h.next + 1 := by
  simp [alloc, next]

/-- Writing allocates nothing. -/
@[simp] theorem next_write (h : Heap α) (a : Nat) (v : α) : (h.write a v).next = h.next := by
  simp [write, next]

/-- Releasing never makes an address available again. -/
@[simp] theorem next_free (h : Heap α) (a : Nat) : (h.free a).next = h.next := by
  simp [free, next]

/-- How many cells are live. -/
def liveCount (h : Heap α) : Nat := h.cells.countP Option.isSome

/-- Releasing a live cell leaves fewer live cells, so a loop that releases what it visits
ends. -/
theorem liveCount_free_lt {h : Heap α} {a : Nat} {v : α} (hr : h.read a = some v) :
    (h.free a).liveCount < h.liveCount := by
  have hlt : a < h.cells.length := lt_next_of_read hr
  have hcell : h.cells[a] = some v := by
    rw [read, List.getElem?_eq_getElem hlt] at hr
    exact hr
  have hpos : 0 < h.cells.countP Option.isSome :=
    List.countP_pos_iff.mpr ⟨some v, hcell ▸ List.getElem_mem hlt, rfl⟩
  rw [liveCount, liveCount, free, List.countP_set hlt, hcell]
  simp only [Option.isSome_some, ↓reduceIte, Option.isSome_none, Bool.false_eq_true]
  omega

end Heap
end FfProxy.Base
