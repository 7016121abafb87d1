import FfProxy.Base.Heap
import Mathlib.Algebra.Order.Group.Multiset
import Mathlib.Data.Multiset.Range
import Mathlib.Data.Multiset.UnionInter
import Mathlib.Tactic.Abel

/-!
# Ownership of memory

A heap falls apart into cells that a program owns and a rest that it does not touch. A program is
described by the cells that it needs and those that it leaves; what else is owned stays as it was.
There is one rule for each operation on memory, one to put programs behind each other and one to
put aside what a program does not need.
-/

namespace FfProxy.Base

variable {ε α β γ : Type}

/-- Cells with their addresses. -/
abbrev Cells (α : Type) := Multiset (Nat × α)

/-- One cell. -/
def cell (a : Nat) (v : α) : Cells α := {(a, v)}

/-- The addresses of cells. -/
def Cells.addresses (cells : Cells α) : Multiset Nat := cells.map Prod.fst

section Addresses

variable {cells cells' : Cells α} {a b : Nat} {v : α}

@[simp] theorem mem_cell {c : Nat × α} : c ∈ cell a v ↔ c = (a, v) := Multiset.mem_singleton

@[simp] theorem addresses_cell : (cell a v).addresses = {a} := rfl

@[simp] theorem addresses_add :
    Cells.addresses (cells + cells') = cells.addresses + Cells.addresses cells' :=
  Multiset.map_add ..

theorem mem_addresses : a ∈ cells.addresses ↔ ∃ v, (a, v) ∈ cells := by
  simp [Cells.addresses]

theorem mem_addresses_of_mem {c : Nat × α} (h : c ∈ cells) : c.1 ∈ cells.addresses :=
  Multiset.mem_map_of_mem _ h

end Addresses

/-- The heap holds the cells of `owned`, and apart from them what `rest` says. -/
structure Heap.Splits (h : Heap α) (rest : Nat → Option α) (owned : Cells α) : Prop where
  nodup : owned.addresses.Nodup
  reads : ∀ c ∈ owned, h.read c.1 = some c.2
  apart : ∀ a ∈ owned.addresses, rest a = none
  others : ∀ a ∉ owned.addresses, h.read a = rest a

namespace Heap.Splits

variable {h : Heap α} {rest : Nat → Option α} {owned frame : Cells α} {a : Nat} {v : α}

/-- A heap of which nothing is owned. -/
theorem zero (h : Heap α) : h.Splits h.read 0 :=
  ⟨Multiset.nodup_zero, fun _ hc ↦ absurd hc (Multiset.notMem_zero _),
    fun _ ha ↦ absurd ha (Multiset.notMem_zero _), fun _ _ ↦ rfl⟩

theorem read_cell (hs : h.Splits rest (cell a v + owned)) : h.read a = some v :=
  hs.reads (a, v) (by simp)

/-- The address of an owned cell belongs to no other one. -/
theorem notMem_addresses (hs : h.Splits rest (cell a v + owned)) : a ∉ owned.addresses := by
  have hn := hs.nodup
  rw [addresses_add, addresses_cell, Multiset.singleton_add, Multiset.nodup_cons] at hn
  exact hn.1

/-- Owned addresses have been allocated. -/
theorem lt_next (hs : h.Splits rest owned) (ha : a ∈ owned.addresses) : a < h.next := by
  obtain ⟨v, hv⟩ := mem_addresses.mp ha
  exact Heap.lt_next_of_read (hs.reads _ hv)

/-- A new cell is owned. -/
theorem alloc (hs : h.Splits rest owned) (v : α) :
    (h.alloc v).Splits rest (cell h.next v + owned) := by
  have hfresh : h.next ∉ owned.addresses := fun hm ↦ Nat.lt_irrefl _ (hs.lt_next hm)
  refine ⟨?_, fun c hc ↦ ?_, fun b hb ↦ ?_, fun b hb ↦ ?_⟩
  · rw [addresses_add, addresses_cell, Multiset.singleton_add, Multiset.nodup_cons]
    exact ⟨hfresh, hs.nodup⟩
  · rw [Heap.read_alloc]
    rcases Multiset.mem_add.mp hc with hc | hc
    · rw [mem_cell.mp hc]
      exact if_pos rfl
    · rw [if_neg (Nat.ne_of_lt (hs.lt_next (mem_addresses_of_mem hc))), hs.reads c hc]
  · rw [addresses_add, addresses_cell, Multiset.singleton_add, Multiset.mem_cons] at hb
    rcases hb with rfl | hb
    · rw [← hs.others _ hfresh, Heap.read_next]
    · exact hs.apart b hb
  · rw [addresses_add, addresses_cell, Multiset.singleton_add, Multiset.mem_cons, not_or] at hb
    rw [Heap.read_alloc, if_neg hb.1, hs.others b hb.2]

/-- A released cell is not owned any more. -/
theorem free (hs : h.Splits rest (cell a v + owned)) : (h.free a).Splits rest owned := by
  have hn := hs.nodup
  rw [addresses_add, addresses_cell, Multiset.singleton_add, Multiset.nodup_cons] at hn
  refine ⟨hn.2, fun c hc ↦ ?_, fun b hb ↦ ?_, fun b hb ↦ ?_⟩
  · have hne : c.1 ≠ a := fun heq ↦ hn.1 (heq ▸ mem_addresses_of_mem hc)
    rw [Heap.read_free, if_neg hne]
    exact hs.reads c (Multiset.mem_add.mpr (Or.inr hc))
  · apply hs.apart
    rw [addresses_add]
    exact Multiset.mem_add.mpr (Or.inr hb)
  · rw [Heap.read_free]
    by_cases heq : b = a
    · rw [if_pos heq, heq, hs.apart a (by simp)]
    · rw [if_neg heq]
      apply hs.others
      simp [heq, hb]

/-- A cell that is written holds what was written. -/
theorem write (hs : h.Splits rest (cell a v + owned)) (w : α) :
    (h.write a w).Splits rest (cell a w + owned) := by
  have hlt : a < h.next := Heap.lt_next_of_read hs.read_cell
  refine ⟨by simpa using hs.nodup, fun c hc ↦ ?_, fun b hb ↦ hs.apart b (by simpa using hb),
    fun b hb ↦ ?_⟩
  · rw [Heap.read_write _ _ _ _ hlt]
    rcases Multiset.mem_add.mp hc with hc | hc
    · rw [mem_cell.mp hc]
      exact if_pos rfl
    · have hne : c.1 ≠ a := fun heq ↦ hs.notMem_addresses (heq ▸ mem_addresses_of_mem hc)
      rw [if_neg hne]
      exact hs.reads c (Multiset.mem_add.mpr (Or.inr hc))
  · simp only [addresses_add, addresses_cell, Multiset.singleton_add, Multiset.mem_cons,
      not_or] at hb
    rw [Heap.read_write _ _ _ _ hlt, if_neg hb.1]
    exact hs.others b (by simpa using hb)

/-- There are no more owned cells than allocated ones. -/
theorem card_le (hs : h.Splits rest owned) : Multiset.card owned ≤ h.next := by
  have hsub : owned.addresses ≤ Multiset.range h.next :=
    (Multiset.le_iff_subset hs.nodup).mpr fun b hb ↦ Multiset.mem_range.mpr (hs.lt_next hb)
  have hcard := Multiset.card_le_card hsub
  rwa [Cells.addresses, Multiset.card_map, Multiset.card_range] at hcard

end Heap.Splits

/-! ### Putting cells aside -/

open Classical in
/-- The rest of a heap together with some cells. -/
noncomputable def restWith (rest : Nat → Option α) (cells : Cells α) (a : Nat) : Option α :=
  if h : ∃ v, (a, v) ∈ cells then some h.choose else rest a

section RestWith

variable {h : Heap α} {rest : Nat → Option α} {owned frame : Cells α}

theorem restWith_of_notMem {a : Nat} (ha : a ∉ frame.addresses) :
    restWith rest frame a = rest a :=
  dif_neg fun hex ↦ ha (mem_addresses.mpr hex)

theorem restWith_of_mem (hn : frame.addresses.Nodup) {c : Nat × α} (hc : c ∈ frame) :
    restWith rest frame c.1 = some c.2 := by
  have hex : ∃ v, (c.1, v) ∈ frame := ⟨c.2, hc⟩
  rw [restWith, dif_pos hex]
  exact congrArg (fun d : Nat × α ↦ some d.2)
    (Multiset.inj_on_of_nodup_map hn _ hex.choose_spec _ hc rfl)

/-- Owned cells may be put aside to the rest, -/
theorem Heap.Splits.putAside (hs : h.Splits rest (owned + frame)) :
    h.Splits (restWith rest frame) owned := by
  have hn := hs.nodup
  rw [addresses_add, Multiset.nodup_add] at hn
  obtain ⟨hn, hnf, hdis⟩ := hn
  refine ⟨hn, fun c hc ↦ hs.reads c (Multiset.mem_add.mpr (Or.inl hc)), fun a ha ↦ ?_,
    fun a ha ↦ ?_⟩
  · rw [restWith_of_notMem (Multiset.disjoint_left.mp hdis ha)]
    exact hs.apart a (by simp [ha])
  · by_cases hf : a ∈ frame.addresses
    · obtain ⟨v, hv⟩ := mem_addresses.mp hf
      rw [restWith_of_mem hnf hv]
      exact hs.reads _ (Multiset.mem_add.mpr (Or.inr hv))
    · rw [restWith_of_notMem hf]
      exact hs.others a (by simp [ha, hf])

/-- and taken back. -/
theorem Heap.Splits.takeBack (hs : h.Splits (restWith rest frame) owned)
    (hn : frame.addresses.Nodup) (hapart : ∀ a ∈ frame.addresses, rest a = none) :
    h.Splits rest (owned + frame) := by
  have hout : ∀ a ∈ owned.addresses, a ∉ frame.addresses := by
    intro a ha hf
    obtain ⟨v, hv⟩ := mem_addresses.mp hf
    have hnone := hs.apart a ha
    rw [restWith_of_mem hn hv] at hnone
    cases hnone
  refine ⟨?_, fun c hc ↦ ?_, fun a ha ↦ ?_, fun a ha ↦ ?_⟩
  · rw [addresses_add, Multiset.nodup_add]
    exact ⟨hs.nodup, hn, Multiset.disjoint_left.mpr (hout _)⟩
  · rcases Multiset.mem_add.mp hc with hc | hc
    · exact hs.reads c hc
    · rw [hs.others _ fun hm ↦ hout _ hm (mem_addresses_of_mem hc), restWith_of_mem hn hc]
  · rw [addresses_add] at ha
    rcases Multiset.mem_add.mp ha with ha | ha
    · have hnone := hs.apart a ha
      rwa [restWith_of_notMem (hout a ha)] at hnone
    · exact hapart a ha
  · rw [addresses_add, Multiset.mem_add, not_or] at ha
    rw [hs.others a ha.1, restWith_of_notMem ha.2]

end RestWith

/-! ### Programs -/

/-- Programs that work on a heap and may fail. -/
abbrev HeapM (ε α : Type) := StateT (Heap α) (Except ε)

/-- Allocate a cell. -/
def alloc (v : α) : HeapM ε α Nat := fun h ↦ .ok (h.next, h.alloc v)

/-- Read a cell of some kind; `dead` if there is no such cell. -/
def load (dead : ε) (kind : α → Option β) (a : Nat) : HeapM ε α β := fun h ↦
  match (h.read a).bind kind with
  | none => .error dead
  | some b => .ok (b, h)

/-- Write a live cell. -/
def store (dead : ε) (a : Nat) (v : α) : HeapM ε α Unit := fun h ↦
  match h.read a with
  | none => .error dead
  | some _ => .ok ((), h.write a v)

/-- Release the cell that a pointer leads to; nothing is done for a null pointer. -/
def release (dead : ε) (p : Option Nat) : HeapM ε α Unit := fun h ↦
  match p with
  | none => .ok ((), h)
  | some a =>
    match h.read a with
    | none => .error dead
    | some _ => .ok ((), h.free a)

/-- How many cells were allocated so far. -/
def allocated : HeapM ε α Nat := fun h ↦ .ok (h.next, h)

/-- From every heap of which the cells of `before` are owned, the program comes to an end without
failing, leaves all other cells as they were, and owns cells as in `after` then. -/
def Spec (x : HeapM ε α β) (before : Cells α) (after : β → Cells α → Prop) : Prop :=
  ∀ h rest, h.Splits rest before →
    ∃ b h' owned, x h = .ok (b, h') ∧ h'.Splits rest owned ∧ after b owned

namespace Spec

variable {x : HeapM ε α β} {f : β → HeapM ε α γ} {before need : Cells α}
  {after after' : β → Cells α → Prop} {final : γ → Cells α → Prop}

theorem pure {b : β} (h : after b before) : Spec (Pure.pure b : HeapM ε α β) before after :=
  fun mem _ hs ↦ ⟨b, mem, before, rfl, hs, h⟩

theorem bind (hx : Spec x before after) (hf : ∀ b owned, after b owned → Spec (f b) owned final) :
    Spec (x >>= f) before final := by
  intro h rest hs
  obtain ⟨b, h₁, owned, hrun, hs₁, hafter⟩ := hx h rest hs
  obtain ⟨c, h₂, owned', hrun', hs₂, hfinal⟩ := hf b owned hafter h₁ rest hs₁
  refine ⟨c, h₂, owned', ?_, hs₂, hfinal⟩
  rw [← hrun']
  exact congrArg (fun y : Except ε (β × Heap α) ↦ y >>= fun p ↦ f p.1 p.2) hrun

theorem mono (hx : Spec x before after) (h : ∀ b owned, after b owned → after' b owned) :
    Spec x before after' := by
  intro mem rest hs
  obtain ⟨b, mem', owned, hrun, hs', hafter⟩ := hx mem rest hs
  exact ⟨b, mem', owned, hrun, hs', h b owned hafter⟩

/-- What a program does not need stays as it was. -/
theorem frame (hx : Spec x before after) (frame : Cells α) :
    Spec x (before + frame) fun b owned ↦ ∃ part, owned = part + frame ∧ after b part := by
  intro mem rest hs
  obtain ⟨b, mem', owned, hrun, hs', hafter⟩ := hx mem _ hs.putAside
  have hn := hs.nodup
  rw [addresses_add, Multiset.nodup_add] at hn
  exact ⟨b, mem', owned + frame, hrun,
    hs'.takeBack hn.2.1 fun a ha ↦ hs.apart a (by simp [ha]), owned, rfl, hafter⟩

/-- The first part of a program needs some of the cells. -/
theorem step (hx : Spec x need after) {frame : Cells α} (hbefore : before = need + frame)
    (hf : ∀ b part, after b part → Spec (f b) (part + frame) final) :
    Spec (x >>= f) before final := by
  subst hbefore
  refine (hx.frame frame).bind ?_
  rintro b _ ⟨part, rfl, hpart⟩
  exact hf b part hpart

/-- A program needs some of the cells only. -/
theorem last {final : β → Cells α → Prop} (hx : Spec x need after) {frame : Cells α}
    (hbefore : before = need + frame)
    (hfinal : ∀ b part, after b part → final b (part + frame)) : Spec x before final := by
  subst hbefore
  refine (hx.frame frame).mono ?_
  rintro b _ ⟨part, rfl, hpart⟩
  exact hfinal b part hpart

theorem alloc (v : α) :
    Spec (Base.alloc v : HeapM ε α Nat) 0 fun a owned ↦ owned = cell a v := by
  intro mem _ hs
  exact ⟨mem.next, mem.alloc v, _, rfl, hs.alloc v, add_zero _⟩

theorem load (dead : ε) {kind : α → Option β} (a : Nat) {v : α} {b : β} (hkind : kind v = some b) :
    Spec (Base.load dead kind a) (cell a v) fun c owned ↦ c = b ∧ owned = cell a v := by
  intro mem rest hs
  have hread : mem.read a = some v := hs.reads (a, v) (mem_cell.mpr rfl)
  refine ⟨b, mem, _, ?_, hs, rfl, rfl⟩
  rw [Base.load, hread, Option.bind_some, hkind]

theorem store (dead : ε) (a : Nat) {v : α} (w : α) :
    Spec (Base.store dead a w) (cell a v) fun _ owned ↦ owned = cell a w := by
  intro mem rest hs
  rw [← add_zero (cell a v)] at hs
  refine ⟨(), mem.write a w, _, ?_, hs.write w, add_zero _⟩
  rw [Base.store, hs.read_cell]

theorem release (dead : ε) (a : Nat) {v : α} :
    Spec (Base.release dead (some a)) (cell a v) fun _ owned ↦ owned = 0 := by
  intro mem rest hs
  rw [← add_zero (cell a v)] at hs
  refine ⟨(), mem.free a, _, ?_, hs.free, rfl⟩
  simp only [Base.release, hs.read_cell]

theorem release_none (dead : ε) :
    Spec (Base.release dead none : HeapM ε α Unit) 0 fun _ owned ↦ owned = 0 :=
  fun mem _ hs ↦ ⟨(), mem, _, rfl, hs, rfl⟩

/-- No more cells are owned than allocated. -/
theorem allocated (before : Cells α) :
    Spec (Base.allocated : HeapM ε α Nat) before fun n owned ↦
      Multiset.card before ≤ n ∧ owned = before :=
  fun mem _ hs ↦ ⟨mem.next, mem, _, rfl, hs, hs.card_le, rfl⟩

end Spec

end FfProxy.Base
