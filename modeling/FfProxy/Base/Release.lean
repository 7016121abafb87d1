import FfProxy.Base.Heap
import FfProxy.Base.Segment
import Mathlib.Data.Set.BooleanAlgebra
import Mathlib.Order.CompletePartialOrder

/-!
# Releasing memory

A memory is looked at cell by cell. A run that releases memory is described by the region it
drops: the cells of the region are gone, all others are as they were. Runs that drop regions one
after the other drop their union, and a loop over disjoint regions drops all of them. A linked chain
of cells is released by following its links.
-/

namespace FfProxy.Base

variable {M ι V κ ε : Type} {view : M → ι → Option V}

/-- A memory without the cells of a region. -/
structure Drops (view : M → ι → Option V) (m m' : M) (region : Set ι) : Prop where
  gone : ∀ c ∈ region, view m' c = none
  rest : ∀ c ∉ region, view m' c = view m c

namespace Drops

variable {m m₁ m₂ : M} {r r' : Set ι}

theorem refl (m : M) : Drops view m m ∅ := ⟨fun _ h ↦ absurd h (Set.notMem_empty _), fun _ _ ↦ rfl⟩

theorem trans (h : Drops view m m₁ r) (h' : Drops view m₁ m₂ r') :
    Drops view m m₂ (r ∪ r') where
  gone c hc := by
    by_cases hr : c ∈ r'
    · exact h'.gone c hr
    · rw [h'.rest c hr, h.gone c (hc.resolve_right hr)]
  rest c hc := by
    rw [h'.rest c fun hr ↦ hc (Or.inr hr), h.rest c fun hr ↦ hc (Or.inl hr)]

/-- What lies apart from the region is still there. -/
theorem kept (h : Drops view m m₁ r) (hr : Disjoint r r') : ∀ c ∈ r', view m₁ c = view m c :=
  fun c hc ↦ h.rest c fun hm ↦ Set.disjoint_left.mp hr hm hc

end Drops

/-- A loop whose rounds drop disjoint regions drops all of them. A round may rely on its own
region and on `base`, which no round touches. -/
theorem foldlM_drops {release : M → κ → Except ε M} {region : κ → Set ι} {base : Set ι} {m : M}
    {ks : List κ} (hapart : ks.Pairwise fun j k ↦ Disjoint (region j) (region k))
    (hbase : ∀ k ∈ ks, Disjoint (region k) base)
    (hround : ∀ k ∈ ks, ∀ m₁, (∀ c ∈ region k ∪ base, view m₁ c = view m c) →
      ∃ m₂, release m₁ k = .ok m₂ ∧ Drops view m₁ m₂ (region k)) :
    ∃ m', ks.foldlM release m = .ok m' ∧ Drops view m m' {c | ∃ k ∈ ks, c ∈ region k} := by
  induction ks generalizing m with
  | nil =>
    refine ⟨m, rfl, ?_⟩
    have hnone : {c | ∃ k ∈ ([] : List κ), c ∈ region k} = ∅ := by
      ext c
      simp
    rw [hnone]
    exact .refl m
  | cons k ks ih =>
    obtain ⟨hhead, htail⟩ := List.pairwise_cons.mp hapart
    obtain ⟨m₁, hrun, hdrop⟩ := hround k List.mem_cons_self m fun _ _ ↦ rfl
    -- The other rounds find their regions as they were.
    have hrest : ∀ j ∈ ks, ∀ m₂, (∀ c ∈ region j ∪ base, view m₂ c = view m₁ c) →
        ∃ m₃, release m₂ j = .ok m₃ ∧ Drops view m₂ m₃ (region j) := by
      intro j hj m₂ hsame
      apply hround j (List.mem_cons_of_mem k hj)
      intro c hc
      have hkept : Disjoint (region k) (region j ∪ base) :=
        Set.disjoint_union_right.mpr ⟨hhead j hj, hbase k List.mem_cons_self⟩
      rw [hsame c hc, hdrop.kept hkept c hc]
    obtain ⟨m', hrun', hdrop'⟩ :=
      ih htail (fun j hj ↦ hbase j (List.mem_cons_of_mem k hj)) hrest
    refine ⟨m', ?_, ?_⟩
    · rw [List.foldlM_cons, hrun]
      exact hrun'
    · have hsplit : {c | ∃ j ∈ k :: ks, c ∈ region j} =
          region k ∪ {c | ∃ j ∈ ks, c ∈ region j} := by
        ext c
        simp
      rw [hsplit]
      exact hdrop.trans hdrop'

section Chain

/-- The link of a cell, if the cell is there. -/
def linkOf (next : V → Option Nat) (h : Heap V) (a : Nat) : Option Nat := (h.read a).bind next

/-- Release the cells of a chain one by one. The link of a cell is read before the cell is released;
`dead` is what reading a cell that is not there gives. -/
def releaseChain (next : V → Option Nat) (dead : ε) (h : Heap V) : Option Nat → Except ε (Heap V)
  | none => .ok h
  | some a =>
    match _h : h.read a with
    | none => .error dead
    | some v => releaseChain next dead (h.free a) (next v)
termination_by h.liveCount
decreasing_by exact Heap.liveCount_free_lt _h

variable {next : V → Option Nat} {dead : ε} {h : Heap V} {as : List Nat}

/-- One cell of a chain. -/
private theorem releaseChain_some {a : Nat} {v : V} (ha : h.read a = some v) :
    releaseChain next dead h (some a) = releaseChain next dead (h.free a) (next v) := by
  rw [releaseChain]
  split
  · next hnone => cases hnone.symm.trans ha
  · next v' hv =>
    obtain rfl := Option.some.inj (hv.symm.trans ha)
    rfl

/-- A chain of cells that are there is released, and nothing else. -/
theorem releaseChain_segment (dead : ε) (hseg : Segment (linkOf next h) as none) (hnodup : as.Nodup)
    (hlive : ∀ a ∈ as, (h.read a).isSome) :
    ∃ h', releaseChain next dead h as.head? = .ok h' ∧
      ∀ a, h'.read a = if a ∈ as then none else h.read a := by
  induction as generalizing h with
  | nil => exact ⟨h, by rw [List.head?_nil, releaseChain], fun a ↦ by simp⟩
  | cons b bs ih =>
    obtain ⟨hb, hnodup⟩ := List.nodup_cons.mp hnodup
    obtain ⟨v, hv⟩ := Option.isSome_iff_exists.mp (hlive b List.mem_cons_self)
    have hnext : next v = bs.head? := by
      have hlink := hseg.1
      rwa [linkOf, hv, Option.bind_some, Option.or_none] at hlink
    -- The rest of the chain is as it was.
    have hkept : ∀ a ∈ bs, (h.free b).read a = h.read a := by
      intro a ha
      rw [Heap.read_free, if_neg]
      rintro rfl
      exact hb ha
    have hrest : Segment (linkOf next (h.free b)) bs none :=
      hseg.2.congr fun a ha ↦ by rw [linkOf, linkOf, hkept a ha]
    have hlive' : ∀ a ∈ bs, ((h.free b).read a).isSome := fun a ha ↦ by
      rw [hkept a ha]
      exact hlive a (List.mem_cons_of_mem b ha)
    obtain ⟨h', hrun, hread⟩ := ih hrest hnodup hlive'
    refine ⟨h', ?_, fun a ↦ ?_⟩
    · rw [List.head?_cons, releaseChain_some hv, hnext, hrun]
    · rw [hread a, Heap.read_free]
      by_cases hab : a = b <;> simp [hab]

end Chain

end FfProxy.Base
