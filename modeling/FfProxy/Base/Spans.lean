import Mathlib.Data.Finset.Card
import Mathlib.Order.Interval.Finset.Nat

/-!
# Half-open spans of positions

A span is a start and a length. Spans that are pairwise disjoint and lie below a
bound have a total length below that bound, and when the total reaches the bound
they cover every position exactly once. Empty spans are allowed everywhere.
-/

namespace FfProxy.Base

/-- The positions `start, …, start + length - 1`. -/
structure Span where
  start : Nat
  length : Nat
  deriving DecidableEq, Repr

namespace Span

/-- First position after the span. -/
def stop (s : Span) : Nat := s.start + s.length

/-- Position `k` lies in the span. -/
def Covers (s : Span) (k : Nat) : Prop := s.start ≤ k ∧ k < s.stop

/-- No position lies in both spans. -/
def Apart (s t : Span) : Prop := ∀ k, ¬ (s.Covers k ∧ t.Covers k)

instance (s : Span) (k : Nat) : Decidable (s.Covers k) :=
  inferInstanceAs (Decidable (_ ∧ _))

/-- Spans are apart exactly when one is empty or one ends before the other starts. -/
theorem apart_iff (s t : Span) :
    s.Apart t ↔ s.length = 0 ∨ t.length = 0 ∨ s.stop ≤ t.start ∨ t.stop ≤ s.start := by
  unfold Apart Covers stop
  constructor
  · intro h
    by_contra hn
    exact h (max s.start t.start) (by omega)
  · intro h k
    omega

instance (s t : Span) : Decidable (s.Apart t) :=
  decidable_of_iff _ (apart_iff s t).symm

/-- Sum of the lengths of a list of spans. -/
def total : List Span → Nat
  | [] => 0
  | s :: rest => s.length + total rest

/-- Pairwise disjoint spans inside `[0, n)` whose lengths add up to `n`. -/
structure Tiling (spans : List Span) (n : Nat) : Prop where
  apart : spans.Pairwise Apart
  inside : ∀ s ∈ spans, s.stop ≤ n
  covers : ∀ k, k < n → ∃ s ∈ spans, s.Covers k

/-- The total of a concatenation is the sum of the totals. -/
theorem total_append (a b : List Span) : total (a ++ b) = total a + total b := by
  induction a with
  | nil => simp [total]
  | cons s a ih => simp only [List.cons_append, total, ih]; omega

private def covered : List Span → Finset Nat
  | [] => ∅
  | s :: rest => Finset.Ico s.start s.stop ∪ covered rest

private theorem mem_covered (spans : List Span) (k : Nat) :
    k ∈ covered spans ↔ ∃ s ∈ spans, s.Covers k := by
  induction spans with
  | nil => simp [covered]
  | cons s rest ih => simp [covered, ih, Covers]

private theorem card_covered (spans : List Span) (h : spans.Pairwise Apart) :
    (covered spans).card = total spans := by
  induction spans with
  | nil => rfl
  | cons s rest ih =>
    obtain ⟨hs, hr⟩ := List.pairwise_cons.mp h
    have hd : Disjoint (Finset.Ico s.start s.stop) (covered rest) := by
      rw [Finset.disjoint_left]
      intro k hk hc
      obtain ⟨t, ht, hkt⟩ := (mem_covered rest k).mp hc
      exact hs t ht k ⟨Finset.mem_Ico.mp hk, hkt⟩
    rw [covered, Finset.card_union_of_disjoint hd, ih hr, Nat.card_Ico, total, stop]
    omega

private theorem covered_subset (spans : List Span) (n : Nat) (h : ∀ s ∈ spans, s.stop ≤ n) :
    covered spans ⊆ Finset.range n := by
  intro k hk
  obtain ⟨s, hs, hc⟩ := (mem_covered spans k).mp hk
  exact Finset.mem_range.mpr (Nat.lt_of_lt_of_le hc.2 (h s hs))

/-- Disjoint spans below a bound are together no longer than the bound. -/
theorem total_le (spans : List Span) (n : Nat) (ha : spans.Pairwise Apart)
    (hi : ∀ s ∈ spans, s.stop ≤ n) : total spans ≤ n := by
  have h := Finset.card_le_card (covered_subset spans n hi)
  rwa [card_covered spans ha, Finset.card_range] at h

/-- Disjoint spans below `n` whose lengths add up to `n` leave no gap. -/
theorem tiling_of_total (spans : List Span) (n : Nat) (ha : spans.Pairwise Apart)
    (hi : ∀ s ∈ spans, s.stop ≤ n) (ht : total spans = n) : Tiling spans n := by
  refine ⟨ha, hi, fun k hk ↦ ?_⟩
  have hc : covered spans = Finset.range n := by
    apply Finset.eq_of_subset_of_card_le (covered_subset spans n hi)
    rw [card_covered spans ha, ht, Finset.card_range]
  exact (mem_covered spans k).mp (hc ▸ Finset.mem_range.mpr hk)

/-! ### Consecutive spans -/

/-- The spans run from `start` to `stop`, each from where the one before it ended. -/
def Consecutive : Nat → List Span → Nat → Prop
  | start, [], stop => start = stop
  | start, s :: rest, stop => s.start = start ∧ Consecutive s.stop rest stop

/-- A run splits at any place into two runs that meet. -/
theorem consecutive_append_iff {start stop : Nat} {a b : List Span} :
    Consecutive start (a ++ b) stop ↔
      ∃ middle, Consecutive start a middle ∧ Consecutive middle b stop := by
  induction a generalizing start with
  | nil => simp [Consecutive]
  | cons s a ih =>
    simp only [List.cons_append, Consecutive, ih]
    constructor
    · rintro ⟨hs, middle, ha, hb⟩
      exact ⟨middle, ⟨hs, ha⟩, hb⟩
    · rintro ⟨middle, ⟨hs, ha⟩, hb⟩
      exact ⟨hs, middle, ha, hb⟩

namespace Consecutive

variable {start stop : Nat} {spans : List Span}

/-- A run does not end before it starts. -/
theorem start_le_stop (h : Consecutive start spans stop) : start ≤ stop := by
  induction spans generalizing start with
  | nil => exact Nat.le_of_eq h
  | cons s rest ih =>
    have hr := ih h.2
    have hs := h.1
    unfold Span.stop at hr
    omega

/-- Every span of a run lies between its ends. -/
theorem inside (h : Consecutive start spans stop) {s : Span} (hs : s ∈ spans) :
    start ≤ s.start ∧ s.stop ≤ stop := by
  induction spans generalizing start with
  | nil => cases hs
  | cons t rest ih =>
    have ht := h.1
    rcases List.mem_cons.mp hs with rfl | hs
    · exact ⟨Nat.le_of_eq ht.symm, h.2.start_le_stop⟩
    · have hr := ih h.2 hs
      unfold Span.stop at hr ⊢
      omega

/-- The lengths of a run add up to its length. -/
theorem total_eq (h : Consecutive start spans stop) : start + total spans = stop := by
  induction spans generalizing start with
  | nil => exact h
  | cons s rest ih =>
    have hr := ih h.2
    have hs := h.1
    unfold Span.stop at hr
    rw [total]
    omega

/-- Every span of a run but the first one is preceded by a span that ends where it starts. -/
theorem exists_predecessor (h : Consecutive start spans stop) {s : Span} (hs : s ∈ spans.tail) :
    ∃ p ∈ spans, p.stop = s.start := by
  induction spans generalizing start with
  | nil => cases hs
  | cons t rest ih =>
    cases rest with
    | nil => cases hs
    | cons u rest =>
      rcases List.mem_cons.mp hs with rfl | hs
      · exact ⟨t, by simp, h.2.1.symm⟩
      · obtain ⟨p, hp, he⟩ := ih h.2 hs
        exact ⟨p, List.mem_cons_of_mem t hp, he⟩

end Consecutive

/-- Items whose spans are consecutive, and not empty after the first one, can be put in no
other order in which none comes after an item that it touches from below. -/
theorem eq_of_perm_of_consecutive {α : Type} (f : α → Span) {start stop : Nat} {l l' : List α}
    (hc : Consecutive start (l.map f) stop) (hpos : ∀ a ∈ l.tail, 0 < (f a).length)
    (hp : l'.Perm l)
    (ho : l'.Pairwise fun a b ↦ ¬ ((f b).start < (f a).stop ∧ (f a).start ≤ (f b).stop)) :
    l' = l := by
  induction l generalizing l' start with
  | nil => exact hp.eq_nil
  | cons a l ih =>
    match l', hp, ho with
    | [], hp, _ => exact hp.symm.eq_nil.symm
    | b :: l', hp, ho =>
      obtain ⟨hb, ho'⟩ := List.pairwise_cons.mp ho
      have hab : b = a := by
        by_contra hne
        -- Then `b` has a predecessor, which is still to come and touches it from below.
        have hmem : b ∈ l := (List.mem_cons.mp (hp.mem_iff.mp List.mem_cons_self)).resolve_left hne
        obtain ⟨p, hpm, hstop⟩ := hc.exists_predecessor (s := f b)
          (by rw [← List.map_tail]; exact List.mem_map_of_mem hmem)
        obtain ⟨c, hcm, rfl⟩ := List.mem_map.mp hpm
        have hlen := hpos b hmem
        have hcb : c ≠ b := by
          rintro rfl
          unfold Span.stop at hstop
          omega
        have hcl : c ∈ l' := (List.mem_cons.mp (hp.mem_iff.mpr hcm)).resolve_left hcb
        apply hb c hcl
        unfold Span.stop at hstop ⊢
        omega
      subst hab
      rw [ih hc.2 (fun c hcm ↦ hpos c (List.mem_of_mem_tail hcm)) (List.perm_cons b |>.mp hp) ho']

end Span
end FfProxy.Base
