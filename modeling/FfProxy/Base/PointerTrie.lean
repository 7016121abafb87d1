import Mathlib.Data.List.Basic
import Mathlib.Data.List.Infix

/-!
# Pointer tries

Arrays of pointers to further arrays, seen through the function that gives the pointer in a
slot. In a tree different paths reach different arrays. Changing one slot then changes what
is found behind that slot and nothing else, whether a leaf is set, an empty array is hung
in or an empty array is cut off. Where no array below the root is empty, every array lies on
the path of a leaf.
-/

namespace FfProxy.Base

variable {κ : Type}

/-- The pointer in each slot of each array; an array that does not exist has no pointers. -/
abbrev Slots (κ : Type) := Nat → κ → Option Nat

/-- Where a path leads from an array. -/
def follow (s : Slots κ) (root : Nat) (path : List κ) : Option Nat :=
  path.foldl (fun pointer k ↦ pointer.bind fun a ↦ s a k) (some root)

/-- Different paths of fewer than `depth` steps reach different arrays. -/
def IsTree (s : Slots κ) (root depth : Nat) : Prop :=
  ∀ p q a, p.length < depth → q.length < depth → follow s root p = some a →
    follow s root q = some a → p = q

/-- Every array that fewer than `depth` steps reach has a pointer, but for the root and the array
at the end of one path. -/
def FilledBut (s : Slots κ) (root depth : Nat) (p : List κ) : Prop :=
  ∀ q, q ≠ [] → q ≠ p → q.length < depth → follow s root q ≠ none →
    ∃ k, follow s root (q ++ [k]) ≠ none

/-- Store a pointer in one slot. -/
def setSlot [DecidableEq κ] (s : Slots κ) (a : Nat) (k : κ) (pointer : Option Nat) : Slots κ :=
  fun b j ↦ if b = a ∧ j = k then pointer else s b j

section Follow

variable {s : Slots κ} {root : Nat} {p q : List κ} {k : κ}

@[simp] theorem follow_nil : follow s root [] = some root := rfl

/-- The last step of a path. -/
theorem follow_concat : follow s root (p ++ [k]) = (follow s root p).bind fun a ↦ s a k :=
  List.foldl_append

/-- A path is followed in two parts. -/
theorem follow_append : follow s root (p ++ q) = (follow s root p).bind fun a ↦ follow s a q := by
  induction q using List.reverseRecOn with
  | nil => simp
  | append_singleton q k ih =>
    rw [← List.append_assoc, follow_concat, ih]
    cases follow s root p with
    | none => rfl
    | some a => exact follow_concat.symm

/-- An array without pointers leads nowhere. -/
theorem follow_of_empty {c : Nat} (hc : ∀ j, s c j = none) (hq : q ≠ []) : follow s c q = none := by
  obtain ⟨j, q, rfl⟩ := List.exists_cons_of_ne_nil hq
  have hj : follow s c [j] = none := hc j
  rw [← List.singleton_append, follow_append, hj]
  rfl

end Follow

section SetSlot

variable [DecidableEq κ] {s : Slots κ} {root depth a : Nat} {p q : List κ} {k : κ}
  {pointer : Option Nat}

/-- Paths that do not pass the slot lead where they led. -/
theorem follow_setSlot_of_not_prefix (ht : IsTree s root depth) (hp : follow s root p = some a)
    (hl : p.length < depth) (hq : q.length ≤ depth) (hn : ¬ p ++ [k] <+: q) :
    follow (setSlot s a k pointer) root q = follow s root q := by
  induction q using List.reverseRecOn with
  | nil => rfl
  | append_singleton q j ih =>
    rw [List.length_append, List.length_singleton] at hq
    rw [follow_concat, follow_concat,
      ih (by omega) fun h ↦ hn (h.trans (List.prefix_append q [j]))]
    cases hb : follow s root q with
    | none => rfl
    | some b =>
      apply if_neg
      rintro ⟨rfl, rfl⟩
      obtain rfl := ht p q b hl hq hp hb
      exact hn (List.prefix_refl _)

/-- The slot leads where its new pointer points. -/
theorem follow_setSlot_self (ht : IsTree s root depth) (hp : follow s root p = some a)
    (hl : p.length < depth) : follow (setSlot s a k pointer) root (p ++ [k]) = pointer := by
  have hn : ¬ p ++ [k] <+: p := fun h ↦ by
    have := h.length_le
    rw [List.length_append, List.length_singleton] at this
    omega
  rw [follow_concat, follow_setSlot_of_not_prefix ht hp hl (Nat.le_of_lt hl) hn, hp]
  exact if_pos ⟨rfl, rfl⟩

/-- If the pointer that is replaced and the new one lead to empty arrays at most, all other
paths of up to `depth` steps lead where they led. -/
theorem follow_setSlot_of_ne (ht : IsTree s root depth) (hp : follow s root p = some a)
    (hl : p.length < depth)
    (hold : p.length + 1 < depth → ∀ c, s a k = some c → ∀ j, s c j = none)
    (hnew : p.length + 1 < depth → ∀ c, pointer = some c → c ≠ a ∧ ∀ j, s c j = none)
    (hq : q.length ≤ depth) (hne : q ≠ p ++ [k]) :
    follow (setSlot s a k pointer) root q = follow s root q := by
  by_cases hpre : p ++ [k] <+: q
  · -- Behind the slot nothing was found before and nothing is found after.
    obtain ⟨rest, rfl⟩ := hpre
    have hrest : rest ≠ [] := fun h ↦ hne (by rw [h, List.append_nil])
    have hlt : p.length + 1 < depth := by
      have := List.length_pos_iff.mpr hrest
      simp only [List.length_append, List.length_singleton] at hq
      omega
    have hbefore : follow s root (p ++ [k] ++ rest) = none := by
      rw [follow_append, follow_concat, hp, Option.bind_some]
      cases hc : s a k with
      | none => rfl
      | some c => exact follow_of_empty (hold hlt c hc) hrest
    rw [hbefore, follow_append, follow_setSlot_self ht hp hl]
    cases hc : pointer with
    | none => rfl
    | some c =>
      obtain ⟨hca, hempty⟩ := hnew hlt c hc
      apply follow_of_empty _ hrest
      intro j
      rw [setSlot, if_neg fun h ↦ hca h.1]
      exact hempty j
  · exact follow_setSlot_of_not_prefix ht hp hl hq hpre

/-- Under the same conditions the trie stays a tree, if the new pointer leads to a new array. -/
theorem IsTree.setSlot (ht : IsTree s root depth) (hp : follow s root p = some a)
    (hl : p.length < depth)
    (hold : p.length + 1 < depth → ∀ c, s a k = some c → ∀ j, s c j = none)
    (hnew : p.length + 1 < depth → ∀ c, pointer = some c →
      (∀ q, q.length < depth → follow s root q ≠ some c) ∧ ∀ j, s c j = none) :
    IsTree (setSlot s a k pointer) root depth := by
  have hsame : ∀ q, q.length < depth → q ≠ p ++ [k] →
      follow (Base.setSlot s a k pointer) root q = follow s root q := fun q hq hne ↦
    follow_setSlot_of_ne ht hp hl hold
      (fun hlt c hc ↦ ⟨fun h ↦ (hnew hlt c hc).1 p hl (h ▸ hp), (hnew hlt c hc).2⟩)
      (Nat.le_of_lt hq) hne
  -- The path of the slot shares its array with no other path.
  have hslot : ∀ q b, q.length < depth → (p ++ [k]).length < depth → q ≠ p ++ [k] →
      follow (Base.setSlot s a k pointer) root (p ++ [k]) = some b →
      follow (Base.setSlot s a k pointer) root q ≠ some b := by
    intro q b hq hpk hne hb hqb
    rw [follow_setSlot_self ht hp hl] at hb
    rw [hsame q hq hne] at hqb
    rw [List.length_append, List.length_singleton] at hpk
    exact (hnew hpk b hb).1 q hq hqb
  intro q₁ q₂ b h₁ h₂ hb₁ hb₂
  by_cases e₁ : q₁ = p ++ [k]
  · subst e₁
    by_contra hne
    exact hslot q₂ b h₂ h₁ (Ne.symm hne) hb₁ hb₂
  · by_cases e₂ : q₂ = p ++ [k]
    · subst e₂
      exact absurd hb₁ (hslot q₁ b h₁ h₂ e₁ hb₂)
    · rw [hsame q₁ h₁ e₁] at hb₁
      rw [hsame q₂ h₂ e₂] at hb₂
      exact ht q₁ q₂ b h₁ h₂ hb₁ hb₂

end SetSlot

section Filled

variable {s s' : Slots κ} {root depth : Nat} {p q : List κ}

/-- A path that leads somewhere leads there step by step. -/
theorem follow_ne_none_of_front (hpre : p <+: q) (h : follow s root q ≠ none) :
    follow s root p ≠ none := by
  obtain ⟨rest, rfl⟩ := hpre
  intro hp
  rw [follow_append, hp] at h
  exact h rfl

/-- The array that was left out has a pointer. -/
theorem FilledBut.fill (h : FilledBut s root depth p) {k : κ}
    (hk : follow s root (p ++ [k]) ≠ none) : FilledBut s root depth [] := by
  intro q hq _ hlen hfollow
  by_cases hqp : q = p
  · rw [hqp]
    exact ⟨k, hk⟩
  · exact h q hq hqp hlen hfollow

/-- Every array below the root lies on the path of a leaf. -/
theorem FilledBut.exists_leaf (h : FilledBut s root depth []) (hq : q ≠ [])
    (hlen : q.length ≤ depth) (hfollow : follow s root q ≠ none) :
    ∃ r, (q ++ r).length = depth ∧ follow s root (q ++ r) ≠ none := by
  induction hn : depth - q.length generalizing q with
  | zero => exact ⟨[], by rw [List.append_nil]; omega, by rwa [List.append_nil]⟩
  | succ n ih =>
    obtain ⟨k, hk⟩ := h q hq hq (by omega) hfollow
    have hlen' : (q ++ [k]).length = q.length + 1 := by
      rw [List.length_append, List.length_singleton]
    obtain ⟨r, hr, hleaf⟩ := ih (List.append_ne_nil_of_left_ne_nil hq [k]) (by omega) hk (by omega)
    rw [List.append_assoc] at hr hleaf
    exact ⟨[k] ++ r, hr, hleaf⟩

/-- Arrays are hung in along one path, and the one at its end is left out. -/
theorem FilledBut.grow (h : FilledBut s root depth []) (hp : follow s' root p ≠ none)
    (hgrown : ∀ q, q.length ≤ depth → follow s root q ≠ none → follow s' root q ≠ none)
    (hoff : ∀ q, q.length < depth → ¬ q <+: p → follow s' root q = follow s root q) :
    FilledBut s' root depth p := by
  intro q hq hqp hlen hsome
  by_cases hpre : q <+: p
  · -- On the path the next array is there.
    obtain ⟨rest, rfl⟩ := hpre
    have hrest : rest ≠ [] := fun he ↦ hqp (by rw [he, List.append_nil])
    obtain ⟨k, rest, rfl⟩ := List.exists_cons_of_ne_nil hrest
    exact ⟨k, follow_ne_none_of_front ⟨rest, List.append_assoc q [k] rest⟩ hp⟩
  · rw [hoff q hlen hpre] at hsome
    obtain ⟨k, hk⟩ := h q hq hq hlen hsome
    exact ⟨k, hgrown _ (by rw [List.length_append, List.length_singleton]; omega) hk⟩

section Change

variable {k : κ} {pointer : Option Nat} [DecidableEq κ]

/-- Where only the slot at the end of one path changes, an array at the end of another path has a
pointer if it had one. -/
private theorem exists_slot_of_change
    (hfollow : ∀ q, q.length ≤ depth → follow s' root q =
      if q = p ++ [k] then pointer else follow s root q)
    (hq : q.length < depth) (hqp : q ≠ p) (h : ∃ j, follow s root (q ++ [j]) ≠ none) :
    ∃ j, follow s' root (q ++ [j]) ≠ none := by
  obtain ⟨j, hj⟩ := h
  have hne : q ++ [j] ≠ p ++ [k] := fun he ↦ hqp (List.append_inj' he rfl).1
  refine ⟨j, ?_⟩
  rwa [hfollow _ (by rw [List.length_append, List.length_singleton]; omega), if_neg hne]

/-- A leaf slot is changed in the array that is left out. -/
theorem FilledBut.setLeaf (h : FilledBut s root depth p) (hp : p.length + 1 = depth)
    (hfollow : ∀ q, q.length ≤ depth → follow s' root q =
      if q = p ++ [k] then pointer else follow s root q) : FilledBut s' root depth p := by
  intro q hq hqp hlen hsome
  refine exists_slot_of_change hfollow hlen hqp (h q hq hqp hlen ?_)
  rwa [hfollow q (Nat.le_of_lt hlen), if_neg] at hsome
  rintro rfl
  rw [List.length_append, List.length_singleton] at hlen
  omega

/-- The array that was left out is cut off, and the one in which it hung is left out instead. -/
theorem FilledBut.cut (h : FilledBut s root depth (p ++ [k]))
    (hfollow : ∀ q, q.length ≤ depth → follow s' root q =
      if q = p ++ [k] then none else follow s root q) : FilledBut s' root depth p := by
  intro q hq hqp hlen hsome
  rw [hfollow q (Nat.le_of_lt hlen)] at hsome
  split at hsome
  · exact absurd rfl hsome
  · next hne => exact exists_slot_of_change hfollow hlen hqp (h q hq hne hlen hsome)

end Change

end Filled

end FfProxy.Base
