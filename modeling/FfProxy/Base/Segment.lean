import Mathlib.Data.List.Nodup

/-!
# Linked segments

A singly linked chain seen through the function that gives the link of an address. A
segment lists the addresses of consecutive cells; the last one links to where the segment
stops. A doubly linked list is two segments, one of them reversed.
-/

namespace FfProxy.Base

variable {link link' : Nat → Option Nat} {as bs : List Nat} {a b : Nat} {stop : Option Nat}

/-- Each address links to the next one, and the last one to `stop`. -/
def Segment (link : Nat → Option Nat) : List Nat → Option Nat → Prop
  | [], _ => True
  | a :: as, stop => link a = as.head?.or stop ∧ Segment link as stop

/-- Addresses that following the links from a pointer visits. -/
inductive Reaches (link : Nat → Option Nat) : Option Nat → Nat → Prop
  | here (a : Nat) : Reaches link (some a) a
  | there {a b : Nat} : Reaches link (link a) b → Reaches link (some a) b

namespace Segment

/-- A segment depends on the links of its own addresses only. -/
theorem congr (h : Segment link as stop) (hl : ∀ a ∈ as, link' a = link a) :
    Segment link' as stop := by
  induction as with
  | nil => trivial
  | cons a as ih =>
    exact ⟨(hl a (by simp)).trans h.1, ih h.2 fun b hb ↦ hl b (by simp [hb])⟩

/-- Two segments make one when the first stops where the second starts. -/
theorem append_iff :
    Segment link (as ++ bs) stop ↔
      Segment link as (bs.head?.or stop) ∧ Segment link bs stop := by
  induction as with
  | nil => simp [Segment]
  | cons a as ih =>
    rw [List.cons_append, Segment, Segment, ih, List.head?_append, Option.or_assoc, and_assoc]

/-- The last address of a segment links to its end. -/
theorem concat_iff :
    Segment link (as ++ [a]) stop ↔ Segment link as (some a) ∧ link a = stop := by
  rw [append_iff]
  simp [Segment]

end Segment

/-- Give the cell that a pointer refers to, if any, another link. -/
def redirect (link : Nat → Option Nat) (pointer target : Option Nat) : Nat → Option Nat :=
  fun b ↦ if pointer = some b then target else link b

/-- Redirecting through a null pointer does nothing. -/
@[simp] theorem redirect_none (target : Option Nat) : redirect link none target = link := rfl

/-- The redirected cell. -/
theorem redirect_self (target : Option Nat) : redirect link (some b) target b = target :=
  if_pos rfl

/-- Every other cell keeps its link. -/
theorem redirect_of_ne (target : Option Nat) (h : a ≠ b) :
    redirect link (some b) target a = link a :=
  if_neg fun he ↦ h (Option.some.inj he).symm

/-- Redirecting a cell to where it links already does nothing. -/
theorem redirect_eq_self {target : Option Nat} (h : link a = target) :
    redirect link (some a) target = link := by
  funext b
  by_cases hb : b = a
  · rw [hb, redirect_self, h]
  · exact redirect_of_ne target hb

namespace Segment

/-- Redirecting the last link changes where the segment stops. -/
theorem redirect_last (h : Segment link as stop) (hn : as.Nodup) (target : Option Nat) :
    Segment (redirect link as.getLast? target) as target := by
  rcases List.eq_nil_or_concat as with rfl | ⟨init, b, rfl⟩
  · trivial
  · rw [List.concat_eq_append] at h hn ⊢
    rw [List.nodup_append] at hn
    rw [concat_iff] at h
    rw [List.getLast?_concat, concat_iff, redirect_self]
    refine ⟨h.1.congr fun c hc ↦ redirect_of_ne target ?_, rfl⟩
    exact hn.2.2 c hc b (List.mem_singleton_self b)

/-- A cell whose address is not in the segment can be redirected. -/
theorem redirect_other (h : Segment link as stop) {pointer : Option Nat}
    (hp : ∀ b ∈ as, pointer ≠ some b) (target : Option Nat) :
    Segment (redirect link pointer target) as stop :=
  h.congr fun b hb ↦ if_neg (hp b hb)

private theorem getLast?_ne {as bs : List Nat} (hn : (as ++ bs).Nodup) (hb : b ∈ bs) :
    as.getLast? ≠ some b := by
  intro hl
  exact (List.nodup_append.mp hn).2.2 b (List.mem_of_getLast? hl) b hb rfl

/-- A cell is taken out by giving its link to the cell in front of it. -/
theorem remove (h : Segment link (as ++ a :: bs) none) (hn : (as ++ a :: bs).Nodup) :
    Segment (redirect link as.getLast? (link a)) (as ++ bs) none := by
  obtain ⟨hfront, hlink, hback⟩ := append_iff.mp h
  rw [append_iff, Option.or_none, show bs.head? = link a by rw [hlink, Option.or_none]]
  refine ⟨hfront.redirect_last (List.nodup_append.mp hn).1 _, hback.redirect_other ?_ _⟩
  intro b hb
  exact getLast?_ne hn (List.mem_cons_of_mem a hb)

/-- A cell without a link is put at the end by linking the last cell to it. -/
theorem concat (h : Segment link as none) (hn : (as ++ [a]).Nodup) (ha : link a = none) :
    Segment (redirect link as.getLast? (some a)) (as ++ [a]) none := by
  rw [concat_iff]
  refine ⟨h.redirect_last (List.nodup_append.mp hn).1 _, ?_⟩
  rw [redirect, if_neg (getLast?_ne hn (List.mem_singleton_self a)), ha]

/-- The link of a cell is the front of what follows it. -/
theorem link_eq (h : Segment link (as ++ a :: bs) none) : link a = bs.head? := by
  rw [(append_iff.mp h).2.1, Option.or_none]

/-- Each cell links to the next one. -/
theorem link_getElem? (h : Segment link as none) {n : Nat} (ha : as[n]? = some a) :
    link a = as[n + 1]? := by
  have hlt := (List.getElem?_eq_some_iff.mp ha).1
  rw [← List.take_append_drop n as, List.drop_eq_getElem_cons hlt,
    (List.getElem?_eq_some_iff.mp ha).2] at h
  rw [h.link_eq, List.head?_drop]

end Segment

/-- From the front of a closed segment exactly its addresses are reached. -/
theorem Segment.reaches_iff (h : Segment link as none) : Reaches link as.head? b ↔ b ∈ as := by
  induction as with
  | nil =>
    refine iff_of_false ?_ (by simp)
    rintro ⟨⟩
  | cons a as ih =>
    have hlink : link a = as.head? := by rw [h.1, Option.or_none]
    rw [List.mem_cons, ← ih h.2]
    constructor
    · rintro (_ | h')
      · exact Or.inl rfl
      · exact Or.inr (by rwa [hlink] at h')
    · rintro (rfl | h')
      · exact .here b
      · exact .there (by rwa [hlink])

/-- A closed segment is known from its first address. -/
theorem Segment.eq_of_head? (h : Segment link as none) (h' : Segment link bs none)
    (hh : as.head? = bs.head?) : as = bs := by
  induction as generalizing bs with
  | nil => exact (List.head?_eq_none_iff.mp hh.symm).symm
  | cons a as ih =>
    cases bs with
    | nil => cases hh
    | cons b bs =>
      obtain rfl := Option.some.inj hh
      have hrest : as.head? = bs.head? := by
        rw [← Option.or_none (o := as.head?), ← h.1, h'.1, Option.or_none]
      obtain rfl := ih h.2 h'.2 hrest
      rfl

/-! ### Doubly linked lists -/

/-- A doubly linked list with pointers to its two ends. -/
structure DoublyLinked (next prev : Nat → Option Nat) (as : List Nat) (first last : Option Nat) :
    Prop where
  nodup : as.Nodup
  first_eq : first = as.head?
  last_eq : last = as.getLast?
  forward : Segment next as none
  backward : Segment prev as.reverse none

namespace DoublyLinked

variable {next prev : Nat → Option Nat} {first last : Option Nat}

/-- The list without cells. -/
theorem nil : DoublyLinked next prev [] none none :=
  ⟨List.nodup_nil, rfl, rfl, trivial, trivial⟩

/-- Read from its other end. -/
theorem symm (h : DoublyLinked next prev as first last) :
    DoublyLinked prev next as.reverse last first where
  nodup := List.nodup_reverse.mpr h.nodup
  first_eq := h.last_eq.trans List.head?_reverse.symm
  last_eq := h.first_eq.trans List.getLast?_reverse.symm
  forward := h.backward
  backward := by rw [List.reverse_reverse]; exact h.forward

/-- A cell without links is put at the end. -/
theorem concat (h : DoublyLinked next prev as first last) (ha : a ∉ as) (hnext : next a = none) :
    DoublyLinked (redirect next last (some a)) (redirect prev (some a) last) (as ++ [a])
      (first.or (some a)) (some a) := by
  have hn : (as ++ [a]).Nodup := by
    rw [← List.concat_eq_append]
    exact List.Nodup.concat ha h.nodup
  refine ⟨hn, ?_, List.getLast?_concat.symm, ?_, ?_⟩
  · rw [h.first_eq, List.head?_append]
    rfl
  · rw [h.last_eq]
    exact h.forward.concat hn hnext
  · rw [List.reverse_append, List.reverse_singleton, List.singleton_append, Segment, redirect_self,
      List.head?_reverse, Option.or_none]
    refine ⟨h.last_eq, h.backward.redirect_other (fun b hb he ↦ ?_) last⟩
    obtain rfl := Option.some.inj he
    exact ha (List.mem_reverse.mp hb)

/-- The list around a cell, read from its other end. -/
private theorem symm_at (h : DoublyLinked next prev (as ++ a :: bs) first last) :
    DoublyLinked prev next (bs.reverse ++ a :: as.reverse) last first := by
  have := h.symm
  rwa [List.reverse_append, List.reverse_cons, List.append_assoc, List.singleton_append] at this

/-- A cell links forward to what follows it. -/
theorem next_eq (h : DoublyLinked next prev (as ++ a :: bs) first last) : next a = bs.head? :=
  h.forward.link_eq

/-- A cell links back to what is in front of it. -/
theorem prev_eq (h : DoublyLinked next prev (as ++ a :: bs) first last) : prev a = as.getLast? :=
  h.symm_at.next_eq.trans List.head?_reverse

/-- The cell behind a cell is another one. -/
theorem next_mem (h : DoublyLinked next prev (as ++ a :: bs) first last) (hb : next a = some b) :
    b ∈ bs ∧ b ≠ a := by
  rw [h.next_eq] at hb
  have hmem := List.mem_of_head? hb
  refine ⟨hmem, ?_⟩
  rintro rfl
  exact (List.nodup_cons.mp (List.nodup_append.mp h.nodup).2.1).1 hmem

/-- The cell in front of a cell is another one. -/
theorem prev_mem (h : DoublyLinked next prev (as ++ a :: bs) first last) (hb : prev a = some b) :
    b ∈ as ∧ b ≠ a :=
  ⟨List.mem_reverse.mp (h.symm_at.next_mem hb).1, (h.symm_at.next_mem hb).2⟩

private theorem remove_forward (h : DoublyLinked next prev (as ++ a :: bs) first last) :
    (if first = some a then next a else first) = (as ++ bs).head? ∧
      Segment (redirect next (prev a) (next a)) (as ++ bs) none := by
  constructor
  · rw [h.first_eq, h.next_eq]
    cases as with
    | nil => exact if_pos rfl
    | cons b as =>
      refine if_neg fun hb ↦ ?_
      obtain rfl := Option.some.inj hb
      exact (List.nodup_cons.mp h.nodup).1 (by simp)
  · rw [h.prev_eq]
    exact h.forward.remove h.nodup

/-- A cell is taken out by linking its neighbours to each other. -/
theorem remove (h : DoublyLinked next prev (as ++ a :: bs) first last) :
    DoublyLinked (redirect next (prev a) (next a)) (redirect prev (next a) (prev a)) (as ++ bs)
      (if first = some a then next a else first) (if last = some a then prev a else last) := by
  obtain ⟨hfirst, hforward⟩ := h.remove_forward
  obtain ⟨hlast, hbackward⟩ := h.symm_at.remove_forward
  rw [← List.reverse_append] at hlast hbackward
  exact ⟨h.nodup.sublist ((List.sublist_cons_self a bs).append_left as), hfirst,
    hlast.trans List.head?_reverse, hforward, hbackward⟩

/-- Links of cells outside of the list do not matter. -/
theorem congr {next' prev' : Nat → Option Nat} (h : DoublyLinked next prev as first last)
    (hnext : ∀ b ∈ as, next' b = next b) (hprev : ∀ b ∈ as, prev' b = prev b) :
    DoublyLinked next' prev' as first last :=
  ⟨h.nodup, h.first_eq, h.last_eq, h.forward.congr hnext,
    h.backward.congr fun b hb ↦ hprev b (List.mem_reverse.mp hb)⟩

end DoublyLinked

end FfProxy.Base
