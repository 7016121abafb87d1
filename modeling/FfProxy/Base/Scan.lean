import Mathlib.Data.List.Induction
import Mathlib.Data.List.Nodup

/-!
# Scans of a list

A loop over a list that keeps one variable and overwrites it at every element with an
answer. The direction of the loop decides who wins: the last element visited. A loop that may
leave early arrives at an element only if it passes those in front of it.
-/

namespace FfProxy.Base

variable {α β : Type}

/-- Visit the elements from the first to the last. -/
def scanForward (f : α → Option β) (init : β) (l : List α) : β :=
  l.foldl (fun acc a ↦ (f a).getD acc) init

/-- Visit the elements from the last to the first. -/
def scanBackward (f : α → Option β) (init : β) (l : List α) : β :=
  l.foldr (fun a acc ↦ (f a).getD acc) init

/-- A backward scan ends with the answer of the first element that has one. -/
theorem scanBackward_eq (f : α → Option β) (init : β) (l : List α) :
    scanBackward f init l = (l.findSome? f).getD init := by
  induction l with
  | nil => rfl
  | cons a l ih =>
    rw [scanBackward, List.foldr_cons, ← scanBackward, ih, List.findSome?_cons]
    cases f a with
    | none => rfl
    | some b => rfl

/-- A forward scan ends with the answer of the last element that has one. -/
theorem scanForward_eq (f : α → Option β) (init : β) (l : List α) :
    scanForward f init l = (l.reverse.findSome? f).getD init := by
  rw [← scanBackward_eq, scanBackward, List.foldr_reverse]
  rfl

/-- Elements in front of a list take precedence in a backward scan. -/
theorem scanBackward_append (f : α → Option β) (init : β) (l m : List α) :
    scanBackward f init (l ++ m) = (l.findSome? f).getD (scanBackward f init m) := by
  rw [scanBackward, List.foldr_append, ← scanBackward, ← scanBackward_eq]
  rfl

/-- A forward scan that found something found it at some element. -/
theorem scanForward_eq_some {f : α → Option (Option β)} {l : List α} {b : β}
    (h : scanForward f none l = some b) : ∃ a ∈ l, f a = some (some b) := by
  rw [scanForward_eq] at h
  cases hf : l.reverse.findSome? f with
  | none =>
    rw [hf] at h
    cases h
  | some o =>
    rw [hf, Option.getD_some] at h
    obtain ⟨a, ha, hfa⟩ := List.exists_of_findSome?_eq_some hf
    exact ⟨a, List.mem_reverse.mp ha, by rw [hfa, h]⟩

/-- A forward scan whose answers depend on a test ends with the answer of the last element
that passes it. -/
theorem scanForward_filter {f : α → Option β} {p : α → Bool} {g : α → β}
    (h : ∀ a, f a = if p a then some (g a) else none) (init : β) (l : List α) :
    scanForward f init l = ((l.filter p).getLast?.map g).getD init := by
  induction l using List.reverseRecOn with
  | nil => rfl
  | append_singleton l a ih =>
    have hlast : scanForward f init (l ++ [a]) = (f a).getD (scanForward f init l) := by
      simp only [scanForward, List.foldl_append, List.foldl_cons, List.foldl_nil]
    rw [hlast, ih, h, List.filter_append]
    cases hp : p a with
    | false => simp [hp]
    | true => simp [hp]

/-- Scans whose answers agree on the elements of the list agree. -/
theorem scanForward_congr {f g : α → Option β} {l : List α} (h : ∀ a ∈ l, f a = g a) (init : β) :
    scanForward f init l = scanForward g init l := by
  induction l generalizing init with
  | nil => rfl
  | cons a l ih =>
    rw [scanForward, List.foldl_cons, ← scanForward, h a List.mem_cons_self,
      ih fun b hb ↦ h b (List.mem_cons_of_mem a hb)]
    rfl

/-- A field that every step of a loop overwrites or keeps is a forward scan. -/
theorem get_foldl {σ : Type} {step : σ → α → σ} (get : σ → β) {f : α → Option β}
    (h : ∀ s a, get (step s a) = (f a).getD (get s)) (s : σ) (l : List α) :
    get (l.foldl step s) = scanForward f (get s) l := by
  induction l generalizing s with
  | nil => rfl
  | cons a l ih =>
    rw [List.foldl_cons, ih, h]
    rfl

/-- A scan that answers through a part of its elements is a scan of these parts. -/
theorem scanForward_filterMap {γ : Type} (part : α → Option γ) (f : γ → Option β) (init : β)
    (l : List α) :
    scanForward (fun a ↦ (part a).bind f) init l = scanForward f init (l.filterMap part) := by
  induction l generalizing init with
  | nil => rfl
  | cons a l ih =>
    rw [scanForward, List.foldl_cons, ← scanForward, ih, List.filterMap_cons]
    cases part a with
    | none => rfl
    | some c => rfl

/-- A table whose entries have different names is searched for a name. -/
theorem find?_name_eq_some_iff [DecidableEq β] {table : List α} {name : α → β} {a : α} {b : β}
    (hnodup : (table.map name).Nodup) (ha : a ∈ table) :
    (table.find? fun a ↦ decide (b = name a)) = some a ↔ b = name a := by
  constructor
  · intro h
    exact of_decide_eq_true (List.find?_some (p := fun a ↦ decide (b = name a)) h)
  · intro h
    obtain ⟨found, hfound⟩ : ∃ found, table.find? (fun a ↦ decide (b = name a)) = some found := by
      rw [← Option.isSome_iff_exists, List.find?_isSome]
      exact ⟨a, ha, decide_eq_true h⟩
    have hname : b = name found :=
      of_decide_eq_true (List.find?_some (p := fun a ↦ decide (b = name a)) hfound)
    rw [hfound, List.inj_on_of_nodup_map hnodup (List.mem_of_find?_eq_some hfound) ha
      (hname.symm.trans h)]

/-- An element behind others that pass a test is the head, or lies behind a head that passes. -/
theorem exists_behind_cons_iff {p q : α → Prop} {a : α} {l : List α} :
    (∃ front b rest, a :: l = front ++ b :: rest ∧ (∀ c ∈ front, p c) ∧ q b) ↔
      q a ∨ p a ∧ ∃ front b rest, l = front ++ b :: rest ∧ (∀ c ∈ front, p c) ∧ q b := by
  constructor
  · rintro ⟨front, b, rest, heq, hfront, hb⟩
    cases front with
    | nil =>
      obtain ⟨rfl, _⟩ := List.cons.inj heq
      exact .inl hb
    | cons c front =>
      obtain ⟨rfl, hl⟩ := List.cons.inj heq
      obtain ⟨ha, hfront⟩ := List.forall_mem_cons.mp hfront
      exact .inr ⟨ha, front, b, rest, hl, hfront, hb⟩
  · rintro (ha | ⟨ha, front, b, rest, rfl, hfront, hb⟩)
    · exact ⟨[], a, l, rfl, List.forall_mem_nil _, ha⟩
    · exact ⟨a :: front, b, rest, rfl, List.forall_mem_cons.mpr ⟨ha, hfront⟩, hb⟩

end FfProxy.Base
