import FfProxy.Base.Segment

/-!
# Separate chaining

Items sorted into linked chains by a key: for every key a chain of the items with that key, in
the order of the items. An item is put at the end of its chain, or taken out of it, by
changing one link or the front of the chain; no other chain changes.
-/

namespace FfProxy.Base

variable {ι κ : Type} [DecidableEq κ] {key : ι → κ} {address : ι → Nat}
  {link link' : Nat → Option Nat} {front front' : κ → Option Nat} {is js : List ι} {i : ι} {k : κ}

/-- The items with a key, in their order. -/
def chain (key : ι → κ) (k : κ) (is : List ι) : List ι := is.filter fun i ↦ key i = k

/-- The chain of every key starts at its front and links the items with that key. -/
def Chained (key : ι → κ) (address : ι → Nat) (link : Nat → Option Nat) (front : κ → Option Nat)
    (is : List ι) : Prop :=
  ∀ k, front k = ((chain key k is).map address).head? ∧
    Segment link ((chain key k is).map address) none

@[simp] theorem mem_chain : i ∈ chain key k is ↔ i ∈ is ∧ key i = k := by
  simp [chain]

theorem chain_append (key : ι → κ) (k : κ) (is js : List ι) :
    chain key k (is ++ js) = chain key k is ++ chain key k js := List.filter_append ..

theorem chain_cons_self (key : ι → κ) (i : ι) (is : List ι) :
    chain key (key i) (i :: is) = i :: chain key (key i) is :=
  List.filter_cons_of_pos (by simp)

theorem chain_cons_of_ne (h : k ≠ key i) (is : List ι) : chain key k (i :: is) = chain key k is :=
  List.filter_cons_of_neg (by simp [h.symm])

theorem chain_sublist (key : ι → κ) (k : κ) (is : List ι) : (chain key k is).Sublist is :=
  List.filter_sublist

/-- The last cell of one chain is in no other chain. -/
private theorem getLast?_chain_ne (hn : (is.map address).Nodup) (hjs : js.Sublist is) {k' : κ}
    (hk : k ≠ k') {a : Nat} (ha : a ∈ (chain key k is).map address) :
    ((chain key k' js).map address).getLast? ≠ some a := by
  intro hlast
  obtain ⟨i, hi, rfl⟩ := List.mem_map.mp ha
  obtain ⟨j, hj, hji⟩ := List.mem_map.mp (List.mem_of_getLast? hlast)
  rw [mem_chain] at hi hj
  have hij := List.inj_on_of_nodup_map hn hi.1 (hjs.subset hj.1) hji.symm
  exact hk (hi.2.symm.trans (hij ▸ hj.2))

namespace Chained

/-- Links of cells without an item do not matter. -/
theorem congr (h : Chained key address link front is)
    (hl : ∀ a ∈ is.map address, link' a = link a) : Chained key address link' front is :=
  fun k ↦ ⟨(h k).1, (h k).2.congr fun a ha ↦
    hl a (((chain_sublist key k is).map address).subset ha)⟩

/-- An item can be exchanged for one with the same key and cell. -/
theorem replace (h : Chained key address link front (is ++ i :: js)) {i' : ι}
    (hk : key i' = key i) (ha : address i' = address i) :
    Chained key address link front (is ++ i' :: js) := by
  intro k
  have hmap : (chain key k (is ++ i' :: js)).map address =
      (chain key k (is ++ i :: js)).map address := by
    simp only [chain, List.filter_append, List.filter_cons, hk]
    split
    · simp only [List.map_append, List.map_cons, ha]
    · rfl
  rw [hmap]
  exact h k

/-- An item whose cell has no link is put at the end of its chain. -/
theorem concat (h : Chained key address link front is) (hn : ((is ++ [i]).map address).Nodup)
    (hi : link (address i) = none)
    (hfront : ∀ k, front' k = if k = key i then (front k).or (some (address i)) else front k) :
    Chained key address
      (redirect link ((chain key (key i) is).map address).getLast? (some (address i))) front'
      (is ++ [i]) := by
  intro k
  have hsub := ((chain_sublist key k (is ++ [i])).map address).nodup hn
  rw [chain_append] at hsub ⊢
  by_cases hk : k = key i
  · subst hk
    rw [chain_cons_self] at hsub ⊢
    rw [hfront, if_pos rfl, List.map_append, List.head?_append, (h (key i)).1]
    rw [List.map_append] at hsub
    exact ⟨rfl, (h (key i)).2.concat hsub hi⟩
  · rw [chain_cons_of_ne hk, show chain key k ([] : List ι) = [] from rfl, List.append_nil,
      hfront, if_neg hk]
    refine ⟨(h k).1, (h k).2.redirect_other (fun a ha ↦ ?_) _⟩
    rw [List.map_append] at hn
    exact getLast?_chain_ne (List.nodup_append.mp hn).1 (List.Sublist.refl is) hk ha

/-- An item is taken out of its chain by giving its link to the cell in front of it, or to the
front of the chain if there is none. -/
theorem remove (h : Chained key address link front (is ++ i :: js))
    (hn : ((is ++ i :: js).map address).Nodup)
    (hfront : ∀ k, front' k =
      if k = key i ∧ chain key (key i) is = [] then link (address i) else front k) :
    Chained key address
      (redirect link ((chain key (key i) is).map address).getLast? (link (address i))) front'
      (is ++ js) := by
  intro k
  have hsub := ((chain_sublist key k (is ++ i :: js)).map address).nodup hn
  obtain ⟨hold, hseg⟩ := h k
  rw [chain_append] at hsub hold hseg
  rw [hfront, chain_append]
  by_cases hk : k = key i
  · subst hk
    rw [chain_cons_self, List.map_append, List.map_cons] at hsub hold hseg
    rw [List.map_append]
    refine ⟨?_, hseg.remove hsub⟩
    cases hc : chain key (key i) is with
    | nil => rw [if_pos ⟨rfl, rfl⟩, hseg.link_eq]; rfl
    | cons j cs => rw [if_neg (by simp), hold, hc]; rfl
  · rw [chain_cons_of_ne hk, ← chain_append] at hold hseg
    rw [← chain_append]
    refine ⟨(if_neg fun hc ↦ hk hc.1).trans hold, hseg.redirect_other (fun a ha ↦ ?_) _⟩
    have hsubl : (is ++ js).Sublist (is ++ i :: js) := (List.sublist_cons_self i js).append_left is
    exact getLast?_chain_ne ((hsubl.map address).nodup hn) (List.sublist_append_left is js) hk ha

end Chained

end FfProxy.Base
