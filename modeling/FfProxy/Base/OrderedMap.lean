import Mathlib.Data.List.Nodup
import Mathlib.Data.List.Lookmap

/-!
# Insertion-ordered finite maps

A finite map whose entries are listed in the order in which their keys were last
inserted. Overwriting keeps the position, removing and inserting again moves the
key to the end. No key is listed twice: the record carries that as a field.
-/

namespace FfProxy.Base

/-! ### Lists without repeated keys -/

section Keys

variable {ι K : Type} {key : ι → K} {before after : List ι} {i : ι}

/-- An item with a new key is put at the end. -/
theorem nodup_map_concat (h : (before.map key).Nodup) (hi : ∀ j ∈ before, key j ≠ key i) :
    ((before ++ [i]).map key).Nodup := by
  rw [List.map_append, List.map_singleton, ← List.concat_eq_append]
  refine List.Nodup.concat (fun hmem ↦ ?_) h
  obtain ⟨j, hj, he⟩ := List.mem_map.mp hmem
  exact hi j hj he

/-- The key of an item is not that of an item before or after it. -/
theorem key_ne_of_nodup (h : ((before ++ i :: after).map key).Nodup) :
    (∀ j ∈ before, key j ≠ key i) ∧ ∀ j ∈ after, key j ≠ key i := by
  rw [List.map_append, List.map_cons, List.nodup_append, List.nodup_cons] at h
  constructor
  · intro j hj
    exact h.2.2 (key j) (List.mem_map_of_mem hj) (key i) (by simp)
  · intro j hj he
    exact h.2.1.1 (he ▸ List.mem_map_of_mem hj)

end Keys

/-! ### Maps -/

/-- Entries in insertion order, with at most one entry a key. -/
structure OrderedMap (K V : Type) where
  entries : List (K × V)
  nodup : (entries.map Prod.fst).Nodup

namespace OrderedMap

variable {K V : Type} [DecidableEq K]

/-- The map without entries. -/
def empty : OrderedMap K V := ⟨[], List.nodup_nil⟩

/-- The value stored under a key. -/
def get (m : OrderedMap K V) (k : K) : Option V :=
  (m.entries.find? fun e ↦ e.1 = k).map Prod.snd

private def overwriteEntry (k : K) (v : V) (e : K × V) : K × V := if e.1 = k then (k, v) else e

private theorem overwriteEntry_fst (k : K) (v : V) (es : List (K × V)) :
    (es.map (overwriteEntry k v)).map Prod.fst = es.map Prod.fst := by
  rw [List.map_map]
  apply List.map_congr_left
  intro e _
  simp only [Function.comp, overwriteEntry]
  split
  · next h => exact h.symm
  · rfl

/-- Store a value: in place for a key that is present, else at the end. -/
def put (m : OrderedMap K V) (k : K) (v : V) : OrderedMap K V :=
  if h : k ∈ m.entries.map Prod.fst then
    ⟨m.entries.map (overwriteEntry k v), by rw [overwriteEntry_fst]; exact m.nodup⟩
  else
    ⟨m.entries ++ [(k, v)], nodup_map_concat m.nodup fun e he hk ↦
      h (List.mem_map.mpr ⟨e, he, hk⟩)⟩

/-- Drop the entry of a key, keeping the order of the others. -/
def remove (m : OrderedMap K V) (k : K) : OrderedMap K V :=
  ⟨m.entries.filter fun e ↦ e.1 ≠ k, m.nodup.sublist (List.filter_sublist.map Prod.fst)⟩

/-- The values in insertion order of their keys. -/
def values (m : OrderedMap K V) : List V := m.entries.map Prod.snd

/-- Lookup finds exactly the listed entries. -/
theorem get_eq_some_iff (m : OrderedMap K V) (k : K) (v : V) :
    m.get k = some v ↔ (k, v) ∈ m.entries := by
  rw [get, Option.map_eq_some_iff]
  constructor
  · rintro ⟨e, he, rfl⟩
    have hk : e.1 = k := by simpa using List.find?_some he
    rw [← hk]
    exact List.mem_of_find?_eq_some he
  · intro hm
    cases hf : m.entries.find? (fun e ↦ decide (e.1 = k)) with
    | none =>
      have := List.find?_eq_none.mp hf (k, v) hm
      simp at this
    | some e =>
      have hk : e.1 = k := by simpa using List.find?_some hf
      have he := List.mem_of_find?_eq_some hf
      have hinj := List.inj_on_of_nodup_map m.nodup he hm hk
      exact ⟨e, rfl, by rw [hinj]⟩

/-- Storing a fresh key appends it. -/
theorem entries_put_fresh (m : OrderedMap K V) (k : K) (v : V)
    (h : k ∉ m.entries.map Prod.fst) : (m.put k v).entries = m.entries ++ [(k, v)] := by
  simp only [put, h, ↓reduceDIte]

/-- Storing a present key rewrites its entry in place. -/
theorem entries_put_present (m : OrderedMap K V) (k : K) (v : V)
    (h : k ∈ m.entries.map Prod.fst) :
    (m.put k v).entries = m.entries.map fun e ↦ if e.1 = k then (k, v) else e := by
  simp only [put, h, ↓reduceDIte]
  rfl

/-- The entries after a store. -/
theorem mem_put (m : OrderedMap K V) (k : K) (v : V) (e : K × V) :
    e ∈ (m.put k v).entries ↔ e = (k, v) ∨ e.1 ≠ k ∧ e ∈ m.entries := by
  by_cases h : k ∈ m.entries.map Prod.fst
  · rw [entries_put_present m k v h, List.mem_map]
    constructor
    · rintro ⟨a, ha, rfl⟩
      by_cases hk : a.1 = k
      · rw [if_pos hk]; exact Or.inl rfl
      · rw [if_neg hk]; exact Or.inr ⟨hk, ha⟩
    · rintro (rfl | ⟨hk, he⟩)
      · obtain ⟨a, ha, hak⟩ := List.mem_map.mp h
        exact ⟨a, ha, if_pos hak⟩
      · exact ⟨e, he, if_neg hk⟩
  · rw [entries_put_fresh m k v h, List.mem_append, List.mem_singleton, or_comm]
    constructor
    · rintro (he | he)
      · exact Or.inl he
      · refine Or.inr ⟨?_, he⟩
        rintro rfl
        exact h (List.mem_map_of_mem he)
    · rintro (he | ⟨_, he⟩)
      · exact Or.inl he
      · exact Or.inr he

/-- The entries after a removal. -/
theorem mem_remove (m : OrderedMap K V) (k : K) (e : K × V) :
    e ∈ (m.remove k).entries ↔ e.1 ≠ k ∧ e ∈ m.entries := by
  rw [remove, List.mem_filter, and_comm]
  simp

/-- A store changes the lookup of its own key only. -/
theorem get_put (m : OrderedMap K V) (k j : K) (v : V) :
    (m.put k v).get j = if j = k then some v else m.get j := by
  apply Option.ext
  intro w
  rw [get_eq_some_iff, mem_put]
  split
  · next h => simp [h, eq_comm]
  · next h => simp [h, get_eq_some_iff]

/-- A removal changes the lookup of its own key only. -/
theorem get_remove (m : OrderedMap K V) (k j : K) :
    (m.remove k).get j = if j = k then none else m.get j := by
  apply Option.ext
  intro w
  rw [get_eq_some_iff, mem_remove]
  split
  · next h => simp [h]
  · next h => simp [h, get_eq_some_iff]

/-- Storing a present key keeps its position. -/
theorem entries_put_at {m : OrderedMap K V} {k : K} {w : V} {before after : List (K × V)}
    (h : m.entries = before ++ (k, w) :: after) (v : V) :
    (m.put k v).entries = before ++ (k, v) :: after := by
  have hkeep : ∀ es : List (K × V), (∀ e ∈ es, e.1 ≠ k) →
      es.map (fun e ↦ if e.1 = k then (k, v) else e) = es := fun es hes ↦
    List.map_congr_left (g := id) (fun e he ↦ if_neg (hes e he)) |>.trans (List.map_id es)
  have hne := key_ne_of_nodup (h ▸ m.nodup)
  rw [entries_put_present m k v (by rw [h]; simp), h, List.map_append, List.map_cons,
    hkeep before hne.1, hkeep after hne.2, if_pos rfl]

/-- Removing a present key closes the gap. -/
theorem entries_remove_at {m : OrderedMap K V} {k : K} {w : V} {before after : List (K × V)}
    (h : m.entries = before ++ (k, w) :: after) : (m.remove k).entries = before ++ after := by
  have hkeep : ∀ es : List (K × V), (∀ e ∈ es, e.1 ≠ k) →
      es.filter (fun e ↦ e.1 ≠ k) = es := fun es hes ↦
    List.filter_eq_self.mpr fun e he ↦ decide_eq_true (hes e he)
  have hne := key_ne_of_nodup (h ▸ m.nodup)
  show m.entries.filter _ = _
  rw [h, List.filter_append, List.filter_cons_of_neg (by simp), hkeep before hne.1,
    hkeep after hne.2]

/-- Removing a missing key changes nothing. -/
theorem entries_remove_absent (m : OrderedMap K V) (k : K) (h : k ∉ m.entries.map Prod.fst) :
    (m.remove k).entries = m.entries :=
  List.filter_eq_self.mpr fun _ he ↦ decide_eq_true fun hk ↦ h (hk ▸ List.mem_map_of_mem he)

/-- A key without a value is not listed. -/
theorem not_mem_keys_of_get {m : OrderedMap K V} {k : K} (h : m.get k = none) :
    k ∉ m.entries.map Prod.fst := by
  intro hk
  obtain ⟨⟨j, v⟩, he, rfl⟩ := List.mem_map.mp hk
  rw [(m.get_eq_some_iff j v).mpr he] at h
  cases h

/-- Removing a key that was just inserted gives the map back. -/
theorem remove_put_of_get {m : OrderedMap K V} {k : K} (h : m.get k = none) (v : V) :
    (m.put k v).remove k = m := by
  have hk := not_mem_keys_of_get h
  have hentries : ((m.put k v).remove k).entries = m.entries := by
    rw [entries_remove_at (entries_put_fresh m k v hk), List.append_nil]
  cases m with
  | mk entries nodup =>
    cases hm : ((OrderedMap.mk entries nodup).put k v).remove k with
    | mk entries' nodup' =>
      rw [hm] at hentries
      subst hentries
      rfl

end OrderedMap
end FfProxy.Base
