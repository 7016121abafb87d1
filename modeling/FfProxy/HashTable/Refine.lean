import FfProxy.HashTable.Represents

/-!
# The hash table refines an insertion-ordered map

Runs of operations on a table, compared with the same operations on an insertion-ordered map:
no operation faults, every get returns what the map holds, and an iterator yields the values
of the map in their order.
-/

namespace FfProxy
open Base

variable {α : Type}

/-! ### Runs -/

/-- A call of one of the operations. -/
inductive TableOp (α : Type) where
  | put (itemId : UInt64) (value : α)
  | remove (itemId : UInt64)
  | get (itemId : UInt64)
  deriving DecidableEq, Repr

/-- A call on a table, with what it returns. -/
def TableOp.run (t : HashTable α) : TableOp α → Except Fault (HashTable α × Option α)
  | put itemId value => do
    let t ← ffHashTablePutItem t itemId (some value)
    return (t, none)
  | remove itemId => do
    let t ← ffHashTableRemoveItem t itemId
    return (t, none)
  | get itemId => do
    let value ← ffHashTableGetItem t itemId
    return (t, value)

/-- The same call on a map. -/
def TableOp.onMap (m : OrderedMap UInt64 α) : TableOp α → OrderedMap UInt64 α × Option α
  | put itemId value => (m.put itemId value, none)
  | remove itemId => (m.remove itemId, none)
  | get itemId => (m, m.get itemId)

/-- Calls on a table one after the other, with what they return. -/
def runOps (t : HashTable α) : List (TableOp α) → Except Fault (HashTable α × List (Option α))
  | [] => .ok (t, [])
  | op :: ops => do
    let (t, value) ← op.run t
    let (t, values) ← runOps t ops
    return (t, value :: values)

/-- Calls on a map one after the other. -/
def mapOps (m : OrderedMap UInt64 α) : List (TableOp α) → OrderedMap UInt64 α × List (Option α)
  | [] => (m, [])
  | op :: ops =>
    let (m, value) := op.onMap m
    let (m, values) := mapOps m ops
    (m, value :: values)

/-- What calls leave stored under an id: the value last put there and not removed since. -/
def lastStored (itemId : UInt64) (stored : Option α) : List (TableOp α) → Option α
  | [] => stored
  | .put k value :: ops => lastStored itemId (if itemId = k then some value else stored) ops
  | .remove k :: ops => lastStored itemId (if itemId = k then none else stored) ops
  | .get _ :: ops => lastStored itemId stored ops

/-- What the first calls of an iterator return. -/
def iteratorValues (t : HashTable α) : Nat → TableIterator → Except Fault (List (Option α))
  | 0, _ => .ok []
  | n + 1, it => do
    let (it, value) ← ffHashTableIteratorNext t it
    let values ← iteratorValues t n it
    return value :: values

/-! ### Refinement -/

/-- The entry of an item. -/
def Item.entry (i : Item α) : UInt64 × α := (i.id, i.value)

/-- The table holds the entries of the map, in their order. -/
def Refines (t : HashTable α) (m : OrderedMap UInt64 α) : Prop :=
  ∃ is, Represents t is ∧ m.entries = is.map Item.entry

/-- The prefix lengths with whole levels, of which an id has at most eight. -/
def PrefixLength (prefixBitLength : UInt8) : Prop :=
  16 ≤ prefixBitLength.toNat ∧ prefixBitLength.toNat ≤ 64 ∧ 8 ∣ prefixBitLength.toNat

instance (prefixBitLength : UInt8) : Decidable (PrefixLength prefixBitLength) :=
  inferInstanceAs (Decidable (_ ∧ _ ∧ _))

/-- A new table of two or more levels represents no items. -/
theorem represents_new {prefixBitLength : UInt8} (hlevels : 2 ≤ prefixBitLength.toNat / 8) :
    ∃ t : HashTable α, ffHashTableInit prefixBitLength = .ok t ∧ Represents t [] := by
  have hne : prefixBitLength ≠ 0 := by
    rintro rfl
    exact absurd hlevels (by decide)
  obtain ⟨t, ht⟩ : ∃ t : HashTable α, ffHashTableInit prefixBitLength = .ok t := ⟨_, if_neg hne⟩
  refine ⟨t, ht, ?_⟩
  rw [ffHashTableInit, if_neg hne] at ht
  obtain rfl := Except.ok.inj ht
  refine ⟨hlevels, trieInv_init _, List.nodup_nil, fun i hi ↦ ?_, fun q ↦ ⟨?_, trivial⟩,
    DoublyLinked.nil, rfl⟩
  · cases hi
  · refine follow_init fun hq ↦ ?_
    have hlen := q.2
    rw [hq, List.length_nil] at hlen
    exact absurd hlen (Nat.ne_of_lt (Nat.lt_of_lt_of_le Nat.zero_lt_two hlevels))

/-- So does one with a prefix of whole levels. -/
theorem represents_init {prefixBitLength : UInt8} (h : PrefixLength prefixBitLength) :
    ∃ t : HashTable α, ffHashTableInit prefixBitLength = .ok t ∧ Represents t [] := by
  have hbits := h.1
  exact represents_new (by omega)

namespace Refines

variable {t : HashTable α} {m : OrderedMap UInt64 α}

private theorem mem_keys {is : List (Item α)} (hm : m.entries = is.map Item.entry)
    (itemId : UInt64) :
    itemId ∈ m.entries.map Prod.fst ↔ ∃ i ∈ is, i.id = itemId := by
  rw [hm, List.map_map, List.mem_map]
  rfl

/-- A get on the table is a get on the map. -/
theorem getItem (h : Refines t m) (itemId : UInt64) :
    ffHashTableGetItem t itemId = .ok (m.get itemId) := by
  obtain ⟨is, h, hm⟩ := h
  rw [h.getItem, OrderedMap.get, hm, List.find?_map, Option.map_map]
  rfl

/-- A put on the table is a put on the map. -/
theorem putItem (h : Refines t m) (itemId : UInt64) (value : α) :
    ∃ t', ffHashTablePutItem t itemId (some value) = .ok t' ∧ Refines t' (m.put itemId value) := by
  obtain ⟨is, h, hm⟩ := h
  by_cases hmem : ∃ i ∈ is, i.id = itemId
  · obtain ⟨i, hi, rfl⟩ := hmem
    obtain ⟨before, after, rfl⟩ := List.append_of_mem hi
    obtain ⟨t', hput, h'⟩ := h.put_present value
    refine ⟨t', hput, _, h', ?_⟩
    rw [List.map_append, List.map_cons] at hm ⊢
    exact OrderedMap.entries_put_at hm value
  · have habs : ∀ j ∈ is, j.id ≠ itemId := fun j hj he ↦ hmem ⟨j, hj, he⟩
    obtain ⟨t', hput, h'⟩ := h.put_absent habs value
    refine ⟨t', hput, _, h', ?_⟩
    rw [m.entries_put_fresh _ _ fun hk ↦ hmem ((mem_keys hm _).mp hk), hm, List.map_append]
    rfl

/-- A removal from the table is a removal from the map. -/
theorem removeItem (h : Refines t m) (itemId : UInt64) :
    ∃ t', ffHashTableRemoveItem t itemId = .ok t' ∧ Refines t' (m.remove itemId) := by
  obtain ⟨is, h, hm⟩ := h
  by_cases hmem : ∃ i ∈ is, i.id = itemId
  · obtain ⟨i, hi, rfl⟩ := hmem
    obtain ⟨before, after, rfl⟩ := List.append_of_mem hi
    obtain ⟨t', hremove, h'⟩ := h.remove_present
    refine ⟨t', hremove, _, h', ?_⟩
    rw [List.map_append, List.map_cons] at hm
    rw [List.map_append]
    exact OrderedMap.entries_remove_at hm
  · have habs : ∀ j ∈ is, j.id ≠ itemId := fun j hj he ↦ hmem ⟨j, hj, he⟩
    obtain ⟨arrays, _, _, hremove, h', _⟩ := h.remove_absent habs
    refine ⟨{ t with arrays := arrays }, hremove, is, h', ?_⟩
    rw [m.entries_remove_absent _ fun hk ↦ hmem ((mem_keys hm _).mp hk), hm]

end Refines

/-- One call. -/
theorem TableOp.run_refines {t : HashTable α} {m : OrderedMap UInt64 α} (h : Refines t m)
    (op : TableOp α) :
    ∃ t', op.run t = .ok (t', (op.onMap m).2) ∧ Refines t' (op.onMap m).1 := by
  cases op with
  | put itemId value =>
    obtain ⟨t', hrun, h'⟩ := h.putItem itemId value
    exact ⟨t', bind_of_ok hrun _, h'⟩
  | remove itemId =>
    obtain ⟨t', hrun, h'⟩ := h.removeItem itemId
    exact ⟨t', bind_of_ok hrun _, h'⟩
  | get itemId =>
    exact ⟨t, bind_of_ok (h.getItem itemId) _, h⟩

/-- Any number of calls. -/
theorem runOps_refines {t : HashTable α} {m : OrderedMap UInt64 α} (h : Refines t m)
    (ops : List (TableOp α)) :
    ∃ t', runOps t ops = .ok (t', (mapOps m ops).2) ∧ Refines t' (mapOps m ops).1 := by
  induction ops generalizing t m with
  | nil => exact ⟨t, rfl, h⟩
  | cons op ops ih =>
    obtain ⟨t₁, hop, h₁⟩ := op.run_refines h
    obtain ⟨t', hrest, h'⟩ := ih h₁
    refine ⟨t', ?_, h'⟩
    rw [runOps, bind_of_ok hop]
    exact bind_of_ok hrest _

/-! ### The iterator -/

section Iterator

variable {t : HashTable α} {is : List (Item α)}

/-- The iterator has been called `n` times. -/
def IteratorAt (is : List (Item α)) (n : Nat) (it : TableIterator) : Prop :=
  match n with
  | 0 => it = ffHashTableIteratorInit
  | n + 1 => it = ⟨(addresses is)[n]?, true⟩

/-- An iterator moves along the list and stays behind its end. -/
private theorem iteratorCurrent_eq (h : Represents t is) {n : Nat} {it : TableIterator}
    (hit : IteratorAt is n it) : iteratorCurrent t it = .ok (addresses is)[n]? := by
  cases n with
  | zero =>
    obtain rfl : it = ffHashTableIteratorInit := hit
    have hfirst := h.list.first_eq
    rw [List.head?_eq_getElem?] at hfirst
    rw [← hfirst]
    rfl
  | succ n =>
    obtain rfl : it = ⟨(addresses is)[n]?, true⟩ := hit
    rw [iteratorCurrent, if_pos rfl]
    cases hn : (addresses is)[n]? with
    | none =>
      rw [List.getElem?_eq_none_iff] at hn
      rw [List.getElem?_eq_none (by omega)]
    | some a =>
      obtain ⟨i, hi, rfl⟩ := List.mem_map.mp (List.mem_of_getElem? hn)
      obtain ⟨m, hread, _, _, _, hnext⟩ := h.held.readNode hi
      rw [← h.list.forward.link_getElem? hn, ← hnext]
      dsimp only
      rw [hread]
      rfl

/-- The next call of an iterator returns the next value, or null behind the last one. -/
theorem Represents.iteratorNext (h : Represents t is) {n : Nat} {it : TableIterator}
    (hit : IteratorAt is n it) :
    ffHashTableIteratorNext t it =
      .ok (⟨(addresses is)[n]?, true⟩, (is.map Item.value)[n]?) := by
  rw [ffHashTableIteratorNext, iteratorCurrent_eq h hit, addresses, List.getElem?_map,
    List.getElem?_map]
  cases hn : is[n]? with
  | none => rfl
  | some i =>
    obtain ⟨m, hread, hvalue, _⟩ := h.held.readNode (List.mem_of_getElem? hn)
    simp only [Option.map_some, bind, Except.bind, hread, hvalue]
    rfl

/-- The calls of an iterator return the values in their order, and null from then on. -/
theorem Represents.iteratorValues_eq (h : Represents t is) {n : Nat} {it : TableIterator}
    (hit : IteratorAt is n it) (k : Nat) :
    iteratorValues t k it = .ok ((List.range' n k).map fun j ↦ (is.map Item.value)[j]?) := by
  induction k generalizing n it with
  | zero => rfl
  | succ k ih =>
    have hrest : iteratorValues t k ⟨(addresses is)[n]?, true⟩ = _ := ih (n := n + 1) rfl
    simp only [iteratorValues, h.iteratorNext hit, bind, Except.bind, hrest]
    rfl

end Iterator

/-! ### From the first call on -/

/-- A map holds what was last stored. -/
theorem get_mapOps (m : OrderedMap UInt64 α) (ops : List (TableOp α)) (itemId : UInt64) :
    (mapOps m ops).1.get itemId = lastStored itemId (m.get itemId) ops := by
  induction ops generalizing m with
  | nil => rfl
  | cons op ops ih =>
    cases op with
    | put k value => exact (ih (m.put k value)).trans (by rw [OrderedMap.get_put, lastStored])
    | remove k => exact (ih (m.remove k)).trans (by rw [OrderedMap.get_remove, lastStored])
    | get k => exact ih m

/-- In every run from a new table no call faults and each returns what it returns on an
insertion-ordered map. At the end every id has the value last put under it and not removed
since, the length is the number of ids in the map, and an iterator yields the values of the
map in their order and then null. -/
theorem hashTable_refines_orderedMap {prefixBitLength : UInt8}
    (hp : PrefixLength prefixBitLength) (ops : List (TableOp α)) :
    ∃ t₀ t : HashTable α, ffHashTableInit prefixBitLength = .ok t₀ ∧
      runOps t₀ ops = .ok (t, (mapOps OrderedMap.empty ops).2) ∧
      (∀ itemId, ffHashTableGetItem t itemId = .ok (lastStored itemId none ops)) ∧
      (∀ itemId, (mapOps OrderedMap.empty ops).1.get itemId = lastStored itemId none ops) ∧
      ((mapOps OrderedMap.empty ops).1.entries.length < 2 ^ 32 →
        t.length.toNat = (mapOps OrderedMap.empty ops).1.entries.length) ∧
      ∀ n, iteratorValues t n ffHashTableIteratorInit =
        .ok ((List.range n).map fun j ↦ (mapOps OrderedMap.empty ops).1.values[j]?) := by
  obtain ⟨t₀, hinit, h₀⟩ := represents_init (α := α) hp
  have hempty : Refines t₀ OrderedMap.empty := ⟨[], h₀, rfl⟩
  obtain ⟨t, hrun, hrefines⟩ := runOps_refines hempty ops
  have hget := get_mapOps (OrderedMap.empty : OrderedMap UInt64 α) ops
  refine ⟨t₀, t, hinit, hrun, fun itemId ↦ ?_, hget, ?_⟩
  · rw [hrefines.getItem, hget]
    rfl
  obtain ⟨is, h, hm⟩ := hrefines
  have hvalues : (mapOps OrderedMap.empty ops).1.values = is.map Item.value := by
    rw [OrderedMap.values, hm, List.map_map]
    rfl
  refine ⟨fun hlt ↦ ?_, fun n ↦ ?_⟩
  · rw [hm, List.length_map] at hlt ⊢
    rw [h.length, UInt32.toNat_ofNat_of_lt' hlt]
  · rw [hvalues, List.range_eq_range']
    exact h.iteratorValues_eq (n := 0) rfl n

/-- Two ids in one chain, one of which is removed and stored again. -/
def sampleOps : List (TableOp Nat) :=
  [.put 0x00001 10, .put 0x10001 20, .put 0x00002 30, .remove 0x00001, .get 0x10001,
    .put 0x00001 40]

theorem hashTable_refines_orderedMap_sample : PrefixLength 16 ∧ ∃ t₀ t : HashTable Nat,
    ffHashTableInit 16 = .ok t₀ ∧
    runOps t₀ sampleOps = .ok (t, [none, none, none, none, some 20, none]) ∧
    t.length.toNat = 3 ∧
    iteratorValues t 4 ffHashTableIteratorInit = .ok [some 20, some 30, some 40, none] := by
  have hp : PrefixLength 16 := by decide
  obtain ⟨t₀, t, hinit, hrun, _, _, hlength, hvalues⟩ := hashTable_refines_orderedMap hp sampleOps
  exact ⟨hp, t₀, t, hinit, hrun, hlength (by decide), hvalues 4⟩

end FfProxy
