import FfProxy.HashTable.Model

/-!
# The nodes of the hash table

The nodes in memory seen as functions from addresses: what a node holds and its three links.
Each access of the source changes one of these functions in one place. The searches along a
chain are settled here once for all operations.
-/

namespace FfProxy
open Base

variable {α : Type}

/-- What is in memory: the contents of the live nodes, their links, and the address of the
next node to be allocated. -/
@[ext] structure NodesView (α : Type) where
  fresh : Nat
  content : Nat → Option (UInt64 × Option α)
  next : Nat → Option Nat
  prevInList : Nat → Option Nat
  nextInList : Nat → Option Nat

/-- The view of the nodes in memory. -/
def viewOf (nodes : Heap (TableNode α)) : NodesView α where
  fresh := nodes.next
  content a := (nodes.read a).map fun n ↦ (n.itemId, n.value)
  next a := (nodes.read a).bind TableNode.next
  prevInList a := (nodes.read a).bind TableNode.prevInList
  nextInList a := (nodes.read a).bind TableNode.nextInList

section View

variable {nodes : Heap (TableNode α)} {a : Nat} {c : UInt64 × Option α}

/-- A node with contents can be read, and holds what the view says. -/
theorem readNode_of_content (h : (viewOf nodes).content a = some c) :
    ∃ n, nodes.read a = some n ∧ (n.itemId, n.value) = c ∧ n.next = (viewOf nodes).next a ∧
      n.prevInList = (viewOf nodes).prevInList a ∧ n.nextInList = (viewOf nodes).nextInList a := by
  obtain ⟨n, hn, hc⟩ := Option.map_eq_some_iff.mp h
  exact ⟨n, hn, hc, by simp [viewOf, hn], by simp [viewOf, hn], by simp [viewOf, hn]⟩

/-- Live nodes have been allocated. -/
theorem lt_fresh_of_content (h : (viewOf nodes).content a = some c) : a < (viewOf nodes).fresh := by
  obtain ⟨n, hn, _⟩ := readNode_of_content h
  exact Heap.lt_next_of_read hn

/-- The next address to be allocated holds nothing and links nowhere. -/
theorem viewOf_fresh (nodes : Heap (TableNode α)) :
    (viewOf nodes).content nodes.next = none ∧ (viewOf nodes).next nodes.next = none ∧
      (viewOf nodes).prevInList nodes.next = none ∧
      (viewOf nodes).nextInList nodes.next = none := by
  simp [viewOf, nodes.read_next]

/-- A new node without links. -/
theorem viewOf_alloc (nodes : Heap (TableNode α)) (itemId : UInt64) (value : Option α) :
    viewOf (nodes.alloc ⟨itemId, value, none, none, none⟩) = { viewOf nodes with
      fresh := nodes.next + 1
      content := fun b ↦ if b = nodes.next then some (itemId, value)
        else (viewOf nodes).content b } := by
  have hread := nodes.read_alloc ⟨itemId, value, none, none, none⟩
  have hnext := nodes.read_next
  ext1
  · exact Heap.next_alloc _ _
  all_goals
    funext b
    by_cases hb : b = nodes.next
    · simp [viewOf, hread, hb, hnext]
    · simp [viewOf, hread, hb]

/-- A released node holds nothing and links nowhere. -/
theorem viewOf_free (nodes : Heap (TableNode α)) (a : Nat) :
    viewOf (nodes.free a) = {
      fresh := (viewOf nodes).fresh
      content := fun b ↦ if b = a then none else (viewOf nodes).content b
      next := redirect (viewOf nodes).next (some a) none
      prevInList := redirect (viewOf nodes).prevInList (some a) none
      nextInList := redirect (viewOf nodes).nextInList (some a) none } := by
  ext1
  · exact Heap.next_free _ _
  all_goals
    funext b
    by_cases hb : b = a
    · simp [viewOf, Heap.read_free, redirect, hb]
    · simp [viewOf, Heap.read_free, redirect, hb, Ne.symm hb]

/-- Changing a live node. -/
private theorem modifyNode_view (h : (viewOf nodes).content a = some c)
    (f : TableNode α → TableNode α) :
    ∃ n nodes', (n.itemId, n.value) = c ∧ (viewOf nodes).next a = n.next ∧
      (viewOf nodes).prevInList a = n.prevInList ∧ (viewOf nodes).nextInList a = n.nextInList ∧
      modifyNode nodes a f = .ok nodes' ∧ viewOf nodes' = {
        fresh := (viewOf nodes).fresh
        content := fun b ↦ if b = a then some ((f n).itemId, (f n).value)
          else (viewOf nodes).content b
        next := redirect (viewOf nodes).next (some a) (f n).next
        prevInList := redirect (viewOf nodes).prevInList (some a) (f n).prevInList
        nextInList := redirect (viewOf nodes).nextInList (some a) (f n).nextInList } := by
  obtain ⟨n, hn, hc, hx, hp, hl⟩ := readNode_of_content h
  have hread : ∀ b, (nodes.write a (f n)).read b = if b = a then some (f n) else nodes.read b :=
    fun b ↦ Heap.read_write _ _ _ _ (Heap.lt_next_of_read hn)
  refine ⟨n, _, hc, hx.symm, hp.symm, hl.symm, by rw [modifyNode, hn], ?_⟩
  ext1
  · exact Heap.next_write _ _ _
  all_goals
    funext b
    by_cases hb : b = a
    · simp [viewOf, redirect, hread, hb]
    · simp [viewOf, redirect, hread, hb, Ne.symm hb]

private theorem content_same (h : (viewOf nodes).content a = some c) :
    (fun b ↦ if b = a then some c else (viewOf nodes).content b) = (viewOf nodes).content := by
  funext b
  split
  · next hb => rw [hb, h]
  · rfl

/-- Store a value in a node. -/
theorem modifyNode_value (h : (viewOf nodes).content a = some c) (value : Option α) :
    ∃ nodes', modifyNode nodes a (fun n ↦ { n with value := value }) = .ok nodes' ∧
      viewOf nodes' = { viewOf nodes with
        content := fun b ↦ if b = a then some (c.1, value) else (viewOf nodes).content b } := by
  obtain ⟨n, nodes', hc, hx, hp, hl, hrun, hview⟩ :=
    modifyNode_view h fun n ↦ { n with value := value }
  refine ⟨nodes', hrun, ?_⟩
  rw [hview, redirect_eq_self hx, redirect_eq_self hp, redirect_eq_self hl, ← hc]

/-- Store the link of a node in its chain. -/
theorem modifyNode_next (h : (viewOf nodes).content a = some c) (target : Option Nat) :
    ∃ nodes', modifyNode nodes a (fun n ↦ { n with next := target }) = .ok nodes' ∧
      viewOf nodes' = { viewOf nodes with
        next := redirect (viewOf nodes).next (some a) target } := by
  obtain ⟨n, nodes', hc, _, hp, hl, hrun, hview⟩ :=
    modifyNode_view h fun n ↦ { n with next := target }
  refine ⟨nodes', hrun, ?_⟩
  rw [hview, redirect_eq_self hp, redirect_eq_self hl, hc, content_same h]

/-- Store the backward link of a node in the list. -/
theorem modifyNode_prevInList (h : (viewOf nodes).content a = some c) (target : Option Nat) :
    ∃ nodes', modifyNode nodes a (fun n ↦ { n with prevInList := target }) = .ok nodes' ∧
      viewOf nodes' = { viewOf nodes with
        prevInList := redirect (viewOf nodes).prevInList (some a) target } := by
  obtain ⟨n, nodes', hc, hx, _, hl, hrun, hview⟩ :=
    modifyNode_view h fun n ↦ { n with prevInList := target }
  refine ⟨nodes', hrun, ?_⟩
  rw [hview, redirect_eq_self hx, redirect_eq_self hl, hc, content_same h]

/-- Store the forward link of a node in the list. -/
theorem modifyNode_nextInList (h : (viewOf nodes).content a = some c) (target : Option Nat) :
    ∃ nodes', modifyNode nodes a (fun n ↦ { n with nextInList := target }) = .ok nodes' ∧
      viewOf nodes' = { viewOf nodes with
        nextInList := redirect (viewOf nodes).nextInList (some a) target } := by
  obtain ⟨n, nodes', hc, hx, hp, _, hrun, hview⟩ :=
    modifyNode_view h fun n ↦ { n with nextInList := target }
  refine ⟨nodes', hrun, ?_⟩
  rw [hview, redirect_eq_self hx, redirect_eq_self hp, hc, content_same h]

/-- Store the forward link of the node that a pointer refers to, if any. -/
theorem modifyNodeAt_nextInList {pointer : Option Nat}
    (h : ∀ b, pointer = some b → ∃ c, (viewOf nodes).content b = some c) (target : Option Nat) :
    ∃ nodes', modifyNodeAt nodes pointer (fun n ↦ { n with nextInList := target }) = .ok nodes' ∧
      viewOf nodes' = { viewOf nodes with
        nextInList := redirect (viewOf nodes).nextInList pointer target } := by
  cases pointer with
  | none => exact ⟨nodes, rfl, by rw [redirect_none]⟩
  | some b =>
    obtain ⟨c, hc⟩ := h b rfl
    exact modifyNode_nextInList hc target

/-- Store the backward link of the node that a pointer refers to, if any. -/
theorem modifyNodeAt_prevInList {pointer : Option Nat}
    (h : ∀ b, pointer = some b → ∃ c, (viewOf nodes).content b = some c) (target : Option Nat) :
    ∃ nodes', modifyNodeAt nodes pointer (fun n ↦ { n with prevInList := target }) = .ok nodes' ∧
      viewOf nodes' = { viewOf nodes with
        prevInList := redirect (viewOf nodes).prevInList pointer target } := by
  cases pointer with
  | none => exact ⟨nodes, rfl, by rw [redirect_none]⟩
  | some b =>
    obtain ⟨c, hc⟩ := h b rfl
    exact modifyNode_prevInList hc target

end View

/-! ### Searching a chain -/

/-- A node that holds an item. -/
structure Item (α : Type) where
  address : Nat
  id : UInt64
  value : α

/-- The addresses of items, in their order. -/
def addresses (is : List (Item α)) : List Nat := is.map Item.address

/-- The nodes of the items hold them. -/
def Held (v : NodesView α) (is : List (Item α)) : Prop :=
  ∀ i ∈ is, v.content i.address = some (i.id, some i.value)

@[simp] theorem addresses_cons (i : Item α) (is : List (Item α)) :
    addresses (i :: is) = i.address :: addresses is := rfl

@[simp] theorem addresses_append (is js : List (Item α)) :
    addresses (is ++ js) = addresses is ++ addresses js := List.map_append

theorem Held.sublist {v : NodesView α} {is js : List (Item α)} (h : Held v is)
    (hs : js.Sublist is) : Held v js :=
  fun i hi ↦ h i (hs.subset hi)

/-- There are no more items than nodes that have been allocated. -/
theorem Held.length_le {nodes : Heap (TableNode α)} {is : List (Item α)}
    (h : Held (viewOf nodes) is) (hn : (addresses is).Nodup) : is.length ≤ nodes.next := by
  have hsub : addresses is ⊆ List.range nodes.next := by
    intro a ha
    obtain ⟨i, hi, rfl⟩ := List.mem_map.mp ha
    exact List.mem_range.mpr (lt_fresh_of_content (h i hi))
  have hle := (hn.subperm hsub).length_le
  rwa [addresses, List.length_map, List.length_range] at hle

/-- The node of an item can be read, and holds its value. -/
theorem Held.readNode {nodes : Heap (TableNode α)} {is : List (Item α)} {i : Item α}
    (h : Held (viewOf nodes) is) (hi : i ∈ is) :
    ∃ n, readNode nodes i.address = .ok n ∧ n.value = some i.value ∧
      n.next = (viewOf nodes).next i.address ∧
      n.prevInList = (viewOf nodes).prevInList i.address ∧
      n.nextInList = (viewOf nodes).nextInList i.address := by
  obtain ⟨n, hn, hc, hlinks⟩ := readNode_of_content (h i hi)
  exact ⟨n, by rw [FfProxy.readNode, hn], (Prod.mk.inj hc).2, hlinks⟩

section Search

variable {nodes : Heap (TableNode α)} {is : List (Item α)} {itemId : UInt64} {fuel : Nat}

/-- The first node of a chain can be read, and links to the rest of the chain. -/
private theorem read_front {i : Item α}
    (hs : Segment (viewOf nodes).next (addresses (i :: is)) none)
    (hh : Held (viewOf nodes) (i :: is)) :
    ∃ n, nodes.read i.address = some n ∧ n.itemId = i.id ∧ n.value = some i.value ∧
      n.next = (addresses is).head? := by
  obtain ⟨n, hn, hc, hnext, _⟩ := readNode_of_content (hh i (by simp))
  obtain ⟨hid, hv⟩ := Prod.mk.inj hc
  refine ⟨n, hn, hid, hv, ?_⟩
  rw [hnext]
  exact hs.1.trans (Option.or_none)

/-- One round of the search of a get. -/
private theorem getItemLoop_cons {i : Item α}
    (hs : Segment (viewOf nodes).next (addresses (i :: is)) none)
    (hh : Held (viewOf nodes) (i :: is))
    (hf : (i :: is).length ≤ fuel) :
    getItemLoop nodes itemId fuel (some i.address) =
      if i.id = itemId then .ok (some i.value)
      else getItemLoop nodes itemId (fuel - 1) (addresses is).head? := by
  obtain ⟨n, hn, hid, hv, hnext⟩ := read_front hs hh
  cases fuel with
  | zero => cases hf
  | succ fuel =>
    rw [getItemLoop, hn]
    simp only [hid, hv, Option.isSome_some, and_true, hnext, Nat.add_sub_cancel]

/-- One round of the search of a put or remove. -/
private theorem findNodeLoop_cons {i : Item α}
    (hs : Segment (viewOf nodes).next (addresses (i :: is)) none)
    (hh : Held (viewOf nodes) (i :: is))
    (hf : (i :: is).length ≤ fuel) (prevNode : Option Nat) :
    findNodeLoop nodes itemId fuel (some i.address) prevNode =
      if i.id = itemId then .ok (some i.address, prevNode)
      else findNodeLoop nodes itemId (fuel - 1) (addresses is).head? (some i.address) := by
  obtain ⟨n, hn, hid, _, hnext⟩ := read_front hs hh
  cases fuel with
  | zero => cases hf
  | succ fuel =>
    rw [findNodeLoop, hn]
    simp only [hid, hnext, Nat.add_sub_cancel]

/-- The search of a get returns the value of the item with the id. -/
theorem getItemLoop_eq (hs : Segment (viewOf nodes).next (addresses is) none)
    (hh : Held (viewOf nodes) is) (hf : is.length ≤ fuel) :
    getItemLoop nodes itemId fuel (addresses is).head? =
      .ok ((is.find? fun i ↦ i.id = itemId).map Item.value) := by
  induction is generalizing fuel with
  | nil => cases fuel <;> rfl
  | cons i is ih =>
    rw [addresses_cons, List.head?_cons, getItemLoop_cons hs hh hf, List.find?_cons]
    by_cases he : i.id = itemId
    · simp [he]
    · rw [if_neg he, ih hs.2 (hh.sublist (List.sublist_cons_self i is)) (Nat.le_sub_one_of_lt hf)]
      simp [he]

/-- The search of a put or remove ends behind the last node when the id is not there. -/
theorem findNodeLoop_absent (hs : Segment (viewOf nodes).next (addresses is) none)
    (hh : Held (viewOf nodes) is) (hf : is.length ≤ fuel) (habs : ∀ i ∈ is, i.id ≠ itemId)
    (prevNode : Option Nat) :
    findNodeLoop nodes itemId fuel (addresses is).head? prevNode =
      .ok (none, (addresses is).getLast?.or prevNode) := by
  induction is generalizing fuel prevNode with
  | nil => cases fuel <;> rfl
  | cons i is ih =>
    rw [addresses_cons, List.head?_cons, findNodeLoop_cons hs hh hf, if_neg (habs i (by simp)),
      ih hs.2 (hh.sublist (List.sublist_cons_self i is)) (Nat.le_sub_one_of_lt hf)
        (fun j hj ↦ habs j (by simp [hj])), List.getLast?_cons]
    cases (addresses is).getLast? <;> rfl

/-- The search of a put or remove stops at the node with the id. -/
theorem findNodeLoop_present {before after : List (Item α)} {i : Item α}
    (hs : Segment (viewOf nodes).next (addresses (before ++ i :: after)) none)
    (hh : Held (viewOf nodes) (before ++ i :: after)) (hf : (before ++ i :: after).length ≤ fuel)
    (hid : i.id = itemId) (habs : ∀ j ∈ before, j.id ≠ itemId) (prevNode : Option Nat) :
    findNodeLoop nodes itemId fuel (addresses (before ++ i :: after)).head? prevNode =
      .ok (some i.address, (addresses before).getLast?.or prevNode) := by
  induction before generalizing fuel prevNode with
  | nil =>
    rw [List.nil_append, addresses_cons, List.head?_cons, findNodeLoop_cons hs hh hf, if_pos hid]
    rfl
  | cons j before ih =>
    rw [List.cons_append] at hs hh hf ⊢
    rw [addresses_cons, List.head?_cons, findNodeLoop_cons hs hh hf, if_neg (habs j (by simp)),
      ih hs.2 (hh.sublist (List.sublist_cons_self _ _)) (Nat.le_sub_one_of_lt hf)
        (fun j' hj' ↦ habs j' (by simp [hj'])), addresses_cons, List.getLast?_cons]
    cases (addresses before).getLast? <;> rfl

end Search

end FfProxy
