import FfProxy.Base.Chains
import FfProxy.Base.OrderedMap
import FfProxy.Base.Simulation
import FfProxy.HashTable.Buckets
import FfProxy.HashTable.Nodes

/-!
# What the hash table represents

A hash table represents a list of items in insertion order when three structures hold the same
items: the trie leads each id to a chain, the chains hold the items in their order, and the
doubly linked list runs through all of them. Every operation keeps this, whatever the depth
of the trie, and changes the list of items as its name says.
-/

namespace FfProxy
open Base

variable {α : Type}

/-- The paths of leaf slots. -/
abbrev LeafPath (levels : Nat) := {q : List UInt8 // q.length = levels}

/-- The leaf slot of an id. -/
def leafPath (levels : Nat) (itemId : UInt64) : LeafPath levels :=
  ⟨hashPath itemId levels, length_hashPath itemId levels⟩

/-- The pointers in the leaf slots. -/
def leafSlots (arrays : Heap Bucket) (root levels : Nat) (q : LeafPath levels) : Option Nat :=
  follow (slotsOf arrays) root q.1

/-- The leaf slot whose chain an item is in. -/
def Item.leaf (levels : Nat) (i : Item α) : LeafPath levels := leafPath levels i.id

/-- The items of the chain that an id belongs to. -/
def chainOf (levels : Nat) (itemId : UInt64) (is : List (Item α)) : List (Item α) :=
  chain (Item.leaf levels) (leafPath levels itemId) is

/-- The chains hold the items. -/
def InChains (v : NodesView α) (arrays : Heap Bucket) (root levels : Nat) (is : List (Item α)) :
    Prop :=
  Chained (Item.leaf levels) Item.address v.next (leafSlots arrays root levels) is

/-- The list holds the items. -/
def InList (v : NodesView α) (first last : Option Nat) (is : List (Item α)) : Prop :=
  DoublyLinked v.nextInList v.prevInList (addresses is) first last

/-- The table holds the items, inserted in this order. -/
structure Represents (t : HashTable α) (is : List (Item α)) : Prop where
  levels : 2 ≤ t.bucketLevels
  trie : TrieInv t.arrays t.buckets t.bucketLevels
  ids : (is.map Item.id).Nodup
  held : Held (viewOf t.nodes) is
  chains : InChains (viewOf t.nodes) t.arrays t.buckets t.bucketLevels is
  list : InList (viewOf t.nodes) t.linkedList t.linkedListLast is
  length : t.length = UInt32.ofNat is.length

/-- The walk down has led to the last array of an id, past the arrays of the levels above. -/
structure AtLeaf (t : HashTable α) (itemId : UInt64) (leaf : Nat) (passed : List Nat) : Prop where
  length : passed.length + 1 = t.bucketLevels
  leaf : follow (slotsOf t.arrays) t.buckets (hashPath itemId (t.bucketLevels - 1)) = some leaf
  passed : ∀ n c, passed[n]? = some c →
    follow (slotsOf t.arrays) t.buckets (hashPath itemId (n + 1)) = some c

section Walks

variable {t : HashTable α} {is : List (Item α)} {itemId : UInt64} {leaf : Nat} {passed : List Nat}

/-- Every array that was passed is there. -/
theorem AtLeaf.exists_passed (hat : AtLeaf t itemId leaf passed) (hlevels : 2 ≤ t.bucketLevels) :
    ∀ n ≤ t.bucketLevels - 2, ∃ c, passed[n]? = some c ∧
      follow (slotsOf t.arrays) t.buckets (hashPath itemId (n + 1)) = some c := by
  intro n hn
  have hlength := hat.length
  have hget := List.getElem?_eq_getElem (show n < passed.length by omega)
  exact ⟨_, hget, hat.passed n _ hget⟩

/-- The walk down is the same in arrays to which the same paths lead. -/
theorem AtLeaf.withArrays (hat : AtLeaf t itemId leaf passed) (hlevels : 2 ≤ t.bucketLevels)
    {arrays : Heap Bucket} (habove : ∀ q, q.length < t.bucketLevels →
      follow (slotsOf arrays) t.buckets q = follow (slotsOf t.arrays) t.buckets q) :
    AtLeaf { t with arrays := arrays } itemId leaf passed where
  length := hat.length
  leaf := (habove _ (by rw [length_hashPath]; dsimp only; omega)).trans hat.leaf
  passed n c hn := by
    have hlength := hat.length
    have hlt := (List.getElem?_eq_some_iff.mp hn).1
    exact (habove _ (by rw [length_hashPath]; omega)).trans (hat.passed n c hn)

/-- A table with the same leaf slots represents the same items. -/
theorem Represents.withArrays (h : Represents t is) {arrays : Heap Bucket}
    (htrie : TrieInv arrays t.buckets t.bucketLevels)
    (hleaves : SameLeaves t.arrays arrays t.buckets t.bucketLevels) :
    Represents { t with arrays := arrays } is where
  levels := h.levels
  trie := htrie
  ids := h.ids
  held := h.held
  chains := by
    have hslots : leafSlots arrays t.buckets t.bucketLevels =
        leafSlots t.arrays t.buckets t.bucketLevels := funext fun q ↦ hleaves q.1 q.2
    rw [InChains, hslots]
    exact h.chains
  list := h.list
  length := h.length

/-- Walking down and making the missing levels. -/
theorem Represents.getOrCreateBucket (h : Represents t is) (itemId : UInt64) :
    ∃ arrays leaf passed,
      ffHashTableGetOrCreateBucket t itemId true = .ok (arrays, some (leaf, passed)) ∧
      Represents { t with arrays := arrays } is ∧
      AtLeaf { t with arrays := arrays } itemId leaf passed := by
  have hlevels := h.levels
  have hdepth : 0 + (t.bucketLevels - 1) + 1 = t.bucketLevels := by omega
  obtain ⟨arrays, leaf, passed, hrun, hlen, hleaf, hwalk⟩ :=
    getOrCreateLoop_create h.trie hdepth follow_nil ([] : List Nat)
  rw [Nat.zero_add] at hleaf
  refine ⟨arrays, leaf, passed, hrun, h.withArrays hwalk.trie hwalk.leaves, ?_, hleaf, ?_⟩
  · show passed.length + 1 = t.bucketLevels
    omega
  · intro n c hn
    have := hwalk.passed n c hn
    rwa [Nat.zero_add] at this

/-- The last byte of the path of an id is the index in its last array. -/
theorem Represents.hashPath_levels (h : Represents t is) (itemId : UInt64) :
    hashPath itemId t.bucketLevels =
      hashPath itemId (t.bucketLevels - 1) ++ [t.leafHash itemId] := by
  have hlevels := h.levels
  rw [HashTable.leafHash, ← hashPath_succ, Nat.sub_add_cancel (by omega)]

/-- The leaf slot of an id holds the front of its chain. -/
theorem Represents.slot_eq (h : Represents t is) (itemId : UInt64) :
    follow (slotsOf t.arrays) t.buckets (hashPath itemId t.bucketLevels) =
      (addresses (chainOf t.bucketLevels itemId is)).head? :=
  (h.chains (leafPath t.bucketLevels itemId)).1

/-- Reading the leaf slot of an id in its last array. -/
theorem Represents.readLeaf (h : Represents t is)
    (hleaf : follow (slotsOf t.arrays) t.buckets (hashPath itemId (t.bucketLevels - 1)) =
      some leaf) :
    ∃ b, readBucket t.arrays leaf = .ok b ∧
      b (t.leafHash itemId) = (addresses (chainOf t.bucketLevels itemId is)).head? := by
  have hlevels := h.levels
  have hslot := h.slot_eq itemId
  obtain ⟨b, hb⟩ := Option.isSome_iff_exists.mp (h.trie.live _ _ (by simp; omega) hleaf)
  rw [h.hashPath_levels, follow_concat, hleaf, Option.bind_some, slotsOf, hb] at hslot
  exact ⟨b, by rw [readBucket, hb], hslot⟩

/-- Walking down to the leaf slot of an id, in which its chain starts. -/
theorem Represents.reachLeaf (h : Represents t is) (itemId : UInt64) :
    ∃ arrays leaf passed b,
      ffHashTableGetOrCreateBucket t itemId true = .ok (arrays, some (leaf, passed)) ∧
      readBucket arrays leaf = .ok b ∧
      b (t.leafHash itemId) = (addresses (chainOf t.bucketLevels itemId is)).head? ∧
      Represents { t with arrays := arrays } is ∧
      AtLeaf { t with arrays := arrays } itemId leaf passed := by
  obtain ⟨arrays, leaf, passed, hrun, h', hat⟩ := h.getOrCreateBucket itemId
  obtain ⟨b, hread, hslot⟩ := h'.readLeaf hat.leaf
  exact ⟨arrays, leaf, passed, b, hrun, hread, hslot, h', hat⟩

/-- Walking back up. -/
theorem Represents.clearUnused (h : Represents t is) (hat : AtLeaf t itemId leaf passed) :
    ∃ arrays, clearUnusedLoop itemId t.buckets passed (t.bucketLevels - 2) t.arrays = .ok arrays ∧
      Represents { t with arrays := arrays } is := by
  have hlevels := h.levels
  obtain ⟨arrays, hrun, htrie, hleaves⟩ :=
    clearUnusedLoop_leaves h.trie (by omega) (hat.exists_passed hlevels)
  exact ⟨arrays, hrun, h.withArrays htrie hleaves⟩

end Walks

/-! ### Looking up -/

section Find

variable {t : HashTable α} {is before after : List (Item α)} {i : Item α} {itemId : UInt64}

/-- Items with the id of a chain are in that chain. -/
private theorem chainOf_split (levels : Nat) :
    chainOf levels i.id (before ++ i :: after) =
      chainOf levels i.id before ++ i :: chainOf levels i.id after := by
  rw [chainOf, chain_append]
  exact congrArg _ (chain_cons_self (Item.leaf levels) i after)

/-- A chain is a closed segment of held items, no longer than the fuel of a search. -/
private theorem Represents.chain_spec (h : Represents t is) (itemId : UInt64) :
    Segment (viewOf t.nodes).next (addresses (chainOf t.bucketLevels itemId is)) none ∧
      Held (viewOf t.nodes) (chainOf t.bucketLevels itemId is) ∧
      (chainOf t.bucketLevels itemId is).length ≤ t.nodes.next := by
  have hsub : (chainOf t.bucketLevels itemId is).Sublist is := chain_sublist _ _ _
  exact ⟨(h.chains (leafPath t.bucketLevels itemId)).2, h.held.sublist hsub,
    hsub.length_le.trans (h.held.length_le h.list.nodup)⟩

/-- Ids are not repeated. -/
theorem Represents.id_ne (h : Represents t (before ++ i :: after)) :
    (∀ j ∈ before, j.id ≠ i.id) ∧ ∀ j ∈ after, j.id ≠ i.id :=
  key_ne_of_nodup h.ids

/-- Addresses are not repeated. -/
theorem Represents.address_ne (h : Represents t (before ++ i :: after)) :
    (∀ j ∈ before, j.address ≠ i.address) ∧ ∀ j ∈ after, j.address ≠ i.address :=
  key_ne_of_nodup h.list.nodup

/-- The search for an id that is not there ends behind the last node of the chain. -/
theorem Represents.find_absent (h : Represents t is) (habs : ∀ j ∈ is, j.id ≠ itemId) :
    findNodeLoop t.nodes itemId t.nodes.next
        (addresses (chainOf t.bucketLevels itemId is)).head? none =
      .ok (none, (addresses (chainOf t.bucketLevels itemId is)).getLast?) := by
  obtain ⟨hseg, hheld, hfuel⟩ := h.chain_spec itemId
  rw [findNodeLoop_absent hseg hheld hfuel (fun j hj ↦ habs j (mem_chain.mp hj).1), Option.or_none]

/-- The search for an id that is there ends at its node. -/
theorem Represents.find_present (h : Represents t (before ++ i :: after)) :
    findNodeLoop t.nodes i.id t.nodes.next
        (addresses (chainOf t.bucketLevels i.id (before ++ i :: after))).head? none =
      .ok (some i.address, (addresses (chainOf t.bucketLevels i.id before)).getLast?) := by
  obtain ⟨hseg, hheld, hfuel⟩ := h.chain_spec i.id
  rw [chainOf_split] at hseg hheld hfuel ⊢
  rw [findNodeLoop_present hseg hheld hfuel rfl (fun j hj ↦ h.id_ne.1 j (mem_chain.mp hj).1),
    Option.or_none]

/-- A get returns the value of the item with the id. -/
theorem Represents.getItem (h : Represents t is) (itemId : UInt64) :
    ffHashTableGetItem t itemId = .ok ((is.find? fun i ↦ i.id = itemId).map Item.value) := by
  have hlevels := h.levels
  have hdepth : 0 + (t.bucketLevels - 1) + 1 = t.bucketLevels := by omega
  obtain ⟨hseg, hheld, hfuel⟩ := h.chain_spec itemId
  have hchain : (chainOf t.bucketLevels itemId is).find? (fun i ↦ i.id = itemId) =
      is.find? fun i ↦ i.id = itemId := by
    rw [chainOf, chain, List.find?_filter]
    congr 1
    funext i
    by_cases hi : i.id = itemId <;> simp [Item.leaf, hi]
  rcases getOrCreateLoop_find h.trie hdepth follow_nil ([] : List Nat) with
    ⟨hrun, hnone⟩ | ⟨leaf, passed, hrun, hleaf⟩
  · -- The id has no leaf slot, so its chain is empty.
    rw [h.slot_eq, List.head?_eq_none_iff, addresses, List.map_eq_nil_iff] at hnone
    rw [ffHashTableGetItem, ffHashTableGetOrCreateBucket, hrun, ← hchain, hnone]
    rfl
  · rw [Nat.zero_add] at hleaf
    obtain ⟨b, hread, hslot⟩ := h.readLeaf hleaf
    rw [ffHashTableGetItem, ffHashTableGetOrCreateBucket, hrun]
    simp only [bind, Except.bind, hread, hslot]
    rw [getItemLoop_eq hseg hheld hfuel, hchain]

end Find

/-! ### Storing -/

section Put

variable {t : HashTable α} {is before after : List (Item α)} {i : Item α} {leaf : Nat}
  {passed : List Nat}

/-- Storing under an id that is there changes the value in its place. -/
theorem Represents.put_present (h : Represents t (before ++ i :: after)) (value : α) :
    ∃ t', ffHashTablePutItem t i.id (some value) = .ok t' ∧
      Represents t' (before ++ { i with value := value } :: after) := by
  have hfind := h.find_present
  obtain ⟨arrays, leaf, passed, b, hrun, hread, hslot, h, hat⟩ := h.reachLeaf i.id
  have hheld := h.held i (by simp)
  obtain ⟨nodes, hmodify, hview⟩ := modifyNode_value hheld (some value)
  rw [← hslot] at hfind
  refine ⟨{ t with arrays := arrays, nodes := nodes }, ?_, ?_⟩
  · rw [ffHashTablePutItem, bind_of_ok hrun]
    dsimp only
    rw [bind_of_ok hread, bind_of_ok hfind]
    exact bind_of_ok hmodify _
  · have hids : (before ++ { i with value := value } :: after).map Item.id =
        (before ++ i :: after).map Item.id := by simp
    have haddr : addresses (before ++ { i with value := value } :: after) =
        addresses (before ++ i :: after) := by simp
    refine ⟨h.levels, h.trie, ?_, ?_, ?_, ?_, ?_⟩
    · rw [hids]
      exact h.ids
    · intro j hj
      rw [hview]
      rcases List.mem_append.mp hj with hb | hb
      · exact (if_neg (h.address_ne.1 j hb)).trans (h.held j (by simp [hb]))
      · rcases List.mem_cons.mp hb with rfl | ha
        · exact if_pos rfl
        · exact (if_neg (h.address_ne.2 j ha)).trans (h.held j (by simp [ha]))
    · rw [InChains, hview]
      exact h.chains.replace rfl rfl
    · rw [InList, hview, haddr]
      exact h.list
    · rw [h.length]
      simp

/-- A pointer is stored in the leaf slot of an id. -/
private theorem setLeafSlot (hlevels : 2 ≤ t.bucketLevels)
    (htrie : TrieInv t.arrays t.buckets t.bucketLevels) {itemId : UInt64}
    (hat : AtLeaf t itemId leaf passed) (pointer : Option Nat) :
    ∃ arrays, writeSlot t.arrays leaf (t.leafHash itemId) pointer = .ok arrays ∧
      TrieInv arrays t.buckets t.bucketLevels ∧
      AtLeaf { t with arrays := arrays } itemId leaf passed ∧
      ∀ q, leafSlots arrays t.buckets t.bucketLevels q =
        if q = leafPath t.bucketLevels itemId then pointer
        else leafSlots t.arrays t.buckets t.bucketLevels q := by
  have hlen := hat.length
  obtain ⟨arrays, hw, htrie', hfollow, _⟩ :=
    htrie.setLeaf hat.leaf (k := t.leafHash itemId) (by simp; omega) pointer
  rw [HashTable.leafHash, ← hashPath_succ, Nat.sub_add_cancel (by omega)] at hfollow
  -- The arrays that were passed are above the leaf slots.
  have habove : ∀ n < t.bucketLevels, follow (slotsOf arrays) t.buckets (hashPath itemId n) =
      follow (slotsOf t.arrays) t.buckets (hashPath itemId n) := by
    intro n hn
    rw [hfollow _ (by simp; omega), if_neg]
    intro he
    have := congrArg List.length he
    rw [length_hashPath, length_hashPath] at this
    omega
  refine ⟨arrays, hw, htrie', ⟨hlen, ?_, fun n c hn ↦ ?_⟩, fun q ↦ ?_⟩
  · exact (habove (t.bucketLevels - 1) (by omega)).trans hat.leaf
  · have hlt := (List.getElem?_eq_some_iff.mp hn).1
    exact (habove _ (by omega)).trans (hat.passed n c hn)
  · rw [leafSlots, hfollow q.1 (Nat.le_of_eq q.2)]
    simp only [Subtype.ext_iff, leafPath]
    rfl

/-- A new node is linked at the end of its chain. -/
private theorem inChains_concat {v v' : NodesView α} {arrays arrays' : Heap Bucket}
    {root levels : Nat} (hchains : InChains v arrays root levels is)
    (hn : (addresses (is ++ [i])).Nodup) (hi : v.next i.address = none)
    (hslots : ∀ q, leafSlots arrays' root levels q = if q = i.leaf levels then
      (leafSlots arrays root levels q).or (some i.address) else leafSlots arrays root levels q)
    (hnext : v'.next =
      redirect v.next (addresses (chainOf levels i.id is)).getLast? (some i.address)) :
    InChains v' arrays' root levels (is ++ [i]) := by
  rw [InChains, hnext]
  exact Chained.concat hchains hn hi hslots

/-- A new node is put at the end of its chain. -/
private theorem appendToChain_ok (hlevels : 2 ≤ t.bucketLevels)
    (htrie : TrieInv t.arrays t.buckets t.bucketLevels) (hheld : Held (viewOf t.nodes) is)
    (hchains : InChains (viewOf t.nodes) t.arrays t.buckets t.bucketLevels is)
    (hat : AtLeaf t i.id leaf passed) (hn : (addresses (is ++ [i])).Nodup)
    (hi : (viewOf t.nodes).next i.address = none) :
    ∃ arrays nodes, appendToChain t leaf (t.leafHash i.id)
        (addresses (chainOf t.bucketLevels i.id is)).getLast? i.address =
        .ok { t with arrays := arrays, nodes := nodes } ∧
      TrieInv arrays t.buckets t.bucketLevels ∧
      viewOf nodes = { viewOf t.nodes with
        next := redirect (viewOf t.nodes).next
          (addresses (chainOf t.bucketLevels i.id is)).getLast? (some i.address) } ∧
      InChains (viewOf nodes) arrays t.buckets t.bucketLevels (is ++ [i]) := by
  have hfront : leafSlots t.arrays t.buckets t.bucketLevels (i.leaf t.bucketLevels) =
      (addresses (chainOf t.bucketLevels i.id is)).head? := (hchains _).1
  cases hlast : (addresses (chainOf t.bucketLevels i.id is)).getLast? with
  | none =>
    obtain ⟨arrays, hw, htrie', _, hslots⟩ := setLeafSlot hlevels htrie hat (some i.address)
    rw [List.getLast?_eq_none_iff.mp hlast] at hfront
    refine ⟨arrays, t.nodes, by rw [appendToChain, hw]; rfl, htrie', by rw [redirect_none], ?_⟩
    refine inChains_concat hchains hn hi (fun q ↦ ?_) (by rw [hlast, redirect_none])
    rw [hslots]
    refine ite_congr rfl (fun hq ↦ ?_) fun _ ↦ rfl
    rw [show q = i.leaf t.bucketLevels from hq, hfront]
    rfl
  | some l =>
    obtain ⟨j, hj, rfl⟩ := List.mem_map.mp (List.mem_of_getLast? hlast)
    obtain ⟨nodes, hmodify, hview⟩ :=
      modifyNode_next (hheld j (mem_chain.mp hj).1) (some i.address)
    refine ⟨t.arrays, nodes, by rw [appendToChain, hmodify]; rfl, htrie, hview, ?_⟩
    refine inChains_concat hchains hn hi (fun q ↦ ?_) (by rw [hview, hlast])
    split
    · next hq =>
      rw [hq, hfront]
      cases hc : chainOf t.bucketLevels i.id is with
      | nil => rw [hc] at hj; cases hj
      | cons => rfl
    · rfl

/-- A new node is put at the end of the list. -/
private theorem appendToList_ok {c : UInt64 × Option α}
    (hlist : InList (viewOf t.nodes) t.linkedList t.linkedListLast is)
    (hheld : Held (viewOf t.nodes) is) (hi : (viewOf t.nodes).content i.address = some c)
    (hnew : i.address ∉ addresses is) (hnext : (viewOf t.nodes).nextInList i.address = none)
    (hprev : (viewOf t.nodes).prevInList i.address = none) :
    ∃ nodes, appendToList t i.address = .ok { t with
        nodes := nodes
        linkedList := t.linkedList.or (some i.address)
        linkedListLast := some i.address
        length := t.length + 1 } ∧
      (viewOf nodes).content = (viewOf t.nodes).content ∧
      (viewOf nodes).next = (viewOf t.nodes).next ∧
      InList (viewOf nodes) (t.linkedList.or (some i.address)) (some i.address) (is ++ [i]) := by
  have hconcat := hlist.concat hnew hnext
  have hfirst := hlist.first_eq
  have hlast := hlist.last_eq
  rcases List.eq_nil_or_concat (addresses is) with hnil | ⟨init, l, hl⟩
  · -- In an empty list nothing is linked.
    rw [hnil, List.head?_nil] at hfirst
    rw [hnil, List.getLast?_nil] at hlast
    rw [hlast, redirect_none, redirect_eq_self hprev] at hconcat
    refine ⟨t.nodes, ?_, rfl, rfl, ?_⟩
    · simp only [appendToList, hfirst]
      rfl
    · rw [InList, addresses_append]
      exact hconcat
  · rw [hl, List.concat_eq_append, List.getLast?_concat] at hlast
    obtain ⟨first, hf⟩ : ∃ first, t.linkedList = some first := by
      rw [hfirst, hl]
      cases init with
      | nil => exact ⟨l, rfl⟩
      | cons a init => exact ⟨a, rfl⟩
    obtain ⟨j, hj, rfl⟩ : ∃ j ∈ is, j.address = l := List.mem_map.mp
      (show l ∈ addresses is by rw [hl, List.concat_eq_append]; simp)
    obtain ⟨nodes₁, hmodify₁, hview₁⟩ := modifyNode_prevInList hi t.linkedListLast
    have hj₁ : (viewOf nodes₁).content j.address = some (j.id, some j.value) := by
      rw [hview₁]
      exact hheld j hj
    obtain ⟨nodes, hmodify, hview⟩ := modifyNode_nextInList hj₁ (some i.address)
    rw [hview₁] at hview
    refine ⟨nodes, ?_, by rw [hview], by rw [hview], ?_⟩
    · rw [hlast] at hmodify₁
      simp only [appendToList, hf, hlast, hmodify₁, bind, Except.bind, hmodify]
      rfl
    · rw [InList, addresses_append, hview, ← hlast]
      exact hconcat

/-- A new node is linked into its chain and into the list. -/
private theorem appendNew (h : Represents t is) (hat : AtLeaf t i.id leaf passed)
    (habs : ∀ j ∈ is, j.id ≠ i.id) (hi : i.address = t.nodes.next) :
    ∃ t₁ t₂, appendToChain
        { t with nodes := t.nodes.alloc ⟨i.id, some i.value, none, none, none⟩ } leaf
        (t.leafHash i.id) (addresses (chainOf t.bucketLevels i.id is)).getLast? i.address =
        .ok t₁ ∧
      appendToList t₁ i.address = .ok t₂ ∧ Represents t₂ (is ++ [i]) := by
  obtain ⟨_, hnext, hprevList, hnextList⟩ := viewOf_fresh t.nodes
  have hview := viewOf_alloc t.nodes i.id (some i.value)
  rw [← hi] at hnext hprevList hnextList hview
  have hfresh : ∀ j ∈ is, j.address ≠ i.address := fun j hj ↦ by
    rw [hi]
    exact Nat.ne_of_lt (lt_fresh_of_content (h.held j hj))
  have hn : (addresses (is ++ [i])).Nodup := nodup_map_concat h.list.nodup hfresh
  have hheld : Held (viewOf (t.nodes.alloc ⟨i.id, some i.value, none, none, none⟩))
      (is ++ [i]) := by
    intro j hj
    rw [hview]
    rcases List.mem_append.mp hj with hj | hj
    · exact (if_neg (hfresh j hj)).trans (h.held j hj)
    · rw [List.mem_singleton.mp hj]
      exact if_pos rfl
  obtain ⟨arrays, nodes, hchain, htrie, hview', hchains⟩ := appendToChain_ok
    (t := { t with nodes := t.nodes.alloc ⟨i.id, some i.value, none, none, none⟩ })
    h.levels h.trie (hheld.sublist (List.sublist_append_left is [i]))
    (by rw [InChains, hview]; exact h.chains) ⟨hat.length, hat.leaf, hat.passed⟩ hn
    (by rw [hview]; exact hnext)
  have hcontent : (viewOf nodes).content =
      (viewOf (t.nodes.alloc ⟨i.id, some i.value, none, none, none⟩)).content := by rw [hview']
  have hheld' : Held (viewOf nodes) (is ++ [i]) := fun j hj ↦ by
    rw [hcontent]
    exact hheld j hj
  obtain ⟨nodes', hlist, hcontent', hnext', hinList⟩ := appendToList_ok
    (t := { t with arrays := arrays, nodes := nodes }) (i := i)
    (by rw [InList, hview', hview]; exact h.list)
    (hheld'.sublist (List.sublist_append_left is [i])) (hheld' i (by simp))
    (fun hmem ↦ by obtain ⟨j, hj, he⟩ := List.mem_map.mp hmem; exact hfresh j hj he)
    (by rw [hview', hview]; exact hnextList) (by rw [hview', hview]; exact hprevList)
  refine ⟨_, _, hchain, hlist, h.levels, htrie, nodup_map_concat h.ids habs, ?_, ?_, hinList, ?_⟩
  · intro j hj
    rw [hcontent']
    exact hheld' j hj
  · rw [InChains, hnext']
    exact hchains
  · show t.length + 1 = UInt32.ofNat (is ++ [i]).length
    rw [h.length, List.length_append, UInt32.ofNat_add]
    rfl

/-- Storing under a new id puts it behind all others. -/
theorem Represents.put_absent (h : Represents t is) {itemId : UInt64}
    (habs : ∀ j ∈ is, j.id ≠ itemId) (value : α) :
    ∃ t', ffHashTablePutItem t itemId (some value) = .ok t' ∧
      Represents t' (is ++ [⟨t.nodes.next, itemId, value⟩]) := by
  have hfind := h.find_absent habs
  obtain ⟨arrays, leaf, passed, b, hrun, hread, hslot, h, hat⟩ := h.reachLeaf itemId
  obtain ⟨t₁, t₂, hchain, hlist, h₂⟩ :=
    appendNew (i := ⟨t.nodes.next, itemId, value⟩) h hat habs rfl
  rw [← hslot] at hfind
  refine ⟨t₂, ?_, h₂⟩
  rw [ffHashTablePutItem, bind_of_ok hrun]
  dsimp only
  rw [bind_of_ok hread, bind_of_ok hfind]
  exact (bind_of_ok hchain _).trans hlist

end Put

/-! ### Removing -/

section Remove

variable {t : HashTable α} {is before after : List (Item α)} {i : Item α} {leaf : Nat}
  {passed : List Nat}

/-- A node is taken out of the links of its chain. -/
private theorem inChains_remove {v v' : NodesView α} {arrays arrays' : Heap Bucket}
    {root levels : Nat} (hchains : InChains v arrays root levels (before ++ i :: after))
    (hn : (addresses (before ++ i :: after)).Nodup)
    (hslots : ∀ q, leafSlots arrays' root levels q =
      if q = i.leaf levels ∧ chainOf levels i.id before = [] then v.next i.address
      else leafSlots arrays root levels q)
    (hnext : v'.next = redirect v.next (addresses (chainOf levels i.id before)).getLast?
      (v.next i.address)) :
    InChains v' arrays' root levels (before ++ after) := by
  rw [InChains, hnext]
  exact Chained.remove hchains hn hslots

/-- A node is taken out of its chain. -/
private theorem unlinkFromChain_ok (h : Represents t (before ++ i :: after))
    (hat : AtLeaf t i.id leaf passed) :
    ∃ arrays nodes, unlinkFromChain t leaf (t.leafHash i.id)
        (addresses (chainOf t.bucketLevels i.id before)).getLast? i.address =
        .ok { t with arrays := arrays, nodes := nodes } ∧
      TrieInv arrays t.buckets t.bucketLevels ∧
      AtLeaf { t with arrays := arrays } i.id leaf passed ∧
      viewOf nodes = { viewOf t.nodes with
        next := redirect (viewOf t.nodes).next
          (addresses (chainOf t.bucketLevels i.id before)).getLast?
          ((viewOf t.nodes).next i.address) } ∧
      InChains (viewOf nodes) arrays t.buckets t.bucketLevels (before ++ after) := by
  obtain ⟨n, hread, _, hnext, _⟩ := h.held.readNode (i := i) (by simp)
  cases hlast : (addresses (chainOf t.bucketLevels i.id before)).getLast? with
  | none =>
    have hnil : chainOf t.bucketLevels i.id before = [] :=
      List.map_eq_nil_iff.mp (List.getLast?_eq_none_iff.mp hlast)
    obtain ⟨arrays, hw, htrie, hat', hslots⟩ := setLeafSlot h.levels h.trie hat n.next
    refine ⟨arrays, t.nodes, ?_, htrie, hat', by rw [redirect_none], ?_⟩
    · simp only [unlinkFromChain, hread, bind, Except.bind, hw]
      rfl
    · refine inChains_remove h.chains h.list.nodup (fun q ↦ ?_) (by rw [hlast, redirect_none])
      rw [hslots, hnext]
      exact ite_congr (by simp only [hnil, and_true]; rfl) (fun _ ↦ rfl) fun _ ↦ rfl
  | some l =>
    obtain ⟨j, hj, rfl⟩ := List.mem_map.mp (List.mem_of_getLast? hlast)
    have hjmem := (mem_chain.mp hj).1
    obtain ⟨nodes, hmodify, hview⟩ := modifyNode_next (h.held j (by simp [hjmem])) n.next
    refine ⟨t.arrays, nodes, ?_, h.trie, hat, by rw [hview, hnext], ?_⟩
    · simp only [unlinkFromChain, hread, bind, Except.bind, hmodify]
      rfl
    · refine inChains_remove h.chains h.list.nodup (fun q ↦ ?_) (by rw [hview, hlast, hnext])
      rw [if_neg]
      rintro ⟨_, hnil⟩
      rw [hnil] at hj
      cases hj

private theorem inList_split {v : NodesView α} {first last : Option Nat}
    (h : InList v first last (before ++ i :: after)) :
    DoublyLinked v.nextInList v.prevInList (addresses before ++ i.address :: addresses after)
      first last := by
  rwa [InList, addresses_append, addresses_cons] at h

/-- A node is taken out of the list and released. -/
private theorem unlinkFromList_ok
    (hlist : InList (viewOf t.nodes) t.linkedList t.linkedListLast (before ++ i :: after))
    (hheld : Held (viewOf t.nodes) (before ++ i :: after)) :
    ∃ nodes, unlinkFromList t i.address = .ok { t with
        linkedList := if t.linkedList = some i.address then (viewOf t.nodes).nextInList i.address
          else t.linkedList
        linkedListLast := if t.linkedListLast = some i.address then
          (viewOf t.nodes).prevInList i.address else t.linkedListLast
        length := t.length - 1
        nodes := nodes.free i.address } ∧
      viewOf nodes = { viewOf t.nodes with
        nextInList := redirect (viewOf t.nodes).nextInList ((viewOf t.nodes).prevInList i.address)
          ((viewOf t.nodes).nextInList i.address)
        prevInList := redirect (viewOf t.nodes).prevInList ((viewOf t.nodes).nextInList i.address)
          ((viewOf t.nodes).prevInList i.address) } := by
  have hlink := inList_split hlist
  have hlive : ∀ b ∈ addresses (before ++ i :: after),
      ∃ c, (viewOf t.nodes).content b = some c := by
    intro b hb
    obtain ⟨j, hj, rfl⟩ := List.mem_map.mp hb
    exact ⟨_, hheld j hj⟩
  rw [addresses_append, addresses_cons] at hlive
  obtain ⟨n, hread, _, _, hnprev, hnnext⟩ := hheld.readNode (i := i) (by simp)
  have hlive₁ : ∀ b, n.prevInList = some b → ∃ c, (viewOf t.nodes).content b = some c := by
    intro b hb
    exact hlive b (by simp [(hlink.prev_mem (hnprev ▸ hb)).1])
  obtain ⟨nodes₁, hmodify₁, hview₁⟩ := modifyNodeAt_nextInList hlive₁ n.nextInList
  have hheld₁ : Held (viewOf nodes₁) (before ++ i :: after) := by
    rw [hview₁]
    exact hheld
  -- The node itself keeps its links while its neighbours are changed.
  obtain ⟨n₁, hread₁, _, _, hnprev₁, hnnext₁⟩ := hheld₁.readNode (i := i) (by simp)
  have hnext₁ : n₁.nextInList = n.nextInList := by
    rw [hnnext₁, hview₁, hnnext]
    exact if_neg fun hb ↦ (hlink.prev_mem (hnprev ▸ hb)).2 rfl
  have hprev₁ : n₁.prevInList = n.prevInList := by rw [hnprev₁, hview₁, hnprev]
  have hlive₂ : ∀ b, n₁.nextInList = some b → ∃ c, (viewOf nodes₁).content b = some c := by
    intro b hb
    rw [hview₁]
    rw [hnext₁, hnnext] at hb
    exact hlive b (by simp [(hlink.next_mem hb).1])
  obtain ⟨nodes₂, hmodify₂, hview₂⟩ := modifyNodeAt_prevInList hlive₂ n₁.prevInList
  have hheld₂ : Held (viewOf nodes₂) (before ++ i :: after) := by
    rw [hview₂]
    exact hheld₁
  obtain ⟨n₂, hread₂, _, _, hnprev₂, hnnext₂⟩ := hheld₂.readNode (i := i) (by simp)
  have hnext₂ : n₂.nextInList = n.nextInList := by rw [hnnext₂, hview₂, ← hnnext₁, hnext₁]
  have hprev₂ : n₂.prevInList = n.prevInList := by
    rw [hnprev₂, hview₂, ← hprev₁, hnprev₁]
    exact if_neg fun hb ↦ (hlink.next_mem (by rwa [hnext₁, hnnext] at hb)).2 rfl
  rw [← hnnext, ← hnprev]
  refine ⟨nodes₂, ?_, by rw [hview₂, hview₁, hnext₁, hprev₁]⟩
  simp only [unlinkFromList, hread, bind, Except.bind, hmodify₁, hread₁, hmodify₂, hread₂, hnext₂,
    hprev₂]
  rfl

/-- A node is taken out of its chain and out of the list, and released. -/
private theorem unlink (h : Represents t (before ++ i :: after))
    (hat : AtLeaf t i.id leaf passed) :
    ∃ t₁ t₂, unlinkFromChain t leaf (t.leafHash i.id)
        (addresses (chainOf t.bucketLevels i.id before)).getLast? i.address = .ok t₁ ∧
      unlinkFromList t₁ i.address = .ok t₂ ∧ Represents t₂ (before ++ after) ∧
      AtLeaf t₂ i.id leaf passed := by
  obtain ⟨arrays, nodes, hchain, htrie, hat', hview, hchains⟩ := unlinkFromChain_ok h hat
  have hinList : InList (viewOf nodes) t.linkedList t.linkedListLast (before ++ i :: after) := by
    rw [InList, hview]
    exact h.list
  have hheld : Held (viewOf nodes) (before ++ i :: after) := by
    rw [hview]
    exact h.held
  obtain ⟨nodes', hlist, hview'⟩ := unlinkFromList_ok
    (t := { t with arrays := arrays, nodes := nodes }) hinList hheld
  have hfree := viewOf_free nodes' i.address
  have hsub : (before ++ after).Sublist (before ++ i :: after) :=
    (List.sublist_cons_self i after).append_left before
  have hother : ∀ j ∈ before ++ after, j.address ≠ i.address := fun j hj ↦
    (List.mem_append.mp hj).elim (h.address_ne.1 j) (h.address_ne.2 j)
  have haddr : ∀ b ∈ addresses (before ++ after), b ≠ i.address := by
    intro b hb
    obtain ⟨j, hj, rfl⟩ := List.mem_map.mp hb
    exact hother j hj
  refine ⟨_, _, hchain, hlist, ⟨h.levels, htrie, h.ids.sublist (hsub.map Item.id), ?_, ?_, ?_, ?_⟩,
    ⟨hat'.length, hat'.leaf, hat'.passed⟩⟩
  · intro j hj
    show (viewOf (nodes'.free i.address)).content j.address = _
    rw [hfree]
    refine (if_neg (hother j hj)).trans ?_
    rw [hview']
    exact hheld j (hsub.subset hj)
  · refine Chained.congr hchains fun b hb ↦ ?_
    show (viewOf (nodes'.free i.address)).next b = _
    rw [hfree, hview']
    exact redirect_of_ne none (haddr b hb)
  · have hremove := (inList_split hinList).remove
    rw [← addresses_append] at hremove
    refine DoublyLinked.congr hremove (fun b hb ↦ ?_) fun b hb ↦ ?_
    · show (viewOf (nodes'.free i.address)).nextInList b = _
      rw [hfree, hview']
      exact redirect_of_ne none (haddr b hb)
    · show (viewOf (nodes'.free i.address)).prevInList b = _
      rw [hfree, hview']
      exact redirect_of_ne none (haddr b hb)
  · show t.length - 1 = _
    rw [h.length, List.length_append, List.length_append, List.length_cons, ← Nat.add_assoc,
      UInt32.ofNat_add]
    exact UInt32.add_sub_cancel _ _

/-- Removing an id that is there takes its item out of its place. -/
theorem Represents.remove_present (h : Represents t (before ++ i :: after)) :
    ∃ t', ffHashTableRemoveItem t i.id = .ok t' ∧ Represents t' (before ++ after) := by
  have hfind := h.find_present
  obtain ⟨arrays, leaf, passed, b, hrun, hread, hslot, h, hat⟩ := h.reachLeaf i.id
  obtain ⟨t₁, t₂, hchain, hlist, h₂, hat₂⟩ := unlink h hat
  obtain ⟨b₂, hread₂, _⟩ := h₂.readLeaf hat₂.leaf
  have hfront : b (t.leafHash i.id) ≠ none := by
    rw [hslot, chainOf_split]
    simp
  rw [← hslot] at hfind
  have hchain' : unlinkFromChain { t with arrays := arrays } leaf (t.leafHash i.id)
      (addresses (chainOf t.bucketLevels i.id before)).getLast? i.address = .ok t₁ := hchain
  rw [ffHashTableRemoveItem, bind_of_ok hrun]
  dsimp only
  rw [bind_of_ok hread, if_neg hfront, bind_of_ok hfind]
  dsimp only
  rw [bind_of_ok hchain', bind_of_ok hlist, bind_of_ok hread₂]
  by_cases hempty : b₂ (t.leafHash i.id) = none
  · obtain ⟨arrays₃, hclear, h₃⟩ := h₂.clearUnused hat₂
    refine ⟨_, ?_, h₃⟩
    rw [if_pos hempty, if_neg (Nat.not_lt.mpr h₂.levels)]
    exact bind_of_ok hclear _
  · exact ⟨t₂, if_neg hempty, h₂⟩

/-- Removing an id that is not there changes no item; the levels of the id are there then. -/
theorem Represents.remove_absent (h : Represents t is) {itemId : UInt64}
    (habs : ∀ j ∈ is, j.id ≠ itemId) :
    ∃ arrays leaf passed, ffHashTableRemoveItem t itemId = .ok { t with arrays := arrays } ∧
      Represents { t with arrays := arrays } is ∧
      AtLeaf { t with arrays := arrays } itemId leaf passed := by
  have hfind := h.find_absent habs
  obtain ⟨arrays, leaf, passed, b, hrun, hread, hslot, h, hat⟩ := h.reachLeaf itemId
  refine ⟨arrays, leaf, passed, ?_, h, hat⟩
  rw [← hslot] at hfind
  rw [ffHashTableRemoveItem, bind_of_ok hrun]
  dsimp only
  rw [bind_of_ok hread]
  split
  · rfl
  · next hb =>
    rw [bind_of_ok hfind]
    dsimp only
    rw [pure_bind, bind_of_ok hread, if_neg hb]
    rfl

end Remove

end FfProxy
