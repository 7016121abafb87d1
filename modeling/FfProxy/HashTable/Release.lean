import FfProxy.Base.Release
import FfProxy.HashTable.Shape

/-!
# Releasing the table

`ff_hash_table_free` and `ff_hash_table_free_bucket_level`, `src/hash_table.c:266–271,306–342`. The
operations leave nothing in memory that the trie or a chain does not lead to, and the trie is
a tree whose chains are apart. So the walk over all slots releases every array and every node, each
of them once.
-/

namespace FfProxy
open Base

variable {α : Type}

/-! ### Model -/

/-- What a table holds on the heap: its bucket arrays and its nodes. -/
structure TableMemory (α : Type) where
  arrays : Heap Bucket
  nodes : Heap (TableNode α)

/-- The memory of a table. -/
def HashTable.memory (t : HashTable α) : TableMemory α := ⟨t.arrays, t.nodes⟩

/-- `FREE` of a bucket array. -/
def freeArray (mem : TableMemory α) (a : Nat) : Except Fault (TableMemory α) :=
  match mem.arrays.read a with
  | none => .error .doubleFree
  | some _ => .ok { mem with arrays := mem.arrays.free a }

/-- The nodes of a leaf slot, `src/hash_table.c:328–336`. -/
def freeNodes (mem : TableMemory α) (node : Nat) : Except Fault (TableMemory α) := do
  let nodes ← releaseChain TableNode.next Fault.useAfterFree mem.nodes (some node)
  return { mem with nodes := nodes }

/-- What a slot points to is released, `src/hash_table.c:314,326`; the array is read anew for every
slot. -/
def freeSlot (release : TableMemory α → Nat → Except Fault (TableMemory α)) (bucket : Nat)
    (mem : TableMemory α) (i : Nat) : Except Fault (TableMemory α) := do
  let b ← readBucket mem.arrays bucket
  match b (UInt8.ofNat i) with
  | none => return mem
  | some pointer => release mem pointer

/-- The loop over the slots of an array and the release of the array itself,
`src/hash_table.c:312–320,324–340`. -/
def freeSlots (release : TableMemory α → Nat → Except Fault (TableMemory α))
    (mem : TableMemory α) (bucket : Nat) : Except Fault (TableMemory α) := do
  let mem ← (List.range 256).foldlM (freeSlot release bucket) mem
  freeArray mem bucket

/-- `ff_hash_table_free_bucket_level`, `src/hash_table.c:306–342`. -/
def ffHashTableFreeBucketLevel :
    Nat → TableMemory α → Nat → Except Fault (TableMemory α)
  | 0, _, _ => .error .assertion
  | 1, mem, bucket => freeSlots freeNodes mem bucket
  | levels + 2, mem, bucket => freeSlots (ffHashTableFreeBucketLevel (levels + 1)) mem bucket

/-- `ff_hash_table_free`, `src/hash_table.c:266–271`: the memory that is left. -/
def ffHashTableFree (t : HashTable α) : Except Fault (TableMemory α) :=
  ffHashTableFreeBucketLevel t.bucketLevels t.memory t.buckets

/-! ### What belongs to a table -/

/-- Every array in memory is reached from the root, and every node is the node of an item. -/
structure Owned (t : HashTable α) (is : List (Item α)) : Prop where
  arrays : AllReached t.arrays t.buckets t.bucketLevels
  nodes : ∀ a, (t.nodes.read a).isSome → a ∈ addresses is

section Nodes

variable {nodes nodes' : Heap (TableNode α)} {t t' : HashTable α}

theorem modifyNode_live {a : Nat} {f : TableNode α → TableNode α}
    (h : modifyNode nodes a f = .ok nodes') (b : Nat) :
    (nodes'.read b).isSome = (nodes.read b).isSome := by
  rw [modifyNode] at h
  split at h
  · cases h
  · next n hn =>
    obtain rfl := Except.ok.inj h
    rw [Heap.read_write _ _ _ _ (Heap.lt_next_of_read hn)]
    split
    · next hb => simp [hb, hn]
    · rfl

theorem modifyNodeAt_live {pointer : Option Nat} {f : TableNode α → TableNode α}
    (h : modifyNodeAt nodes pointer f = .ok nodes') (b : Nat) :
    (nodes'.read b).isSome = (nodes.read b).isSome := by
  cases pointer with
  | none =>
    obtain rfl := Except.ok.inj h
    rfl
  | some a => exact modifyNode_live h b

theorem appendToChain_live {leaf node : Nat} {hash : UInt8} {last : Option Nat}
    (h : appendToChain t leaf hash last node = .ok t') (a : Nat) :
    (t'.nodes.read a).isSome = (t.nodes.read a).isSome := by
  cases last with
  | none =>
    obtain ⟨arrays, _, h⟩ := bind_eq_ok h
    cases h
    rfl
  | some l =>
    obtain ⟨nodes, hmodify, h⟩ := bind_eq_ok h
    cases h
    exact modifyNode_live hmodify a

theorem appendToList_live {node : Nat} (h : appendToList t node = .ok t') (a : Nat) :
    (t'.nodes.read a).isSome = (t.nodes.read a).isSome := by
  rw [appendToList] at h
  split at h
  · cases h
    rfl
  · obtain ⟨nodes, hmodify, h⟩ := bind_eq_ok h
    split at h
    · cases h
    · obtain ⟨nodes', hmodify', h⟩ := bind_eq_ok h
      cases h
      exact (modifyNode_live hmodify' a).trans (modifyNode_live hmodify a)

theorem unlinkFromChain_live {leaf node : Nat} {hash : UInt8} {previous : Option Nat}
    (h : unlinkFromChain t leaf hash previous node = .ok t') (a : Nat) :
    (t'.nodes.read a).isSome = (t.nodes.read a).isSome := by
  obtain ⟨n, _, h⟩ := bind_eq_ok h
  cases previous with
  | none =>
    obtain ⟨arrays, _, h⟩ := bind_eq_ok h
    cases h
    rfl
  | some b =>
    obtain ⟨nodes, hmodify, h⟩ := bind_eq_ok h
    cases h
    exact modifyNode_live hmodify a

/-- The node that is unlinked is released. -/
theorem unlinkFromList_live {node : Nat} (h : unlinkFromList t node = .ok t') (a : Nat)
    (ha : (t'.nodes.read a).isSome) : a ≠ node ∧ (t.nodes.read a).isSome := by
  obtain ⟨n, _, h⟩ := bind_eq_ok h
  obtain ⟨nodes, hprev, h⟩ := bind_eq_ok h
  obtain ⟨n, _, h⟩ := bind_eq_ok h
  obtain ⟨nodes', hnext, h⟩ := bind_eq_ok h
  obtain ⟨n, _, h⟩ := bind_eq_ok h
  cases h
  dsimp only at ha
  rw [Heap.read_free] at ha
  split at ha
  · cases ha
  · next hne =>
    rw [modifyNodeAt_live hnext, modifyNodeAt_live hprev] at ha
    exact ⟨hne, ha⟩

end Nodes

section Operations

variable {t t' : HashTable α} {is before after : List (Item α)} {i : Item α} {itemId : UInt64}

/-- A put of an id that is stored makes no node. -/
theorem Represents.put_present_live (h : Represents t (before ++ i :: after)) {value : α}
    (hput : ffHashTablePutItem t i.id (some value) = .ok t') (a : Nat) :
    (t'.nodes.read a).isSome = (t.nodes.read a).isSome := by
  obtain ⟨arrays, leaf, passed, b, hwalk, hread, hslot, _⟩ := h.reachLeaf i.id
  rw [ffHashTablePutItem, bind_of_ok hwalk] at hput
  dsimp only at hput
  rw [bind_of_ok hread, hslot, bind_of_ok h.find_present] at hput
  obtain ⟨nodes, hmodify, hput⟩ := bind_eq_ok hput
  cases hput
  exact modifyNode_live hmodify a

/-- A put of a new id makes one node. -/
theorem Represents.put_absent_live (h : Represents t is) (habs : ∀ j ∈ is, j.id ≠ itemId)
    {value : α} (hput : ffHashTablePutItem t itemId (some value) = .ok t') (a : Nat)
    (ha : (t'.nodes.read a).isSome) : a = t.nodes.next ∨ (t.nodes.read a).isSome := by
  obtain ⟨arrays, leaf, passed, b, hwalk, hread, hslot, _⟩ := h.reachLeaf itemId
  rw [ffHashTablePutItem, bind_of_ok hwalk] at hput
  dsimp only at hput
  rw [bind_of_ok hread, hslot, bind_of_ok (h.find_absent habs)] at hput
  obtain ⟨t₁, hchain, hlist⟩ := bind_eq_ok hput
  rw [appendToList_live hlist, appendToChain_live hchain] at ha
  dsimp only at ha
  rw [Heap.read_alloc] at ha
  split at ha
  · next hnext => exact Or.inl hnext
  · exact Or.inr ha

/-- The removal of an id that is stored releases its node. -/
theorem Represents.remove_present_live (h : Represents t (before ++ i :: after))
    (hremove : ffHashTableRemoveItem t i.id = .ok t') (a : Nat)
    (ha : (t'.nodes.read a).isSome) : a ≠ i.address ∧ (t.nodes.read a).isSome := by
  obtain ⟨arrays, leaf, passed, b, hwalk, hread, hslot, _⟩ := h.reachLeaf i.id
  have hmem : i ∈ chainOf t.bucketLevels i.id (before ++ i :: after) :=
    mem_chain.mpr ⟨by simp, rfl⟩
  have hused : b (t.leafHash i.id) ≠ none := by
    rw [hslot, ne_eq, List.head?_eq_none_iff, addresses, List.map_eq_nil_iff]
    exact List.ne_nil_of_mem hmem
  rw [ffHashTableRemoveItem, bind_of_ok hwalk] at hremove
  dsimp only at hremove
  rw [bind_of_ok hread, if_neg hused, hslot, bind_of_ok h.find_present] at hremove
  obtain ⟨t₁, hchain, hremove⟩ := bind_eq_ok hremove
  obtain ⟨t₂, hlist, hremove⟩ := bind_eq_ok hremove
  obtain ⟨b', _, hremove⟩ := bind_eq_ok hremove
  have hnodes : t'.nodes = t₂.nodes := by
    split at hremove
    · split at hremove
      · cases hremove
      · obtain ⟨arrays', _, hremove⟩ := bind_eq_ok hremove
        cases hremove
        rfl
    · cases hremove
      rfl
  rw [hnodes] at ha
  obtain ⟨hne, ha⟩ := unlinkFromList_live hlist a ha
  rw [unlinkFromChain_live hchain] at ha
  exact ⟨hne, ha⟩

/-- Walking down makes arrays that are reached. -/
theorem AllReached.getOrCreateBucket (h : AllReached t.arrays t.buckets t.bucketLevels)
    (hrep : Represents t is) {arrays : Heap Bucket} {bucket : Option (Nat × List Nat)}
    (hrun : ffHashTableGetOrCreateBucket t itemId true = .ok (arrays, bucket)) :
    AllReached arrays t.buckets t.bucketLevels := by
  have hlevels := hrep.levels
  refine getOrCreateLoop_preserves
    (Q := fun arrays ↦ AllReached arrays t.buckets t.bucketLevels) ?_ hrep.trie (by omega)
    follow_nil h hrun
  intro arrays arrays₁ n hn hreached hcreated
  exact hreached.created hcreated (by rwa [length_hashPath])

theorem AllReached.putItem (h : AllReached t.arrays t.buckets t.bucketLevels)
    (hrep : Represents t is) {item : Option α} (hput : ffHashTablePutItem t itemId item = .ok t') :
    AllReached t'.arrays t'.buckets t'.bucketLevels := by
  obtain ⟨hsame, arrays, leaf, passed, hrun, hwritten⟩ := ffHashTablePutItem_frame hput
  obtain ⟨arrays₁, leaf₁, passed₁, hrun₁, hrep₁, hat⟩ := hrep.getOrCreateBucket itemId
  cases hrun.symm.trans hrun₁
  have hlength : (hashPath itemId (t.bucketLevels - 1)).length + 1 = t.bucketLevels := by
    have := hrep.levels
    rw [length_hashPath]
    omega
  rw [hsame.levels, hsame.root]
  exact (h.getOrCreateBucket hrep hrun).leafWritten hlength hat.leaf hwritten hrep₁.trie

/-- The walk back up leaves only arrays that are reached. -/
theorem AllReached.clearUnused {arrays arrays' : Heap Bucket} {leaf : Nat} {passed : List Nat}
    (h : AllReached arrays t.buckets t.bucketLevels)
    (htrie : TrieInv arrays t.buckets t.bucketLevels) (hlevels : 2 ≤ t.bucketLevels)
    (hat : AtLeaf { t with arrays := arrays } itemId leaf passed)
    (hclear : clearUnusedLoop itemId t.buckets passed (t.bucketLevels - 2) arrays = .ok arrays') :
    AllReached arrays' t.buckets t.bucketLevels := by
  have hlevel : t.bucketLevels - 2 + 1 < t.bucketLevels := by omega
  obtain ⟨arrays₁, n, hrun, _, hreached, _⟩ :=
    clearUnusedLoop_spec (Q := fun _ arrays ↦ AllReached arrays t.buckets t.bucketLevels)
      (fun _ hreached hcut ↦ hreached.cutOff hcut) htrie hlevel
      (hat.exists_passed hlevels) h
  obtain rfl := Except.ok.inj (hclear.symm.trans hrun)
  exact hreached

theorem AllReached.removeItem (h : AllReached t.arrays t.buckets t.bucketLevels)
    (hrep : Represents t is) (hremove : ffHashTableRemoveItem t itemId = .ok t') :
    AllReached t'.arrays t'.buckets t'.bucketLevels := by
  obtain ⟨hsame, arrays, bucket, hrun, hcases⟩ := ffHashTableRemoveItem_frame hremove
  have hlevels := hrep.levels
  have hwalked := h.getOrCreateBucket hrep hrun
  rw [hsame.levels, hsame.root]
  rcases hcases with harrays | ⟨leaf, passed, arrays₁, b, rfl, hwritten, _, hend⟩
  · rwa [harrays]
  · obtain ⟨arrays₂, leaf₂, passed₂, hrun₂, hrep₂, hat⟩ := hrep.getOrCreateBucket itemId
    cases hrun.symm.trans hrun₂
    have hpath : (hashPath itemId (t.bucketLevels - 1)).length + 1 = t.bucketLevels := by
      rw [length_hashPath]
      omega
    have hreached := hwalked.leafWritten hpath hat.leaf hwritten hrep₂.trie
    rcases hend with ⟨_, harrays⟩ | ⟨_, hclear⟩
    · rwa [harrays]
    · have hat₁ : AtLeaf { t with arrays := arrays₁ } itemId leaf passed :=
        hat.withArrays hlevels fun q hq ↦ hrep₂.trie.follow_leafWritten hpath hat.leaf hwritten hq
      exact hreached.clearUnused (hrep₂.trie.leafWritten hpath hat.leaf hwritten).1 hlevels hat₁
        hclear

end Operations

/-! ### Runs -/

section Runs

variable {t : HashTable α} {is : List (Item α)}

/-- Every call keeps what is in memory owned. -/
theorem TableOp.run_owned (h : Represents t is) (ho : Owned t is) (op : TableOp α) :
    ∃ t' is' value, op.run t = .ok (t', value) ∧ Represents t' is' ∧ Owned t' is' := by
  cases op with
  | put itemId value =>
    by_cases hmem : ∃ i ∈ is, i.id = itemId
    · obtain ⟨i, hi, rfl⟩ := hmem
      obtain ⟨before, after, rfl⟩ := List.append_of_mem hi
      obtain ⟨t', hput, h'⟩ := h.put_present value
      refine ⟨t', _, none, bind_of_ok hput _, h', ho.arrays.putItem h hput, fun a ha ↦ ?_⟩
      rw [h.put_present_live hput] at ha
      simpa [addresses] using ho.nodes a ha
    · have habs : ∀ i ∈ is, i.id ≠ itemId := fun i hi he ↦ hmem ⟨i, hi, he⟩
      obtain ⟨t', hput, h'⟩ := h.put_absent habs value
      refine ⟨t', _, none, bind_of_ok hput _, h', ho.arrays.putItem h hput, fun a ha ↦ ?_⟩
      rw [addresses_append, List.mem_append]
      rcases h.put_absent_live habs hput a ha with rfl | ha
      · exact Or.inr List.mem_cons_self
      · exact Or.inl (ho.nodes a ha)
  | remove itemId =>
    by_cases hmem : ∃ i ∈ is, i.id = itemId
    · obtain ⟨i, hi, rfl⟩ := hmem
      obtain ⟨before, after, rfl⟩ := List.append_of_mem hi
      obtain ⟨t', hremove, h'⟩ := h.remove_present
      refine ⟨t', _, none, bind_of_ok hremove _, h', ho.arrays.removeItem h hremove,
        fun a ha ↦ ?_⟩
      obtain ⟨hne, ha⟩ := h.remove_present_live hremove a ha
      have hall := ho.nodes a ha
      rw [addresses_append, addresses_cons, List.mem_append, List.mem_cons] at hall
      rw [addresses_append, List.mem_append]
      exact hall.imp_right fun hafter ↦ hafter.resolve_left hne
    · have habs : ∀ i ∈ is, i.id ≠ itemId := fun i hi he ↦ hmem ⟨i, hi, he⟩
      obtain ⟨arrays, leaf, passed, hremove, h', _⟩ := h.remove_absent habs
      exact ⟨_, is, none, bind_of_ok hremove _, h', ho.arrays.removeItem h hremove, ho.nodes⟩
  | get itemId => exact ⟨t, is, _, bind_of_ok (h.getItem itemId) _, h, ho⟩

/-- So does a run. -/
theorem runOps_owned (h : Represents t is) (ho : Owned t is) (ops : List (TableOp α)) :
    ∃ t' is' values, runOps t ops = .ok (t', values) ∧ Represents t' is' ∧ Owned t' is' := by
  induction ops generalizing t is with
  | nil => exact ⟨t, is, [], rfl, h, ho⟩
  | cons op ops ih =>
    obtain ⟨t₁, is₁, value, hop, h₁, ho₁⟩ := op.run_owned h ho
    obtain ⟨t', is', values, hrun, h', ho'⟩ := ih h₁ ho₁
    refine ⟨t', is', value :: values, ?_, h', ho'⟩
    rw [runOps, bind_of_ok hop]
    exact bind_of_ok hrun _

/-- A new table owns its root. -/
theorem owned_new {prefixBitLength : UInt8} (hinit : ffHashTableInit prefixBitLength = .ok t)
    (hlevels : 2 ≤ t.bucketLevels) : Owned t [] where
  arrays := (isTrim_new hinit hlevels).reached
  nodes a ha := by
    rw [ffHashTableInit] at hinit
    split at hinit
    · cases hinit
    · obtain rfl := Except.ok.inj hinit
      cases ha

end Runs

/-! ### The walk -/

section Walk

variable {t : HashTable α} {is : List (Item α)} {mem : TableMemory α}

/-- The memory cell by cell: an array or a node. -/
def TableMemory.cell (mem : TableMemory α) : Nat ⊕ Nat → Option (Bucket ⊕ TableNode α)
  | .inl a => (mem.arrays.read a).map .inl
  | .inr a => (mem.nodes.read a).map .inr

/-- What lies behind a path: the arrays that longer paths lead to, and the nodes of the items whose
paths go on from there. -/
def behind (t : HashTable α) (is : List (Item α)) (p : List UInt8) : Set (Nat ⊕ Nat)
  | .inl a => ∃ q, q.length < t.bucketLevels ∧ p <+: q ∧
      follow (slotsOf t.arrays) t.buckets q = some a
  | .inr a => ∃ i ∈ is, i.address = a ∧ p <+: hashPath i.id t.bucketLevels

theorem mem_behind_inl {p : List UInt8} {a : Nat} : Sum.inl a ∈ behind t is p ↔
    ∃ q, q.length < t.bucketLevels ∧ p <+: q ∧
      follow (slotsOf t.arrays) t.buckets q = some a := Iff.rfl

theorem mem_behind_inr {p : List UInt8} {a : Nat} : Sum.inr a ∈ behind t is p ↔
    ∃ i ∈ is, i.address = a ∧ p <+: hashPath i.id t.bucketLevels := Iff.rfl

theorem read_arrays_of_cell {mem' : TableMemory α} {a : Nat}
    (h : mem.cell (.inl a) = mem'.cell (.inl a)) : mem.arrays.read a = mem'.arrays.read a :=
  Option.map_injective Sum.inl_injective h

theorem read_nodes_of_cell {mem' : TableMemory α} {a : Nat}
    (h : mem.cell (.inr a) = mem'.cell (.inr a)) : mem.nodes.read a = mem'.nodes.read a :=
  Option.map_injective Sum.inr_injective h

/-- Two paths that differ in their last step are not both followed by a third one. -/
private theorem slot_eq_of_extends {p q : List UInt8} {j k : UInt8} (hj : p ++ [j] <+: q)
    (hk : p ++ [k] <+: q) : j = k := by
  have he := List.prefix_of_prefix_length_le hj hk (by simp)
  simpa using he

/-- What lies behind different slots of an array is apart. -/
theorem behind_disjoint (h : Represents t is) {p : List UInt8} {j k : UInt8} (hne : j ≠ k) :
    Disjoint (behind t is (p ++ [j])) (behind t is (p ++ [k])) := by
  rw [Set.disjoint_left]
  rintro (a | a) hj hk
  · obtain ⟨q, hq, hpre, hfollow⟩ := mem_behind_inl.mp hj
    obtain ⟨q', hq', hpre', hfollow'⟩ := mem_behind_inl.mp hk
    obtain rfl := h.trie.tree q q' a hq hq' hfollow hfollow'
    exact hne (slot_eq_of_extends hpre hpre')
  · obtain ⟨i, hi, ha, hpre⟩ := mem_behind_inr.mp hj
    obtain ⟨i', hi', ha', hpre'⟩ := mem_behind_inr.mp hk
    obtain rfl := List.inj_on_of_nodup_map h.list.nodup hi hi' (ha.trans ha'.symm)
    exact hne (slot_eq_of_extends hpre hpre')

/-- Behind an array lie the array itself and what lies behind its slots. -/
theorem behind_eq {p : List UInt8} {a : Nat} (hp : p.length < t.bucketLevels)
    (ha : follow (slotsOf t.arrays) t.buckets p = some a) :
    behind t is p = {c | ∃ i ∈ List.range 256, c ∈ behind t is (p ++ [UInt8.ofNat i])} ∪
      {.inl a} := by
  -- A longer path goes through one of the slots.
  have hslot : ∀ q, p <+: q → q ≠ p → ∃ i ∈ List.range 256, p ++ [UInt8.ofNat i] <+: q := by
    rintro q ⟨rest, rfl⟩ hne
    cases rest with
    | nil => exact absurd (List.append_nil p) hne
    | cons k rest =>
      refine ⟨k.toNat, List.mem_range.mpr k.toNat_lt, rest, ?_⟩
      rw [UInt8.ofNat_toNat, List.append_assoc]
      rfl
  have hfront : ∀ k, p <+: p ++ [k] := fun k ↦ List.prefix_append p [k]
  ext c
  cases c with
  | inl b =>
    simp only [Set.mem_union, Set.mem_ofPred_eq, mem_behind_inl, Set.mem_singleton_iff,
      Sum.inl.injEq]
    constructor
    · rintro ⟨q, hq, hpre, hfollow⟩
      by_cases hqp : q = p
      · subst hqp
        exact Or.inr (Option.some.inj (hfollow.symm.trans ha))
      · obtain ⟨i, hi, hpre⟩ := hslot q hpre hqp
        exact Or.inl ⟨i, hi, q, hq, hpre, hfollow⟩
    · rintro (⟨i, _, q, hq, hpre, hfollow⟩ | rfl)
      · exact ⟨q, hq, (hfront _).trans hpre, hfollow⟩
      · exact ⟨p, hp, List.prefix_refl p, ha⟩
  | inr b =>
    simp only [Set.mem_union, Set.mem_ofPred_eq, mem_behind_inr, Set.mem_singleton_iff,
      reduceCtorEq, or_false]
    constructor
    · rintro ⟨i, hi, hb, hpre⟩
      have hne : hashPath i.id t.bucketLevels ≠ p := by
        rintro rfl
        rw [length_hashPath] at hp
        exact absurd hp (Nat.lt_irrefl _)
      obtain ⟨k, hk, hpre⟩ := hslot _ hpre hne
      exact ⟨k, hk, i, hi, hb, hpre⟩
    · rintro ⟨k, _, i, hi, hb, hpre⟩
      exact ⟨i, hi, hb, (hfront _).trans hpre⟩

/-- An array does not lie behind its own slots. -/
theorem not_mem_behind_slot (h : Represents t is) {p : List UInt8} {a : Nat}
    (hp : p.length < t.bucketLevels) (ha : follow (slotsOf t.arrays) t.buckets p = some a)
    (k : UInt8) : Sum.inl a ∉ behind t is (p ++ [k]) := by
  intro hmem
  obtain ⟨q, hq, hpre, hfollow⟩ := mem_behind_inl.mp hmem
  obtain rfl := h.trie.tree p q a hp hq ha hfollow
  have := hpre.length_le
  rw [List.length_append, List.length_singleton] at this
  omega

/-- Nothing lies behind a path that leads nowhere. -/
theorem behind_eq_empty (h : Represents t is) {p : List UInt8}
    (hp : follow (slotsOf t.arrays) t.buckets p = none) : behind t is p = ∅ := by
  ext c
  rw [Set.mem_empty_iff_false, iff_false]
  intro hc
  cases c with
  | inl a =>
    obtain ⟨q, _, hpre, hfollow⟩ := mem_behind_inl.mp hc
    exact follow_ne_none_of_front hpre (by rw [hfollow]; exact Option.some_ne_none a) hp
  | inr a =>
    obtain ⟨i, hi, _, hpre⟩ := mem_behind_inr.mp hc
    exact follow_ne_none_of_front hpre (h.slot_ne_none ⟨i, hi, rfl⟩) hp

/-- The chain of a leaf slot is released. -/
theorem freeNodes_drops (h : Represents t is) {p : List UInt8} (hp : p.length = t.bucketLevels)
    {node : Nat} (hnode : follow (slotsOf t.arrays) t.buckets p = some node)
    (hmem : ∀ c ∈ behind t is p, mem.cell c = t.memory.cell c) :
    ∃ mem', freeNodes mem node = .ok mem' ∧ Drops TableMemory.cell mem mem' (behind t is p) := by
  obtain ⟨hfront, hseg⟩ := h.chains ⟨p, hp⟩
  obtain ⟨as, has⟩ : ∃ as, as = (chain (Item.leaf t.bucketLevels) ⟨p, hp⟩ is).map Item.address :=
    ⟨_, rfl⟩
  rw [← has] at hfront hseg
  have hin : ∀ a, a ∈ as ↔ Sum.inr a ∈ behind t is p := by
    intro a
    rw [has, mem_behind_inr, List.mem_map]
    constructor
    · rintro ⟨i, hi, ha⟩
      obtain ⟨hi, hleaf⟩ := mem_chain.mp hi
      have hpath : hashPath i.id t.bucketLevels = p := congrArg Subtype.val hleaf
      exact ⟨i, hi, ha, by rw [hpath]⟩
    · rintro ⟨i, hi, ha, hpre⟩
      have hpath : p = hashPath i.id t.bucketLevels :=
        hpre.eq_of_length (hp.trans (length_hashPath _ _).symm)
      exact ⟨i, mem_chain.mpr ⟨hi, Subtype.ext hpath.symm⟩, ha⟩
  -- The nodes of the chain are those of the table.
  have hread : ∀ a ∈ as, mem.nodes.read a = t.nodes.read a := fun a ha ↦
    read_nodes_of_cell (hmem _ ((hin a).mp ha))
  have hnodup : as.Nodup := by
    rw [has]
    exact ((chain_sublist _ _ is).map Item.address).nodup h.list.nodup
  have hlive : ∀ a ∈ as, (mem.nodes.read a).isSome := by
    intro a ha
    rw [hread a ha]
    obtain ⟨i, hi, rfl, _⟩ := mem_behind_inr.mp ((hin a).mp ha)
    obtain ⟨n, hn, _⟩ := readNode_of_content (h.held i hi)
    rw [hn]
    rfl
  have hlinks : Segment (linkOf TableNode.next mem.nodes) as none :=
    hseg.congr fun a ha ↦ by
      rw [linkOf, hread a ha]
      rfl
  obtain ⟨nodes', hrun, hnodes⟩ :=
    releaseChain_segment Fault.useAfterFree hlinks hnodup hlive
  have hhead : as.head? = some node := hfront.symm.trans hnode
  rw [hhead] at hrun
  refine ⟨{ mem with nodes := nodes' }, bind_of_ok hrun _, fun c hc ↦ ?_, fun c hc ↦ ?_⟩
  · cases c with
    | inl a =>
      obtain ⟨q, hq, hpre, _⟩ := mem_behind_inl.mp hc
      exact absurd (hpre.length_le.trans_lt hq) (by omega)
    | inr a => rw [TableMemory.cell, hnodes, if_pos ((hin a).mpr hc), Option.map_none]
  · cases c with
    | inl a => rfl
    | inr a => rw [TableMemory.cell, TableMemory.cell, hnodes, if_neg (mt (hin a).mp hc)]

/-- The slots of an array lead to cells that are apart. -/
theorem slots_apart (h : Represents t is) (p : List UInt8) :
    (List.range 256).Pairwise fun i j ↦
      Disjoint (behind t is (p ++ [UInt8.ofNat i])) (behind t is (p ++ [UInt8.ofNat j])) := by
  refine List.Pairwise.imp_of_mem ?_ List.nodup_range
  intro i j hi hj hne
  apply behind_disjoint h
  intro he
  have hval := congrArg UInt8.toNat he
  rw [UInt8.toNat_ofNat_of_lt' (List.mem_range.mp hi),
    UInt8.toNat_ofNat_of_lt' (List.mem_range.mp hj)] at hval
  exact hne hval

theorem freeArray_drops {a : Nat} {b : Bucket} (hb : mem.arrays.read a = some b) :
    ∃ mem', freeArray mem a = .ok mem' ∧ Drops TableMemory.cell mem mem' {Sum.inl a} := by
  refine ⟨{ mem with arrays := mem.arrays.free a }, by rw [freeArray, hb], ?_, fun c hc ↦ ?_⟩
  · rintro _ rfl
    rw [TableMemory.cell, Heap.read_free, if_pos rfl, Option.map_none]
  · cases c with
    | inl c =>
      have hne : c ≠ a := fun he ↦ hc (congrArg Sum.inl he)
      rw [TableMemory.cell, TableMemory.cell, Heap.read_free, if_neg hne]
    | inr c => rfl

/-- What lies behind a slot of the array at the end of a path is released by `release`, in every
memory that has it as the table has. -/
def ReleasesSlots (t : HashTable α) (is : List (Item α)) (p : List UInt8)
    (release : TableMemory α → Nat → Except Fault (TableMemory α)) : Prop :=
  ∀ k pointer, follow (slotsOf t.arrays) t.buckets (p ++ [k]) = some pointer →
    ∀ mem : TableMemory α, (∀ c ∈ behind t is (p ++ [k]), mem.cell c = t.memory.cell c) →
      ∃ mem', release mem pointer = .ok mem' ∧
        Drops TableMemory.cell mem mem' (behind t is (p ++ [k]))

section Slots

variable {release : TableMemory α → Nat → Except Fault (TableMemory α)} {p : List UInt8} {a : Nat}

/-- One round of the loop over the slots. -/
theorem freeSlot_drops (h : Represents t is) (hp : p.length < t.bucketLevels)
    (ha : follow (slotsOf t.arrays) t.buckets p = some a) (hrelease : ReleasesSlots t is p release)
    (i : Nat) (hmem : ∀ c ∈ behind t is (p ++ [UInt8.ofNat i]) ∪ {Sum.inl a},
      mem.cell c = t.memory.cell c) :
    ∃ mem', freeSlot release a mem i = .ok mem' ∧
      Drops TableMemory.cell mem mem' (behind t is (p ++ [UInt8.ofNat i])) := by
  obtain ⟨b, hb⟩ := Option.isSome_iff_exists.mp (h.trie.live p a hp ha)
  have hread : mem.arrays.read a = some b := (read_arrays_of_cell (hmem _ (Or.inr rfl))).trans hb
  have hslot : follow (slotsOf t.arrays) t.buckets (p ++ [UInt8.ofNat i]) =
      b (UInt8.ofNat i) := by
    rw [follow_concat, ha, Option.bind_some, slotsOf, hb, Option.bind_some]
  have hbucket : readBucket mem.arrays a = .ok b := by rw [readBucket, hread]
  rw [freeSlot, bind_of_ok hbucket]
  cases hpointer : b (UInt8.ofNat i) with
  | none =>
    rw [behind_eq_empty h (hslot.trans hpointer)]
    exact ⟨mem, rfl, .refl mem⟩
  | some pointer =>
    exact hrelease _ pointer (hslot.trans hpointer) mem fun c hc ↦ hmem c (Or.inl hc)

/-- The loop over the slots releases what lies behind the array. -/
theorem freeSlots_drops (h : Represents t is) (hp : p.length < t.bucketLevels)
    (ha : follow (slotsOf t.arrays) t.buckets p = some a)
    (hmem : ∀ c ∈ behind t is p, mem.cell c = t.memory.cell c)
    (hrelease : ReleasesSlots t is p release) :
    ∃ mem', freeSlots release mem a = .ok mem' ∧
      Drops TableMemory.cell mem mem' (behind t is p) := by
  have hround : ∀ i ∈ List.range 256, ∀ mem₁ : TableMemory α,
      (∀ c ∈ behind t is (p ++ [UInt8.ofNat i]) ∪ {Sum.inl a}, mem₁.cell c = mem.cell c) →
      ∃ mem₂, freeSlot release a mem₁ i = .ok mem₂ ∧
        Drops TableMemory.cell mem₁ mem₂ (behind t is (p ++ [UInt8.ofNat i])) := by
    intro i hi mem₁ hkept
    refine freeSlot_drops h hp ha hrelease i fun c hc ↦ (hkept c hc).trans (hmem c ?_)
    rw [behind_eq hp ha]
    exact hc.imp_left fun hc ↦ ⟨i, hi, hc⟩
  have hbase : ∀ i ∈ List.range 256,
      Disjoint (behind t is (p ++ [UInt8.ofNat i])) {Sum.inl a} := fun i _ ↦
    Set.disjoint_singleton_right.mpr (not_mem_behind_slot h hp ha _)
  obtain ⟨mem₁, hrun, hdrops⟩ := foldlM_drops (slots_apart h p) hbase hround
  -- The array itself is still there after the loop.
  obtain ⟨b, hb⟩ := Option.isSome_iff_exists.mp (h.trie.live p a hp ha)
  have hcell : mem₁.cell (.inl a) = t.memory.cell (.inl a) := by
    rw [hdrops.rest, hmem _ (mem_behind_inl.mpr ⟨p, hp, List.prefix_refl p, ha⟩)]
    rintro ⟨i, _, hc⟩
    exact not_mem_behind_slot h hp ha _ hc
  obtain ⟨mem', hfree, hdrops'⟩ := freeArray_drops ((read_arrays_of_cell hcell).trans hb)
  refine ⟨mem', (bind_of_ok hrun _).trans hfree, ?_⟩
  rw [behind_eq hp ha]
  exact hdrops.trans hdrops'

end Slots

/-- What lies behind an array is released, level by level. -/
theorem ffHashTableFreeBucketLevel_drops (h : Represents t is) (levels : Nat) {p : List UInt8}
    (hp : p.length + (levels + 1) = t.bucketLevels) {a : Nat}
    (ha : follow (slotsOf t.arrays) t.buckets p = some a) {mem : TableMemory α}
    (hmem : ∀ c ∈ behind t is p, mem.cell c = t.memory.cell c) :
    ∃ mem', ffHashTableFreeBucketLevel (levels + 1) mem a = .ok mem' ∧
      Drops TableMemory.cell mem mem' (behind t is p) := by
  induction levels generalizing p a mem with
  | zero =>
    refine freeSlots_drops h (by omega) ha hmem fun k node hnode mem₁ hmem₁ ↦ ?_
    exact freeNodes_drops h (by rw [List.length_append, List.length_singleton]; omega) hnode hmem₁
  | succ levels ih =>
    refine freeSlots_drops h (by omega) ha hmem fun k bucket hbucket mem₁ hmem₁ ↦ ?_
    exact ih (by rw [List.length_append, List.length_singleton]; omega) hbucket hmem₁

/-- Everything a table owns lies behind its root. -/
theorem Owned.mem_behind (ho : Owned t is) {c : Nat ⊕ Nat} (hc : t.memory.cell c ≠ none) :
    c ∈ behind t is [] := by
  cases c with
  | inl a =>
    rw [TableMemory.cell, ne_eq, Option.map_eq_none_iff, ← ne_eq, Option.ne_none_iff_isSome] at hc
    obtain ⟨q, hq, hfollow⟩ := ho.arrays a hc
    exact ⟨q, hq, List.nil_prefix, hfollow⟩
  | inr a =>
    rw [TableMemory.cell, ne_eq, Option.map_eq_none_iff, ← ne_eq, Option.ne_none_iff_isSome] at hc
    obtain ⟨i, hi, ha⟩ := List.mem_map.mp (ho.nodes a hc)
    exact ⟨i, hi, ha, List.nil_prefix⟩

/-- A table whose memory is owned is released as a whole. -/
theorem Owned.free (ho : Owned t is) (h : Represents t is) :
    ∃ mem, ffHashTableFree t = .ok mem ∧ ∀ c, mem.cell c = none := by
  have hlevels := h.levels
  obtain ⟨mem, hrun, hdrops⟩ := ffHashTableFreeBucketLevel_drops h (t.bucketLevels - 1)
    (p := []) (by rw [List.length_nil]; omega) follow_nil fun c _ ↦ rfl
  rw [Nat.sub_add_cancel (by omega)] at hrun
  refine ⟨mem, hrun, fun c ↦ ?_⟩
  by_cases hin : c ∈ behind t is []
  · exact hdrops.gone c hin
  · rw [hdrops.rest c hin]
    by_contra hc
    exact hin (ho.mem_behind hc)

end Walk

/-- After any calls on a new table, `ff_hash_table_free` releases all of the table's memory: every
bucket array and every node, each of them once. -/
theorem ffHashTableFree_releases_all {prefixBitLength : UInt8} (hp : PrefixLength prefixBitLength)
    (ops : List (TableOp α)) :
    ∃ (t₀ t : HashTable α) (values : List (Option α)) (mem : TableMemory α),
      ffHashTableInit prefixBitLength = .ok t₀ ∧ runOps t₀ ops = .ok (t, values) ∧
      ffHashTableFree t = .ok mem ∧ (∀ a, mem.arrays.read a = none) ∧
      ∀ a, mem.nodes.read a = none := by
  obtain ⟨t₀, hinit, h₀⟩ : ∃ t₀ : HashTable α, ffHashTableInit prefixBitLength = .ok t₀ ∧
      Represents t₀ [] := represents_init hp
  obtain ⟨t, is, values, hrun, h, ho⟩ := runOps_owned h₀ (owned_new hinit h₀.levels) ops
  obtain ⟨mem, hfree, hnone⟩ := ho.free h
  exact ⟨t₀, t, values, mem, hinit, hrun, hfree, fun a ↦ Option.map_eq_none_iff.mp (hnone (.inl a)),
    fun a ↦ Option.map_eq_none_iff.mp (hnone (.inr a))⟩

/-- Chains of one slot, a chain that was emptied, and levels that a removal made. -/
theorem ffHashTableFree_releases_all_sample : PrefixLength 16 ∧
    ∃ (t₀ t : HashTable Nat) (values : List (Option Nat)) (mem : TableMemory Nat),
      ffHashTableInit 16 = .ok t₀ ∧
      runOps t₀ (sampleOps ++ [.remove 0x30501]) = .ok (t, values) ∧
      ffHashTableFree t = .ok mem ∧ (∀ a, mem.arrays.read a = none) ∧
      ∀ a, mem.nodes.read a = none := by
  have hp : PrefixLength 16 := by decide
  exact ⟨hp, ffHashTableFree_releases_all hp (sampleOps ++ [.remove 0x30501])⟩

end FfProxy
