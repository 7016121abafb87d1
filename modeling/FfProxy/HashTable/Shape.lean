import FfProxy.HashTable.Frame
import Mathlib.Algebra.Group.Action.Defs
import Mathlib.Algebra.Order.BigOperators.Group.List

/-!
# The shape of the trie

Which arrays a run of operations leaves in memory. A put fills the levels it makes, and the removal
of an id that is stored cuts off the levels it empties. The removal of an id that is not stored,
`src/hash_table.c:170–175`, makes the missing levels of the id as a put does, and leaves them empty.
-/

namespace FfProxy
open Base

variable {α : Type}

/-! ### Invariant -/

/-- Every array in memory is reached from the root. -/
def AllReached (arrays : Heap Bucket) (root depth : Nat) : Prop :=
  ∀ a, (arrays.read a).isSome → ∃ q, q.length < depth ∧ follow (slotsOf arrays) root q = some a

/-- A trie without unreached arrays and without empty ones below the root, but for the array at the
end of one path. -/
structure TrimBut (arrays : Heap Bucket) (root depth : Nat) (p : List UInt8) : Prop where
  trie : TrieInv arrays root depth
  filled : FilledBut (slotsOf arrays) root depth p
  reached : AllReached arrays root depth

/-- The arrays of a table are all reached, and none below the root is empty. -/
def HashTable.IsTrim (t : HashTable α) : Prop := TrimBut t.arrays t.buckets t.bucketLevels []

section Steps

variable {arrays arrays' : Heap Bucket} {root depth : Nat} {path : List UInt8}

theorem AllReached.created (h : AllReached arrays root depth)
    (hcreated : Created arrays arrays' root depth path) (hpath : path.length < depth) :
    AllReached arrays' root depth := by
  intro b hb
  rcases hcreated.live b hb with rfl | hb
  · exact ⟨path, hpath, by rw [hcreated.follow_eq path (Nat.le_of_lt hpath), if_pos rfl]⟩
  · obtain ⟨q, hq, hfollow⟩ := h b hb
    have hne : q ≠ path := by
      rintro rfl
      rw [hcreated.missing] at hfollow
      cases hfollow
    exact ⟨q, hq, by rw [hcreated.follow_eq q (Nat.le_of_lt hq), if_neg hne, hfollow]⟩

theorem AllReached.cutOff (h : AllReached arrays root depth)
    (hcut : CutOff arrays arrays' root depth path) : AllReached arrays' root depth := by
  intro b hb
  obtain ⟨hother, hb⟩ := hcut.live b hb
  obtain ⟨q, hq, hfollow⟩ := h b hb
  have hne : q ≠ path := by
    rintro rfl
    exact hother hfollow
  exact ⟨q, hq, by rw [hcut.follow_eq q (Nat.le_of_lt hq), if_neg hne, hfollow]⟩

section LeafWritten

variable {leaf : Nat} {hash : UInt8} (hpath : path.length + 1 = depth)
  (hleaf : follow (slotsOf arrays) root path = some leaf)
  (hwritten : LeafWritten arrays arrays' leaf hash)

include hpath hleaf hwritten

/-- A write to a leaf slot of the array at the end of a path changes what is found behind this slot
and makes and releases no array. -/
theorem TrieInv.leafWritten (h : TrieInv arrays root depth) :
    TrieInv arrays' root depth ∧
      (∃ pointer, ∀ q, q.length ≤ depth → follow (slotsOf arrays') root q =
        if q = path ++ [hash] then pointer else follow (slotsOf arrays) root q) ∧
      ∀ b, (arrays'.read b).isSome = (arrays.read b).isSome := by
  rcases hwritten with rfl | ⟨pointer, hwrite⟩
  · refine ⟨h, ⟨follow (slotsOf arrays') root (path ++ [hash]), fun q _ ↦ ?_⟩, fun _ ↦ rfl⟩
    split
    · next hq => rw [hq]
    · rfl
  · obtain ⟨arrays₁, hwrite₁, htrie, hfollow, hlive⟩ := h.setLeaf (k := hash) hleaf hpath pointer
    obtain rfl := Except.ok.inj (hwrite.symm.trans hwrite₁)
    exact ⟨htrie, ⟨pointer, hfollow⟩, hlive⟩

/-- Paths to arrays lead to where they led. -/
theorem TrieInv.follow_leafWritten (h : TrieInv arrays root depth) {q : List UInt8}
    (hq : q.length < depth) : follow (slotsOf arrays') root q = follow (slotsOf arrays) root q := by
  obtain ⟨-, ⟨pointer, hfollow⟩, -⟩ := h.leafWritten hpath hleaf hwritten
  rw [hfollow q (Nat.le_of_lt hq), if_neg]
  rintro rfl
  rw [List.length_append, List.length_singleton] at hq
  omega

theorem AllReached.leafWritten (h : AllReached arrays root depth)
    (htrie : TrieInv arrays root depth) : AllReached arrays' root depth := by
  obtain ⟨-, -, hlive⟩ := htrie.leafWritten hpath hleaf hwritten
  intro b hb
  rw [hlive] at hb
  obtain ⟨q, hq, hb⟩ := h b hb
  exact ⟨q, hq, (htrie.follow_leafWritten hpath hleaf hwritten hq).trans hb⟩

/-- A pointer is stored in a leaf slot of the array that is left out. -/
theorem TrimBut.leafWritten (h : TrimBut arrays root depth path) :
    TrimBut arrays' root depth path := by
  obtain ⟨htrie, ⟨pointer, hfollow⟩, -⟩ := h.trie.leafWritten hpath hleaf hwritten
  exact ⟨htrie, h.filled.setLeaf hpath hfollow,
    h.reached.leafWritten hpath hleaf hwritten h.trie⟩

end LeafWritten

end Steps

/-! ### Walking down -/

section Down

variable {t : HashTable α} {is : List (Item α)} {itemId : UInt64} {arrays : Heap Bucket}

/-- The path of an id is walked down step by step. -/
theorem prefix_hashPath_of_le (itemId : UInt64) {n m : Nat} (h : n ≤ m) :
    hashPath itemId n <+: hashPath itemId m := by
  induction m, h using Nat.le_induction with
  | base => exact List.prefix_refl _
  | succ m _ ih =>
    rw [hashPath_succ]
    exact ih.trans (List.prefix_append _ _)

/-- Walking down where all levels are there makes none. -/
theorem getOrCreateBucket_of_there (h : TrieInv t.arrays t.buckets t.bucketLevels)
    (hlevels : 2 ≤ t.bucketLevels)
    (hthere : follow (slotsOf t.arrays) t.buckets (hashPath itemId (t.bucketLevels - 1)) ≠ none)
    {bucket : Option (Nat × List Nat)}
    (hrun : ffHashTableGetOrCreateBucket t itemId true = .ok (arrays, bucket)) :
    arrays = t.arrays := by
  refine getOrCreateLoop_preserves (Q := fun arrays ↦ arrays = t.arrays) ?_ h (by omega)
    follow_nil rfl hrun
  rintro arrays arrays₁ n hn rfl hcreated
  have hpre := prefix_hashPath_of_le itemId (show n ≤ t.bucketLevels - 1 by omega)
  exact absurd hcreated.missing (follow_ne_none_of_front hpre hthere)

/-- Walking down leads past arrays that are reached, and changes nothing off the path. -/
private theorem getOrCreateBucket_off_path (h : t.IsTrim) (hlevels : 2 ≤ t.bucketLevels)
    {bucket : Option (Nat × List Nat)}
    (hrun : ffHashTableGetOrCreateBucket t itemId true = .ok (arrays, bucket)) :
    AllReached arrays t.buckets t.bucketLevels ∧
      ∀ q, q.length ≤ t.bucketLevels → (∀ n < t.bucketLevels, q ≠ hashPath itemId n) →
        follow (slotsOf arrays) t.buckets q = follow (slotsOf t.arrays) t.buckets q := by
  refine getOrCreateLoop_preserves (Q := fun arrays ↦
    AllReached arrays t.buckets t.bucketLevels ∧
      ∀ q, q.length ≤ t.bucketLevels → (∀ n < t.bucketLevels, q ≠ hashPath itemId n) →
        follow (slotsOf arrays) t.buckets q = follow (slotsOf t.arrays) t.buckets q)
    ?_ h.trie (by omega) follow_nil ⟨h.reached, fun _ _ _ ↦ rfl⟩ hrun
  rintro arrays arrays₁ n hn ⟨hreached, hoff⟩ hcreated
  refine ⟨hreached.created hcreated (by rwa [length_hashPath]), fun q hq hpath ↦ ?_⟩
  rw [hcreated.follow_eq q hq, if_neg (hpath n hn), hoff q hq hpath]

/-- Walking down fills all levels but the last. -/
theorem HashTable.IsTrim.getOrCreateBucket (h : t.IsTrim) (hlevels : 2 ≤ t.bucketLevels)
    {leaf : Nat} {passed : List Nat}
    (hrun : ffHashTableGetOrCreateBucket t itemId true = .ok (arrays, some (leaf, passed))) :
    TrimBut arrays t.buckets t.bucketLevels (hashPath itemId (t.bucketLevels - 1)) ∧
      AtLeaf { t with arrays := arrays } itemId leaf passed := by
  have hroot : follow (slotsOf t.arrays) t.buckets (hashPath itemId 0) = some t.buckets :=
    follow_nil
  obtain ⟨arrays₁, leaf₁, passed₁, hrun₁, hlength, hleaf, hwalk⟩ :=
    getOrCreateLoop_create h.trie
      (show 0 + (t.bucketLevels - 1) + 1 = t.bucketLevels by omega) hroot []
  cases hrun.symm.trans hrun₁
  obtain ⟨hreached, hoff⟩ := getOrCreateBucket_off_path h hlevels hrun
  rw [Nat.zero_add] at hleaf
  have hgrown : ∀ q, q.length ≤ t.bucketLevels → follow (slotsOf t.arrays) t.buckets q ≠ none →
      follow (slotsOf arrays) t.buckets q ≠ none := by
    intro q hq hsome
    obtain ⟨b, hb⟩ := Option.ne_none_iff_exists'.mp hsome
    rw [hwalk.grown q b hq hb]
    exact Option.some_ne_none b
  have hfilled : FilledBut (slotsOf arrays) t.buckets t.bucketLevels
      (hashPath itemId (t.bucketLevels - 1)) := by
    apply h.filled.grow (by rw [hleaf]; exact Option.some_ne_none leaf) hgrown
    intro q hq hpre
    apply hoff q (Nat.le_of_lt hq)
    rintro n hn rfl
    exact hpre (prefix_hashPath_of_le itemId (Nat.le_sub_one_of_lt hn))
  refine ⟨⟨hwalk.trie, hfilled, hreached⟩, ?_, hleaf, fun n c hn ↦ ?_⟩
  · show ([] ++ passed₁).length + 1 = t.bucketLevels
    rw [List.nil_append, hlength]
    omega
  · have := hwalk.passed n c hn
    rwa [Nat.zero_add] at this

end Down

/-! ### The operations -/

section Operations

variable {t t' : HashTable α} {is is' : List (Item α)} {itemId : UInt64}

/-- The path of an id that is stored leads to its leaf slot. -/
theorem Represents.slot_ne_none (h : Represents t is) (hmem : ∃ i ∈ is, i.id = itemId) :
    follow (slotsOf t.arrays) t.buckets (hashPath itemId t.bucketLevels) ≠ none := by
  obtain ⟨i, hi, rfl⟩ := hmem
  have hchain : i ∈ chainOf t.bucketLevels i.id is := mem_chain.mpr ⟨hi, rfl⟩
  rw [h.slot_eq, ne_eq, List.head?_eq_none_iff, addresses, List.map_eq_nil_iff]
  exact List.ne_nil_of_mem hchain

/-- A leaf slot that is not null belongs to an id that is stored. -/
theorem Represents.exists_item (h : Represents t is) {q : List UInt8}
    (hlen : q.length = t.bucketLevels) (hq : follow (slotsOf t.arrays) t.buckets q ≠ none) :
    ∃ i ∈ is, hashPath i.id t.bucketLevels = q := by
  have hslot : follow (slotsOf t.arrays) t.buckets q =
      (addresses (chain (Item.leaf t.bucketLevels) ⟨q, hlen⟩ is)).head? :=
    (h.chains ⟨q, hlen⟩).1
  rw [hslot, ne_eq, List.head?_eq_none_iff, addresses, List.map_eq_nil_iff] at hq
  obtain ⟨i, hi⟩ := List.exists_mem_of_ne_nil _ hq
  obtain ⟨hmem, hleaf⟩ := mem_chain.mp hi
  exact ⟨i, hmem, congrArg Subtype.val hleaf⟩

theorem SameRoot.isTrim (hsame : SameRoot t t')
    (h : TrimBut t'.arrays t.buckets t.bucketLevels []) : t'.IsTrim := by
  rwa [HashTable.IsTrim, hsame.levels, hsame.root]

/-- A put leaves no empty level. -/
theorem HashTable.IsTrim.putItem (h : t.IsTrim) {item : Option α}
    (hput : ffHashTablePutItem t itemId item = .ok t') (h' : Represents t' is')
    (hmem : ∃ i ∈ is', i.id = itemId) : t'.IsTrim := by
  obtain ⟨hsame, arrays, leaf, passed, hrun, hwritten⟩ := ffHashTablePutItem_frame hput
  have hlevels := h'.levels
  rw [hsame.levels] at hlevels
  obtain ⟨htrim, hat⟩ := h.getOrCreateBucket hlevels hrun
  have hpath : (hashPath itemId (t.bucketLevels - 1)).length + 1 = t.bucketLevels := by
    rw [length_hashPath]
    omega
  have htrim' := htrim.leafWritten hpath hat.leaf hwritten
  have hslot := h'.slot_ne_none hmem
  rw [h'.hashPath_levels, hsame.levels, hsame.root] at hslot
  exact hsame.isTrim ⟨htrim'.trie, htrim'.filled.fill hslot, htrim'.reached⟩

/-- The walk back up leaves no empty level, if only the last one was. -/
theorem TrimBut.clearUnused {arrays arrays' : Heap Bucket} {leaf : Nat} {passed : List Nat}
    (h : TrimBut arrays t.buckets t.bucketLevels (hashPath itemId (t.bucketLevels - 1)))
    (hlevels : 2 ≤ t.bucketLevels) (hat : AtLeaf { t with arrays := arrays } itemId leaf passed)
    (hclear : clearUnusedLoop itemId t.buckets passed (t.bucketLevels - 2) arrays = .ok arrays') :
    TrimBut arrays' t.buckets t.bucketLevels [] := by
  have hstart : FilledBut (slotsOf arrays) t.buckets t.bucketLevels
      (hashPath itemId (t.bucketLevels - 2 + 1)) := by
    rw [show t.bucketLevels - 2 + 1 = t.bucketLevels - 1 by omega]
    exact h.filled
  -- Each cut empties at most the array above.
  have hcut : ∀ {arrays arrays₁ : Heap Bucket} {n : Nat}, n + 1 < t.bucketLevels →
      FilledBut (slotsOf arrays) t.buckets t.bucketLevels (hashPath itemId (n + 1)) ∧
        AllReached arrays t.buckets t.bucketLevels →
      CutOff arrays arrays₁ t.buckets t.bucketLevels (hashPath itemId (n + 1)) →
      FilledBut (slotsOf arrays₁) t.buckets t.bucketLevels (hashPath itemId n) ∧
        AllReached arrays₁ t.buckets t.bucketLevels := by
    rintro arrays arrays₁ n _ ⟨hfilled, hreached⟩ hcutOff
    refine ⟨?_, hreached.cutOff hcutOff⟩
    rw [hashPath_succ] at hfilled hcutOff
    exact hfilled.cut hcutOff.follow_eq
  have hlevel : t.bucketLevels - 2 + 1 < t.bucketLevels := by omega
  obtain ⟨arrays₁, n, hrun, htrie, ⟨hfilled, hreached⟩, hend⟩ :=
    clearUnusedLoop_spec (Q := fun n arrays ↦
      FilledBut (slotsOf arrays) t.buckets t.bucketLevels (hashPath itemId n) ∧
        AllReached arrays t.buckets t.bucketLevels)
      hcut h.trie hlevel (hat.exists_passed hlevels) ⟨hstart, h.reached⟩
  obtain rfl := Except.ok.inj (hclear.symm.trans hrun)
  rcases hend with rfl | ⟨k, hk⟩
  · exact ⟨htrie, hfilled, hreached⟩
  · exact ⟨htrie, hfilled.fill hk, hreached⟩

/-- A slot that was read is not null. -/
private theorem slot_ne_none_of_read {arrays : Heap Bucket} {a : Nat} {b : Bucket} {k : UInt8}
    (hread : readBucket arrays a = .ok b) (hslot : b k ≠ none) : slotsOf arrays a k ≠ none := by
  rw [readBucket] at hread
  split at hread
  · cases hread
  · next hb =>
    obtain rfl := Except.ok.inj hread
    rwa [slotsOf, hb]

/-- The removal of an id whose last array is there leaves no empty level. -/
theorem HashTable.IsTrim.removeItem (h : t.IsTrim) (hlevels : 2 ≤ t.bucketLevels)
    (hthere : follow (slotsOf t.arrays) t.buckets (hashPath itemId (t.bucketLevels - 1)) ≠ none)
    (hremove : ffHashTableRemoveItem t itemId = .ok t') : t'.IsTrim := by
  obtain ⟨hsame, arrays, bucket, hrun, hcases⟩ := ffHashTableRemoveItem_frame hremove
  obtain rfl := getOrCreateBucket_of_there h.trie hlevels hthere hrun
  apply hsame.isTrim
  rcases hcases with harrays | ⟨leaf, passed, arrays₁, b, rfl, hwritten, hread, hend⟩
  · rw [harrays]
    exact h
  · obtain ⟨htrim, hat⟩ := h.getOrCreateBucket hlevels hrun
    have hpath : (hashPath itemId (t.bucketLevels - 1)).length + 1 = t.bucketLevels := by
      rw [length_hashPath]
      omega
    have htrim₁ := htrim.leafWritten hpath hat.leaf hwritten
    have hat₁ : AtLeaf { t with arrays := arrays₁ } itemId leaf passed :=
      hat.withArrays hlevels fun q hq ↦ htrim.trie.follow_leafWritten hpath hat.leaf hwritten hq
    rcases hend with ⟨hslot, harrays⟩ | ⟨-, hclear⟩
    · have hused : follow (slotsOf arrays₁) t.buckets
          (hashPath itemId (t.bucketLevels - 1) ++ [t.leafHash itemId]) ≠ none := by
        rw [follow_concat, hat₁.leaf]
        exact slot_ne_none_of_read hread hslot
      rw [harrays]
      exact ⟨htrim₁.trie, htrim₁.filled.fill hused, htrim₁.reached⟩
    · exact htrim₁.clearUnused hlevels hat₁ hclear

/-- If another id is stored that differs in the last level at most, the last array is there. -/
theorem Represents.last_array_there (h : Represents t is) {i : Item α} (hi : i ∈ is)
    (hpath : hashPath i.id (t.bucketLevels - 1) = hashPath itemId (t.bucketLevels - 1)) :
    follow (slotsOf t.arrays) t.buckets (hashPath itemId (t.bucketLevels - 1)) ≠ none := by
  have hslot := h.slot_ne_none ⟨i, hi, rfl⟩
  rw [h.hashPath_levels] at hslot
  rw [← hpath]
  exact follow_ne_none_of_front (List.prefix_append _ _) hslot

/-- If no id is stored that differs in the last level at most, a removal leaves the array of the
last level empty. -/
theorem Represents.not_filled_of_alone (h : Represents t is)
    (halone : ∀ i ∈ is,
      hashPath i.id (t.bucketLevels - 1) ≠ hashPath itemId (t.bucketLevels - 1))
    (hremove : ffHashTableRemoveItem t itemId = .ok t') :
    ¬ FilledBut (slotsOf t'.arrays) t'.buckets t'.bucketLevels [] := by
  have habs : ∀ i ∈ is, i.id ≠ itemId := fun i hi he ↦ halone i hi (by rw [he])
  obtain ⟨arrays, leaf, passed, hremove₁, h₁, hat⟩ := h.remove_absent habs
  obtain rfl := Except.ok.inj (hremove.symm.trans hremove₁)
  have hlevels : 2 ≤ t.bucketLevels := h.levels
  -- No leaf slot of the array has a chain.
  have hempty : ∀ k, follow (slotsOf arrays) t.buckets
      (hashPath itemId (t.bucketLevels - 1) ++ [k]) = none := by
    intro k
    by_contra hslot
    have hlen : (hashPath itemId (t.bucketLevels - 1) ++ [k]).length = t.bucketLevels := by
      rw [List.length_append, length_hashPath, List.length_singleton]
      omega
    obtain ⟨i, hi, hpath⟩ := h₁.exists_item hlen hslot
    rw [h₁.hashPath_levels] at hpath
    exact halone i hi (List.append_inj' hpath rfl).1
  have hleaf : follow (slotsOf arrays) t.buckets (hashPath itemId (t.bucketLevels - 1)) =
    some leaf := hat.leaf
  intro hfilled
  have hne : hashPath itemId (t.bucketLevels - 1) ≠ [] := by
    rw [← List.length_pos_iff, length_hashPath]
    omega
  obtain ⟨k, hk⟩ := hfilled _ hne hne (by rw [length_hashPath]; exact Nat.sub_lt (by omega) one_pos)
    (by rw [hleaf]; exact Option.some_ne_none leaf)
  exact hk (hempty k)

end Operations

/-! ### Runs -/

section Runs

variable {t : HashTable α} {m : OrderedMap UInt64 α}

/-- An id has a value exactly if it is the id of an item. -/
theorem get_ne_none_iff {is : List (Item α)} (hm : m.entries = is.map Item.entry) (k : UInt64) :
    m.get k ≠ none ↔ ∃ i ∈ is, i.id = k := by
  rw [Option.ne_none_iff_exists']
  constructor
  · rintro ⟨v, hv⟩
    rw [m.get_eq_some_iff, hm] at hv
    obtain ⟨i, hi, he⟩ := List.mem_map.mp hv
    exact ⟨i, hi, congrArg Prod.fst he⟩
  · rintro ⟨i, hi, rfl⟩
    refine ⟨i.value, ?_⟩
    rw [m.get_eq_some_iff, hm]
    exact List.mem_map.mpr ⟨i, hi, rfl⟩

/-- An id is stored that differs from the given one in the last level at most. -/
def Accompanied (levels : Nat) (m : OrderedMap UInt64 α) (itemId : UInt64) : Prop :=
  ∃ k, m.get k ≠ none ∧ hashPath k (levels - 1) = hashPath itemId (levels - 1)

/-- In terms of the calls that were made. -/
theorem accompanied_mapOps_iff {levels : Nat} {ops : List (TableOp α)} {itemId : UInt64} :
    Accompanied levels (mapOps OrderedMap.empty ops).1 itemId ↔
      ∃ k, lastStored k none ops ≠ none ∧
        hashPath k (levels - 1) = hashPath itemId (levels - 1) := by
  have hget : ∀ k, (mapOps OrderedMap.empty ops).1.get k = lastStored k none ops :=
    get_mapOps OrderedMap.empty ops
  simp only [Accompanied, hget]

/-- One call. -/
theorem TableOp.run_isTrim (h : Refines t m) (htrim : t.IsTrim) {op : TableOp α}
    (hop : ∀ itemId, op = .remove itemId → Accompanied t.bucketLevels m itemId) :
    ∃ t', op.run t = .ok (t', (op.onMap m).2) ∧ Refines t' (op.onMap m).1 ∧ t'.IsTrim := by
  obtain ⟨t', hrun, hrefines⟩ := op.run_refines h
  refine ⟨t', hrun, hrefines, ?_⟩
  cases op with
  | put itemId value =>
    obtain ⟨t₁, hput, hend⟩ := bind_eq_ok hrun
    cases hend
    obtain ⟨is', h', hm'⟩ := hrefines
    refine htrim.putItem hput h' ((get_ne_none_iff hm' itemId).mp ?_)
    rw [TableOp.onMap, OrderedMap.get_put, if_pos rfl]
    exact Option.some_ne_none value
  | remove itemId =>
    obtain ⟨t₁, hremove, hend⟩ := bind_eq_ok hrun
    cases hend
    obtain ⟨is, hrep, hm⟩ := h
    obtain ⟨k, hk, hpath⟩ := hop itemId rfl
    obtain ⟨i, hi, rfl⟩ := (get_ne_none_iff hm k).mp hk
    exact htrim.removeItem hrep.levels (hrep.last_array_there hi hpath) hremove
  | get itemId =>
    obtain ⟨value, _, hend⟩ := bind_eq_ok hrun
    cases hend
    exact htrim

/-- Any number of calls. -/
theorem runOps_isTrim (h : Refines t m) (htrim : t.IsTrim) {ops : List (TableOp α)}
    (hops : ∀ front itemId back, ops = front ++ .remove itemId :: back →
      Accompanied t.bucketLevels (mapOps m front).1 itemId) :
    ∃ t', runOps t ops = .ok (t', (mapOps m ops).2) ∧ Refines t' (mapOps m ops).1 ∧ t'.IsTrim := by
  induction ops generalizing t m with
  | nil => exact ⟨t, rfl, h, htrim⟩
  | cons op ops ih =>
    have hfirst : ∀ itemId, op = .remove itemId → Accompanied t.bucketLevels m itemId :=
      fun itemId he ↦ hops [] itemId ops (by rw [he]; rfl)
    obtain ⟨t₁, hop, h₁, htrim₁⟩ := TableOp.run_isTrim h htrim hfirst
    have hrest : ∀ front itemId back, ops = front ++ .remove itemId :: back →
        Accompanied t₁.bucketLevels (mapOps (op.onMap m).1 front).1 itemId := by
      intro front itemId back he
      rw [(TableOp.run_sameRoot hop).levels]
      exact hops (op :: front) itemId back (by rw [he]; rfl)
    obtain ⟨t', hrun, h', htrim'⟩ := ih h₁ htrim₁ hrest
    refine ⟨t', ?_, h', htrim'⟩
    rw [runOps, bind_of_ok hop]
    exact bind_of_ok hrun _

/-- One more call. -/
theorem runOps_concat {ops : List (TableOp α)} {op : TableOp α} {t₁ t₂ : HashTable α}
    {values : List (Option α)} {value : Option α} (h : runOps t ops = .ok (t₁, values))
    (hop : op.run t₁ = .ok (t₂, value)) :
    runOps t (ops ++ [op]) = .ok (t₂, values ++ [value]) := by
  induction ops generalizing t values with
  | nil =>
    cases h
    exact bind_of_ok hop _
  | cons first ops ih =>
    obtain ⟨⟨t', value'⟩, hfirst, h⟩ := bind_eq_ok h
    obtain ⟨⟨t'', values'⟩, hrest, h⟩ := bind_eq_ok h
    cases h
    rw [List.cons_append, runOps, bind_of_ok hfirst]
    exact bind_of_ok (ih hrest) _

end Runs

/-! ### Memory -/

/-- The addresses of the arrays in memory. -/
def liveArrays (arrays : Heap Bucket) : List Nat :=
  (List.range arrays.next).filter fun a ↦ (arrays.read a).isSome

/-- The shape of a new table: the root is the only array, and it is empty. -/
structure InitialShape (t : HashTable α) : Prop where
  arrays : ∀ a, (t.arrays.read a).isSome ↔ a = t.buckets
  slots : ∀ k, slotsOf t.arrays t.buckets k = none
  list : t.linkedList = none ∧ t.linkedListLast = none
  length : t.length = 0

/-- No array below the root is empty, the arrays in memory are bounded by the items, and without
items the table is as it was at first. -/
structure Trimmed (t : HashTable α) (stored : List (UInt64 × α)) : Prop where
  filled : ∀ q a, q ≠ [] → q.length < t.bucketLevels →
    follow (slotsOf t.arrays) t.buckets q = some a → ∃ k, slotsOf t.arrays a k ≠ none
  bounded : (liveArrays t.arrays).length ≤ 1 + (t.bucketLevels - 1) * stored.length
  emptied : stored = [] → InitialShape t

section Memory

variable {t : HashTable α} {is : List (Item α)}

/-- Every path below the root is the front of the path of an item. -/
theorem HashTable.IsTrim.exists_item (h : t.IsTrim) (hrep : Represents t is) {q : List UInt8}
    (hq : q ≠ []) (hlen : q.length ≤ t.bucketLevels)
    (hfollow : follow (slotsOf t.arrays) t.buckets q ≠ none) :
    ∃ i ∈ is, hashPath i.id q.length = q := by
  obtain ⟨r, hr, hleaf⟩ := h.filled.exists_leaf hq hlen hfollow
  obtain ⟨i, hi, hpath⟩ := hrep.exists_item hr hleaf
  obtain ⟨rest, hrest⟩ := prefix_hashPath_of_le i.id hlen
  rw [← hrest] at hpath
  exact ⟨i, hi, (List.append_inj hpath (length_hashPath _ _)).1⟩

/-- The arrays on the path of an item. -/
def arraysOf (t : HashTable α) (i : Item α) : List Nat :=
  (List.range (t.bucketLevels - 1)).filterMap fun n ↦
    follow (slotsOf t.arrays) t.buckets (hashPath i.id (n + 1))

/-- Every array in memory but the root is on the path of an item. -/
theorem HashTable.IsTrim.mem_arrays (h : t.IsTrim) (hrep : Represents t is) {a : Nat}
    (ha : (t.arrays.read a).isSome) : a ∈ t.buckets :: is.flatMap (arraysOf t) := by
  obtain ⟨q, hq, hfollow⟩ := h.reached a ha
  by_cases hnil : q = []
  · subst hnil
    obtain rfl := Option.some.inj hfollow
    exact List.mem_cons_self
  · obtain ⟨i, hi, hpath⟩ := h.exists_item hrep hnil (Nat.le_of_lt hq)
      (by rw [hfollow]; exact Option.some_ne_none a)
    have hpos := List.length_pos_iff.mpr hnil
    refine List.mem_cons_of_mem _ (List.mem_flatMap.mpr ⟨i, hi, List.mem_filterMap.mpr
      ⟨q.length - 1, List.mem_range.mpr (by omega), ?_⟩⟩)
    rw [Nat.sub_add_cancel hpos, hpath, hfollow]

/-- There are no more arrays in memory than the items have levels. -/
theorem HashTable.IsTrim.length_liveArrays (h : t.IsTrim) (hrep : Represents t is) :
    (liveArrays t.arrays).length ≤ 1 + (t.bucketLevels - 1) * is.length := by
  have hsub : liveArrays t.arrays ⊆ t.buckets :: is.flatMap (arraysOf t) := fun a ha ↦
    h.mem_arrays hrep (List.mem_filter.mp ha).2
  have hnodup : (liveArrays t.arrays).Nodup := List.nodup_range.filter _
  have hle := (hnodup.subperm hsub).length_le
  have hparts : ∀ i, (arraysOf t i).length ≤ t.bucketLevels - 1 := fun i ↦
    (List.length_filterMap_le _ _).trans (Nat.le_of_eq List.length_range)
  have hflat := List.sum_le_card_nsmul (is.map fun i ↦ (arraysOf t i).length)
    (t.bucketLevels - 1) (List.forall_mem_map.mpr fun i _ ↦ hparts i)
  rw [← List.length_flatMap, List.length_map, smul_eq_mul, Nat.mul_comm] at hflat
  rw [List.length_cons] at hle
  omega

/-- Without items the root is the only array, and it is empty. -/
theorem HashTable.IsTrim.initialShape (h : t.IsTrim) (hrep : Represents t []) :
    InitialShape t where
  arrays a := by
    constructor
    · intro ha
      have hmem := h.mem_arrays hrep ha
      rw [List.flatMap_nil, List.mem_singleton] at hmem
      exact hmem
    · rintro rfl
      exact h.trie.live [] t.buckets (Nat.lt_of_lt_of_le Nat.zero_lt_two hrep.levels) rfl
  slots k := by
    by_contra hk
    have hlevels := hrep.levels
    obtain ⟨i, hi, _⟩ := h.exists_item hrep (q := [k]) (List.cons_ne_nil _ _)
      (show 1 ≤ t.bucketLevels by omega) hk
    cases hi
  list := ⟨hrep.list.first_eq, hrep.list.last_eq⟩
  length := hrep.length

theorem HashTable.IsTrim.trimmed (h : t.IsTrim) (hrep : Represents t is)
    {stored : List (UInt64 × α)} (hstored : stored = is.map Item.entry) : Trimmed t stored where
  filled q a hq hlen hfollow := by
    obtain ⟨k, hk⟩ := h.filled q hq hq hlen (by rw [hfollow]; exact Option.some_ne_none a)
    rw [follow_concat, hfollow] at hk
    exact ⟨k, hk⟩
  bounded := by
    rw [hstored, List.length_map]
    exact h.length_liveArrays hrep
  emptied hnone := by
    rw [hstored, List.map_eq_nil_iff] at hnone
    subst hnone
    exact h.initialShape hrep

/-- A trimmed table has no empty array below the root. -/
theorem Trimmed.filledBut {stored : List (UInt64 × α)} (h : Trimmed t stored) :
    FilledBut (slotsOf t.arrays) t.buckets t.bucketLevels [] := by
  intro q hq _ hlen hfollow
  obtain ⟨a, ha⟩ := Option.ne_none_iff_exists'.mp hfollow
  obtain ⟨k, hk⟩ := h.filled q a hq hlen ha
  refine ⟨k, ?_⟩
  rw [follow_concat, ha]
  exact hk

/-- A table is trimmed after a removal only if another id kept the last array of the id. -/
theorem Trimmed.accompanied {m : OrderedMap UInt64 α} {t' : HashTable α} {itemId : UInt64}
    {stored : List (UInt64 × α)} (htrim : Trimmed t' stored) (h : Refines t m)
    (hremove : ffHashTableRemoveItem t itemId = .ok t') :
    Accompanied t.bucketLevels m itemId := by
  obtain ⟨is, hrep, hm⟩ := h
  by_contra halone
  refine hrep.not_filled_of_alone (fun i hi hpath ↦ halone ⟨i.id, ?_, hpath⟩) hremove
    htrim.filledBut
  exact (get_ne_none_iff hm i.id).mpr ⟨i, hi, rfl⟩

/-- A new table is trim. -/
theorem isTrim_new {prefixBitLength : UInt8} (h : ffHashTableInit prefixBitLength = .ok t)
    (hlevels : 2 ≤ t.bucketLevels) : t.IsTrim := by
  rw [ffHashTableInit] at h
  split at h
  · cases h
  · obtain rfl := Except.ok.inj h
    refine ⟨trieInv_init _, fun q hq _ _ hfollow ↦ absurd (follow_init hq) hfollow, fun a ha ↦ ?_⟩
    rw [Heap.read_alloc] at ha
    split at ha
    · next hroot =>
      rw [hroot]
      exact ⟨[], Nat.lt_of_lt_of_le Nat.zero_lt_two hlevels, rfl⟩
    · cases ha

end Memory

/-! ### From the first call on -/

/-- After every call of a run from a new table, the table is trimmed. -/
def StaysTrimmed (prefixBitLength : UInt8) (ops : List (TableOp α)) : Prop :=
  ∃ t₀ : HashTable α, ffHashTableInit prefixBitLength = .ok t₀ ∧
    ∀ front, front <+: ops → ∃ t values, runOps t₀ front = .ok (t, values) ∧
      Trimmed t (mapOps OrderedMap.empty front).1.entries

/-- A run keeps a table of two or more levels trimmed exactly if, whenever an id is removed, an id
is stored that has the same hashes on all levels but the last. -/
theorem staysTrimmed_iff {prefixBitLength : UInt8} (hlevels : 2 ≤ prefixBitLength.toNat / 8)
    (ops : List (TableOp α)) :
    StaysTrimmed prefixBitLength ops ↔
      ∀ front itemId back, ops = front ++ .remove itemId :: back →
        ∃ k, lastStored k none front ≠ none ∧
          hashPath k (prefixBitLength.toNat / 8 - 1) =
            hashPath itemId (prefixBitLength.toNat / 8 - 1) := by
  obtain ⟨t₀, hinit, hrep⟩ := represents_new (α := α) hlevels
  have hempty : Refines t₀ OrderedMap.empty := ⟨[], hrep, rfl⟩
  have hsize := ffHashTableInit_levels hinit
  rw [← hsize]
  constructor
  · rintro ⟨t₁, hinit₁, htrimmed⟩ front itemId back rfl
    obtain rfl := Except.ok.inj (hinit.symm.trans hinit₁)
    obtain ⟨t, hrun, hrefines⟩ := runOps_refines hempty front
    obtain ⟨t', hremove, _⟩ := hrefines.removeItem itemId
    have hop : (TableOp.remove itemId).run t = .ok (t', none) := bind_of_ok hremove _
    obtain ⟨t₂, values, hrun₂, htrim⟩ :=
      htrimmed (front ++ [.remove itemId]) ⟨back, List.append_assoc _ _ _⟩
    cases (runOps_concat hrun hop).symm.trans hrun₂
    have hkept := htrim.accompanied hrefines hremove
    rw [(runOps_sameRoot hrun).levels] at hkept
    exact accompanied_mapOps_iff.mp hkept
  · intro hops
    refine ⟨t₀, hinit, fun front hprefix ↦ ?_⟩
    obtain ⟨rest, rfl⟩ := hprefix
    have hfront : ∀ earlier itemId back, front = earlier ++ .remove itemId :: back →
        Accompanied t₀.bucketLevels (mapOps OrderedMap.empty earlier).1 itemId := by
      rintro earlier itemId back rfl
      exact accompanied_mapOps_iff.mpr (hops earlier itemId (back ++ rest) (by simp))
    obtain ⟨t, hrun, ⟨is, h, hm⟩, htrim⟩ :=
      runOps_isTrim hempty (isTrim_new hinit hrep.levels) hfront
    exact ⟨t, _, hrun, htrim.trimmed h hm⟩

/-- Two ids that share their first byte, one of which is removed twice. -/
def sharedOps : List (TableOp Nat) :=
  [.put 0x101 10, .put 0x201 20, .remove 0x101, .remove 0x101, .remove 0x201]

theorem staysTrimmed_shared : 2 ≤ (16 : UInt8).toNat / 8 ∧ StaysTrimmed 16 sharedOps := by
  have hlevels : 2 ≤ (16 : UInt8).toNat / 8 := by decide
  refine ⟨hlevels, (staysTrimmed_iff hlevels sharedOps).mpr ?_⟩
  intro front itemId back hsplit
  rcases front with _ | ⟨_, _ | ⟨_, _ | ⟨_, _ | ⟨_, _ | ⟨_, front⟩⟩⟩⟩⟩ <;>
    simp [sharedOps] at hsplit
  · obtain ⟨rfl, rfl, rfl, rfl⟩ := hsplit
    exact ⟨0x101, by decide, rfl⟩
  · obtain ⟨rfl, rfl, rfl, rfl, rfl⟩ := hsplit
    exact ⟨0x201, by decide, by decide⟩
  · obtain ⟨rfl, rfl, rfl, rfl, rfl, rfl⟩ := hsplit
    exact ⟨0x201, by decide, rfl⟩

/-- The removal of an id from a new table leaves an empty array. -/
theorem not_staysTrimmed_remove : ¬ StaysTrimmed 16 ([.remove 0] : List (TableOp Nat)) := by
  rintro ⟨t₀, hinit, htrimmed⟩
  obtain ⟨t₁, hinit₁, hrep⟩ := represents_new (α := Nat) (show 2 ≤ (16 : UInt8).toNat / 8 by decide)
  obtain rfl := Except.ok.inj (hinit.symm.trans hinit₁)
  obtain ⟨t, values, hrun, htrim⟩ := htrimmed [.remove 0] (List.prefix_refl _)
  obtain ⟨⟨t', value⟩, hop, hend⟩ := bind_eq_ok hrun
  cases hend
  obtain ⟨t'', hremove, hend⟩ := bind_eq_ok hop
  cases hend
  exact hrep.not_filled_of_alone (fun i hi ↦ by cases hi) hremove htrim.filledBut

end FfProxy
