import FfProxy.HashTable.Model

/-!
# The trie of the hash table

What following the bytes of an id finds in the trie. Making the missing levels of an id and
cutting off unused levels change nothing in any leaf slot; storing a pointer in a leaf slot
changes that slot only.
-/

namespace FfProxy
open Base

/-- The pointers in memory. -/
def slotsOf (arrays : Heap Bucket) : Slots UInt8 := fun a k ↦ (arrays.read a).bind fun b ↦ b k

/-- The first bytes of an id. -/
def hashPath (itemId : UInt64) (n : Nat) : List UInt8 :=
  (List.range n).map (ffHashGetForLevel itemId)

theorem hashPath_succ (itemId : UInt64) (n : Nat) :
    hashPath itemId (n + 1) = hashPath itemId n ++ [ffHashGetForLevel itemId n] := by
  rw [hashPath, List.range_succ, List.map_append]
  rfl

@[simp] theorem length_hashPath (itemId : UInt64) (n : Nat) : (hashPath itemId n).length = n := by
  rw [hashPath, List.length_map, List.length_range]

/-- Different paths reach different arrays, and every array that is reached is live. -/
structure TrieInv (arrays : Heap Bucket) (root depth : Nat) : Prop where
  tree : IsTree (slotsOf arrays) root depth
  live : ∀ p a, p.length < depth → follow (slotsOf arrays) root p = some a →
    (arrays.read a).isSome

/-- The leaf slots of two tries agree. -/
def SameLeaves (arrays arrays' : Heap Bucket) (root depth : Nat) : Prop :=
  ∀ q, q.length = depth → follow (slotsOf arrays') root q = follow (slotsOf arrays) root q

/-! ### Memory -/

section Memory

variable {arrays : Heap Bucket} {a c : Nat}

/-- Storing a pointer in a live array. -/
theorem writeSlot_live (h : (arrays.read a).isSome) (k : UInt8) (pointer : Option Nat) :
    ∃ arrays', writeSlot arrays a k pointer = .ok arrays' ∧
      slotsOf arrays' = setSlot (slotsOf arrays) a k pointer ∧
      ∀ b, (arrays'.read b).isSome = (arrays.read b).isSome := by
  obtain ⟨bucket, hb⟩ := Option.isSome_iff_exists.mp h
  have hread : ∀ b, (arrays.write a fun j ↦ if j = k then pointer else bucket j).read b =
      if b = a then some fun j ↦ if j = k then pointer else bucket j else arrays.read b :=
    fun b ↦ Heap.read_write _ _ _ _ (Heap.lt_next_of_read hb)
  refine ⟨_, by rw [writeSlot, hb], ?_, fun b ↦ ?_⟩
  · funext b j
    rw [slotsOf, hread, setSlot]
    by_cases hba : b = a
    · simp only [hba, ↓reduceIte, Option.bind_some, true_and, slotsOf, hb]
    · simp only [hba, ↓reduceIte, false_and, slotsOf]
  · rw [hread]
    split
    · next hba => rw [hba, hb]; rfl
    · rfl

/-- A fresh array adds no pointers. -/
theorem slotsOf_alloc : slotsOf (arrays.alloc ffHashTableInitBucket) = slotsOf arrays := by
  funext b j
  rw [slotsOf, slotsOf, Heap.read_alloc]
  split
  · next hb => rw [hb, arrays.read_next]; rfl
  · rfl

/-- Releasing an array without pointers loses none. -/
theorem slotsOf_free (hc : ∀ j, slotsOf arrays c j = none) :
    slotsOf (arrays.free c) = slotsOf arrays := by
  funext b j
  rw [slotsOf, Heap.read_free]
  split
  · next hb => rw [hb, hc]; rfl
  · rfl

/-- The check of all slots. -/
theorem isUnused_iff (b : Bucket) : isUnused b = true ↔ ∀ k, b k = none := by
  rw [isUnused, List.all_eq_true]
  constructor
  · intro h k
    have := h k.toNat (List.mem_range.mpr k.toNat_lt)
    rw [UInt8.ofNat_toNat] at this
    exact Option.isNone_iff_eq_none.mp this
  · intro h i _
    rw [h]
    rfl

end Memory

/-! ### The first array -/

/-- Nothing is found in a trie of one fresh array. -/
theorem follow_init {q : List UInt8} (hq : q ≠ []) :
    follow (slotsOf (Heap.empty.alloc ffHashTableInitBucket)) 0 q = none := by
  rw [slotsOf_alloc]
  exact follow_of_empty (fun _ ↦ rfl) hq

/-- One fresh array is a trie. -/
theorem trieInv_init (depth : Nat) :
    TrieInv (Heap.empty.alloc ffHashTableInitBucket) 0 depth := by
  have hnil : ∀ {q a}, follow (slotsOf (Heap.empty.alloc ffHashTableInitBucket)) 0 q = some a →
      q = [] := by
    intro q a h
    by_contra hq
    rw [follow_init hq] at h
    cases h
  refine ⟨fun p q a _ _ hp hq ↦ (hnil hp).trans (hnil hq).symm, fun p a _ hp ↦ ?_⟩
  obtain rfl := hnil hp
  obtain rfl := Option.some.inj hp
  rfl

/-! ### Changing a slot -/

/-- A fresh array hangs at the end of a path that led nowhere. -/
structure Created (arrays arrays' : Heap Bucket) (root depth : Nat) (path : List UInt8) : Prop where
  missing : follow (slotsOf arrays) root path = none
  follow_eq : ∀ q, q.length ≤ depth → follow (slotsOf arrays') root q =
    if q = path then some arrays.next else follow (slotsOf arrays) root q
  live : ∀ b, (arrays'.read b).isSome → b = arrays.next ∨ (arrays.read b).isSome

/-- The array at the end of a path is cut off and released. -/
structure CutOff (arrays arrays' : Heap Bucket) (root depth : Nat) (path : List UInt8) : Prop where
  follow_eq : ∀ q, q.length ≤ depth → follow (slotsOf arrays') root q =
    if q = path then none else follow (slotsOf arrays) root q
  live : ∀ b, (arrays'.read b).isSome →
    follow (slotsOf arrays) root path ≠ some b ∧ (arrays.read b).isSome

namespace TrieInv

variable {arrays arrays' : Heap Bucket} {root depth a : Nat} {p : List UInt8} {k : UInt8}
  {pointer : Option Nat}

/-- The conditions under which a changed slot leaves a trie, and what is found in it. -/
private theorem of_setSlot (h : TrieInv arrays root depth)
    (hp : follow (slotsOf arrays) root p = some a) (hl : p.length < depth)
    (hslots : slotsOf arrays' = setSlot (slotsOf arrays) a k pointer)
    (hold : p.length + 1 < depth → ∀ c, slotsOf arrays a k = some c →
      ∀ j, slotsOf arrays c j = none)
    (hnew : p.length + 1 < depth → ∀ c, pointer = some c → (arrays'.read c).isSome ∧
      (∀ q, q.length < depth → follow (slotsOf arrays) root q ≠ some c) ∧
      ∀ j, slotsOf arrays c j = none)
    (hlive : ∀ q b, q.length < depth → q ≠ p ++ [k] → follow (slotsOf arrays) root q = some b →
      (arrays'.read b).isSome) :
    TrieInv arrays' root depth ∧ ∀ q, q.length ≤ depth →
      follow (slotsOf arrays') root q =
        if q = p ++ [k] then pointer else follow (slotsOf arrays) root q := by
  have hfollow : ∀ q, q.length ≤ depth → follow (slotsOf arrays') root q =
      if q = p ++ [k] then pointer else follow (slotsOf arrays) root q := by
    intro q hq
    rw [hslots]
    split
    · next he => rw [he, follow_setSlot_self h.tree hp hl]
    · next hne =>
      exact follow_setSlot_of_ne h.tree hp hl hold
        (fun hlt c hc ↦ ⟨fun hca ↦ (hnew hlt c hc).2.1 p hl (hca ▸ hp), (hnew hlt c hc).2.2⟩) hq hne
  refine ⟨⟨?_, fun q b hq hb ↦ ?_⟩, hfollow⟩
  · rw [hslots]
    exact h.tree.setSlot hp hl hold fun hlt c hc ↦ (hnew hlt c hc).2
  · rw [hfollow q (Nat.le_of_lt hq)] at hb
    split at hb
    · next he =>
      rw [he, List.length_append, List.length_singleton] at hq
      exact (hnew hq b hb).1
    · next hne => exact hlive q b hq hne hb

/-- Store a pointer in a leaf slot. -/
theorem setLeaf (h : TrieInv arrays root depth) (hp : follow (slotsOf arrays) root p = some a)
    (hl : p.length + 1 = depth) (pointer : Option Nat) :
    ∃ arrays', writeSlot arrays a k pointer = .ok arrays' ∧ TrieInv arrays' root depth ∧
      (∀ q, q.length ≤ depth → follow (slotsOf arrays') root q =
        if q = p ++ [k] then pointer else follow (slotsOf arrays) root q) ∧
      ∀ b, (arrays'.read b).isSome = (arrays.read b).isSome := by
  obtain ⟨arrays', hw, hslots, hsome⟩ :=
    writeSlot_live (h.live p a (by omega) hp) k pointer
  obtain ⟨h', hfollow⟩ := h.of_setSlot hp (by omega) hslots (fun hlt ↦ by omega)
    (fun hlt ↦ by omega) fun q b hq _ hb ↦ by rw [hsome]; exact h.live q b hq hb
  exact ⟨arrays', hw, h', hfollow, hsome⟩

/-- Hang a fresh array into a null slot. -/
theorem create (h : TrieInv arrays root depth) (hp : follow (slotsOf arrays) root p = some a)
    (hl : p.length + 1 < depth) (hnone : slotsOf arrays a k = none) :
    ∃ arrays', writeSlot (arrays.alloc ffHashTableInitBucket) a k (some arrays.next) = .ok arrays' ∧
      TrieInv arrays' root depth ∧ Created arrays arrays' root depth (p ++ [k]) := by
  have halloc : ∀ b, (arrays.read b).isSome →
      ((arrays.alloc ffHashTableInitBucket).read b).isSome := by
    intro b hb
    rw [Heap.read_alloc]
    split
    · rfl
    · exact hb
  have hfresh : ∀ q, q.length < depth → follow (slotsOf arrays) root q ≠ some arrays.next := by
    intro q hq hb
    have := h.live q _ hq hb
    rw [arrays.read_next] at this
    cases this
  obtain ⟨arrays', hw, hslots, hsome⟩ := writeSlot_live
    (halloc a (h.live p a (by omega) hp)) k (some arrays.next)
  rw [slotsOf_alloc] at hslots
  obtain ⟨h', hfollow⟩ := h.of_setSlot hp (by omega) hslots
    (fun _ c hc ↦ by rw [hnone] at hc; cases hc) (fun _ c hc ↦ by
      obtain rfl := Option.some.inj hc
      refine ⟨?_, hfresh, fun j ↦ ?_⟩
      · rw [hsome, Heap.read_alloc, if_pos rfl]
        rfl
      · rw [slotsOf, arrays.read_next]
        rfl)
    fun q b hq _ hb ↦ by rw [hsome]; exact halloc b (h.live q b hq hb)
  refine ⟨arrays', hw, h', ?_, hfollow, fun b hb ↦ ?_⟩
  · rw [follow_concat, hp]
    exact hnone
  · rw [hsome, Heap.read_alloc] at hb
    split at hb
    · next heq => exact .inl heq
    · exact .inr hb

/-- Cut off and release an array without pointers. -/
theorem cut (h : TrieInv arrays root depth) (hp : follow (slotsOf arrays) root p = some a)
    (hl : p.length + 1 < depth) {c : Nat} (hc : slotsOf arrays a k = some c)
    (hunused : ∀ j, slotsOf arrays c j = none) :
    ∃ arrays', writeSlot (arrays.free c) a k none = .ok arrays' ∧ TrieInv arrays' root depth ∧
      CutOff arrays arrays' root depth (p ++ [k]) := by
  have hpc : follow (slotsOf arrays) root (p ++ [k]) = some c := by
    rw [follow_concat, hp]
    exact hc
  -- No other path reaches the released array.
  have hkept : ∀ q b, q.length < depth → q ≠ p ++ [k] → follow (slotsOf arrays) root q = some b →
      ((arrays.free c).read b).isSome := by
    intro q b hq hne hb
    rw [Heap.read_free, if_neg]
    · exact h.live q b hq hb
    · rintro rfl
      exact hne (h.tree q _ b hq (by rw [List.length_append, List.length_singleton]; omega) hb hpc)
  have hpne : p ≠ p ++ [k] := fun he ↦ by
    have := congrArg List.length he
    rw [List.length_append, List.length_singleton] at this
    omega
  obtain ⟨arrays', hw, hslots, hsome⟩ :=
    writeSlot_live (hkept p a (by omega) hpne hp) k none
  rw [slotsOf_free hunused] at hslots
  obtain ⟨h', hfollow⟩ := h.of_setSlot hp (by omega) hslots
    (fun _ c' hc' ↦ by rw [← Option.some.inj (hc.symm.trans hc')]; exact hunused)
    (fun _ _ hn ↦ by cases hn) fun q b hq hne hb ↦ by rw [hsome]; exact hkept q b hq hne hb
  refine ⟨arrays', hw, h', hfollow, fun b hb ↦ ?_⟩
  rw [hsome, Heap.read_free] at hb
  split at hb
  · cases hb
  · next hbc =>
    rw [hpc]
    exact ⟨fun he ↦ hbc (Option.some.inj he).symm, hb⟩

end TrieInv

/-! ### Walking down and up -/

section Walks

variable {arrays : Heap Bucket} {root depth : Nat} {itemId : UInt64}

/-- Where the next byte of an id leads. -/
private theorem follow_hashPath_succ {level buckets : Nat}
    (hb : follow (slotsOf arrays) root (hashPath itemId level) = some buckets) :
    follow (slotsOf arrays) root (hashPath itemId (level + 1)) =
      slotsOf arrays buckets (ffHashGetForLevel itemId level) := by
  rw [hashPath_succ, follow_concat, hb]
  rfl

/-- Walking down without making levels ends at the last array of the id, or finds that the id
has no leaf slot. -/
theorem getOrCreateLoop_find (h : TrieInv arrays root depth) {remaining level buckets : Nat}
    (hlevel : level + remaining + 1 = depth)
    (hb : follow (slotsOf arrays) root (hashPath itemId level) = some buckets)
    (bucketsList : List Nat) :
    (getOrCreateLoop itemId false remaining level arrays buckets bucketsList = .ok (arrays, none) ∧
      follow (slotsOf arrays) root (hashPath itemId depth) = none) ∨
    ∃ leaf passed, getOrCreateLoop itemId false remaining level arrays buckets bucketsList =
        .ok (arrays, some (leaf, passed)) ∧
      follow (slotsOf arrays) root (hashPath itemId (level + remaining)) = some leaf := by
  induction remaining generalizing level buckets bucketsList with
  | zero => exact Or.inr ⟨buckets, bucketsList, rfl, hb⟩
  | succ remaining ih =>
    obtain ⟨b, hread⟩ := Option.isSome_iff_exists.mp (h.live _ _ (by simp; omega) hb)
    have hnext := follow_hashPath_succ hb
    rw [slotsOf, hread, Option.bind_some] at hnext
    rw [getOrCreateLoop, hread]
    dsimp only
    cases hslot : b (ffHashGetForLevel itemId level) with
    | none =>
      refine Or.inl ⟨rfl, ?_⟩
      -- Nothing is found behind a null slot.
      have hsplit : hashPath itemId depth = hashPath itemId (level + 1) ++
          (hashPath itemId depth).drop (level + 1) := by
        conv_lhs => rw [← List.take_append_drop (level + 1) (hashPath itemId depth)]
        congr 1
        rw [hashPath, ← List.map_take, List.take_range, Nat.min_eq_left (by omega)]
        rfl
      rw [hsplit, follow_append, hnext, hslot]
      rfl
    | some child =>
      rw [hslot] at hnext
      have hlevel' : level + 1 + remaining + 1 = depth := by omega
      have := ih hlevel' hnext (bucketsList ++ [child])
      rwa [show level + 1 + remaining = level + (remaining + 1) by omega] at this

/-- The outcome of walking down and making the missing levels: a trie with the same leaf slots
in which every array of the id is there. -/
structure WalkedDown (arrays arrays' : Heap Bucket) (root depth : Nat) (itemId : UInt64)
    (level : Nat) (passed : List Nat) : Prop where
  trie : TrieInv arrays' root depth
  grown : ∀ q b, q.length ≤ depth → follow (slotsOf arrays) root q = some b →
    follow (slotsOf arrays') root q = some b
  leaves : SameLeaves arrays arrays' root depth
  passed : ∀ i c, passed[i]? = some c →
    follow (slotsOf arrays') root (hashPath itemId (level + i + 1)) = some c

/-- One level and then the others. -/
private theorem WalkedDown.cons {arrays₁ arrays' : Heap Bucket} {level child : Nat}
    {passed : List Nat} (h : WalkedDown arrays arrays₁ root depth itemId level [child])
    (hrest : WalkedDown arrays₁ arrays' root depth itemId (level + 1) passed)
    (hlevel : level + 1 ≤ depth) :
    WalkedDown arrays arrays' root depth itemId level (child :: passed) where
  trie := hrest.trie
  grown q b hq hqb := hrest.grown q b hq (h.grown q b hq hqb)
  leaves q hq := (hrest.leaves q hq).trans (h.leaves q hq)
  passed n c hn := by
    cases n with
    | zero =>
      obtain rfl := Option.some.inj hn
      exact hrest.grown _ _ (by simp; omega) (h.passed 0 child rfl)
    | succ n =>
      have := hrest.passed n c hn
      rwa [show level + 1 + n + 1 = level + (n + 1) + 1 by omega] at this

/-- Walking down one level, which is made if it is missing. -/
private theorem getOrCreateLoop_level (h : TrieInv arrays root depth)
    {remaining level buckets : Nat}
    (hlevel : level + (remaining + 1) + 1 = depth)
    (hb : follow (slotsOf arrays) root (hashPath itemId level) = some buckets)
    (bucketsList : List Nat) :
    ∃ arrays₁ child,
      getOrCreateLoop itemId true (remaining + 1) level arrays buckets bucketsList =
        getOrCreateLoop itemId true remaining (level + 1) arrays₁ child (bucketsList ++ [child]) ∧
      follow (slotsOf arrays₁) root (hashPath itemId (level + 1)) = some child ∧
      WalkedDown arrays arrays₁ root depth itemId level [child] ∧
      (arrays₁ = arrays ∨ Created arrays arrays₁ root depth (hashPath itemId (level + 1))) := by
  obtain ⟨b, hread⟩ := Option.isSome_iff_exists.mp (h.live _ _ (by simp; omega) hb)
  have hnext := follow_hashPath_succ hb
  have hslots : slotsOf arrays buckets (ffHashGetForLevel itemId level) =
      b (ffHashGetForLevel itemId level) := by rw [slotsOf, hread]; rfl
  -- The array of the level is the only one passed.
  have honly : ∀ {arrays₁ : Heap Bucket} {child : Nat},
      follow (slotsOf arrays₁) root (hashPath itemId (level + 1)) = some child →
      ∀ n c, [child][n]? = some c →
        follow (slotsOf arrays₁) root (hashPath itemId (level + n + 1)) = some c := by
    intro arrays₁ child hchild n c hn
    obtain ⟨rfl, rfl⟩ : n = 0 ∧ child = c := by simpa [List.getElem?_singleton] using hn
    exact hchild
  cases hslot : b (ffHashGetForLevel itemId level) with
  | some child =>
    have hchild : follow (slotsOf arrays) root (hashPath itemId (level + 1)) = some child := by
      rw [hnext, hslots, hslot]
    refine ⟨arrays, child, ?_, hchild, ⟨h, fun _ _ _ ↦ id, fun _ _ ↦ rfl, honly hchild⟩, .inl rfl⟩
    rw [getOrCreateLoop, hread]
    simp only [hslot]
  | none =>
    obtain ⟨arrays₁, hw, h₁, hcreated⟩ := h.create hb (by simp; omega) (hslots.trans hslot)
    rw [← hashPath_succ] at hcreated
    have hfollow := hcreated.follow_eq
    have hchild : follow (slotsOf arrays₁) root (hashPath itemId (level + 1)) =
        some arrays.next := by
      rw [hfollow _ (by simp; omega), if_pos rfl]
    refine ⟨arrays₁, arrays.next, ?_, hchild,
      ⟨h₁, fun q b hq hqb ↦ ?_, fun q hq ↦ ?_, honly hchild⟩, .inr hcreated⟩
    · rw [getOrCreateLoop, hread]
      simp only [hslot, ↓reduceIte, hw]
    · rw [hfollow q hq, if_neg, hqb]
      rintro rfl
      rw [hnext, hslots, hslot] at hqb
      cases hqb
    · rw [hfollow q (Nat.le_of_eq hq), if_neg]
      rintro rfl
      rw [length_hashPath] at hq
      omega

/-- Walking down and making the missing levels. -/
theorem getOrCreateLoop_create (h : TrieInv arrays root depth) {remaining level buckets : Nat}
    (hlevel : level + remaining + 1 = depth)
    (hb : follow (slotsOf arrays) root (hashPath itemId level) = some buckets)
    (bucketsList : List Nat) :
    ∃ arrays' leaf passed,
      getOrCreateLoop itemId true remaining level arrays buckets bucketsList =
        .ok (arrays', some (leaf, bucketsList ++ passed)) ∧
      passed.length = remaining ∧
      follow (slotsOf arrays') root (hashPath itemId (level + remaining)) = some leaf ∧
      WalkedDown arrays arrays' root depth itemId level passed := by
  induction remaining generalizing arrays level buckets bucketsList with
  | zero =>
    exact ⟨arrays, buckets, [], by simp [getOrCreateLoop], rfl, hb, h, fun _ _ _ ↦ id,
      fun _ _ ↦ rfl, by simp⟩
  | succ remaining ih =>
    obtain ⟨arrays₁, child, hrun, hchild, hwalk₁, _⟩ :=
      getOrCreateLoop_level h hlevel hb bucketsList
    have hlevel' : level + 1 + remaining + 1 = depth := by omega
    obtain ⟨arrays', leaf, passed, hrest, hlen, hleaf, hwalk⟩ :=
      ih hwalk₁.trie hlevel' hchild (bucketsList ++ [child])
    refine ⟨arrays', leaf, child :: passed, ?_, by rw [List.length_cons, hlen], ?_,
      hwalk₁.cons hwalk (by omega)⟩
    · rw [hrun, hrest, List.append_assoc, List.singleton_append]
    · rwa [show level + 1 + remaining = level + (remaining + 1) by omega] at hleaf

/-- A property that every new level keeps is kept by walking down. -/
theorem getOrCreateLoop_preserves {Q : Heap Bucket → Prop}
    (hcreate : ∀ {arrays arrays₁ : Heap Bucket} {n : Nat}, n < depth → Q arrays →
      Created arrays arrays₁ root depth (hashPath itemId n) → Q arrays₁)
    (h : TrieInv arrays root depth) {remaining level buckets : Nat}
    (hlevel : level + remaining + 1 = depth)
    (hb : follow (slotsOf arrays) root (hashPath itemId level) = some buckets)
    {bucketsList : List Nat} {arrays' : Heap Bucket} {bucket : Option (Nat × List Nat)}
    (hQ : Q arrays) (hrun : getOrCreateLoop itemId true remaining level arrays buckets bucketsList =
      .ok (arrays', bucket)) : Q arrays' := by
  induction remaining generalizing arrays level buckets bucketsList with
  | zero =>
    cases hrun
    exact hQ
  | succ remaining ih =>
    obtain ⟨arrays₁, child, hstep, hchild, hwalk, hsame⟩ :=
      getOrCreateLoop_level h hlevel hb bucketsList
    rw [hstep] at hrun
    refine ih hwalk.trie (by omega) hchild ?_ hrun
    rcases hsame with rfl | hcreated
    · exact hQ
    · exact hcreate (by omega) hQ hcreated

/-- Cutting off an array above the last level changes no leaf slot. -/
theorem CutOff.leaves {arrays' : Heap Bucket} {path : List UInt8}
    (h : CutOff arrays arrays' root depth path) (hpath : path.length < depth) :
    SameLeaves arrays arrays' root depth := by
  intro q hq
  rw [h.follow_eq q (Nat.le_of_eq hq), if_neg]
  rintro rfl
  omega

/-- Cutting off the array of a level. -/
private theorem cut_level (h : TrieInv arrays root depth) {level a c : Nat}
    (hlevel : level + 1 < depth)
    (ha : follow (slotsOf arrays) root (hashPath itemId level) = some a)
    (hc : follow (slotsOf arrays) root (hashPath itemId (level + 1)) = some c)
    (hunused : ∀ j, slotsOf arrays c j = none) :
    ∃ arrays', writeSlot (arrays.free c) a (ffHashGetForLevel itemId level) none = .ok arrays' ∧
      TrieInv arrays' root depth ∧
      CutOff arrays arrays' root depth (hashPath itemId (level + 1)) := by
  rw [follow_hashPath_succ ha] at hc
  rw [hashPath_succ]
  exact h.cut ha (by simp; omega) hc hunused

/-- An array that is reached can be read, and is unused exactly if it has no pointers. -/
private theorem read_reached (h : TrieInv arrays root depth) {q : List UInt8} {c : Nat}
    (hq : q.length < depth) (hc : follow (slotsOf arrays) root q = some c) :
    ∃ b, readBucket arrays c = .ok b ∧
      (isUnused b = true ↔ ∀ j, slotsOf arrays c j = none) := by
  obtain ⟨b, hread⟩ := Option.isSome_iff_exists.mp (h.live q c hq hc)
  refine ⟨b, by rw [readBucket, hread], ?_⟩
  rw [isUnused_iff]
  simp only [slotsOf, hread, Option.bind_some]

/-- Walking back up cuts off the arrays of the path of an id one by one, and stops at the root or at
an array that has a pointer. A property that holds along the way holds where the walk stops. -/
theorem clearUnusedLoop_spec {Q : Nat → Heap Bucket → Prop}
    (hcut : ∀ {arrays arrays₁ : Heap Bucket} {n : Nat}, n + 1 < depth → Q (n + 1) arrays →
      CutOff arrays arrays₁ root depth (hashPath itemId (n + 1)) → Q n arrays₁)
    (h : TrieInv arrays root depth) {level : Nat} (hlevel : level + 1 < depth)
    {bucketList : List Nat}
    (hlist : ∀ i ≤ level, ∃ c, bucketList[i]? = some c ∧
      follow (slotsOf arrays) root (hashPath itemId (i + 1)) = some c)
    (hQ : Q (level + 1) arrays) :
    ∃ arrays' n, clearUnusedLoop itemId root bucketList level arrays = .ok arrays' ∧
      TrieInv arrays' root depth ∧ Q n arrays' ∧
      (n = 0 ∨ ∃ k, follow (slotsOf arrays') root (hashPath itemId n ++ [k]) ≠ none) := by
  -- An array that is not unused has a pointer, and the walk stops.
  have hstop : ∀ {arrays : Heap Bucket} {level c : Nat},
      follow (slotsOf arrays) root (hashPath itemId (level + 1)) = some c →
      ¬ (∀ j, slotsOf arrays c j = none) →
      ∃ k, follow (slotsOf arrays) root (hashPath itemId (level + 1) ++ [k]) ≠ none := by
    intro arrays level c hc hused
    obtain ⟨k, hk⟩ := not_forall.mp hused
    exact ⟨k, by rw [follow_concat, hc]; exact hk⟩
  induction level generalizing arrays with
  | zero =>
    obtain ⟨c, hc, hfollow⟩ := hlist 0 (Nat.le_refl 0)
    obtain ⟨b, hb, hunused⟩ := read_reached h (by simp; omega) hfollow
    rw [clearUnusedLoop]
    simp only [hc, hb, bind, Except.bind]
    split
    · next hu =>
      obtain ⟨arrays', hw, h', hcutOff⟩ := cut_level h hlevel rfl hfollow (hunused.mp hu)
      exact ⟨arrays', 0, hw, h', hcut hlevel hQ hcutOff, .inl rfl⟩
    · next hu => exact ⟨arrays, 1, rfl, h, hQ, .inr (hstop hfollow (mt hunused.mpr hu))⟩
  | succ level ih =>
    obtain ⟨c, hc, hfollow⟩ := hlist (level + 1) (Nat.le_refl _)
    obtain ⟨a, ha, hparent⟩ := hlist level (Nat.le_succ level)
    obtain ⟨b, hb, hunused⟩ := read_reached h (by simp; omega) hfollow
    rw [clearUnusedLoop]
    simp only [hc, hb, bind, Except.bind]
    split
    · next hu =>
      obtain ⟨arrays₁, hw, h₁, hcutOff⟩ := cut_level h hlevel hparent hfollow (hunused.mp hu)
      -- The arrays of the levels above are where they were.
      have habove : ∀ i ≤ level, ∃ c, bucketList[i]? = some c ∧
          follow (slotsOf arrays₁) root (hashPath itemId (i + 1)) = some c := by
        intro i hi
        obtain ⟨c', hc', hf⟩ := hlist i (by omega)
        refine ⟨c', hc', ?_⟩
        rw [hcutOff.follow_eq _ (by simp; omega), if_neg, hf]
        intro he
        have := congrArg List.length he
        rw [length_hashPath, length_hashPath] at this
        omega
      obtain ⟨arrays', n, hrest, h', hn, hend⟩ :=
        ih h₁ (by omega) habove (hcut hlevel hQ hcutOff)
      refine ⟨arrays', n, ?_, h', hn, hend⟩
      simp only [ha, hw, hrest]
    · next hu => exact ⟨arrays, _, rfl, h, hQ, .inr (hstop hfollow (mt hunused.mpr hu))⟩

/-- Walking back up changes no leaf slot. -/
theorem clearUnusedLoop_leaves (h : TrieInv arrays root depth) {level : Nat}
    (hlevel : level + 1 < depth) {bucketList : List Nat}
    (hlist : ∀ i ≤ level, ∃ c, bucketList[i]? = some c ∧
      follow (slotsOf arrays) root (hashPath itemId (i + 1)) = some c) :
    ∃ arrays', clearUnusedLoop itemId root bucketList level arrays = .ok arrays' ∧
      TrieInv arrays' root depth ∧ SameLeaves arrays arrays' root depth := by
  obtain ⟨arrays', n, hrun, h', hleaves, _⟩ := clearUnusedLoop_spec
    (Q := fun _ arrays' ↦ SameLeaves arrays arrays' root depth)
    (fun hn hsame hcutOff q hq ↦ (hcutOff.leaves (by simp; omega) q hq).trans (hsame q hq)) h hlevel
    hlist fun _ _ ↦ rfl
  exact ⟨arrays', hrun, h', hleaves⟩

end Walks

end FfProxy
