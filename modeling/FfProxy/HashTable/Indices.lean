import FfProxy.HashTable.Frame

/-!
# The levels and indices of the hash table

`src/hash_table.c:42–78,80–264` once more, with the arithmetic of its levels: the number of levels
is a quotient that may be 0 or 1, a level is an `int` where it is computed and a `uint8_t` where it
is counted, and a level outside of the table is a shift or an index that C leaves undefined. Where
the levels of a table are between two and eight, all of them are inside and the operations are
those of `FfProxy.HashTable.Model`.
-/

namespace FfProxy
open Base

variable {α : Type}

/-! ### Checked operations -/

/-- `FF_HASH_GET_FOR_LEVEL`, `src/hash_table.c:14`, for a level of the table. The two amounts by
which it shifts 64 bits have to be less than 64. -/
def hashForLevel (levels : Nat) (itemId : UInt64) (level : Int) : Except Fault UInt8 :=
  if (0 ≤ level ∧ level < levels) ∧ (0 ≤ 64 - 8 * (level + 1) ∧ 64 - 8 * (level + 1) ≤ 63) ∧
      (0 ≤ 8 * level ∧ 8 * level ≤ 63) then
    .ok (ffHashGetForLevel itemId level.toNat)
  else .error .outOfBounds

/-- An entry of `bucket_list`, which has room for as many as there are levels. An entry that was
not written is null. -/
def bucketListEntry (levels : Nat) (bucketList : List Nat) (n : Nat) : Except Fault Nat :=
  if n < levels then
    match bucketList[n]? with
    | none => .error .nullDereference
    | some a => .ok a
  else .error .outOfBounds

/-- Whether an array can be written to `buckets_list`, `src/hash_table.c:68–71`, if there is one. -/
def checkListed (levels : Nat) (listed : Bool) (level : Nat) : Except Fault Unit :=
  if listed ∧ levels ≤ level then .error .outOfBounds else .ok ()

/-- The loop of `ff_hash_table_get_or_create_bucket`, `src/hash_table.c:51–72`. -/
def checkedLoop (levels : Nat) (itemId : UInt64) (shouldCreate listed : Bool) :
    Nat → Nat → Heap Bucket → Nat → List Nat →
    Except Fault (Heap Bucket × Option (Nat × List Nat))
  | 0, _, arrays, buckets, bucketsList => .ok (arrays, some (buckets, bucketsList))
  | remaining + 1, level, arrays, buckets, bucketsList => do
    let hash ← hashForLevel levels itemId level
    let b ← readBucket arrays buckets
    match b hash with
    | some child =>
      checkListed levels listed level
      checkedLoop levels itemId shouldCreate listed remaining (level + 1) arrays child
        (bucketsList ++ [child])
    | none =>
      if shouldCreate then
        let child := arrays.next
        let arrays ← writeSlot (arrays.alloc ffHashTableInitBucket) buckets hash (some child)
        checkListed levels listed level
        checkedLoop levels itemId shouldCreate listed remaining (level + 1) arrays child
          (bucketsList ++ [child])
      else return (arrays, none)

/-- `ff_hash_table_get_or_create_bucket`, `src/hash_table.c:42–78`: the arrays, and the array and
the index of the slot with the list of arrays passed. -/
def checkedBucket (t : HashTable α) (itemId : UInt64) (shouldCreate listed : Bool) :
    Except Fault (Heap Bucket × Option (Nat × UInt8 × List Nat)) := do
  let (arrays, found) ←
    checkedLoop t.bucketLevels itemId shouldCreate listed (t.bucketLevels - 1) 0 t.arrays t.buckets
      []
  match found with
  | none => return (arrays, none)
  | some (leaf, bucketsList) =>
    let hash ← hashForLevel t.bucketLevels itemId (t.bucketLevels - 1 : Int)
    return (arrays, some (leaf, hash, bucketsList))

/-- `ff_hash_table_get_item`, `src/hash_table.c:80–107`. -/
def checkedGet (t : HashTable α) (itemId : UInt64) : Except Fault (Option α) := do
  let (arrays, bucket) ← checkedBucket t itemId false false
  match bucket with
  | none => return none
  | some (leaf, hash, _) =>
    let b ← readBucket arrays leaf
    getItemLoop t.nodes itemId t.nodes.next (b hash)

/-- `ff_hash_table_put_item`, `src/hash_table.c:109–163`. -/
def checkedPut (t : HashTable α) (itemId : UInt64) (item : Option α) :
    Except Fault (HashTable α) := do
  let (arrays, bucket) ← checkedBucket t itemId true false
  match bucket with
  | none => .error .nullDereference
  | some (leaf, hash, _) =>
    let b ← readBucket arrays leaf
    let (found, lastNode) ← findNodeLoop t.nodes itemId t.nodes.next (b hash) none
    match found with
    | some a =>
      let nodes ← modifyNode t.nodes a fun n ↦ { n with value := item }
      return { t with arrays := arrays, nodes := nodes }
    | none =>
      let newNode := t.nodes.next
      let nodes := t.nodes.alloc ⟨itemId, item, none, none, none⟩
      let t ← appendToChain { t with arrays := arrays, nodes := nodes } leaf hash lastNode newNode
      appendToList t newNode

/-- The walk back up the trie, `src/hash_table.c:228–258`, from the given level on. -/
def checkedClear (levels : Nat) (itemId : UInt64) (root : Nat) (bucketList : List Nat) :
    Nat → Heap Bucket → Except Fault (Heap Bucket)
  | level, arrays => do
    let bucketLevel ← bucketListEntry levels bucketList level
    let hash ← hashForLevel levels itemId level
    let b ← readBucket arrays bucketLevel
    if isUnused b then
      let arrays := arrays.free bucketLevel
      match level with
      | 0 => writeSlot arrays root hash none
      | level + 1 =>
        let parent ← bucketListEntry levels bucketList level
        let arrays ← writeSlot arrays parent hash none
        checkedClear levels itemId root bucketList level arrays
    else return arrays

/-- The level at which the walk back up starts, `src/hash_table.c:228`, as a `uint8_t`. -/
def clearStart (levels : Nat) : UInt8 := UInt8.ofInt (levels - 2)

/-- `ff_hash_table_remove_item`, `src/hash_table.c:165–264`. -/
def checkedRemove (t : HashTable α) (itemId : UInt64) : Except Fault (HashTable α) := do
  let (arrays, bucket) ← checkedBucket t itemId true true
  match bucket with
  | none => return { t with arrays := arrays }
  | some (leaf, hash, bucketList) =>
    let b ← readBucket arrays leaf
    if b hash = none then return { t with arrays := arrays }
    let (found, prevNode) ← findNodeLoop t.nodes itemId t.nodes.next (b hash) none
    let t ← match found with
      | none => pure { t with arrays := arrays }
      | some node => do
        let t ← unlinkFromChain { t with arrays := arrays } leaf hash prevNode node
        unlinkFromList t node
    let b ← readBucket t.arrays leaf
    if b hash = none then
      let arrays ← checkedClear t.bucketLevels itemId t.buckets bucketList
        (clearStart t.bucketLevels).toNat t.arrays
      return { t with arrays := arrays }
    else return t

/-- A checked call on a table, with what it returns. -/
def TableOp.runChecked (t : HashTable α) : TableOp α → Except Fault (HashTable α × Option α)
  | put itemId value => do
    let t ← checkedPut t itemId (some value)
    return (t, none)
  | remove itemId => do
    let t ← checkedRemove t itemId
    return (t, none)
  | get itemId => do
    let value ← checkedGet t itemId
    return (t, value)

/-- Checked calls one after the other. -/
def runOpsChecked (t : HashTable α) :
    List (TableOp α) → Except Fault (HashTable α × List (Option α))
  | [] => .ok (t, [])
  | op :: ops => do
    let (t, value) ← op.runChecked t
    let (t, values) ← runOpsChecked t ops
    return (t, value :: values)

/-- In every run from a new table all levels and indices are inside, and no access is to memory
that is not there. -/
def IndicesInside (α : Type) (prefixBitLength : UInt8) : Prop :=
  ∃ t₀ : HashTable α, ffHashTableInit prefixBitLength = .ok t₀ ∧
    ∀ ops, ∃ outcome, runOpsChecked t₀ ops = .ok outcome

/-! ### Two to eight levels -/

section Levels

variable {t : HashTable α} {levels level : Nat} {itemId : UInt64}

theorem hashForLevel_of_lt (hlevel : level < levels) (hlevels : levels ≤ 8) :
    hashForLevel levels itemId level = .ok (ffHashGetForLevel itemId level) := by
  rw [hashForLevel, if_pos (by omega), Int.toNat_natCast]

theorem bucketListEntry_of_lt {bucketList : List Nat} {n : Nat} (hn : n < bucketList.length)
    (hlength : bucketList.length ≤ levels) :
    bucketListEntry levels bucketList n = .ok bucketList[n] := by
  rw [bucketListEntry, if_pos (by omega), List.getElem?_eq_getElem hn]

/-- The walk down passes levels of the table. -/
theorem checkedLoop_eq (hlevels : levels ≤ 8) (shouldCreate listed : Bool) {remaining : Nat}
    (hremaining : level + remaining < levels) (arrays : Heap Bucket) (buckets : Nat)
    (bucketsList : List Nat) :
    checkedLoop levels itemId shouldCreate listed remaining level arrays buckets bucketsList =
      getOrCreateLoop itemId shouldCreate remaining level arrays buckets bucketsList := by
  induction remaining generalizing level arrays buckets bucketsList with
  | zero => rfl
  | succ remaining ih =>
    have hlisted : checkListed levels listed level = .ok () := if_neg (by omega)
    have hlevel : level + 1 + remaining < levels := by omega
    rw [checkedLoop, getOrCreateLoop, bind_of_ok (hashForLevel_of_lt (by omega) hlevels),
      readBucket]
    cases arrays.read buckets with
    | none => rfl
    | some b =>
      dsimp only
      rw [bind_of_ok rfl]
      cases b (ffHashGetForLevel itemId level) with
      | some child =>
        dsimp only
        rw [bind_of_ok hlisted, ih hlevel]
      | none =>
        dsimp only
        cases shouldCreate with
        | false => rfl
        | true =>
          rw [if_pos rfl, if_pos rfl]
          cases writeSlot (arrays.alloc ffHashTableInitBucket) buckets
              (ffHashGetForLevel itemId level) (some arrays.next) with
          | error fault => rfl
          | ok arrays' =>
            rw [bind_of_ok rfl, bind_of_ok hlisted, ih hlevel]

/-- The list of arrays passed has an entry for every level that was walked down. -/
theorem length_getOrCreateLoop {shouldCreate : Bool} {remaining leaf buckets : Nat}
    {arrays arrays' : Heap Bucket} {bucketsList passed : List Nat}
    (h : getOrCreateLoop itemId shouldCreate remaining level arrays buckets bucketsList =
      .ok (arrays', some (leaf, passed))) :
    passed.length = bucketsList.length + remaining := by
  induction remaining generalizing level arrays buckets bucketsList with
  | zero =>
    cases h
    rfl
  | succ remaining ih =>
    have hnext : ∀ child : Nat, passed.length = (bucketsList ++ [child]).length + remaining →
        passed.length = bucketsList.length + (remaining + 1) := by
      intro child hlength
      rw [hlength, List.length_append, List.length_singleton]
      omega
    rw [getOrCreateLoop] at h
    split at h
    · cases h
    · split at h
      · exact hnext _ (ih h)
      · split at h
        · dsimp only at h
          split at h
          · cases h
          · exact hnext _ (ih h)
        · cases h

/-- The slot is found at a level of the table. -/
theorem checkedBucket_eq (hpos : 0 < t.bucketLevels) (hlevels : t.bucketLevels ≤ 8)
    (shouldCreate listed : Bool) :
    checkedBucket t itemId shouldCreate listed =
      (fun found ↦ (found.1, found.2.map fun slot ↦ (slot.1, t.leafHash itemId, slot.2))) <$>
        ffHashTableGetOrCreateBucket t itemId shouldCreate := by
  have hlast : ((t.bucketLevels : Int) - 1) = ((t.bucketLevels - 1 : Nat) : Int) := by omega
  rw [checkedBucket, checkedLoop_eq hlevels _ _ (by omega), hlast,
    hashForLevel_of_lt (by omega) hlevels, map_eq_pure_bind]
  apply bind_congr_ok
  rintro ⟨arrays, _ | slot⟩ _
  · rfl
  · rfl

theorem checkedGet_eq (hpos : 0 < t.bucketLevels) (hlevels : t.bucketLevels ≤ 8) :
    checkedGet t itemId = ffHashTableGetItem t itemId := by
  rw [checkedGet, checkedBucket_eq hpos hlevels, bind_map_left]
  apply bind_congr_ok
  rintro ⟨arrays, _ | slot⟩ _
  · rfl
  · rfl

theorem checkedPut_eq (hpos : 0 < t.bucketLevels) (hlevels : t.bucketLevels ≤ 8)
    (item : Option α) : checkedPut t itemId item = ffHashTablePutItem t itemId item := by
  rw [checkedPut, checkedBucket_eq hpos hlevels, bind_map_left]
  apply bind_congr_ok
  rintro ⟨arrays, _ | slot⟩ _
  · rfl
  · rfl

/-- The walk back up stays in the list of arrays passed. -/
theorem checkedClear_eq {bucketList : List Nat} (hlength : bucketList.length < levels)
    (hlevels : levels ≤ 8) (root : Nat) (hlevel : level < bucketList.length)
    (arrays : Heap Bucket) :
    checkedClear levels itemId root bucketList level arrays =
      clearUnusedLoop itemId root bucketList level arrays := by
  induction level generalizing arrays with
  | zero =>
    rw [checkedClear, clearUnusedLoop, bind_of_ok (bucketListEntry_of_lt hlevel (by omega)),
      bind_of_ok (hashForLevel_of_lt (by omega) hlevels), List.getElem?_eq_getElem hlevel]
  | succ level ih =>
    have hlt : level < bucketList.length := by omega
    have hparent : bucketListEntry levels bucketList level = .ok bucketList[level] :=
      bucketListEntry_of_lt hlt (by omega)
    rw [checkedClear, clearUnusedLoop, bind_of_ok (bucketListEntry_of_lt hlevel (by omega)),
      bind_of_ok (hashForLevel_of_lt (by omega) hlevels), List.getElem?_eq_getElem hlevel]
    simp only [bind_of_ok hparent, List.getElem?_eq_getElem hlt, ih hlt]

/-- With two levels or more the walk starts at the last level but one. -/
theorem clearStart_eq (htwo : 2 ≤ levels) (hlevels : levels ≤ 8) :
    (clearStart levels).toNat = levels - 2 := by
  rw [clearStart, UInt8.ofInt, UInt8.toNat_ofNat']
  omega

/-- The end of a removal. -/
private theorem checkedTail_eq {leaf : Nat} {hash : UInt8} {bucketList : List Nat}
    (htwo : 2 ≤ t.bucketLevels) (hlevels : t.bucketLevels ≤ 8)
    (hlength : bucketList.length + 1 = t.bucketLevels) :
    (readBucket t.arrays leaf >>= fun b ↦
      if b hash = none then
        checkedClear t.bucketLevels itemId t.buckets bucketList (clearStart t.bucketLevels).toNat
          t.arrays >>= fun arrays ↦ pure { t with arrays := arrays }
      else pure t) =
    readBucket t.arrays leaf >>= fun b ↦
      if b hash = none then
        if t.bucketLevels < 2 then .error .outOfBounds
        else clearUnusedLoop itemId t.buckets bucketList (t.bucketLevels - 2) t.arrays >>=
          fun arrays ↦ pure { t with arrays := arrays }
      else pure t := by
  rw [clearStart_eq htwo hlevels, checkedClear_eq (by omega) hlevels _ (by omega)]
  simp only [if_neg (Nat.not_lt.mpr htwo)]

theorem checkedRemove_eq (htwo : 2 ≤ t.bucketLevels) (hlevels : t.bucketLevels ≤ 8) :
    checkedRemove t itemId = ffHashTableRemoveItem t itemId := by
  rw [checkedRemove, checkedBucket_eq (by omega) hlevels, bind_map_left]
  apply bind_congr_ok
  rintro ⟨arrays, _ | ⟨leaf, passed⟩⟩ hwalk
  · rfl
  · have hlength : passed.length + 1 = t.bucketLevels := by
      rw [length_getOrCreateLoop hwalk, List.length_nil]
      omega
    apply bind_congr_ok
    intro b _
    dsimp only
    split
    · rfl
    · apply bind_congr_ok
      rintro ⟨_ | node, previous⟩ _
      · exact checkedTail_eq (t := { t with arrays := arrays }) htwo hlevels hlength
      · apply bind_congr_ok
        intro t₁ hchain
        apply bind_congr_ok
        intro t₂ hlist
        have hsame : t₂.bucketLevels = t.bucketLevels :=
          (unlinkFromList_frame hlist).1.levels.trans (unlinkFromChain_frame hchain).1.levels
        exact checkedTail_eq (by omega) (by omega) (by omega)

/-- With two to eight levels every call is a call of the model. -/
theorem TableOp.runChecked_eq (htwo : 2 ≤ t.bucketLevels) (hlevels : t.bucketLevels ≤ 8)
    (op : TableOp α) : op.runChecked t = op.run t := by
  cases op with
  | put itemId value => rw [runChecked, run, checkedPut_eq (by omega) hlevels]
  | remove itemId => rw [runChecked, run, checkedRemove_eq htwo hlevels]
  | get itemId => rw [runChecked, run, checkedGet_eq (by omega) hlevels]

/-- So is every run. -/
theorem runOpsChecked_eq (htwo : 2 ≤ t.bucketLevels) (hlevels : t.bucketLevels ≤ 8)
    (ops : List (TableOp α)) : runOpsChecked t ops = runOps t ops := by
  induction ops generalizing t with
  | nil => rfl
  | cons op ops ih =>
    rw [runOpsChecked, runOps, op.runChecked_eq htwo hlevels]
    apply bind_congr_ok
    rintro ⟨t', value⟩ hrun
    have hsame := (TableOp.run_sameRoot hrun).levels
    dsimp only
    rw [ih (by omega) (by omega)]

end Levels

/-! ### Fewer levels -/

/-- Without a level the first call looks at level -1. -/
theorem runOpsChecked_no_level {t : HashTable α} (h : t.bucketLevels = 0) :
    runOpsChecked t [.get 0] = .error .outOfBounds := by
  obtain ⟨bits, levels, length, buckets, first, last, arrays, nodes⟩ := t
  cases h
  rfl

/-- A walk back up that starts behind the list leaves it at once. -/
theorem checkedClear_outside {levels level root : Nat} {itemId : UInt64} {bucketList : List Nat}
    (h : levels ≤ level) (arrays : Heap Bucket) :
    checkedClear levels itemId root bucketList level arrays = .error .outOfBounds := by
  have hentry : bucketListEntry levels bucketList level = .error .outOfBounds :=
    if_neg (Nat.not_lt.mpr h)
  unfold checkedClear
  exact bind_of_error hentry _

/-- A table of one level with one item. -/
private def oneItem (bits : UInt8) (value : α) : HashTable α where
  prefixBitLength := bits
  bucketLevels := 1
  length := 1
  buckets := 0
  linkedList := some 0
  linkedListLast := some 0
  arrays := ⟨[some fun k ↦ if k = ffHashGetForLevel 0 0 then some 0 else none]⟩
  nodes := ⟨[some ⟨0, some value, none, none, none⟩]⟩

/-- The removal of the item leaves its slot null. -/
private theorem checkedRemove_oneItem (bits : UInt8) (value : α) :
    checkedRemove (oneItem bits value) 0 = .error .outOfBounds := by
  have hbucket : checkedBucket (oneItem bits value) 0 true true =
      .ok ((oneItem bits value).arrays, some (0, ffHashGetForLevel 0 0, [])) :=
    checkedBucket_eq Nat.one_pos (show 1 ≤ 8 by decide) true true
  obtain ⟨b, hread, hslot⟩ : ∃ b, readBucket (oneItem bits value).arrays 0 = .ok b ∧
      b (ffHashGetForLevel 0 0) = some 0 := ⟨_, rfl, if_pos rfl⟩
  have hfind : findNodeLoop (oneItem bits value).nodes 0 (oneItem bits value).nodes.next (some 0)
      none = .ok (some 0, none) := rfl
  obtain ⟨t₁, t₂, b₂, hchain, hlist, hlevels, hread₂, hslot₂⟩ :
      ∃ (t₁ t₂ : HashTable α) (b₂ : Bucket),
      unlinkFromChain (oneItem bits value) 0 (ffHashGetForLevel 0 0) none 0 = .ok t₁ ∧
      unlinkFromList t₁ 0 = .ok t₂ ∧ t₂.bucketLevels = 1 ∧ readBucket t₂.arrays 0 = .ok b₂ ∧
      b₂ (ffHashGetForLevel 0 0) = none := ⟨_, _, _, rfl, rfl, rfl, rfl, if_pos rfl⟩
  rw [checkedRemove, bind_of_ok hbucket]
  dsimp only
  rw [bind_of_ok hread, hslot, if_neg (Option.some_ne_none 0), bind_of_ok hfind]
  dsimp only
  rw [bind_of_ok hchain, bind_of_ok hlist, bind_of_ok hread₂, hslot₂, if_pos rfl, hlevels]
  exact bind_of_error (checkedClear_outside (by decide) _) _

/-- With one level the removal of the last id of its slot starts at entry 255 of a list of one. -/
theorem runOpsChecked_one_level {t : HashTable α} {bits : UInt8} (value : α)
    (hinit : ffHashTableInit bits = .ok t) (h : t.bucketLevels = 1) :
    clearStart t.bucketLevels = 255 ∧
      runOpsChecked t [.put 0 value, .remove 0] = .error .outOfBounds := by
  have hput : checkedPut t 0 (some value) = .ok (oneItem bits value) := by
    rw [checkedPut_eq (by omega) (by omega)]
    rw [ffHashTableInit] at hinit
    split at hinit
    · cases hinit
    · obtain rfl := Except.ok.inj hinit
      dsimp only at h ⊢
      rw [h]
      rfl
  have hremove : (TableOp.remove 0).runChecked (oneItem bits value) = .error .outOfBounds :=
    bind_of_error (checkedRemove_oneItem bits value) _
  have hrest : runOpsChecked (oneItem bits value) [.remove 0] = .error .outOfBounds :=
    bind_of_error hremove _
  have hfirst : (TableOp.put 0 value).runChecked t = .ok (oneItem bits value, none) :=
    bind_of_ok hput _
  refine ⟨by rw [h]; rfl, ?_⟩
  rw [runOpsChecked, bind_of_ok hfirst]
  exact bind_of_error hrest _

/-! ### Prefix lengths -/

/-- For prefixes of up to 64 bits, all levels and indices are inside exactly if the prefix has at
least 16 bits. -/
theorem indicesInside_iff [Inhabited α] {prefixBitLength : UInt8}
    (hbits : prefixBitLength.toNat ≤ 64) :
    IndicesInside α prefixBitLength ↔ 16 ≤ prefixBitLength.toNat := by
  constructor
  · rintro ⟨t, hinit, hruns⟩
    have hlevels := ffHashTableInit_levels hinit
    by_contra hshort
    rcases Nat.lt_or_ge prefixBitLength.toNat 8 with hlt | hge
    · obtain ⟨outcome, hrun⟩ := hruns [.get 0]
      rw [runOpsChecked_no_level (by omega)] at hrun
      cases hrun
    · obtain ⟨outcome, hrun⟩ := hruns [.put 0 default, .remove 0]
      rw [(runOpsChecked_one_level default hinit (by omega)).2] at hrun
      cases hrun
  · intro hlong
    have htwo : 2 ≤ prefixBitLength.toNat / 8 := by omega
    obtain ⟨t, hinit, hrep⟩ := represents_new (α := α) htwo
    have hlevels := ffHashTableInit_levels hinit
    refine ⟨t, hinit, fun ops ↦ ?_⟩
    have hempty : Refines t OrderedMap.empty := ⟨[], hrep, rfl⟩
    obtain ⟨t', hrun, _⟩ := runOps_refines hempty ops
    rw [runOpsChecked_eq (by omega) (by omega)]
    exact ⟨_, hrun⟩

/-- A prefix of 20 bits, which are not whole bytes. -/
theorem indicesInside_twenty : IndicesInside Nat 20 :=
  (indicesInside_iff (by decide)).mpr (by decide)

/-- A prefix of 8 bits: the removal of the only id reads entry 255 of a list of one entry. -/
theorem not_indicesInside_eight :
    (∃ t : HashTable Nat, ffHashTableInit 8 = .ok t ∧ t.bucketLevels = 1 ∧
      clearStart t.bucketLevels = 255 ∧
      runOpsChecked t [.put 0 7, .remove 0] = .error .outOfBounds) ∧
      ¬ IndicesInside Nat 8 := by
  have hinit : ∃ t : HashTable Nat, ffHashTableInit 8 = .ok t := ⟨_, rfl⟩
  obtain ⟨t, hinit⟩ := hinit
  have hlevels : t.bucketLevels = 1 := ffHashTableInit_levels hinit
  obtain ⟨hstart, hrun⟩ := runOpsChecked_one_level 7 hinit hlevels
  refine ⟨⟨t, hinit, hlevels, hstart, hrun⟩, ?_⟩
  rintro ⟨t', hinit', hruns⟩
  obtain rfl := Except.ok.inj (hinit.symm.trans hinit')
  obtain ⟨outcome, hok⟩ := hruns [.put 0 7, .remove 0]
  rw [hrun] at hok
  cases hok

end FfProxy
