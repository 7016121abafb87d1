import FfProxy.Base.Heap
import FfProxy.Base.PointerTrie
import FfProxy.Base.Segment
import FfProxy.Request

/-!
# The hash table

`src/hash_table.c` at the level of its pointers: a trie of 256-slot arrays over the bytes of
an id, a chain of nodes in every leaf slot, and a doubly linked list through all nodes.
Both kinds of cells live in memory that can be released. The mutex is left out: every
operation holds it from its first to its last access.
-/

namespace FfProxy
open Base

/-- An array of `union ff_hash_table_bucket`, `src/hash_table_p.h:8–11`. A slot holds a pointer,
to an array above the last level and to a node on it. -/
abbrev Bucket := UInt8 → Option Nat

/-- `struct ff_hash_table_node`, `src/hash_table_p.h:13–20`. -/
structure TableNode (α : Type) where
  itemId : UInt64
  value : Option α
  next : Option Nat
  prevInList : Option Nat
  nextInList : Option Nat

/-- `struct ff_hash_table`, `src/hash_table.h:8–16`, with the memory it owns. -/
structure HashTable (α : Type) where
  prefixBitLength : UInt8
  bucketLevels : Nat
  length : UInt32
  buckets : Nat
  linkedList : Option Nat
  linkedListLast : Option Nat
  arrays : Heap Bucket
  nodes : Heap (TableNode α)

/-- `FF_HASH_GET_FOR_LEVEL`, `src/hash_table.c:14`, for the eight levels of an id. -/
def ffHashGetForLevel (itemId : UInt64) (level : Nat) : UInt8 :=
  ((itemId &&& ((0xFFFFFFFFFFFFFFFF : UInt64) >>> UInt64.ofNat (64 - 8 * (level + 1)))) >>>
    UInt64.ofNat (8 * level)).toUInt8

/-- `ff_hash_table_init_bucket`, `src/hash_table.c:35–40`: the contents of a fresh array. -/
def ffHashTableInitBucket : Bucket := fun _ ↦ none

section Memory

variable {α : Type}

/-- Read an array. -/
def readBucket (arrays : Heap Bucket) (a : Nat) : Except Fault Bucket :=
  match arrays.read a with
  | none => .error .useAfterFree
  | some b => .ok b

/-- Store a pointer in a slot. -/
def writeSlot (arrays : Heap Bucket) (a : Nat) (k : UInt8) (pointer : Option Nat) :
    Except Fault (Heap Bucket) :=
  match arrays.read a with
  | none => .error .useAfterFree
  | some b => .ok (arrays.write a fun j ↦ if j = k then pointer else b j)

/-- Read a node. -/
def readNode (nodes : Heap (TableNode α)) (a : Nat) : Except Fault (TableNode α) :=
  match nodes.read a with
  | none => .error .useAfterFree
  | some n => .ok n

/-- Change a node. -/
def modifyNode (nodes : Heap (TableNode α)) (a : Nat) (f : TableNode α → TableNode α) :
    Except Fault (Heap (TableNode α)) :=
  match nodes.read a with
  | none => .error .useAfterFree
  | some n => .ok (nodes.write a (f n))

/-- Change the node that a pointer refers to, if it is not null. -/
def modifyNodeAt (nodes : Heap (TableNode α)) (pointer : Option Nat)
    (f : TableNode α → TableNode α) : Except Fault (Heap (TableNode α)) :=
  match pointer with
  | none => .ok nodes
  | some a => modifyNode nodes a f

end Memory

/-! ### Finding a slot -/

/-- The loop of `ff_hash_table_get_or_create_bucket`, `src/hash_table.c:51–72`, with `remaining`
levels to go: the arrays, and the last array with the list of arrays passed, `none` when
a level is missing and is not to be made. -/
def getOrCreateLoop (itemId : UInt64) (shouldCreate : Bool) :
    Nat → Nat → Heap Bucket → Nat → List Nat →
    Except Fault (Heap Bucket × Option (Nat × List Nat))
  | 0, _, arrays, buckets, bucketsList => .ok (arrays, some (buckets, bucketsList))
  | remaining + 1, level, arrays, buckets, bucketsList =>
    let hash := ffHashGetForLevel itemId level
    match arrays.read buckets with
    | none => .error .useAfterFree
    | some b =>
      match b hash with
      | some child =>
        getOrCreateLoop itemId shouldCreate remaining (level + 1) arrays child
          (bucketsList ++ [child])
      | none =>
        if shouldCreate then
          let child := arrays.next
          match writeSlot (arrays.alloc ffHashTableInitBucket) buckets hash (some child) with
          | .error fault => .error fault
          | .ok arrays =>
            getOrCreateLoop itemId shouldCreate remaining (level + 1) arrays child
              (bucketsList ++ [child])
        else .ok (arrays, none)

/-- `ff_hash_table_get_or_create_bucket`, `src/hash_table.c:42–78`: the arrays, and the array and
index of the slot with the list of arrays passed. -/
def ffHashTableGetOrCreateBucket {α : Type} (t : HashTable α) (itemId : UInt64)
    (shouldCreate : Bool) : Except Fault (Heap Bucket × Option (Nat × List Nat)) :=
  getOrCreateLoop itemId shouldCreate (t.bucketLevels - 1) 0 t.arrays t.buckets []

/-- The index of the slot in the last array, `src/hash_table.c:74`. -/
def HashTable.leafHash {α : Type} (t : HashTable α) (itemId : UInt64) : UInt8 :=
  ffHashGetForLevel itemId (t.bucketLevels - 1)

/-! ### The operations -/

section Operations

variable {α : Type}

/-- `ff_hash_table_init`, `src/hash_table.c:18–33`. The quotient is an integer division, so
rounding it up does nothing. -/
def ffHashTableInit (prefixBitLength : UInt8) : Except Fault (HashTable α) :=
  if prefixBitLength = 0 then .error .assertion
  else .ok {
    prefixBitLength := prefixBitLength
    bucketLevels := prefixBitLength.toNat / 8
    length := 0
    buckets := 0
    linkedList := none
    linkedListLast := none
    arrays := Heap.empty.alloc ffHashTableInitBucket
    nodes := Heap.empty }

/-- The loop of `ff_hash_table_get_item`, `src/hash_table.c:93–102`. Nodes are visited at most
once each, so a loop longer than the number of nodes ever allocated does not end. -/
def getItemLoop (nodes : Heap (TableNode α)) (itemId : UInt64) :
    Nat → Option Nat → Except Fault (Option α)
  | _, none => .ok none
  | 0, some _ => .error .divergence
  | fuel + 1, some a =>
    match nodes.read a with
    | none => .error .useAfterFree
    | some n =>
      if n.itemId = itemId ∧ n.value.isSome then .ok n.value
      else getItemLoop nodes itemId fuel n.next

/-- `ff_hash_table_get_item`, `src/hash_table.c:80–107`. -/
def ffHashTableGetItem (t : HashTable α) (itemId : UInt64) : Except Fault (Option α) := do
  let (arrays, bucket) ← ffHashTableGetOrCreateBucket t itemId false
  match bucket with
  | none => return none
  | some (leaf, _) =>
    let b ← readBucket arrays leaf
    getItemLoop t.nodes itemId t.nodes.next (b (t.leafHash itemId))

/-- The search of `ff_hash_table_put_item` and `ff_hash_table_remove_item`,
`src/hash_table.c:116–130,178–223`: the node with the id, if any, and the node before it. -/
def findNodeLoop (nodes : Heap (TableNode α)) (itemId : UInt64) :
    Nat → Option Nat → Option Nat → Except Fault (Option Nat × Option Nat)
  | _, none, prevNode => .ok (none, prevNode)
  | 0, some _, _ => .error .divergence
  | fuel + 1, some a, prevNode =>
    match nodes.read a with
    | none => .error .useAfterFree
    | some n =>
      if n.itemId = itemId then .ok (some a, prevNode)
      else findNodeLoop nodes itemId fuel n.next (some a)

/-- Put a new node at the end of its chain, `src/hash_table.c:137–144`. -/
def appendToChain (t : HashTable α) (leaf : Nat) (hash : UInt8) (lastNode : Option Nat)
    (newNode : Nat) : Except Fault (HashTable α) :=
  match lastNode with
  | none => do
    let arrays ← writeSlot t.arrays leaf hash (some newNode)
    return { t with arrays := arrays }
  | some l => do
    let nodes ← modifyNode t.nodes l fun n ↦ { n with next := some newNode }
    return { t with nodes := nodes }

/-- Put a new node at the end of the list, `src/hash_table.c:147–159`. -/
def appendToList (t : HashTable α) (newNode : Nat) : Except Fault (HashTable α) :=
  match t.linkedList with
  | none => return { t with
      linkedList := some newNode
      linkedListLast := some newNode
      length := t.length + 1 }
  | some _ => do
    let nodes ← modifyNode t.nodes newNode fun n ↦ { n with prevInList := t.linkedListLast }
    match t.linkedListLast with
    | none => .error .nullDereference
    | some l =>
      let nodes ← modifyNode nodes l fun n ↦ { n with nextInList := some newNode }
      return { t with
        nodes := nodes
        linkedListLast := some newNode
        length := t.length + 1 }

/-- `ff_hash_table_put_item`, `src/hash_table.c:109–163`. -/
def ffHashTablePutItem (t : HashTable α) (itemId : UInt64) (item : Option α) :
    Except Fault (HashTable α) := do
  let (arrays, bucket) ← ffHashTableGetOrCreateBucket t itemId true
  match bucket with
  | none => .error .nullDereference
  | some (leaf, _) =>
    let b ← readBucket arrays leaf
    let (found, lastNode) ← findNodeLoop t.nodes itemId t.nodes.next (b (t.leafHash itemId)) none
    match found with
    | some a =>
      let nodes ← modifyNode t.nodes a fun n ↦ { n with value := item }
      return { t with arrays := arrays, nodes := nodes }
    | none =>
      let newNode := t.nodes.next
      let nodes := t.nodes.alloc ⟨itemId, item, none, none, none⟩
      let t ← appendToChain { t with arrays := arrays, nodes := nodes } leaf (t.leafHash itemId)
        lastNode newNode
      appendToList t newNode

/-- Take a node out of its chain, `src/hash_table.c:186–193`. -/
def unlinkFromChain (t : HashTable α) (leaf : Nat) (hash : UInt8) (prevNode : Option Nat)
    (node : Nat) : Except Fault (HashTable α) := do
  let n ← readNode t.nodes node
  match prevNode with
  | some b =>
    let nodes ← modifyNode t.nodes b fun m ↦ { m with next := n.next }
    return { t with nodes := nodes }
  | none =>
    let arrays ← writeSlot t.arrays leaf hash n.next
    return { t with arrays := arrays }

/-- Take a node out of the list and release it, `src/hash_table.c:196–217`. -/
def unlinkFromList (t : HashTable α) (node : Nat) : Except Fault (HashTable α) := do
  let n ← readNode t.nodes node
  let nodes ← modifyNodeAt t.nodes n.prevInList fun m ↦ { m with nextInList := n.nextInList }
  let n ← readNode nodes node
  let nodes ← modifyNodeAt nodes n.nextInList fun m ↦ { m with prevInList := n.prevInList }
  let n ← readNode nodes node
  return { t with
    linkedList := if t.linkedList = some node then n.nextInList else t.linkedList
    linkedListLast := if t.linkedListLast = some node then n.prevInList else t.linkedListLast
    length := t.length - 1
    nodes := nodes.free node }

/-- Whether all slots of an array are null, `src/hash_table.c:234–241`. -/
def isUnused (b : Bucket) : Bool := (List.range 256).all fun i ↦ (b (UInt8.ofNat i)).isNone

/-- The walk back up the trie, `src/hash_table.c:228–258`, from the given level on. -/
def clearUnusedLoop (itemId : UInt64) (root : Nat) (bucketList : List Nat) :
    Nat → Heap Bucket → Except Fault (Heap Bucket)
  | level, arrays => do
    match bucketList[level]? with
    | none => .error .outOfBounds
    | some bucketLevel =>
      let b ← readBucket arrays bucketLevel
      if isUnused b then
        let arrays := arrays.free bucketLevel
        match level with
        | 0 => writeSlot arrays root (ffHashGetForLevel itemId 0) none
        | level + 1 =>
          match bucketList[level]? with
          | none => .error .outOfBounds
          | some parent =>
            let arrays ← writeSlot arrays parent (ffHashGetForLevel itemId (level + 1)) none
            clearUnusedLoop itemId root bucketList level arrays
      else return arrays

/-- `ff_hash_table_remove_item`, `src/hash_table.c:165–264`. With fewer than two levels the walk
starts outside of the list of arrays. -/
def ffHashTableRemoveItem (t : HashTable α) (itemId : UInt64) : Except Fault (HashTable α) := do
  let (arrays, bucket) ← ffHashTableGetOrCreateBucket t itemId true
  match bucket with
  | none => return { t with arrays := arrays }
  | some (leaf, bucketList) =>
    let b ← readBucket arrays leaf
    let hash := t.leafHash itemId
    if b hash = none then return { t with arrays := arrays }
    let (found, prevNode) ← findNodeLoop t.nodes itemId t.nodes.next (b hash) none
    let t ← match found with
      | none => pure { t with arrays := arrays }
      | some node => do
        let t ← unlinkFromChain { t with arrays := arrays } leaf hash prevNode node
        unlinkFromList t node
    let b ← readBucket t.arrays leaf
    if b hash = none then
      if t.bucketLevels < 2 then .error .outOfBounds
      else
        let arrays ← clearUnusedLoop itemId t.buckets bucketList (t.bucketLevels - 2) t.arrays
        return { t with arrays := arrays }
    else return t

/-- `struct ff_hash_table_iterator`, `src/hash_table.h:18–23`, without the table. -/
structure TableIterator where
  currentNode : Option Nat
  started : Bool

/-- `ff_hash_table_iterator_init`, `src/hash_table.c:273–283`. -/
def ffHashTableIteratorInit : TableIterator := ⟨none, false⟩

/-- The node that an iterator moves to, `src/hash_table.c:287–295`. -/
def iteratorCurrent (t : HashTable α) (it : TableIterator) : Except Fault (Option Nat) :=
  if it.started then
    match it.currentNode with
    | none => .ok none
    | some a => do
      let n ← readNode t.nodes a
      return n.nextInList
  else .ok t.linkedList

/-- `ff_hash_table_iterator_next`, `src/hash_table.c:285–298`. -/
def ffHashTableIteratorNext (t : HashTable α) (it : TableIterator) :
    Except Fault (TableIterator × Option α) := do
  let current ← iteratorCurrent t it
  match current with
  | none => return (⟨none, true⟩, none)
  | some a =>
    let n ← readNode t.nodes a
    return (⟨some a, true⟩, n.value)

end Operations

end FfProxy
