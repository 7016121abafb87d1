import FfProxy.Client.Build

/-!
# Reading the message

`ff_client_read_payload_from_file`, `client/c/client.c:160–187`, reads the message in rounds of
up to 1024 bytes into a block that grows with it. Every round copies its bytes to the start of
the block, so only a message that comes in one read is kept.
-/

namespace FfProxy
open Base

/-- What a call of `fread` delivers in front of the end of the input: up to 1024 bytes. -/
structure FileRead where
  bytes : List UInt8
  pos : 0 < bytes.length
  le : bytes.length ≤ 1024

/-- The input that a series of reads delivers. -/
def inputOf (reads : List FileRead) : List UInt8 := reads.flatMap FileRead.bytes

/-- The heap: whether the first block is there, whether each `realloc` to some size succeeds,
and the indeterminate bytes of the first block and of each `realloc`. -/
structure ReadHeap where
  malloc : Bool
  realloc : Nat → Nat → Bool
  garbage : Nat → Nat → UInt8

/-- The contents of a block after `realloc`. -/
def reallocBlock (garbage : Nat → UInt8) (block : List UInt8) (size : Nat) : List UInt8 :=
  block.take size ++ (mallocBlock garbage size).drop block.length

@[simp] theorem length_reallocBlock (garbage : Nat → UInt8) (block : List UInt8) (size : Nat) :
    (reallocBlock garbage block size).length = size := by
  rw [reallocBlock, List.length_append, List.length_take, List.length_drop, mallocBlock,
    List.length_map, List.length_range]
  omega

/-- The node and its block in front of the loop, `client/c/client.c:166–167`. -/
def firstBlock (heap : ReadHeap) : PayloadNode where
  offset := 0
  length := 0
  value := if heap.malloc then mallocBlock (heap.garbage 0) 1024 else []
  length_le := Nat.zero_le _

/-- One round of the loop, `client/c/client.c:171–180`. The length of the node stands for
`payload_length`, which has 16 bits; `none` is the exit. -/
def storeChunk (heap : ReadHeap) (call : Nat) (node : PayloadNode) (read : FileRead) :
    Except Fault (Option PayloadNode) :=
  let length := node.length + UInt16.ofNat read.bytes.length
  if heap.realloc call length.toNat then
    match h : overwrite (reallocBlock (heap.garbage (call + 1)) node.value length.toNat) 0
        read.bytes with
    | none => .error .outOfBounds
    | some value => .ok (some {
        offset := node.offset
        length := length
        value := value
        length_le := by rw [length_overwrite _ _ _ _ h, length_reallocBlock] })
  else .ok none

/-- The loop over the input, `client/c/client.c:169–181`. -/
def readLoop (heap : ReadHeap) :
    Nat → PayloadNode → List FileRead → Except Fault (Option PayloadNode)
  | _, node, [] => .ok (some node)
  | call, node, read :: rest =>
    match storeChunk heap call node read with
    | .error fault => .error fault
    | .ok none => .ok none
    | .ok (some node) => readLoop heap (call + 1) node rest

/-- `ff_client_read_payload_from_file`, `client/c/client.c:160–187`; `none` when it exits. -/
def ffClientReadPayloadFromFile (heap : ReadHeap) (r : Request) (reads : List FileRead) :
    Except Fault (Option Request) :=
  match readLoop heap 0 (firstBlock heap) reads with
  | .error fault => .error fault
  | .ok none => .ok none
  | .ok (some node) => .ok (some (ffClientRequestAddPayload r node))

/-- The request holds the input behind what it held before. -/
structure AddedInput (r r' : Request) (input : List UInt8) : Prop where
  node : ∃ node, r'.payload.getLast? = some node ∧ node.length.toNat = input.length ∧
    node.bytes = input
  length : r'.payloadLength = r.payloadLength + UInt64.ofNat input.length

/-- In every heap the reader adds the input to the request, or exits. -/
def ReadsFaithfully (reads : List FileRead) : Prop :=
  ∀ heap r, ffClientReadPayloadFromFile heap r reads = .ok none ∨
    ∃ r', ffClientReadPayloadFromFile heap r reads = .ok (some r') ∧
      AddedInput r r' (inputOf reads)

/-! ### One round -/

section Round

variable {heap : ReadHeap} {call : Nat} {node node' : PayloadNode} {read : FileRead}

/-- A round leaves its bytes at the start of the grown block. -/
structure Stored (heap : ReadHeap) (call : Nat) (node : PayloadNode) (read : FileRead)
    (node' : PayloadNode) : Prop where
  offset : node'.offset = node.offset
  length : node'.length = node.length + UInt16.ofNat read.bytes.length
  fits : read.bytes.length ≤ node'.length.toNat
  value : node'.value = read.bytes ++ (reallocBlock (heap.garbage (call + 1)) node.value
    node'.length.toNat).drop read.bytes.length

/-- A round exits, leaves the block or stores its bytes. -/
theorem storeChunk_cases (heap : ReadHeap) (call : Nat) (node : PayloadNode) (read : FileRead) :
    heap.realloc call (node.length + UInt16.ofNat read.bytes.length).toNat = false ∧
        storeChunk heap call node read = .ok none ∨
      (node.length + UInt16.ofNat read.bytes.length).toNat < read.bytes.length ∧
        storeChunk heap call node read = .error .outOfBounds ∨
      ∃ node', Stored heap call node read node' ∧
        storeChunk heap call node read = .ok (some node') := by
  unfold storeChunk
  dsimp only
  split
  · split
    · next hover =>
      refine .inr (.inl ⟨?_, rfl⟩)
      have hnot := mt (overwrite_isSome_iff _ 0 read.bytes).mpr (by rw [hover]; decide)
      rw [length_reallocBlock, Nat.zero_add] at hnot
      exact Nat.not_le.mp hnot
    · next value hover =>
      have hfits := (overwrite_isSome_iff _ 0 read.bytes).mp (by rw [hover]; rfl)
      rw [length_reallocBlock, Nat.zero_add] at hfits
      refine .inr (.inr ⟨_, ?_, rfl⟩)
      refine ⟨rfl, rfl, hfits, ?_⟩
      have hcopy := overwrite_append [] (reallocBlock (heap.garbage (call + 1)) node.value
        (node.length + UInt16.ofNat read.bytes.length).toNat) read.bytes
        (by rw [length_reallocBlock]; exact hfits)
      rw [List.nil_append, List.length_nil, List.nil_append, hover] at hcopy
      exact Option.some.inj hcopy
  · next hfail => exact .inl ⟨Bool.eq_false_iff.mpr hfail, rfl⟩

/-- After a round the block has the size that `payload_length` says. -/
theorem Stored.length_value (h : Stored heap call node read node') :
    node'.value.length = node'.length.toNat := by
  have hfits := h.fits
  rw [h.value, List.length_append, List.length_drop, length_reallocBlock]
  omega

theorem toNat_length_read (read : FileRead) :
    (UInt16.ofNat read.bytes.length).toNat = read.bytes.length := by
  have hle := read.le
  rw [UInt16.toNat_ofNat', Nat.mod_eq_of_lt (by omega)]

/-- `payload_length` counts modulo 65536. -/
theorem Stored.toNat_length (h : Stored heap call node read node') :
    node'.length.toNat = (node.length.toNat + read.bytes.length) % 65536 := by
  rw [h.length, UInt16.toNat_add, toNat_length_read]

end Round

/-! ### The loop -/

section Loop

variable {heap : ReadHeap} {call : Nat} {node node' : PayloadNode} {reads : List FileRead}

/-- The heap in which everything succeeds and all indeterminate bytes are `g`. -/
def dirtyHeap (g : UInt8) : ReadHeap := ⟨true, fun _ _ ↦ true, fun _ _ ↦ g⟩

theorem readLoop_dirtyHeap_ne_none {g : UInt8} :
    readLoop (dirtyHeap g) call node reads ≠ .ok none := by
  induction reads generalizing call node with
  | nil => exact nofun
  | cons read rest ih =>
    rw [readLoop]
    obtain ⟨hfail, _⟩ | ⟨_, hround⟩ | ⟨next, _, hround⟩ :=
      storeChunk_cases (dirtyHeap g) call node read
    · cases hfail
    · rw [hround]
      exact nofun
    · rw [hround]
      exact ih

/-- A round that adds to a full block leaves an indeterminate byte at its end. -/
theorem Stored.getLast_value {g : UInt8} {read : FileRead}
    (h : Stored (dirtyHeap g) call node read node')
    (hfull : node.value.length = node.length.toNat) (hpos : 0 < node.length.toNat)
    (hroom : node.length.toNat + read.bytes.length < 65536) :
    node'.value.getLast? = some g := by
  have hlength := h.toNat_length
  rw [Nat.mod_eq_of_lt hroom] at hlength
  have hread := read.pos
  have hblock : reallocBlock ((dirtyHeap g).garbage (call + 1)) node.value node'.length.toNat =
      node.value ++ List.replicate read.bytes.length g := by
    rw [reallocBlock, List.take_of_length_le (by omega), hfull, hlength, mallocBlock]
    congr 1
    refine List.ext_getElem (by simp) fun i _ _ ↦ ?_
    simp [dirtyHeap]
  have hlong : ¬ (node.value ++ List.replicate read.bytes.length g).length ≤
      read.bytes.length := by
    rw [List.length_append, List.length_replicate]
    omega
  rw [h.value, hblock, List.getLast?_append, List.getLast?_drop, if_neg hlong,
    List.getLast?_append, List.getLast?_replicate, if_neg (Nat.ne_of_gt hread)]
  rfl

/-- Reads into a full block leave an indeterminate byte at the end of it. -/
theorem readLoop_getLast {g : UInt8} (h : readLoop (dirtyHeap g) call node reads = .ok (some node'))
    (hne : reads ≠ []) (hfull : node.value.length = node.length.toNat)
    (hpos : 0 < node.length.toNat)
    (hroom : node.length.toNat + (inputOf reads).length < 65536) :
    node'.bytes.getLast? = some g := by
  induction reads generalizing call node with
  | nil => exact absurd rfl hne
  | cons read rest ih =>
    rw [inputOf, List.flatMap_cons, List.length_append] at hroom
    rw [readLoop] at h
    obtain ⟨hfail, _⟩ | ⟨_, hround⟩ | ⟨next, hstored, hround⟩ :=
      storeChunk_cases (dirtyHeap g) call node read
    · cases hfail
    · rw [hround] at h
      cases h
    · rw [hround] at h
      have hnext := hstored.toNat_length
      rw [Nat.mod_eq_of_lt (by omega)] at hnext
      cases rest with
      | nil =>
        cases h
        rw [PayloadNode.bytes, ← hstored.length_value, List.take_length]
        exact hstored.getLast_value hfull hpos (by omega)
      | cons read' rest =>
        refine ih h (List.cons_ne_nil _ _) hstored.length_value (by omega) ?_
        rw [inputOf]
        omega

end Loop

/-! ### The reader -/

/-- Adding a node puts it last and adds its length. -/
theorem ffClientRequestAddPayload_getLast (r : Request) (node : PayloadNode) :
    (∃ last, (ffClientRequestAddPayload r node).payload.getLast? = some last ∧
      last.length = node.length ∧ last.bytes = node.bytes) ∧
    (ffClientRequestAddPayload r node).payloadLength =
      r.payloadLength + node.length.toUInt64 := by
  unfold ffClientRequestAddPayload
  split
  · exact ⟨⟨node, rfl, rfl, rfl⟩, rfl⟩
  · exact ⟨⟨_, rfl, rfl, rfl⟩, rfl⟩

/-- A node with the input, added to a request, adds the input. -/
theorem addedInput_of_bytes {r : Request} {node : PayloadNode} {input : List UInt8}
    (h : node.bytes = input) : AddedInput r (ffClientRequestAddPayload r node) input := by
  obtain ⟨⟨last, hlast, hlength, hbytes⟩, hadded⟩ := ffClientRequestAddPayload_getLast r node
  have hinput : input.length = node.length.toNat := by rw [← h, PayloadNode.length_bytes]
  refine ⟨⟨last, hlast, ?_, hbytes.trans h⟩, ?_⟩
  · rw [hlength, hinput]
  · rw [hadded, hinput, ← UInt16.toNat_toUInt64, UInt64.ofNat_toNat]

/-- The first round leaves its bytes and nothing else. -/
theorem Stored.eq_ofBytes {heap : ReadHeap} {call : Nat} {read : FileRead} {node : PayloadNode}
    (h : Stored heap call (firstBlock heap) read node) : node = .ofBytes read.bytes := by
  have hlength := h.length
  rw [firstBlock, UInt16.zero_add] at hlength
  refine PayloadNode.ext h.offset hlength ?_
  have hsize := h.length_value
  rw [hlength, toNat_length_read, h.value, List.length_append, Nat.add_eq_left,
    List.length_eq_zero_iff] at hsize
  rw [h.value, hsize, List.append_nil]
  rfl

/-- A single read ends up in the node. -/
theorem Stored.bytes_first {heap : ReadHeap} {call : Nat} {read : FileRead} {node : PayloadNode}
    (h : Stored heap call (firstBlock heap) read node) : node.bytes = read.bytes := by
  rw [h.eq_ofBytes]
  exact PayloadNode.bytes_ofBytes _ (Nat.lt_of_le_of_lt read.le (by decide))

/-- Up to one read is kept. -/
theorem readsFaithfully_of_le_one {reads : List FileRead} (h : reads.length ≤ 1) :
    ReadsFaithfully reads := by
  intro heap r
  rw [ffClientReadPayloadFromFile]
  match reads, h with
  | [], _ => exact .inr ⟨_, rfl, addedInput_of_bytes rfl⟩
  | [read], _ =>
    rw [readLoop]
    obtain ⟨_, hround⟩ | ⟨hlong, _⟩ | ⟨node, hstored, hround⟩ :=
      storeChunk_cases heap 0 (firstBlock heap) read
    · rw [hround]
      exact .inl rfl
    · rw [firstBlock, UInt16.zero_add, toNat_length_read] at hlong
      exact absurd hlong (Nat.lt_irrefl _)
    · rw [hround]
      refine .inr ⟨_, rfl, addedInput_of_bytes ?_⟩
      rw [hstored.bytes_first, inputOf, List.flatMap_singleton]

/-- Input that is kept in every heap ends up in the node. -/
theorem ReadsFaithfully.readLoop_dirtyHeap {reads : List FileRead} (h : ReadsFaithfully reads)
    (g : UInt8) :
    ∃ node, readLoop (dirtyHeap g) 0 (firstBlock (dirtyHeap g)) reads = .ok (some node) ∧
      node.bytes = inputOf reads := by
  have hread := h (dirtyHeap g) ffRequestAlloc
  rw [ffClientReadPayloadFromFile] at hread
  split at hread
  · obtain hnone | ⟨_, hsome, _⟩ := hread
    · cases hnone
    · cases hsome
  · next hnone => exact absurd hnone readLoop_dirtyHeap_ne_none
  · next node hloop =>
    obtain hnone | ⟨r', hr', ⟨kept, hkept, _, hbytes⟩, _⟩ := hread
    · cases hnone
    cases hr'
    obtain rfl : node = kept := Option.some.inj hkept
    exact ⟨node, hloop, hbytes⟩

/-- Of two or more reads the last byte is lost in some heap. -/
theorem not_readsFaithfully_of_two (a b : FileRead) (rest : List FileRead) :
    ¬ ReadsFaithfully (a :: b :: rest) := by
  intro hfaithful
  have hinput : inputOf (a :: b :: rest) = a.bytes ++ inputOf (b :: rest) := List.flatMap_cons
  obtain ⟨last, hlast⟩ : ∃ last, (inputOf (a :: b :: rest)).getLast? = some last := by
    rw [← Option.isSome_iff_exists, List.getLast?_isSome, hinput]
    exact List.append_ne_nil_of_left_ne_nil (List.length_pos_iff.mp a.pos) _
  -- The indeterminate bytes differ from the last byte of the input.
  obtain ⟨node, hloop, hbytes⟩ := hfaithful.readLoop_dirtyHeap (last + 1)
  have hlength := congrArg List.length hbytes
  rw [PayloadNode.length_bytes, hinput, List.length_append] at hlength
  rw [readLoop] at hloop
  obtain ⟨hfail, _⟩ | ⟨_, hround⟩ | ⟨next, hstored, hround⟩ :=
    storeChunk_cases (dirtyHeap (last + 1)) 0 (firstBlock (dirtyHeap (last + 1))) a
  · cases hfail
  · rw [hround] at hloop
    cases hloop
  rw [hround] at hloop
  have hnext := congrArg List.length hstored.bytes_first
  rw [PayloadNode.length_bytes] at hnext
  have hlt := node.length.toNat_lt
  have hdirty := readLoop_getLast hloop (List.cons_ne_nil _ _) hstored.length_value
    (hnext ▸ a.pos) (by omega)
  rw [hbytes, hlast, Option.some.injEq] at hdirty
  exact absurd hdirty (by simp)

/-- The reader keeps its input in every heap exactly when it comes in one read. -/
theorem readsFaithfully_iff (reads : List FileRead) :
    ReadsFaithfully reads ↔ reads.length ≤ 1 := by
  constructor
  · intro hfaithful
    match reads with
    | [] => exact Nat.zero_le 1
    | [_] => exact Nat.le_refl 1
    | a :: b :: rest => exact absurd hfaithful (not_readsFaithfully_of_two a b rest)
  · exact readsFaithfully_of_le_one

/-- An input of the bytes 1 and 2 that comes in two reads. -/
def sampleTwoReads : List FileRead := [⟨[1], by decide, by decide⟩, ⟨[2], by decide, by decide⟩]

/-- Two reads of one byte each leave the second byte and an indeterminate one. -/
theorem readPayload_overwrites :
    inputOf sampleTwoReads = [1, 2] ∧
      (ffClientReadPayloadFromFile (dirtyHeap 0) ffRequestAlloc sampleTwoReads).map
        (Option.map fun r ↦ r.payload.map PayloadNode.bytes) = .ok (some [[2, 0]]) ∧
      ¬ ReadsFaithfully sampleTwoReads :=
  ⟨rfl, by decide +kernel, not_readsFaithfully_of_two _ _ _⟩

end FfProxy
