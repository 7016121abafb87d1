import FfProxy.Base.Bytes
import FfProxy.Base.Spans

/-!
# Requests

The data model of `src/request.h` and the payload vectoriser of `src/request.c`.
Linked lists are lists in link order, and `options_length` is the length of the
option list: the parser never lets it pass 19, so the 8-bit counter does not wrap.
Undefined behaviour is an explicit fault, never a default value.
-/

namespace FfProxy
open Base

/-- What stops a run: memory misuse, a failed `assert`, or a loop that does not end. -/
inductive Fault
  | nullDereference
  | outOfBounds
  | useAfterFree
  | doubleFree
  | assertion
  | divergence
  deriving DecidableEq, Repr

/-- `enum ff_request_state`, `src/request.h:12–26`: one constructor for each value. -/
inductive RequestState
  | receiving
  | received
  | receivingFail
  | decrypting
  | decrypted
  | decryptingFailed
  | parsingOptions
  | parsedOptions
  | parsingOptionsFailed
  | sending
  | sent
  deriving DecidableEq, Repr

/-- `FF_REQUEST_STATE_SENDING_FAILED` and `FF_REQUEST_STATE_SENT` are both 10;
`src/request.h:24–25`. -/
abbrev RequestState.sendingFailed : RequestState := .sent

/-- `FF_VERSION_RAW`, `src/request.h:31`. -/
def ffVersionRaw : Int := -1

/-- `FF_VERSION_1`, `src/request.h:35`. -/
def ffVersion1 : Int := 1

/-- `FF_REQUEST_MAX_OPTIONS`, `src/request.h:10`. -/
def ffRequestMaxOptions : Nat := 20

/-- `sizeof(struct sockaddr)`: the part of a source address that a request keeps. -/
def sockaddrSize : Nat := 16

/-! ### Option types, `src/request.h:38–58` -/

namespace OptionType

/-- Last option before the payload. -/
def eol : UInt8 := 0

/-- Encryption mode. -/
def encryptionMode : UInt8 := 1

/-- Initialisation vector. -/
def encryptionIv : UInt8 := 2

/-- Authentication tag. -/
def encryptionTag : UInt8 := 3

/-- Whether the upstream request is sent over HTTPS. -/
def https : UInt8 := 4

/-- Key derivation mode. -/
def keyDeriveMode : UInt8 := 5

/-- Key derivation salt. -/
def keyDeriveSalt : UInt8 := 6

/-- `FF_REQUEST_OPTION_TYPE_BREAK`: last option of the header when more options start the
payload. -/
def breakOption : UInt8 := 7

/-- Time at which the request was sent. -/
def timestamp : UInt8 := 8

end OptionType

/-- `struct ff_request_option_node`, `src/request.h:60–65`. The value block has exactly
the declared length. -/
@[ext] structure OptionNode where
  type : UInt8
  length : UInt16
  value : List UInt8
  length_eq : value.length = length.toNat
  deriving DecidableEq, Repr

/-- An option of one byte. -/
def OptionNode.ofByte (type value : UInt8) : OptionNode := ⟨type, 1, [value], rfl⟩

/-- A time stamp option: eight bytes, the most significant first. -/
def timestampOption (t : Nat) : OptionNode := ⟨OptionType.timestamp, 8, beBytes 8 t, by simp⟩

/-- `struct ff_request_payload_node`, `src/request.h:67–73`, without its link. The value
block holds at least the declared length. -/
@[ext] structure PayloadNode where
  offset : UInt16
  length : UInt16
  value : List UInt8
  length_le : length.toNat ≤ value.length
  deriving DecidableEq, Repr

namespace PayloadNode

/-- The positions of the payload that the node stands for. -/
def span (node : PayloadNode) : Span := ⟨node.offset.toNat, node.length.toNat⟩

/-- The bytes of the value block that belong to the payload. -/
def bytes (node : PayloadNode) : List UInt8 := node.value.take node.length.toNat

/-- A node carries as many payload bytes as its length says. -/
@[simp] theorem length_bytes (node : PayloadNode) : node.bytes.length = node.length.toNat := by
  rw [bytes, List.length_take, Nat.min_eq_left node.length_le]

/-- The node at offset 0 that holds the given bytes. -/
def ofBytes (bytes : List UInt8) : PayloadNode where
  offset := 0
  length := UInt16.ofNat bytes.length
  value := bytes
  length_le := by
    rw [UInt16.toNat_ofNat']
    exact Nat.mod_le _ _

/-- Up to 65535 bytes fit the length field. -/
theorem length_ofBytes (bytes : List UInt8) (h : bytes.length < 65536) :
    (ofBytes bytes).length.toNat = bytes.length := by
  rw [ofBytes, UInt16.toNat_ofNat', Nat.mod_eq_of_lt h]

/-- Up to 65535 bytes are held in full. -/
theorem bytes_ofBytes (bytes : List UInt8) (h : bytes.length < 65536) :
    (ofBytes bytes).bytes = bytes := by
  rw [PayloadNode.bytes, length_ofBytes bytes h]
  exact List.take_length

end PayloadNode

/-- `struct ff_request`, `src/request.h:75–88`. -/
structure Request where
  state : RequestState
  version : Int
  source : List UInt8
  receivedAt : Int
  requestId : UInt64
  options : List OptionNode
  payloadContainsOptions : Bool
  payloadLength : UInt64
  receivedLength : UInt64
  payload : List PayloadNode
  deriving DecidableEq, Repr

/-- `ff_request_alloc`, `src/request.c:71–78`: all fields zero, state RECEIVING. -/
def ffRequestAlloc : Request where
  state := .receiving
  version := 0
  source := List.replicate sockaddrSize 0
  receivedAt := 0
  requestId := 0
  options := []
  payloadContainsOptions := false
  payloadLength := 0
  receivedLength := 0
  payload := []

/-- The request that holds a payload and nothing else. -/
def holding (bytes : List UInt8) : Request :=
  { ffRequestAlloc with
    payloadLength := UInt64.ofNat bytes.length
    payload := [PayloadNode.ofBytes bytes] }

/-- `options_length` of a request. -/
def Request.optionsLength (r : Request) : Nat := r.options.length

/-- The request has the given options and its payload is one node with the given bytes. -/
def Request.Carries (r : Request) (options : List OptionNode) (body : List UInt8) : Prop :=
  r.options = options ∧ r.payloadLength.toNat = body.length ∧
    ∃ node, r.payload = [node] ∧ node.bytes = body

/-- The payload of the request is one node that fits the payload length. -/
structure Request.Vectorised (r : Request) (node : PayloadNode) : Prop where
  payload : r.payload = [node]
  fits : node.length.toNat ≤ r.payloadLength.toNat

/-! ### Vectorising the payload -/

/-- The contents of a block fresh from `malloc`: `n` indeterminate bytes. -/
def mallocBlock (garbage : Nat → UInt8) (n : Nat) : List UInt8 := (List.range n).map garbage

/-- The copy loop of `ff_request_vectorise_payload`, `src/request.c:121–128`. -/
def vectoriseLoop (value : List UInt8) : List PayloadNode → Except Fault (List UInt8)
  | [] => .ok value
  | node :: rest =>
    match overwrite value node.offset.toNat node.bytes with
    | none => .error .outOfBounds
    | some value => vectoriseLoop value rest

/-- The copy loop works inside one block. -/
theorem length_vectoriseLoop (nodes : List PayloadNode) (value out : List UInt8)
    (h : vectoriseLoop value nodes = .ok out) : out.length = value.length := by
  induction nodes generalizing value with
  | nil =>
    rw [vectoriseLoop] at h
    rw [Except.ok.inj h]
  | cons node rest ih =>
    rw [vectoriseLoop] at h
    split at h
    · exact absurd h (by simp)
    · next copied hc => rw [ih _ h, length_overwrite _ _ _ _ hc]

/-- `ff_request_vectorise_payload`, `src/request.c:105–131`. A single node is left alone;
otherwise all nodes are copied into one block of `payload_length` bytes, whose node
keeps the low 16 bits of that length. -/
def ffRequestVectorisePayload (garbage : Nat → UInt8) (r : Request) : Except Fault Request :=
  match r.payload with
  | [] => .error .nullDereference
  | [_] => .ok r
  | nodes =>
    match h : vectoriseLoop (mallocBlock garbage r.payloadLength.toNat) nodes with
    | .error fault => .error fault
    | .ok value => .ok { r with
        payload := [{
          offset := 0
          length := r.payloadLength.toUInt16
          value := value
          length_le := by
            rw [length_vectoriseLoop _ _ _ h, mallocBlock, List.length_map, List.length_range]
            simp only [UInt64.toNat_toUInt16]
            exact Nat.mod_le _ _ }] }

private theorem vectoriseLoop_cons (value out : List UInt8) (node : PayloadNode)
    (rest : List PayloadNode) (h : overwrite value node.offset.toNat node.bytes = some out) :
    vectoriseLoop value (node :: rest) = vectoriseLoop out rest := by
  rw [vectoriseLoop, h]

/-- Nodes that lie inside the block and are pairwise apart are all copied: each range holds
its node's bytes, and positions outside every range keep what was there. -/
theorem vectoriseLoop_spec (nodes : List PayloadNode) (value : List UInt8)
    (hi : ∀ node ∈ nodes, node.span.stop ≤ value.length)
    (ha : (nodes.map PayloadNode.span).Pairwise Span.Apart) :
    ∃ out, vectoriseLoop value nodes = .ok out ∧
      (∀ node ∈ nodes, ∀ k, node.span.Covers k →
        out[k]? = node.bytes[k - node.offset.toNat]?) ∧
      ∀ k, (∀ node ∈ nodes, ¬ node.span.Covers k) → out[k]? = value[k]? := by
  induction nodes generalizing value with
  | nil => exact ⟨value, rfl, by simp, fun _ _ ↦ rfl⟩
  | cons node rest ih =>
    obtain ⟨hn, hr⟩ := List.pairwise_cons.mp ha
    have hs : (overwrite value node.offset.toNat node.bytes).isSome := by
      rw [overwrite_isSome_iff, node.length_bytes]
      exact hi node (by simp)
    obtain ⟨copied, hc⟩ := Option.isSome_iff_exists.mp hs
    have hl := length_overwrite _ _ _ _ hc
    obtain ⟨out, hrun, hin, hout⟩ := ih copied
      (fun m hm ↦ by rw [hl]; exact hi m (by simp [hm])) hr
    have hcopied (k : Nat) : copied[k]? =
        if node.span.Covers k then node.bytes[k - node.offset.toNat]? else value[k]? := by
      rw [getElem?_overwrite _ _ _ _ k hc, node.length_bytes]
      rfl
    refine ⟨out, by rw [vectoriseLoop_cons _ _ _ _ hc, hrun], ?_, ?_⟩
    · intro m hm k hk
      rcases List.mem_cons.mp hm with rfl | hm
      · -- No later node writes where this one did.
        have hfree : ∀ m' ∈ rest, ¬ m'.span.Covers k := fun m' hm' hk' ↦
          hn m'.span (List.mem_map_of_mem hm') k ⟨hk, hk'⟩
        rw [hout k hfree, hcopied, if_pos hk]
      · exact hin m hm k hk
    · intro k hk
      rw [hout k (fun m hm ↦ hk m (by simp [hm])), hcopied, if_neg (hk node (by simp))]

/-- A single payload node is left alone. -/
theorem ffRequestVectorisePayload_single (garbage : Nat → UInt8) (r : Request)
    (node : PayloadNode) (hp : r.payload = [node]) :
    ffRequestVectorisePayload garbage r = .ok r := by
  unfold ffRequestVectorisePayload
  split
  · next h => rw [hp] at h; cases h
  · rfl
  · next h => exact absurd hp (h node)

/-- Several payload nodes become one that owns the block they were copied to. -/
theorem ffRequestVectorisePayload_many (garbage : Nat → UInt8) (r : Request)
    (first second : PayloadNode) (rest : List PayloadNode) (out : List UInt8)
    (hp : r.payload = first :: second :: rest)
    (hrun : vectoriseLoop (mallocBlock garbage r.payloadLength.toNat) r.payload = .ok out) :
    ∃ node, ffRequestVectorisePayload garbage r = .ok { r with payload := [node] } ∧
      node.offset = 0 ∧ node.length = r.payloadLength.toUInt16 ∧ node.value = out := by
  unfold ffRequestVectorisePayload
  split
  · next h => rw [hp] at h; cases h
  · next h => rw [hp] at h; cases h
  · split
    · next he => rw [hrun] at he; cases he
    · next value he =>
      rw [hrun] at he
      exact ⟨_, rfl, rfl, rfl, (Except.ok.inj he).symm⟩

/-- Vectorising changes the payload only: it is left alone if it is a single node, and else
becomes one node with the low 16 bits of the payload length. -/
theorem ffRequestVectorisePayload_cases {garbage : Nat → UInt8} {r r' : Request}
    (h : ffRequestVectorisePayload garbage r = .ok r') :
    ∃ node, r' = { r with payload := [node] } ∧
      (r.payload = [node] ∨ node.length = r.payloadLength.toUInt16) := by
  match hp : r.payload with
  | [] =>
    unfold ffRequestVectorisePayload at h
    split at h
    · cases h
    · next h' => rw [hp] at h'; cases h'
    · next h' _ => exact absurd hp h'
  | [node] =>
    rw [ffRequestVectorisePayload_single garbage r node hp] at h
    rw [← Except.ok.inj h]
    exact ⟨node, by rw [← hp], Or.inl rfl⟩
  | first :: second :: rest =>
    cases hrun : vectoriseLoop (mallocBlock garbage r.payloadLength.toNat) r.payload with
    | error fault =>
      unfold ffRequestVectorisePayload at h
      split at h
      · next h' => rw [hp] at h'; cases h'
      · next h' => rw [hp] at h'; cases h'
      · split at h
        · cases h
        · next he => rw [hrun] at he; cases he
    | ok out =>
      obtain ⟨node, hv, _, hl, _⟩ :=
        ffRequestVectorisePayload_many garbage r first second rest out hp hrun
      rw [hv] at h
      exact ⟨node, (Except.ok.inj h).symm, Or.inr hl⟩

/-- The copy loop fails only where a node does not fit the block. -/
private theorem vectoriseLoop_error {nodes : List PayloadNode} {value : List UInt8} {fault : Fault}
    (h : vectoriseLoop value nodes = .error fault) : fault = .outOfBounds := by
  induction nodes generalizing value with
  | nil => cases h
  | cons node nodes ih =>
    rw [vectoriseLoop] at h
    split at h
    · exact (Except.error.inj h).symm
    · exact ih h

/-- Vectorising reads a missing node only if there is no payload. -/
theorem payload_eq_nil_of_vectorise {garbage : Nat → UInt8} {r : Request}
    (h : ffRequestVectorisePayload garbage r = .error .nullDereference) : r.payload = [] := by
  unfold ffRequestVectorisePayload at h
  split at h
  · next hp => exact hp
  · cases h
  · split at h
    · next hrun =>
      obtain rfl := Except.error.inj h
      cases vectoriseLoop_error hrun
    · cases h

/-- Nodes that follow each other without a gap are copied one behind the other. -/
theorem vectoriseLoop_consecutive (nodes : List PayloadNode) (pre rest : List UInt8) (stop : Nat)
    (hc : Span.Consecutive pre.length (nodes.map PayloadNode.span) stop)
    (hl : stop ≤ pre.length + rest.length) :
    vectoriseLoop (pre ++ rest) nodes =
      .ok (pre ++ nodes.flatMap PayloadNode.bytes ++ rest.drop (stop - pre.length)) := by
  induction nodes generalizing pre rest with
  | nil =>
    have hs : pre.length = stop := hc
    simp [vectoriseLoop, hs]
  | cons node nodes ih =>
    have hoff : node.offset.toNat = pre.length := hc.1
    have hstop : node.offset.toNat + node.length.toNat ≤ stop := hc.2.start_le_stop
    have hfit : node.bytes.length ≤ rest.length := by
      rw [node.length_bytes]
      omega
    have hpre : (pre ++ node.bytes).length = node.span.stop := by
      rw [List.length_append, node.length_bytes]
      simp only [PayloadNode.span, Span.stop]
      omega
    rw [vectoriseLoop_cons _ _ _ _ (by rw [hoff]; exact overwrite_append pre rest _ hfit),
      ih (pre ++ node.bytes) _ (by rw [hpre]; exact hc.2) (by
        rw [List.length_append, List.length_drop]
        omega)]
    rw [List.drop_drop, List.flatMap_cons, List.append_assoc pre node.bytes, List.length_append,
      node.length_bytes]
    congr 3
    omega

/-- A payload whose nodes follow each other from 0 to its length is vectorised to their
concatenation. -/
theorem ffRequestVectorisePayload_consecutive (garbage : Nat → UInt8) (r : Request)
    (hne : r.payload ≠ []) (hshort : r.payloadLength.toNat < 65536)
    (hc : Span.Consecutive 0 (r.payload.map PayloadNode.span) r.payloadLength.toNat) :
    ∃ node, ffRequestVectorisePayload garbage r = .ok { r with payload := [node] } ∧
      node.offset = 0 ∧ node.length.toNat = r.payloadLength.toNat ∧
      node.bytes = r.payload.flatMap PayloadNode.bytes := by
  match hp : r.payload with
  | [] => exact absurd hp hne
  | [node] =>
    rw [hp] at hc
    have ho : node.offset.toNat = 0 := hc.1
    have hl : node.offset.toNat + node.length.toNat = r.payloadLength.toNat := hc.2
    refine ⟨node, ?_, UInt16.toNat_inj.mp ho, by omega, by simp⟩
    rw [ffRequestVectorisePayload_single garbage r node hp, ← hp]
  | first :: second :: rest =>
    have hm : (mallocBlock garbage r.payloadLength.toNat).length = r.payloadLength.toNat := by
      rw [mallocBlock, List.length_map, List.length_range]
    have hrun := vectoriseLoop_consecutive r.payload []
      (mallocBlock garbage r.payloadLength.toNat) _ hc (by rw [hm]; exact Nat.le_add_left _ _)
    rw [List.nil_append, List.nil_append, List.length_nil, Nat.sub_zero,
      List.drop_of_length_le (Nat.le_of_eq hm), List.append_nil] at hrun
    obtain ⟨node, hv, ho, hl, hval⟩ :=
      ffRequestVectorisePayload_many garbage r first second rest _ hp hrun
    have hlen : node.length.toNat = r.payloadLength.toNat := by
      rw [hl, UInt64.toNat_toUInt16, Nat.mod_eq_of_lt hshort]
    refine ⟨node, hv, ho, hlen, ?_⟩
    have hflat : node.value.length = r.payloadLength.toNat := by
      rw [hval, length_vectoriseLoop _ _ _ hrun, hm]
    rw [PayloadNode.bytes, List.take_of_length_le (by omega), hval, ← hp]

/-! ### Tilings -/

/-- A node whose value block holds its payload bytes and nothing else is its bytes. -/
private theorem PayloadNode.eq_of_bytes {a b : PayloadNode} (ho : a.offset = b.offset)
    (hl : a.length = b.length) (ha : a.value.length = a.length.toNat)
    (hb : b.value.length = b.length.toNat) (h : a.bytes = b.bytes) : a = b := by
  apply PayloadNode.ext ho hl
  rwa [bytes, bytes, List.take_of_length_le (Nat.le_of_eq ha),
    List.take_of_length_le (Nat.le_of_eq hb)] at h

section Tilings

variable (garbage garbage' : Nat → UInt8) {r r' : Request}

/-- Nodes that tile the payload become one node over the whole of it, which holds each node's
bytes in that node's range. If there were several, its block holds nothing else. -/
theorem ffRequestVectorisePayload_of_tiling (hne : r.payload ≠ [])
    (hshort : r.payloadLength.toNat < 65536)
    (ht : Span.Tiling (r.payload.map PayloadNode.span) r.payloadLength.toNat) :
    ∃ node, ffRequestVectorisePayload garbage r = .ok { r with payload := [node] } ∧
      node.offset = 0 ∧ node.length.toNat = r.payloadLength.toNat ∧
      (∀ m ∈ r.payload, ∀ k, m.span.Covers k → node.bytes[k]? = m.bytes[k - m.offset.toNat]?) ∧
      (r.payload = [node] ∨ node.value.length = node.length.toNat) := by
  have hin : ∀ m ∈ r.payload, m.span.stop ≤ r.payloadLength.toNat := fun m hm ↦
    ht.inside m.span (List.mem_map_of_mem hm)
  match hp : r.payload with
  | [] => exact absurd hp hne
  | [node] =>
    -- The only tile starts at 0 and ends at the payload length.
    have hspan : node.offset.toNat = 0 ∧ node.length.toNat = r.payloadLength.toNat := by
      have hstop : node.offset.toNat + node.length.toNat ≤ r.payloadLength.toNat :=
        hin node (by simp [hp])
      have hcov : ∀ k < r.payloadLength.toNat, node.span.Covers k := fun k hk ↦ by
        simpa [hp] using ht.covers k hk
      rcases Nat.eq_zero_or_pos r.payloadLength.toNat with h0 | hpos
      · omega
      · have hfirst : node.offset.toNat ≤ 0 := (hcov 0 hpos).1
        have hlast : r.payloadLength.toNat - 1 < node.offset.toNat + node.length.toNat :=
          (hcov _ (Nat.sub_one_lt_of_lt hpos)).2
        omega
    refine ⟨node, ?_, UInt16.toNat_inj.mp hspan.1, hspan.2, ?_, Or.inl rfl⟩
    · rw [ffRequestVectorisePayload_single garbage r node hp, ← hp]
    · intro m hm k _
      rw [List.mem_singleton.mp hm, hspan.1, Nat.sub_zero]
  | first :: second :: rest =>
    have hblock : (mallocBlock garbage r.payloadLength.toNat).length = r.payloadLength.toNat := by
      rw [mallocBlock, List.length_map, List.length_range]
    obtain ⟨out, hrun, hcopied, _⟩ := vectoriseLoop_spec r.payload
      (mallocBlock garbage r.payloadLength.toNat) (fun m hm ↦ by rw [hblock]; exact hin m hm)
      ht.apart
    obtain ⟨node, hv, ho, hl, hval⟩ :=
      ffRequestVectorisePayload_many garbage r first second rest out hp hrun
    have hlen : node.length.toNat = r.payloadLength.toNat := by
      rw [hl, UInt64.toNat_toUInt16, Nat.mod_eq_of_lt hshort]
    have hfull : node.value.length = node.length.toNat := by
      rw [hval, length_vectoriseLoop _ _ _ hrun, hblock, hlen]
    refine ⟨node, hv, ho, hlen, fun m hm k hk ↦ ?_, Or.inr hfull⟩
    rw [PayloadNode.bytes, List.take_of_length_le (Nat.le_of_eq hfull), hval]
    exact hcopied m (hp ▸ hm) k hk

/-- Two nodes over the whole of a tiled payload that both hold the bytes of every tile hold the
same bytes. -/
private theorem bytes_eq_of_tiles {nodes : List PayloadNode} {n : Nat} {a b : PayloadNode}
    (ht : Span.Tiling (nodes.map PayloadNode.span) n) (ha : a.length.toNat = n)
    (hb : b.length.toNat = n)
    (hca : ∀ m ∈ nodes, ∀ k, m.span.Covers k → a.bytes[k]? = m.bytes[k - m.offset.toNat]?)
    (hcb : ∀ m ∈ nodes, ∀ k, m.span.Covers k → b.bytes[k]? = m.bytes[k - m.offset.toNat]?) :
    a.bytes = b.bytes := by
  apply List.ext_getElem?
  intro k
  by_cases hk : k < n
  · obtain ⟨_, hmem, hcov⟩ := ht.covers k hk
    obtain ⟨m, hm, rfl⟩ := List.mem_map.mp hmem
    rw [hca m hm k hcov, hcb m hm k hcov]
  · rw [List.getElem?_eq_none (by rw [a.length_bytes]; omega),
      List.getElem?_eq_none (by rw [b.length_bytes]; omega)]

/-- Neither the order of the nodes nor what was in the fresh block shows in the result. -/
theorem ffRequestVectorisePayload_perm (hne : r.payload ≠ [])
    (hshort : r.payloadLength.toNat < 65536)
    (ht : Span.Tiling (r.payload.map PayloadNode.span) r.payloadLength.toNat)
    (hr : r' = { r with payload := r'.payload }) (hp : r'.payload.Perm r.payload) :
    ffRequestVectorisePayload garbage' r' = ffRequestVectorisePayload garbage r := by
  have hlen : r'.payloadLength = r.payloadLength := by rw [hr]
  by_cases hone : ∃ node, r.payload = [node]
  · obtain ⟨node, hone⟩ := hone
    have hone' : r'.payload = [node] := List.perm_singleton.mp (hone ▸ hp)
    rw [ffRequestVectorisePayload_single garbage r node hone,
      ffRequestVectorisePayload_single garbage' r' node hone', hr, hone', ← hone]
  · have hone' : ¬ ∃ node, r'.payload = [node] := by
      rintro ⟨node, h⟩
      exact hone ⟨node, List.perm_singleton.mp (h ▸ hp.symm)⟩
    have hspans := hp.map PayloadNode.span
    have ht' : Span.Tiling (r'.payload.map PayloadNode.span) r'.payloadLength.toNat := by
      rw [hlen]
      refine ⟨?_, fun s hs ↦ ht.inside s (hspans.mem_iff.mp hs), fun k hk ↦ ?_⟩
      · exact (hspans.pairwise_iff fun h k hk ↦ h k hk.symm).mpr ht.apart
      · obtain ⟨s, hs, hcov⟩ := ht.covers k hk
        exact ⟨s, hspans.mem_iff.mpr hs, hcov⟩
    obtain ⟨a, hva, hoa, hla, hca, hfa⟩ :=
      ffRequestVectorisePayload_of_tiling garbage hne hshort ht
    obtain ⟨b, hvb, hob, hlb, hcb, hfb⟩ :=
      ffRequestVectorisePayload_of_tiling garbage' (r := r')
        (fun h ↦ hne (List.nil_perm.mp (h ▸ hp))) (hlen ▸ hshort) ht'
    have hab : b = a := PayloadNode.eq_of_bytes (hob.trans hoa.symm)
      (UInt16.toNat_inj.mp (by rw [hla, hlb, hlen]))
      (hfb.resolve_left fun h ↦ hone' ⟨b, h⟩) (hfa.resolve_left fun h ↦ hone ⟨a, h⟩)
      (bytes_eq_of_tiles ht (hlen ▸ hlb) hla (fun m hm ↦ hcb m (hp.mem_iff.mpr hm)) hca)
    rw [hva, hvb, hab, hr]

/-- Vectorising puts the payload together: whatever order the nodes are linked in and whatever
was in the fresh block, one node is left, which starts at 0, has the payload length and holds
each node's bytes in that node's range. -/
structure Request.VectorisesTo (r : Request) (node : PayloadNode) : Prop where
  result : ∀ garbage r', r' = { r with payload := r'.payload } → r'.payload.Perm r.payload →
    ffRequestVectorisePayload garbage r' = .ok { r with payload := [node] }
  offset : node.offset = 0
  length : node.length.toNat = r.payloadLength.toNat
  bytes : ∀ m ∈ r.payload, slice node.bytes m.offset.toNat m.length.toNat = m.bytes

/-- A range of bytes is known from its positions. -/
private theorem slice_eq_of_covers {bytes : List UInt8} {m : PayloadNode}
    (h : ∀ k, m.span.Covers k → bytes[k]? = m.bytes[k - m.offset.toNat]?) :
    slice bytes m.offset.toNat m.length.toNat = m.bytes := by
  apply List.ext_getElem?
  intro k
  rw [slice, List.getElem?_take, List.getElem?_drop]
  split
  · next hk =>
    have hcov : m.span.Covers (m.offset.toNat + k) :=
      ⟨Nat.le_add_right _ _, Nat.add_lt_add_left hk _⟩
    rw [h _ hcov, Nat.add_sub_cancel_left]
  · next hk => rw [List.getElem?_eq_none (by rw [m.length_bytes]; omega)]

/-- Every payload of at least one node whose nodes tile it is put together. -/
theorem vectorise_tiling (r : Request) (hne : r.payload ≠ [])
    (hshort : r.payloadLength.toNat ≤ 65535)
    (ht : Span.Tiling (r.payload.map PayloadNode.span) r.payloadLength.toNat) :
    ∃ node, r.VectorisesTo node := by
  have hlt : r.payloadLength.toNat < 65536 := Nat.lt_succ_of_le hshort
  obtain ⟨node, hv, ho, hl, hcov, _⟩ := ffRequestVectorisePayload_of_tiling (fun _ ↦ 0) hne hlt ht
  refine ⟨node, fun garbage r' hr hp ↦ ?_, ho, hl, fun m hm ↦ slice_eq_of_covers (hcov m hm)⟩
  rw [ffRequestVectorisePayload_perm (fun _ ↦ 0) garbage hne hlt ht hr hp, hv]

/-- Three bytes in two nodes that are linked in the wrong order, with an empty node between. -/
def scatteredRequest : Request := { ffRequestAlloc with
  payloadLength := 3
  payload := [⟨2, 1, [67], by decide⟩, ⟨1, 0, [], by decide⟩, ⟨0, 2, [65, 66], by decide⟩] }

/-- The scattered payload is put together. -/
theorem vectorise_tiling_scattered : ∃ node, scatteredRequest.VectorisesTo node :=
  vectorise_tiling scatteredRequest (by decide) (by decide)
    (Span.tiling_of_total _ _ (by decide) (by decide) (by decide))

end Tilings

end FfProxy
