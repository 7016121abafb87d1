import FfProxy.Client.Build
import FfProxy.PayloadHeap

/-!
# Appending payload nodes

`ff_client_request_add_payload`, `client/c/client.c:138–158`, on nodes in memory. The search for
the last node starts from a null pointer and ends at once, so every node after the first is
linked behind the first one. Two nodes end up in order; a third one takes the place of the
second.
-/

namespace FfProxy
open Base

namespace PayloadHeap

/-- The search for the last node, `client/c/client.c:141–145`, from the values of `last_node` and
`next_node`. It follows the link of the node that is to be added. -/
def findLastNode (mem : PayloadHeap) (node : Nat) :
    Nat → Option Nat → Option Nat → Except Fault (Option Nat)
  | _, last, none => .ok last
  | 0, _, some _ => .error .divergence
  | fuel + 1, _, some next =>
    match mem.read node with
    | none => .error .useAfterFree
    | some cell => findLastNode mem node fuel (some next) cell.next

/-- `ff_client_request_add_payload`, `client/c/client.c:138–158`. -/
def ffClientRequestAddPayload (fuel : Nat) (mem : PayloadHeap) (o : RequestObject) (node : Nat) :
    Except Fault (PayloadHeap × RequestObject) :=
  match findLastNode mem node fuel o.payload none with
  | .error fault => .error fault
  | .ok none =>
    match mem.read node with
    | none => .error .useAfterFree
    | some cell => .ok (mem, {
        fields := { o.fields with
          payloadLength := o.fields.payloadLength + cell.node.length.toUInt64 }
        payload := some node })
  | .ok (some last) =>
    match mem.read last with
    | none => .error .useAfterFree
    | some lastCell =>
      let mem := mem.write last { lastCell with next := some node }
      match mem.read node with
      | none => .error .useAfterFree
      | some cell =>
        let offset := lastCell.node.offset + lastCell.node.length
        .ok (mem.write node { cell with node := { cell.node with offset := offset } }, { o with
          fields := { o.fields with
            payloadLength := o.fields.payloadLength + cell.node.length.toUInt64 } })

/-- Make nodes and add them one after the other. -/
def addPayloads (fuel : Nat) :
    List PayloadNode → PayloadHeap → RequestObject → Except Fault (PayloadHeap × RequestObject)
  | [], mem, o => .ok (mem, o)
  | node :: nodes, mem, o =>
    match ffClientRequestAddPayload fuel (mem.alloc ⟨node, none⟩) o mem.next with
    | .error fault => .error fault
    | .ok (mem, o) => addPayloads fuel nodes mem o

/-! ### Refinement -/

section Refinement

variable {mem : PayloadHeap} {o : RequestObject} {r r' : Request}

/-- An object in memory is one request. -/
theorem Holds.unique (h : Holds mem o r) (h' : Holds mem o r') : r = r' := by
  obtain ⟨hr, as, hhead, _, hseg, hmap⟩ := h
  obtain ⟨hr', bs, hhead', _, hseg', hmap'⟩ := h'
  obtain rfl := hseg.eq_of_head? hseg' (hhead.symm.trans hhead')
  have hp : r.payload = r'.payload :=
    List.map_injective_iff.mpr (Option.some_injective _) (hmap.symm.trans hmap')
  rw [hr, hr', hp]

/-- The search ends where it starts. -/
@[simp] theorem findLastNode_none (fuel node : Nat) (last : Option Nat) :
    findLastNode mem node fuel last none = .ok last := by
  cases fuel <;> rfl

/-- What a node adds to the fields of the request. -/
private def countNode (fields : Request) (node : PayloadNode) : Request :=
  { fields with payloadLength := fields.payloadLength + node.length.toUInt64 }

private theorem addPayload_first {cell : PayloadCell} {a : Nat} (ho : o.payload = none)
    (hread : mem.read a = some cell) (fuel : Nat) :
    ffClientRequestAddPayload fuel mem o a =
      .ok (mem, ⟨countNode o.fields cell.node, some a⟩) := by
  rw [ffClientRequestAddPayload, findLastNode_none, ho]
  simp only [hread]
  rfl

private theorem addPayload_behind {cell first : PayloadCell} {a b : Nat} (ho : o.payload = some b)
    (hb : mem.read b = some first) (ha : mem.read a = some cell) (hne : a ≠ b) (fuel : Nat) :
    ffClientRequestAddPayload fuel mem o a =
      .ok ((mem.write b { first with next := some a }).write a { cell with
          node := { cell.node with offset := first.node.offset + first.node.length } },
        ⟨countNode o.fields cell.node, some b⟩) := by
  have hread : (mem.write b { first with next := some a }).read a = some cell := by
    rw [Heap.read_write _ _ _ _ (Heap.lt_next_of_read hb), if_neg hne, ha]
  rw [ffClientRequestAddPayload, findLastNode_none, ho]
  simp only [hb, hread]
  rw [← ho]
  rfl

/-- Two nodes of which the first was linked to the second. -/
private theorem holds_pair (fields : Request) {a b : Nat} {first : PayloadCell}
    {node node' : PayloadNode} (hne : a ≠ b) (hb : mem.read b = some first)
    (ha : mem.read a = some ⟨node, none⟩) :
    Holds ((mem.write b { first with next := some a }).write a ⟨node', none⟩) ⟨fields, some b⟩
      { fields with payload := [first.node, node'] } := by
  have hlt : b < mem.next := Heap.lt_next_of_read hb
  have hlt' : a < (mem.write b { first with next := some a }).next := by
    rw [Heap.next_write]
    exact Heap.lt_next_of_read ha
  have hreadb : ((mem.write b { first with next := some a }).write a ⟨node', none⟩).read b =
      some { first with next := some a } := by
    rw [Heap.read_write _ _ _ _ hlt', if_neg hne.symm, Heap.read_write _ _ _ _ hlt, if_pos rfl]
  have hreada : ((mem.write b { first with next := some a }).write a ⟨node', none⟩).read a =
      some ⟨node', none⟩ := by
    rw [Heap.read_write _ _ _ _ hlt', if_pos rfl]
  refine ⟨rfl, [b, a], rfl, by simp [hne.symm], ⟨?_, ?_, trivial⟩, by simp [hreada, hreadb]⟩
  · rw [nextOf, hreadb]
    rfl
  · rw [nextOf, hreada]
    rfl

/-- Adding a new node does in memory what the function on plain values says. -/
theorem ffClientRequestAddPayload_refines (h : Holds mem o r) (fuel : Nat) (node : PayloadNode) :
    ∃ mem' o', ffClientRequestAddPayload fuel (mem.alloc ⟨node, none⟩) o mem.next =
        .ok (mem', o') ∧ Holds mem' o' (FfProxy.ffClientRequestAddPayload r node) := by
  obtain ⟨hr, as, hhead, _, _, hmap⟩ := h
  have hnew : (mem.alloc ⟨node, none⟩).read mem.next = some ⟨node, none⟩ := by
    rw [Heap.read_alloc, if_pos rfl]
  cases as with
  | nil =>
    have hp : r.payload = [] := List.map_eq_nil_iff.mp hmap.symm
    have hadd : FfProxy.ffClientRequestAddPayload r node =
        { countNode o.fields node with payload := [node] } := by
      rw [FfProxy.ffClientRequestAddPayload, hp, hr]
      rfl
    refine ⟨_, _, addPayload_first hhead hnew fuel, ?_⟩
    rw [hadd]
    exact holds_single hnew rfl _
  | cons a as =>
    obtain ⟨head, tail, hp⟩ : ∃ head tail, r.payload = head :: tail := by
      cases hp : r.payload with
      | nil =>
        rw [hp] at hmap
        cases hmap
      | cons head tail => exact ⟨head, tail, rfl⟩
    rw [hp, List.map_cons, List.map_cons, List.cons.injEq, Option.map_eq_some_iff] at hmap
    obtain ⟨⟨first, ha, rfl⟩, _⟩ := hmap
    have hne : mem.next ≠ a := (Heap.ne_next_of_read ha).symm
    have hfirst : (mem.alloc ⟨node, none⟩).read a = some first := by
      rw [Heap.read_alloc, if_neg hne.symm, ha]
    have hadd : FfProxy.ffClientRequestAddPayload r node = { countNode o.fields node with
        payload := [first.node,
          { node with offset := first.node.offset + first.node.length }] } := by
      rw [FfProxy.ffClientRequestAddPayload, hp, hr]
      rfl
    refine ⟨_, _, addPayload_behind hhead hfirst hnew hne fuel, ?_⟩
    rw [hadd]
    exact holds_pair _ hne hfirst hnew

/-- Adding nodes one after the other does in memory what it does on plain values. -/
theorem addPayloads_refines (h : Holds mem o r) (fuel : Nat) (nodes : List PayloadNode) :
    ∃ mem' o', addPayloads fuel nodes mem o = .ok (mem', o') ∧
      Holds mem' o' (nodes.foldl FfProxy.ffClientRequestAddPayload r) := by
  induction nodes generalizing mem o r with
  | nil => exact ⟨mem, o, rfl, h⟩
  | cons node nodes ih =>
    obtain ⟨mem₁, o₁, hadd, h₁⟩ := ffClientRequestAddPayload_refines h fuel node
    obtain ⟨mem', o', hrun, h'⟩ := ih h₁
    exact ⟨mem', o', by rw [addPayloads, hadd]; exact hrun, h'⟩

/-- The request before anything was added to it. -/
theorem holds_alloc (mem : PayloadHeap) : Holds mem ⟨ffRequestAlloc, none⟩ ffRequestAlloc :=
  ⟨rfl, [], rfl, List.nodup_nil, trivial, rfl⟩

end Refinement

end PayloadHeap

/-! ### Order -/

/-- The nodes in order, each with the offset where the one before it ends. -/
def placedFrom (start : Nat) : List PayloadNode → List PayloadNode
  | [] => []
  | node :: nodes =>
    { node with offset := UInt16.ofNat start } :: placedFrom (start + node.length.toNat) nodes

/-- How many bytes the nodes have together. -/
def totalLength (nodes : List PayloadNode) : Nat := (nodes.map fun n ↦ n.length.toNat).sum

/-- The request that the nodes are meant to make. -/
def orderedRequest (nodes : List PayloadNode) : Request := { ffRequestAlloc with
  payload := placedFrom 0 nodes
  payloadLength := UInt64.ofNat (totalLength nodes) }

/-- Adding the nodes one after the other to an empty request, in any memory, makes the list of
the nodes in order, with their offsets and the sum of their lengths. -/
def AppendsInOrder (nodes : List PayloadNode) : Prop :=
  ∀ fuel mem, ∃ mem' o', PayloadHeap.addPayloads fuel nodes mem ⟨ffRequestAlloc, none⟩ =
    .ok (mem', o') ∧ PayloadHeap.Holds mem' o' (orderedRequest nodes)

/-- What the nodes end up as is decided on plain values. -/
theorem appendsInOrder_iff_foldl (nodes : List PayloadNode) :
    AppendsInOrder nodes ↔
      nodes.foldl ffClientRequestAddPayload ffRequestAlloc = orderedRequest nodes := by
  constructor
  · intro h
    obtain ⟨mem, o, hrun, hordered⟩ := h 0 Heap.empty
    obtain ⟨mem', o', hrun', hfold⟩ :=
      PayloadHeap.addPayloads_refines (PayloadHeap.holds_alloc Heap.empty) 0 nodes
    obtain ⟨rfl, rfl⟩ := Prod.mk.inj (Except.ok.inj (hrun.symm.trans hrun'))
    exact hfold.unique hordered
  · intro h fuel mem
    rw [← h]
    exact PayloadHeap.addPayloads_refines (PayloadHeap.holds_alloc mem) fuel nodes

/-- The list never has more than two nodes. -/
theorem length_payload_le (nodes : List PayloadNode) {r : Request} (hr : r.payload.length ≤ 2) :
    (nodes.foldl ffClientRequestAddPayload r).payload.length ≤ 2 := by
  induction nodes generalizing r with
  | nil => exact hr
  | cons node nodes ih =>
    apply ih
    unfold ffClientRequestAddPayload
    split
    · exact Nat.le_succ 1
    · exact Nat.le_refl 2

@[simp] theorem length_placedFrom (nodes : List PayloadNode) (start : Nat) :
    (placedFrom start nodes).length = nodes.length := by
  induction nodes generalizing start with
  | nil => rfl
  | cons node nodes ih => rw [placedFrom, List.length_cons, ih, List.length_cons]

/-- The first node stays the first and as it was. -/
theorem head?_payload (nodes : List PayloadNode) {r : Request} {first : PayloadNode}
    (hr : r.payload.head? = some first) :
    (nodes.foldl ffClientRequestAddPayload r).payload.head? = some first := by
  induction nodes generalizing r with
  | nil => exact hr
  | cons node nodes ih =>
    apply ih
    unfold ffClientRequestAddPayload
    split
    · next hp =>
      rw [hp] at hr
      cases hr
    · next hp =>
      rw [hp] at hr
      exact hr

/-- Two nodes are put in order, if the first one is where it belongs. -/
private theorem foldl_pair {first second : PayloadNode} (ho : first.offset = 0) :
    [first, second].foldl ffClientRequestAddPayload ffRequestAlloc =
      orderedRequest [first, second] := by
  have hfirst : first = { first with offset := UInt16.ofNat 0 } := PayloadNode.ext ho rfl rfl
  have hoffset : first.offset + first.length = UInt16.ofNat (0 + first.length.toNat) := by
    rw [ho, UInt16.zero_add, Nat.zero_add, UInt16.ofNat_toNat]
  have hlength : (0 : UInt64) + first.length.toUInt64 + second.length.toUInt64 =
      UInt64.ofNat (totalLength [first, second]) := by
    simp [totalLength]
  simp only [List.foldl_cons, List.foldl_nil, ffClientRequestAddPayload, ffRequestAlloc,
    orderedRequest, placedFrom, hlength, hoffset]
  rw [← hfirst]

private theorem foldl_single {node : PayloadNode} (ho : node.offset = 0) :
    [node].foldl ffClientRequestAddPayload ffRequestAlloc = orderedRequest [node] := by
  have hnode : node = { node with offset := UInt16.ofNat 0 } := PayloadNode.ext ho rfl rfl
  have hlength : (0 : UInt64) + node.length.toUInt64 = UInt64.ofNat (totalLength [node]) := by
    simp [totalLength]
  simp only [List.foldl_cons, List.foldl_nil, ffClientRequestAddPayload, ffRequestAlloc,
    orderedRequest, placedFrom, hlength]
  rw [← hnode]

/-- Nodes are appended in order exactly when there are at most two of them and the first one has
offset 0. -/
theorem appendsInOrder_iff (nodes : List PayloadNode) :
    AppendsInOrder nodes ↔
      nodes.length ≤ 2 ∧ ∀ first, nodes.head? = some first → first.offset = 0 := by
  rw [appendsInOrder_iff_foldl]
  constructor
  · intro h
    have hp := congrArg Request.payload h
    constructor
    · have hle := length_payload_le nodes (r := ffRequestAlloc) (Nat.zero_le 2)
      rwa [hp, orderedRequest, length_placedFrom] at hle
    · intro first hfirst
      obtain ⟨rest, rfl⟩ := List.head?_eq_some_iff.mp hfirst
      have hhead := head?_payload rest (r := ffClientRequestAddPayload ffRequestAlloc first) rfl
      rw [← List.foldl_cons, hp] at hhead
      exact (congrArg PayloadNode.offset (Option.some.inj hhead)).symm
  · rintro ⟨hl, ho⟩
    match nodes, hl, ho with
    | [], _, _ => rfl
    | [node], _, ho => exact foldl_single (ho node rfl)
    | [first, _], _, ho => exact foldl_pair (ho first rfl)

/-- Of three nodes of one byte each the second one is lost. -/
theorem not_appendsInOrder_three : ¬ AppendsInOrder [.ofBytes [65], .ofBytes [66], .ofBytes [67]] ∧
    ([.ofBytes [65], .ofBytes [66], .ofBytes [67]].foldl ffClientRequestAddPayload
      ffRequestAlloc).payload.flatMap PayloadNode.bytes = [65, 67] := by
  refine ⟨fun h ↦ ?_, by decide⟩
  rw [appendsInOrder_iff_foldl] at h
  have hp : (List.foldl ffClientRequestAddPayload ffRequestAlloc
      [.ofBytes [65], .ofBytes [66], .ofBytes [67]]).payload.length = 3 :=
    congrArg (fun r ↦ r.payload.length) h
  exact absurd hp (by decide)

end FfProxy
