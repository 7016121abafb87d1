import FfProxy.Memory.Model

/-!
# What a request owns

The blocks of a request in memory, and what the functions of `src/request.c` do with them: each
allocates exactly the blocks of what it makes and releases exactly the blocks of what it is given.
-/

namespace FfProxy
open Base

/-- An option or a payload node at its place in memory: its block and the block of its value. -/
structure Placed (β : Type) where
  address : Nat
  value : Nat
  item : β

/-- The blocks of an option. -/
def Placed.optionCells (o : Placed OptionNode) : Cells MemCell :=
  cell o.address (.option ⟨o.item.type, o.item.length, some o.value⟩) +
    cell o.value (.bytes o.item.value)

/-- A payload node with a link. -/
def Placed.nodeCell (n : Placed PayloadNode) (next : Option Nat) : NodeCell :=
  ⟨n.item.offset, n.item.length, some n.value, next⟩

/-- The blocks of a payload node with a link. -/
def Placed.nodeCells (n : Placed PayloadNode) (next : Option Nat) : Cells MemCell :=
  cell n.address (.node (n.nodeCell next)) + cell n.value (.bytes n.item.value)

/-- The blocks of options. -/
def optionCells : List (Placed OptionNode) → Cells MemCell
  | [] => 0
  | o :: os => o.optionCells + optionCells os

/-- The block of the array of options, if there is one. -/
def arrayCells (array : Option Nat) (os : List (Placed OptionNode)) : Cells MemCell :=
  match array with
  | none => 0
  | some a => cell a (.array ((os.map Placed.address).map some))

/-- Where a chain of nodes starts, if `last` stands behind it. -/
def firstOf (ns : List (Placed PayloadNode)) (last : Option Nat) : Option Nat :=
  match ns with
  | [] => last
  | n :: _ => some n.address

/-- The blocks of a chain of payload nodes that ends with the link `last`. -/
def payloadCells : List (Placed PayloadNode) → Option Nat → Cells MemCell
  | [], _ => 0
  | n :: ns, last => n.nodeCells (firstOf ns last) + payloadCells ns last

/-- A request without its options and its payload. -/
def Request.bare (r : Request) : Request := { r with options := [], payload := [] }

/-- The blocks of a request. -/
def requestCells (a : Nat) (r : Request) (array : Option Nat) (os : List (Placed OptionNode))
    (ns : List (Placed PayloadNode)) : Cells MemCell :=
  cell a (.request ⟨r.bare, array, UInt8.ofNat os.length, firstOf ns none⟩) +
    arrayCells array os + optionCells os + payloadCells ns none

/-- The block of a request and the others. -/
theorem requestCells_eq (a : Nat) (r : Request) (array : Option Nat)
    (os : List (Placed OptionNode)) (ns : List (Placed PayloadNode)) :
    requestCells a r array os ns =
      cell a (.request ⟨r.bare, array, UInt8.ofNat os.length, firstOf ns none⟩) +
        (arrayCells array os + optionCells os + payloadCells ns none) := by
  rw [requestCells]
  abel

/-- The payload of a request and its other blocks. -/
theorem requestCells_payload (a : Nat) (r : Request) (array : Option Nat)
    (os : List (Placed OptionNode)) (ns : List (Placed PayloadNode)) :
    requestCells a r array os ns = payloadCells ns none +
      (cell a (.request ⟨r.bare, array, UInt8.ofNat os.length, firstOf ns none⟩) +
        (arrayCells array os + optionCells os)) := by
  rw [requestCells]
  abel

/-- The blocks of a request whose payload is one node. -/
theorem requestCells_single (a : Nat) (r : Request) (array : Option Nat)
    (os : List (Placed OptionNode)) (n : Placed PayloadNode) :
    requestCells a r array os [n] =
      cell a (.request ⟨r.bare, array, UInt8.ofNat os.length, some n.address⟩) +
        (n.nodeCells none + (arrayCells array os + optionCells os)) := by
  have hone : payloadCells [n] none = n.nodeCells none := add_zero _
  rw [requestCells_payload, hone, add_left_comm]
  rfl

/-- The parts of a request at their places. -/
structure Request.PlacedAs (r : Request) (array : Option Nat) (os : List (Placed OptionNode))
    (ns : List (Placed PayloadNode)) : Prop where
  options : os.map Placed.item = r.options
  payload : ns.map Placed.item = r.payload
  array_none : array = none ↔ os = []
  slots : os.length < ffRequestMaxOptions

/-- The cells hold the request `r` at the address `a`. -/
def HoldsRequest (a : Nat) (r : Request) (owned : Cells MemCell) : Prop :=
  ∃ array os ns, r.PlacedAs array os ns ∧ owned = requestCells a r array os ns

theorem optionCells_append (os os' : List (Placed OptionNode)) :
    optionCells (os ++ os') = optionCells os + optionCells os' := by
  induction os with
  | nil => simp [optionCells]
  | cons o os ih => rw [List.cons_append, optionCells, optionCells, ih, add_assoc]

/-- A new option is owned together with the others. -/
theorem optionCells_concat (os : List (Placed OptionNode)) (o : Placed OptionNode) :
    optionCells (os ++ [o]) = o.optionCells + optionCells os := by
  rw [optionCells_append, add_comm, optionCells, optionCells, add_zero]

theorem payloadCells_append (ns ns' : List (Placed PayloadNode)) (last : Option Nat) :
    payloadCells (ns ++ ns') last = payloadCells ns (firstOf ns' last) + payloadCells ns' last := by
  induction ns with
  | nil => simp [payloadCells]
  | cons n ns ih =>
    have hfirst : firstOf (ns ++ ns') last = firstOf ns (firstOf ns' last) := by cases ns <;> rfl
    rw [List.cons_append, payloadCells, payloadCells, ih, hfirst, add_assoc]

theorem length_le_card_payloadCells (ns : List (Placed PayloadNode)) (last : Option Nat) :
    ns.length ≤ Multiset.card (payloadCells ns last) := by
  induction ns with
  | nil => exact Nat.zero_le _
  | cons n ns ih =>
    rw [payloadCells, Placed.nodeCells, Multiset.card_add, Multiset.card_add, List.length_cons]
    simp only [cell, Multiset.card_singleton]
    omega

namespace InMemory

/-! ### Cells of a kind -/

theorem loadOption_spec (a : Nat) (c : OptionCell) :
    Spec (loadOption a) (cell a (.option c)) fun c' owned ↦
      c' = c ∧ owned = cell a (.option c) :=
  Spec.load _ a rfl

theorem loadArray_spec (a : Nat) (entries : List (Option Nat)) :
    Spec (loadArray a) (cell a (.array entries)) fun c' owned ↦
      c' = entries ∧ owned = cell a (.array entries) :=
  Spec.load _ a rfl

theorem loadNode_spec (a : Nat) (c : NodeCell) :
    Spec (loadNode a) (cell a (.node c)) fun c' owned ↦ c' = c ∧ owned = cell a (.node c) :=
  Spec.load _ a rfl

theorem loadRequest_spec (a : Nat) (c : RequestCell) :
    Spec (loadRequest a) (cell a (.request c)) fun c' owned ↦
      c' = c ∧ owned = cell a (.request c) :=
  Spec.load _ a rfl

theorem modifyFields_spec (a : Nat) (c : RequestCell) (f : Request → Request) :
    Spec (modifyFields a f) (cell a (.request c)) fun _ owned ↦
      owned = cell a (.request { c with fields := f c.fields }) := by
  refine (loadRequest_spec a c).bind ?_
  rintro _ _ ⟨rfl, rfl⟩
  exact Spec.store _ a _

/-! ### Options -/

theorem ffRequestOptionLoadBuff_spec (node : Nat) (c : OptionCell) (bytes : List UInt8) :
    Spec (ffRequestOptionLoadBuff node bytes) (cell node (.option c)) fun _ owned ↦
      ∃ v, owned = cell node (.option { c with value := some v }) + cell v (.bytes bytes) := by
  refine (Spec.alloc _).step (zero_add _).symm ?_
  rintro v _ rfl
  refine (loadOption_spec node c).step (add_comm _ _) ?_
  rintro _ _ ⟨rfl, rfl⟩
  refine (Spec.store _ node _).last rfl ?_
  rintro _ _ rfl
  exact ⟨v, rfl⟩

theorem makeOption_spec (o : OptionNode) :
    Spec (makeOption o.type o.length o.value) 0 fun node owned ↦
      ∃ v, owned = Placed.optionCells ⟨node, v, o⟩ := by
  refine (Spec.alloc _).bind ?_
  rintro node _ rfl
  refine (loadOption_spec node _).bind ?_
  rintro _ _ ⟨rfl, rfl⟩
  refine (Spec.store _ node _).bind ?_
  rintro _ _ rfl
  refine (ffRequestOptionLoadBuff_spec node _ o.value).bind ?_
  rintro _ _ ⟨v, rfl⟩
  exact Spec.pure ⟨v, rfl⟩

theorem ffRequestOptionNodeFree_spec (o : Placed OptionNode) :
    Spec (ffRequestOptionNodeFree (some o.address)) o.optionCells fun _ owned ↦ owned = 0 := by
  refine (loadOption_spec o.address _).step rfl ?_
  rintro _ _ ⟨rfl, rfl⟩
  refine (Spec.release _ o.value).step (add_comm _ _) ?_
  rintro _ _ rfl
  rw [zero_add]
  exact Spec.release _ o.address

theorem freeMade_spec (os : List (Placed OptionNode)) :
    Spec (freeMade (os.map Placed.address)) (optionCells os) fun _ owned ↦ owned = 0 := by
  induction os with
  | nil => exact Spec.pure rfl
  | cons o os ih =>
    refine (ffRequestOptionNodeFree_spec o).step rfl ?_
    rintro _ _ rfl
    rw [zero_add]
    exact ih

/-- The entry behind those of some options is that of the next one. -/
theorem optionAt_placed (a : Nat) (done : List (Placed OptionNode)) (o : Placed OptionNode)
    (os : List (Placed OptionNode)) :
    Spec (optionAt (some a) done.length)
      (cell a (.array (((done ++ o :: os).map Placed.address).map some))) fun p owned ↦
        p = o.address ∧
          owned = cell a (.array (((done ++ o :: os).map Placed.address).map some)) := by
  have hentry : (((done ++ o :: os).map Placed.address).map some)[done.length]? =
      some (some o.address) := by
    simp
  refine (loadArray_spec a _).bind ?_
  rintro _ _ ⟨rfl, rfl⟩
  rw [hentry]
  exact Spec.pure ⟨rfl, rfl⟩

/-- The loop releases the options behind those that it has released. -/
theorem freeOptions_spec (a : Nat) (done os : List (Placed OptionNode)) :
    Spec (freeOptions (some a) (List.range' done.length os.length))
      (cell a (.array (((done ++ os).map Placed.address).map some)) + optionCells os)
      fun _ owned ↦ owned = cell a (.array (((done ++ os).map Placed.address).map some)) := by
  induction os generalizing done with
  | nil => exact Spec.pure (add_zero _)
  | cons o os ih =>
    have hcells (array : Cells MemCell) :
        array + optionCells (o :: os) = o.optionCells + (array + optionCells os) := by
      rw [optionCells]
      abel
    have hrest := ih (done ++ [o])
    rw [List.length_append, List.append_assoc] at hrest
    rw [List.length_cons, List.range'_succ]
    refine (optionAt_placed a done o os).step rfl ?_
    rintro _ _ ⟨rfl, rfl⟩
    refine (ffRequestOptionNodeFree_spec o).step (hcells _) ?_
    rintro _ _ rfl
    rw [zero_add]
    exact hrest

/-! ### Payload nodes -/

/-- As many steps as there are blocks are enough to walk along a chain. -/
theorem allocated_payload (ns : List (Placed PayloadNode)) (last : Option Nat) :
    Spec (allocated : MemM Nat) (payloadCells ns last) fun fuel owned ↦
      ns.length ≤ fuel ∧ owned = payloadCells ns last := by
  refine (Spec.allocated _).mono ?_
  rintro fuel _ ⟨hfuel, rfl⟩
  exact ⟨(length_le_card_payloadCells ns last).trans hfuel, rfl⟩

theorem ffRequestPayloadLoadBuff_spec (node : Nat) (c : NodeCell) (bytes : List UInt8) :
    Spec (ffRequestPayloadLoadBuff node bytes) (cell node (.node c)) fun _ owned ↦
      ∃ v, owned = cell node (.node { c with value := some v }) + cell v (.bytes bytes) := by
  refine (Spec.alloc _).step (zero_add _).symm ?_
  rintro v _ rfl
  refine (loadNode_spec node c).step (add_comm _ _) ?_
  rintro _ _ ⟨rfl, rfl⟩
  refine (Spec.store _ node _).last rfl ?_
  rintro _ _ rfl
  exact ⟨v, rfl⟩

theorem makeNode_spec (n : PayloadNode) :
    Spec (makeNode n.offset n.length n.value) 0 fun node owned ↦
      ∃ v, owned = Placed.nodeCells ⟨node, v, n⟩ none := by
  refine (Spec.alloc _).bind ?_
  rintro node _ rfl
  refine (loadNode_spec node _).bind ?_
  rintro _ _ ⟨rfl, rfl⟩
  refine (Spec.store _ node _).bind ?_
  rintro _ _ rfl
  refine (ffRequestPayloadLoadBuff_spec node _ n.value).bind ?_
  rintro _ _ ⟨v, rfl⟩
  exact Spec.pure ⟨v, rfl⟩

theorem loadNode_placed (n : Placed PayloadNode) (next : Option Nat) :
    Spec (loadNode n.address) (n.nodeCells next) fun c owned ↦
      c = n.nodeCell next ∧ owned = n.nodeCells next := by
  refine (loadNode_spec n.address _).last rfl ?_
  rintro _ _ ⟨rfl, rfl⟩
  exact ⟨rfl, rfl⟩

theorem storeNode_placed (n : Placed PayloadNode) (next next' : Option Nat) :
    Spec (storeNode n.address (n.nodeCell next')) (n.nodeCells next) fun _ owned ↦
      owned = n.nodeCells next' := by
  refine (Spec.store _ n.address _).last rfl ?_
  rintro _ _ rfl
  rfl

/-- The first node of a chain is read. -/
theorem loadFirst_spec (n : Placed PayloadNode) (ns : List (Placed PayloadNode)) :
    Spec (loadNode n.address) (payloadCells (n :: ns) none) fun c owned ↦
      c = n.nodeCell (firstOf ns none) ∧ owned = payloadCells (n :: ns) none := by
  refine (loadNode_placed n _).last rfl ?_
  rintro _ _ ⟨rfl, rfl⟩
  exact ⟨rfl, rfl⟩

theorem ffRequestPayloadNodeFree_spec (n : Placed PayloadNode) (next : Option Nat) :
    Spec (ffRequestPayloadNodeFree (some n.address)) (n.nodeCells next) fun _ owned ↦
      owned = 0 := by
  refine (loadNode_spec n.address _).step rfl ?_
  rintro _ _ ⟨rfl, rfl⟩
  refine (Spec.release _ n.value).step (add_comm _ _) ?_
  rintro _ _ rfl
  rw [zero_add]
  exact Spec.release _ n.address

/-- The loop releases the nodes of a chain. -/
theorem freePayload_spec {fuel : Nat} (ns : List (Placed PayloadNode)) (h : ns.length ≤ fuel) :
    Spec (freePayload fuel (firstOf ns none)) (payloadCells ns none) fun _ owned ↦ owned = 0 := by
  induction ns generalizing fuel with
  | nil => cases fuel <;> exact Spec.pure rfl
  | cons n ns ih =>
    cases fuel with
    | zero => cases h
    | succ fuel =>
      refine (loadNode_placed n _).step rfl ?_
      rintro _ _ ⟨rfl, rfl⟩
      refine (ffRequestPayloadNodeFree_spec n _).step rfl ?_
      rintro _ _ rfl
      rw [zero_add]
      exact ih (Nat.le_of_succ_le_succ h)

/-! ### Requests -/

/-- A new request owns one block. -/
theorem ffRequestAlloc_spec :
    Spec ffRequestAlloc 0 fun a owned ↦ HoldsRequest a FfProxy.ffRequestAlloc owned := by
  refine (Spec.alloc _).mono ?_
  rintro a _ rfl
  refine ⟨none, [], [], ⟨rfl, rfl, by simp, by decide⟩, ?_⟩
  simp [requestCells, arrayCells, optionCells, payloadCells]
  rfl

/-- A request is read. -/
theorem loadRequest_placed {a : Nat} {r : Request} {array : Option Nat}
    {os : List (Placed OptionNode)} {ns : List (Placed PayloadNode)} :
    Spec (loadRequest a) (requestCells a r array os ns) fun c owned ↦
      c = ⟨r.bare, array, UInt8.ofNat os.length, firstOf ns none⟩ ∧
        owned = requestCells a r array os ns := by
  rw [requestCells_eq]
  exact (loadRequest_spec a _).last rfl fun _ _ h ↦ ⟨h.1, by rw [h.2]⟩

/-- Reading a request. -/
theorem loadRequest_holds {a : Nat} {r : Request} {owned : Cells MemCell}
    (h : HoldsRequest a r owned) :
    Spec (loadRequest a) owned fun c owned' ↦ c.fields = r.bare ∧ owned' = owned := by
  obtain ⟨array, os, ns, h, rfl⟩ := h
  refine loadRequest_placed.mono ?_
  rintro _ _ ⟨rfl, rfl⟩
  exact ⟨rfl, rfl⟩

/-- The fields of a request are changed in place, -/
theorem modifyFields_placed {a : Nat} {r : Request} {array : Option Nat}
    {os : List (Placed OptionNode)} {ns : List (Placed PayloadNode)}
    (h : r.PlacedAs array os ns) {f : Request → Request} (r' : Request)
    (hoptions : r'.options = r.options) (hpayload : r'.payload = r.payload)
    (hbare : r'.bare = f r.bare) :
    Spec (modifyFields a f) (requestCells a r array os ns) fun _ owned' ↦
      r'.PlacedAs array os ns ∧ owned' = requestCells a r' array os ns := by
  rw [requestCells, add_assoc, add_assoc]
  refine (modifyFields_spec a _ f).last rfl ?_
  rintro _ _ rfl
  refine ⟨⟨h.options.trans hoptions.symm, h.payload.trans hpayload.symm, h.array_none, h.slots⟩, ?_⟩
  rw [requestCells, hbare, add_assoc, add_assoc]

/-- and it holds the changed request then. -/
theorem modifyFields_holds {a : Nat} {r : Request} {owned : Cells MemCell}
    (h : HoldsRequest a r owned) {f : Request → Request} (r' : Request)
    (hoptions : r'.options = r.options) (hpayload : r'.payload = r.payload)
    (hbare : r'.bare = f r.bare) :
    Spec (modifyFields a f) owned fun _ owned' ↦ HoldsRequest a r' owned' := by
  obtain ⟨array, os, ns, h, rfl⟩ := h
  exact (modifyFields_placed h r' hoptions hpayload hbare).mono fun _ _ h ↦
    ⟨array, os, ns, h.1, h.2⟩

/-- All options in the array are released. -/
theorem freeOptions_all_spec {array : Option Nat} {os : List (Placed OptionNode)}
    (h : array = none ↔ os = []) :
    Spec (freeOptions array (List.range os.length)) (arrayCells array os + optionCells os)
      fun _ owned ↦ owned = arrayCells array os := by
  cases array with
  | none =>
    obtain rfl := h.mp rfl
    exact Spec.pure (add_zero _)
  | some a =>
    rw [List.range_eq_range']
    exact freeOptions_spec a [] os

theorem free_array_spec (array : Option Nat) (os : List (Placed OptionNode)) :
    Spec (free array) (arrayCells array os) fun _ owned ↦ owned = 0 := by
  cases array with
  | none => exact Spec.release_none _
  | some a => exact Spec.release _ a

/-- The counter of the options does not wrap. -/
theorem toNat_optionsLength {n : Nat} (h : n < ffRequestMaxOptions) :
    (UInt8.ofNat n).toNat = n := by
  rw [ffRequestMaxOptions] at h
  exact UInt8.toNat_ofNat_of_lt' (by rw [UInt8.size]; omega)

/-- `ff_request_free` releases every block of a request. -/
theorem ffRequestFree_spec {a : Nat} {r : Request} {owned : Cells MemCell}
    (h : HoldsRequest a r owned) :
    Spec (ffRequestFree (some a)) owned fun _ owned' ↦ owned' = 0 := by
  obtain ⟨array, os, ns, h, rfl⟩ := h
  rw [requestCells_eq]
  refine (loadRequest_spec a _).step rfl ?_
  rintro _ _ ⟨rfl, rfl⟩
  rw [toNat_optionsLength h.slots]
  refine (freeOptions_all_spec h.array_none).step
    (show _ = _ + (cell a _ + payloadCells ns none) by abel) ?_
  rintro _ _ rfl
  refine (free_array_spec array os).step rfl ?_
  rintro _ _ rfl
  rw [zero_add]
  refine (allocated_payload ns none).step (add_comm _ _) ?_
  rintro fuel _ ⟨hlength, rfl⟩
  refine (freePayload_spec ns hlength).step rfl ?_
  rintro _ _ rfl
  rw [zero_add]
  exact Spec.release _ a

end InMemory

end FfProxy
