import FfProxy.Memory.Blocks
import FfProxy.Parser.Reassembly

/-!
# Receiving packets in memory

What the parser does in memory is what it does to a request as a value: after every packet the
blocks of the request hold the request that the model without pointers has. The only blocks that
get lost are those of a node that is refused because it overlaps another one.
-/

namespace FfProxy
open Base

namespace InMemory

/-! ### Options -/

/-- The loop makes the options that the loop over values finds, or stops where that one stops. -/
theorem parseOptionsLoop_spec (b : Buffer) (slots i : Nat) (os : List (Placed OptionNode)) :
    Spec (parseOptionsLoop b slots i (os.map Placed.address)) (optionCells os) fun result owned ↦
      ∃ os', result.2 = os'.map Placed.address ∧ owned = optionCells os' ∧
        result.1 = (FfProxy.parseOptionsLoop b slots i (os.map Placed.item)).map
          (fun parsed ↦ (parsed.consumed, parsed.containsOptions)) ∧
        ∀ parsed ∈ FfProxy.parseOptionsLoop b slots i (os.map Placed.item),
          os'.map Placed.item = parsed.options := by
  have hnone (os : List (Placed OptionNode)) : ∀ parsed ∈ (none : Option ParsedOptions),
      os.map Placed.item = parsed.options := fun _ h ↦ absurd h (Option.not_mem_none _)
  induction slots generalizing i os with
  | zero => exact Spec.pure ⟨os, rfl, rfl, rfl, hnone os⟩
  | succ slots ih =>
    rw [parseOptionsLoop, FfProxy.parseOptionsLoop]
    split
    · exact Spec.pure ⟨os, rfl, rfl, rfl, hnone os⟩
    dsimp only
    split
    · split
      · exact Spec.pure ⟨os, rfl, rfl, rfl, hnone os⟩
      · exact Spec.pure ⟨os, rfl, rfl, rfl, by rintro _ ⟨⟩; rfl⟩
    split
    · split
      · exact Spec.pure ⟨os, rfl, rfl, rfl, hnone os⟩
      · exact Spec.pure ⟨os, rfl, rfl, rfl, by rintro _ ⟨⟩; rfl⟩
    split
    · exact Spec.pure ⟨os, rfl, rfl, rfl, hnone os⟩
    next hfits =>
      have hvalue : (slice b.mem (i + optionHeaderSize)
          (ntohs (leValue (slice b.mem (i + 1) 2)))).length =
          (UInt16.ofNat (ntohs (leValue (slice b.mem (i + 1) 2)))).toNat := by
        have hb := b.size_le
        rw [length_slice _ _ _ (by omega), UInt16.toNat_ofNat', Nat.mod_eq_of_lt (ntohs_lt _)]
      refine (makeOption_spec ⟨_, _, _, hvalue⟩).step (zero_add _).symm ?_
      rintro node _ ⟨v, rfl⟩
      have hrest := ih (i + optionHeaderSize + ntohs (leValue (slice b.mem (i + 1) 2)))
        (os ++ [⟨node, v, b.mem.getD i 0, _, _, hvalue⟩])
      rw [List.map_append, List.map_append, optionCells_concat] at hrest
      exact hrest

/-- The array grows by the new options. -/
theorem growArray_spec {array : Option Nat} {os : List (Placed OptionNode)}
    (h : array = none ↔ os = []) (made : List (Placed OptionNode)) :
    Spec (growArray array os.length (made.map Placed.address)) (arrayCells array os)
      fun a owned ↦ owned = arrayCells (some a) (os ++ made) := by
  cases array with
  | none =>
    obtain rfl := h.mp rfl
    exact Spec.alloc _
  | some a =>
    refine (loadArray_spec a _).bind ?_
    rintro _ _ ⟨rfl, rfl⟩
    refine (Spec.alloc _).step (zero_add _).symm ?_
    rintro moved _ rfl
    refine (Spec.release _ a).step (add_comm _ _) ?_
    rintro _ _ rfl
    refine Spec.pure ?_
    simp [arrayCells]

/-- Found options leave a free slot. -/
theorem length_lt_of_parsed {b : Buffer} {r : Request} {parsed : ParsedOptions}
    (h : FfProxy.parseOptionsLoop b (ffRequestMaxOptions - r.optionsLength) 0 [] = some parsed) :
    r.options.length + parsed.options.length < ffRequestMaxOptions := by
  obtain ⟨os, hlt, _, _, hos, _⟩ := (parseOptionsLoop_eq_some_iff _ _ _ _ _).mp h
  rw [hos, List.nil_append]
  rw [Request.optionsLength] at hlt
  omega

/-- The options of a packet are added to those of the request. Its payload stays where it is. -/
theorem ffRequestParseOptions_placed {a : Nat} {r : Request} {array : Option Nat}
    {os : List (Placed OptionNode)} {ns : List (Placed PayloadNode)}
    (h : r.PlacedAs array os ns) (b : Buffer) :
    Spec (ffRequestParseOptions a b) (requestCells a r array os ns) fun n owned' ↦
      n = (FfProxy.ffRequestParseOptions r b).2 ∧ ∃ array' os',
        (FfProxy.ffRequestParseOptions r b).1.PlacedAs array' os' ns ∧
          owned' = requestCells a (FfProxy.ffRequestParseOptions r b).1 array' os' ns := by
  have hlength : os.length = r.optionsLength := by
    rw [Request.optionsLength, ← h.options, List.length_map]
  rw [requestCells, add_assoc, add_assoc]
  refine (loadRequest_spec a _).step rfl ?_
  rintro _ _ ⟨rfl, rfl⟩
  rw [toNat_optionsLength h.slots]
  refine (parseOptionsLoop_spec b (ffRequestMaxOptions - os.length) 0 []).step
    (zero_add _).symm ?_
  rintro ⟨found, made⟩ _ ⟨new, rfl, rfl, hfound, hnew⟩
  rw [hlength, List.map_nil] at hfound hnew
  dsimp only at hfound
  rw [FfProxy.ffRequestParseOptions]
  cases hparsed : FfProxy.parseOptionsLoop b (ffRequestMaxOptions - r.optionsLength) 0 [] with
  | none =>
    rw [hparsed] at hfound
    subst hfound
    refine (freeMade_spec new).step rfl ?_
    rintro _ _ rfl
    refine Spec.pure ⟨rfl, array, os, h, ?_⟩
    rw [requestCells, zero_add, add_assoc, add_assoc]
  | some parsed =>
    rw [hparsed] at hfound hnew
    subst hfound
    have hnew : new.map Placed.item = parsed.options := hnew parsed rfl
    dsimp only
    refine (modifyFields_spec a _ _).step (add_left_comm _ _ _) ?_
    rintro _ _ rfl
    split
    · next hnone =>
      obtain rfl := List.map_eq_nil_iff.mp hnone
      refine Spec.pure ⟨rfl, array, os, ⟨?_, h.payload, h.array_none, h.slots⟩, ?_⟩
      · rw [← hnew, h.options, List.map_nil, List.append_nil]
      · rw [requestCells, optionCells, zero_add, add_assoc, add_assoc]
        rfl
    · next hsome =>
      have hslots : (os ++ new).length < ffRequestMaxOptions := by
        have hlt := length_lt_of_parsed hparsed
        rwa [← h.options, ← hnew, List.length_map, List.length_map, ← List.length_append] at hlt
      refine (loadRequest_spec a _).step rfl ?_
      rintro _ _ ⟨rfl, rfl⟩
      dsimp only
      rw [toNat_optionsLength h.slots]
      refine (growArray_spec h.array_none new).step (show _ = _ + (cell a _ + (optionCells new +
        (optionCells os + payloadCells ns none))) by abel) ?_
      rintro grown _ rfl
      refine (Spec.store _ a _).step (add_left_comm _ _ _) ?_
      rintro _ _ rfl
      refine Spec.pure ⟨rfl, some grown, os ++ new, ⟨?_, h.payload, ?_, hslots⟩, ?_⟩
      · rw [List.map_append, h.options, hnew]
      · refine iff_of_false (Option.some_ne_none _) fun hnil ↦ hsome ?_
        rw [(List.append_eq_nil_iff.mp hnil).2, List.map_nil]
      · have hcount : UInt8.ofNat os.length + UInt8.ofNat (new.map Placed.address).length =
            UInt8.ofNat (os ++ new).length := by
          rw [List.length_map, List.length_append, UInt8.ofNat_add]
        rw [hcount, requestCells, optionCells_append]
        have hbare : ({ r with
            payloadContainsOptions := parsed.containsOptions
            options := r.options ++ parsed.options } : Request).bare =
            { r.bare with payloadContainsOptions := parsed.containsOptions } := rfl
        rw [hbare]
        abel

theorem ffRequestParseOptions_spec {a : Nat} {r : Request} {owned : Cells MemCell}
    (h : HoldsRequest a r owned) (b : Buffer) :
    Spec (ffRequestParseOptions a b) owned fun n owned' ↦
      n = (FfProxy.ffRequestParseOptions r b).2 ∧
        HoldsRequest a (FfProxy.ffRequestParseOptions r b).1 owned' := by
  obtain ⟨array, os, ns, h, rfl⟩ := h
  refine (ffRequestParseOptions_placed h b).mono ?_
  rintro n _ ⟨rfl, array', os', h', rfl⟩
  exact ⟨rfl, array', os', ns, h', rfl⟩

theorem parseChunkOptions_spec {a : Nat} {r : Request} {owned : Cells MemCell}
    (h : HoldsRequest a r owned) (b : Buffer) :
    Spec (parseChunkOptions a b) owned fun start owned' ↦
      start = (FfProxy.parseChunkOptions r b).2 ∧
        HoldsRequest a (FfProxy.parseChunkOptions r b).1 owned' := by
  rw [parseChunkOptions, FfProxy.parseChunkOptions]
  split
  · refine (ffRequestParseOptions_spec h (b.advance requestHeaderSize)).bind ?_
    rintro n owned' ⟨rfl, hholds⟩
    apply Spec.pure
    rcases hparsed : FfProxy.ffRequestParseOptions r (b.advance requestHeaderSize) with ⟨r', n⟩
    rw [hparsed] at hholds
    cases n with
    | zero => exact ⟨rfl, hholds⟩
    | succ n => exact ⟨rfl, hholds⟩
  split
  · exact Spec.pure ⟨rfl, h⟩
  · exact Spec.pure ⟨rfl, h⟩

/-! ### Payload nodes -/

/-- A round of the walk ends with an overlap or at the last node, or goes on to the next one. -/
theorem linkLoop_round {fuel : Nat} (new n : Placed PayloadNode) (next : Option Nat)
    {rest : Cells MemCell} {after : Bool → Cells MemCell → Prop}
    (hoverlap : FfProxy.overlapsExistingNode new.item n.item = true →
      after false (new.nodeCells none + (n.nodeCells next + rest)))
    (hlast : FfProxy.overlapsExistingNode new.item n.item = false → next = none →
      after true (new.nodeCells none + (n.nodeCells (some new.address) + rest)))
    (hgo : FfProxy.overlapsExistingNode new.item n.item = false → ∀ m, next = some m →
      Spec (linkLoop new.address fuel m) (new.nodeCells none + (n.nodeCells next + rest)) after) :
    Spec (linkLoop new.address (fuel + 1) n.address)
      (new.nodeCells none + (n.nodeCells next + rest)) after := by
  refine (loadNode_placed new none).step rfl ?_
  rintro _ _ ⟨rfl, rfl⟩
  refine (loadNode_placed n next).step (add_left_comm _ _ _) ?_
  rintro _ _ ⟨rfl, rfl⟩
  rw [add_left_comm]
  split
  · next h => exact Spec.pure (hoverlap h)
  next h =>
    have hapart : FfProxy.overlapsExistingNode new.item n.item = false := Bool.eq_false_iff.mpr h
    cases next with
    | some m => exact hgo hapart m rfl
    | none =>
      refine (storeNode_placed n none (some new.address)).step (add_left_comm _ _ _) ?_
      rintro _ _ rfl
      rw [add_left_comm]
      exact Spec.pure (hlast hapart rfl)

/-- The walk links the new node behind the chain unless it overlaps one of its nodes. -/
theorem linkLoop_spec {fuel : Nat} (new n : Placed PayloadNode) (ns : List (Placed PayloadNode))
    (hfuel : ns.length < fuel) :
    Spec (linkLoop new.address fuel n.address) (new.nodeCells none + payloadCells (n :: ns) none)
      fun linked owned ↦
        ((n :: ns).map Placed.item).any (FfProxy.overlapsExistingNode new.item) = !linked ∧
          owned = new.nodeCells none +
            payloadCells (n :: ns) (if linked then some new.address else none) := by
  induction ns generalizing n fuel with
  | nil =>
    obtain ⟨fuel, rfl⟩ := Nat.exists_eq_succ_of_ne_zero (Nat.ne_of_gt hfuel)
    refine linkLoop_round new n none (fun h ↦ ?_) (fun h _ ↦ ?_) (fun _ _ h ↦ by cases h)
    · simp [h, payloadCells, firstOf]
    · simp [h, payloadCells, firstOf]
  | cons m ns ih =>
    obtain ⟨fuel, rfl⟩ := Nat.exists_eq_succ_of_ne_zero (Nat.ne_of_gt (Nat.zero_lt_of_lt hfuel))
    refine linkLoop_round new n (some m.address) (fun h ↦ ?_) (fun _ h ↦ by cases h)
      (fun h _ hm ↦ ?_)
    · simp [h, payloadCells, firstOf]
    · obtain rfl := Option.some.inj hm
      refine (ih m (Nat.lt_of_succ_lt_succ hfuel)).last
        (show _ = _ + n.nodeCells (some m.address) by abel) ?_
      rintro linked _ ⟨hlinked, rfl⟩
      have hcons (last : Option Nat) : payloadCells (n :: m :: ns) last =
          n.nodeCells (some m.address) + payloadCells (m :: ns) last := rfl
      refine ⟨?_, ?_⟩
      · rw [List.map_cons, List.any_cons, h, Bool.false_or, hlinked]
      · rw [hcons]
        abel

/-- A new node is linked to the payload of the request, or the request stays as it was. -/
theorem linkNode_spec {a : Nat} {r : Request} {owned : Cells MemCell} (h : HoldsRequest a r owned)
    (new : Placed PayloadNode) :
    Spec (linkNode a new.address) (owned + new.nodeCells none) fun linked owned' ↦
      linked = false ∧ FfProxy.linkNode r new.item = none ∧ owned' = owned + new.nodeCells none ∨
        linked = true ∧ ∃ r', FfProxy.linkNode r new.item = some r' ∧ HoldsRequest a r' owned' := by
  obtain ⟨array, os, ns, h, rfl⟩ := h
  have hpayload := h.payload
  rw [requestCells_eq, add_assoc]
  refine (loadRequest_spec a _).step rfl ?_
  rintro _ _ ⟨rfl, rfl⟩
  refine (loadNode_placed new none).step (show _ = _ + (cell a _ + (arrayCells array os +
    optionCells os + payloadCells ns none)) by abel) ?_
  rintro _ _ ⟨rfl, rfl⟩
  cases ns with
  | nil =>
    refine (Spec.store _ a _).step (add_left_comm _ _ _) ?_
    rintro _ _ rfl
    refine Spec.pure (.inr ⟨rfl, { r with
      payload := [new.item]
      receivedLength := new.item.length.toUInt64 }, ?_, array, os, [new],
      ⟨h.options, rfl, h.array_none, h.slots⟩, ?_⟩)
    · rw [FfProxy.linkNode, ← hpayload]
      rfl
    · rw [requestCells_eq]
      refine congrArg₂ (· + ·) rfl ?_
      rw [payloadCells, payloadCells, payloadCells, firstOf]
      abel
  | cons n ns =>
    rw [FfProxy.linkNode, ← hpayload]
    refine (allocated_payload (n :: ns) none).step (show _ = _ + (new.nodeCells none + (cell a _ +
      (arrayCells array os + optionCells os))) by abel) ?_
    rintro fuel _ ⟨hlength, rfl⟩
    refine (linkLoop_spec new n ns hlength).step (show _ = _ + (cell a _ + (arrayCells array os +
      optionCells os)) by abel) ?_
    rintro linked _ ⟨hlinked, rfl⟩
    cases linked with
    | true =>
      refine (modifyFields_spec a _ _).step (add_left_comm _ _ _) ?_
      rintro _ _ rfl
      refine Spec.pure (.inr ⟨rfl, { r with
        payload := (n :: ns).map Placed.item ++ [new.item]
        receivedLength := r.receivedLength + new.item.length.toUInt64 }, ?_, array, os,
        n :: ns ++ [new], ⟨h.options, by rw [List.map_append]; rfl, h.array_none, h.slots⟩, ?_⟩)
      · exact if_neg (Bool.eq_false_iff.mp hlinked)
      · rw [requestCells_eq]
        refine congrArg₂ (· + ·) rfl ?_
        have hnew : payloadCells [new] none = new.nodeCells none := add_zero _
        have hfirst : firstOf [new] none = some new.address := rfl
        rw [payloadCells_append, hnew, hfirst, if_pos rfl]
        abel
    | false =>
      refine Spec.pure (.inl ⟨rfl, if_pos hlinked, ?_⟩)
      rw [if_neg Bool.false_ne_true]
      abel

end InMemory

/-! ### Packets -/

/-- The nodes that a data chunk makes and that are refused because they overlap another one. -/
def refusedByData (r : Request) (b : Buffer) : List PayloadNode :=
  match parseChunkNode r b with
  | (_, none) => []
  | (r, some node) => if (linkNode r node).isNone then [node] else []

/-- The nodes that a packet makes and that are refused because they overlap another one. -/
def refusedNodes (r : Request) (b : Buffer) : List PayloadNode :=
  if r.version = 0 ∧ (ffRequestIsRawHttp b ∨ b.size < requestHeaderSize) then []
  else refusedByData (r.identified b) b

/-- The blocks of nodes that are not linked. -/
def looseCells : List (Placed PayloadNode) → Cells MemCell
  | [] => 0
  | n :: ns => n.nodeCells none + looseCells ns

/-- The cells are the blocks of the given nodes, which nothing leads to. -/
def LostNodes (nodes : List PayloadNode) (lost : Cells MemCell) : Prop :=
  ∃ ns : List (Placed PayloadNode), ns.map Placed.item = nodes ∧ lost = looseCells ns

namespace InMemory

/-- The cells of a request behind a data chunk: those of the request as a value, and those of a
node that was refused. -/
def AfterChunk (a : Nat) (r : Request) (refused : List PayloadNode) (owned : Cells MemCell) :
    Prop :=
  ∃ part lost, owned = part + lost ∧ HoldsRequest a r part ∧ LostNodes refused lost

theorem AfterChunk.none {a : Nat} {r : Request} {owned : Cells MemCell}
    (h : HoldsRequest a r owned) : AfterChunk a r [] owned :=
  ⟨owned, 0, (add_zero _).symm, h, [], rfl, rfl⟩

/-- A packet that is refused. -/
theorem fail_spec {a : Nat} {r : Request} {owned : Cells MemCell} (h : HoldsRequest a r owned) :
    Spec (fail a) owned fun _ owned' ↦ HoldsRequest a { r with state := .receivingFail } owned' :=
  modifyFields_holds h _ rfl rfl rfl

/-- A packet that has been taken. -/
theorem finishChunk_spec {a : Nat} {r : Request} {owned : Cells MemCell}
    (h : HoldsRequest a r owned) :
    Spec (finishChunk a) owned fun _ owned' ↦
      HoldsRequest a (if r.receivedLength = r.payloadLength then { r with state := .received }
        else r) owned' := by
  apply modifyFields_holds h
  · split <;> rfl
  · split <;> rfl
  · by_cases hall : r.receivedLength = r.payloadLength
    · rw [if_pos hall]
      exact (if_pos hall).symm
    · rw [if_neg hall]
      exact (if_neg hall).symm

/-- What becomes of the request and its new node. -/
def linked (r : Request) (node : PayloadNode) : Request :=
  match FfProxy.linkNode r node with
  | none => { r with state := .receivingFail }
  | some r => if r.receivedLength = r.payloadLength then { r with state := .received } else r

/-- A new node is linked, or it is lost. -/
theorem addNode_spec {a : Nat} {r : Request} {owned : Cells MemCell} (h : HoldsRequest a r owned)
    (node : PayloadNode) :
    Spec (addNode a node.offset node.length node.value) owned fun _ owned' ↦
      AfterChunk a (linked r node) (if (FfProxy.linkNode r node).isNone then [node] else [])
        owned' := by
  refine (makeNode_spec node).step (zero_add _).symm ?_
  rintro new _ ⟨v, rfl⟩
  rw [add_comm, linked]
  refine (linkNode_spec h ⟨new, v, node⟩).bind ?_
  rintro _ _ (⟨rfl, hnone, rfl⟩ | ⟨rfl, r', hsome, hholds⟩)
  · dsimp only at hnone
    rw [hnone]
    refine (fail_spec h).last rfl ?_
    intro _ part hpart
    exact ⟨part, _, rfl, hpart, [⟨new, v, node⟩], rfl, (add_zero _).symm⟩
  · dsimp only at hsome
    rw [hsome]
    exact (finishChunk_spec hholds).mono fun _ _ h ↦ .none h

/-- A data chunk does to the request in memory what it does to the request as a value. -/
theorem ffRequestParseDataChunk_spec {a : Nat} {r : Request} {owned : Cells MemCell}
    (h : HoldsRequest a r owned) (b : Buffer) :
    Spec (ffRequestParseDataChunk a b) owned fun _ owned' ↦
      AfterChunk a (FfProxy.ffRequestParseDataChunk r b) (refusedByData r b) owned' := by
  refine (loadRequest_holds h).bind ?_
  rintro c _ ⟨hc, rfl⟩
  have haccept : chunkHeaderAccepted c.fields b = chunkHeaderAccepted r b := by rw [hc]; rfl
  rw [haccept, FfProxy.ffRequestParseDataChunk, refusedByData, parseChunkNode]
  split
  · refine (parseChunkOptions_spec h b).bind ?_
    rintro start owned' ⟨rfl, hholds⟩
    rcases hparsed : FfProxy.parseChunkOptions r b with ⟨r', start⟩
    rw [hparsed] at hholds
    cases start with
    | none => exact (fail_spec hholds).mono fun _ _ h ↦ .none h
    | some i =>
      dsimp only
      by_cases hshort : b.size < i + (readHeader b.mem).chunkLength.toNat
      · rw [if_pos hshort, dif_pos hshort]
        exact (fail_spec hholds).mono fun _ _ h ↦ .none h
      · rw [if_neg hshort, dif_neg hshort]
        exact addNode_spec hholds ⟨_, _, _, _⟩
  · exact (fail_spec h).mono fun _ _ h ↦ .none h

/-- A raw packet becomes the payload of a request without one. -/
theorem ffRequestParseRawHttp_spec {a : Nat} {r : Request} {owned : Cells MemCell}
    (h : HoldsRequest a r owned) (hp : r.payload = []) (b : Buffer) :
    Spec (ffRequestParseRawHttp a b) owned fun _ owned' ↦
      HoldsRequest a (FfProxy.ffRequestParseRawHttp r b) owned' := by
  obtain ⟨array, os, ns, h, rfl⟩ := h
  obtain rfl := List.map_eq_nil_iff.mp (h.payload.trans hp)
  rw [requestCells_eq]
  refine (modifyFields_spec a _ _).step rfl ?_
  rintro _ _ rfl
  refine (Spec.alloc _).step (zero_add _).symm ?_
  rintro node _ rfl
  refine (loadRequest_spec a _).step (add_left_comm _ _ _) ?_
  rintro _ _ ⟨rfl, rfl⟩
  refine (Spec.store _ a _).step rfl ?_
  rintro _ _ rfl
  refine (loadNode_spec node _).step (add_left_comm _ _ _) ?_
  rintro _ _ ⟨rfl, rfl⟩
  refine (Spec.store _ node _).step rfl ?_
  rintro _ _ rfl
  refine (ffRequestPayloadLoadBuff_spec node _ b.bytes).last rfl ?_
  rintro _ _ ⟨v, rfl⟩
  refine ⟨array, os, [⟨node, v, _⟩], ⟨h.options, rfl, h.array_none, h.slots⟩, ?_⟩
  have hnode (n : Placed PayloadNode) : payloadCells [n] none = n.nodeCells none := add_zero _
  rw [requestCells_eq, add_left_comm, hnode, payloadCells]
  refine congrArg₂ (· + ·) rfl ?_
  rw [add_comm, add_zero]
  rfl

/-- A packet does to the request in memory what it does to the request as a value. -/
theorem ffRequestParseChunk_spec {a : Nat} {r : Request} {owned : Cells MemCell}
    (h : HoldsRequest a r owned) (hfresh : r.version = 0 → r.payload = []) (b : Buffer) :
    Spec (ffRequestParseChunk a b) owned fun _ owned' ↦
      AfterChunk a (FfProxy.ffRequestParseChunk r b) (refusedNodes r b) owned' := by
  refine (loadRequest_holds h).bind ?_
  rintro c _ ⟨hc, rfl⟩
  have hversion : c.fields.version = r.version := by rw [hc]; rfl
  rw [hversion, FfProxy.ffRequestParseChunk, refusedNodes, Request.identified]
  by_cases hv : r.version = 0
  · rw [if_pos hv, if_pos hv, if_pos hv, ffRequestParseFirstChunk, FfProxy.ffRequestParseFirstChunk]
    by_cases hraw : ffRequestIsRawHttp b = true
    · rw [if_pos hraw, if_pos hraw, if_pos ⟨hv, .inl hraw⟩]
      exact (ffRequestParseRawHttp_spec h (hfresh hv) b).mono fun _ _ h ↦ .none h
    by_cases hshort : b.size < requestHeaderSize
    · rw [if_neg hraw, if_neg hraw, if_pos hshort, if_pos hshort, if_pos ⟨hv, .inr hshort⟩]
      exact (fail_spec h).mono fun _ _ h ↦ .none h
    · rw [if_neg hraw, if_neg hraw, if_neg hshort, if_neg hshort,
        if_neg fun hno ↦ hno.2.elim hraw hshort]
      refine (modifyFields_holds h { r with
        version := (readHeader b.mem).version.toNat
        requestId := (readHeader b.mem).requestId
        payloadLength := (readHeader b.mem).totalLength.toUInt64 } rfl rfl rfl).bind ?_
      intro _ owned' hholds
      exact ffRequestParseDataChunk_spec hholds b
  · rw [if_neg hv, if_neg hv, if_neg hv, if_neg fun hno ↦ hv hno.1]
    exact ffRequestParseDataChunk_spec h b

end InMemory

/-- The nodes that get lost while packets are fed to a request. -/
def lostNodes : Request → List Buffer → List PayloadNode
  | _, [] => []
  | r, b :: rest => refusedNodes r b ++ lostNodes (ffRequestParseChunk r b) rest

theorem looseCells_append (ns ns' : List (Placed PayloadNode)) :
    looseCells (ns ++ ns') = looseCells ns + looseCells ns' := by
  induction ns with
  | nil => simp [looseCells]
  | cons n ns ih => rw [List.cons_append, looseCells, looseCells, ih, add_assoc]

theorem LostNodes.append {nodes nodes' : List PayloadNode} {lost lost' : Cells MemCell}
    (h : LostNodes nodes lost) (h' : LostNodes nodes' lost') :
    LostNodes (nodes ++ nodes') (lost + lost') := by
  obtain ⟨ns, rfl, rfl⟩ := h
  obtain ⟨ns', rfl, rfl⟩ := h'
  exact ⟨ns ++ ns', List.map_append, (looseCells_append ns ns').symm⟩

/-- Packets do to the request in memory what they do to the request as a value. -/
theorem InMemory.parseChunks_spec {a : Nat} {r : Request} {owned : Cells MemCell}
    (h : HoldsRequest a r owned) (hfits : SingleFits r) (packets : List Buffer) :
    Spec (InMemory.parseChunks a packets) owned fun _ owned' ↦
      InMemory.AfterChunk a (FfProxy.parseChunks r packets) (lostNodes r packets) owned' := by
  induction packets generalizing r owned with
  | nil => exact Spec.pure (.none h)
  | cons b rest ih =>
    refine (ffRequestParseChunk_spec h hfits.fresh b).bind ?_
    rintro _ _ ⟨part, lost, rfl, hholds, hlost⟩
    refine (ih hholds (hfits.parseChunk b)).last rfl ?_
    rintro _ _ ⟨part', lost', rfl, hholds', hlost'⟩
    exact ⟨part', lost + lost', by abel, hholds', hlost.append hlost'⟩

/-- A request in memory that packets are fed to. -/
def InMemory.receive (packets : List Buffer) : MemM Nat := do
  let a ← InMemory.ffRequestAlloc
  InMemory.parseChunks a packets
  return a

theorem InMemory.receive_spec (packets : List Buffer) :
    Spec (InMemory.receive packets) 0 fun a owned ↦
      InMemory.AfterChunk a (FfProxy.parseChunks FfProxy.ffRequestAlloc packets)
        (lostNodes FfProxy.ffRequestAlloc packets) owned := by
  refine ffRequestAlloc_spec.bind ?_
  intro a owned hholds
  refine (parseChunks_spec hholds (SingleFits.parseChunks []) packets).bind ?_
  intro _ owned' hafter
  exact Spec.pure hafter

/-- Whatever packets are fed to a new request, no block is used that is not live. The blocks then
hold the request that the model on values has, and `ff_request_free` releases all of them without
releasing one twice. All other blocks are as they were before the request was allocated, but for
the node and its copy of every packet that was refused because it overlaps another one: nothing
leads to these two any more. -/
theorem request_blocks_released (mem : Heap MemCell) (packets : List Buffer) :
    ∃ a mem₁ mem₂ owned lost, InMemory.receive packets mem = .ok (a, mem₁) ∧
      mem₁.Splits mem.read (owned + lost) ∧
      HoldsRequest a (parseChunks ffRequestAlloc packets) owned ∧
      InMemory.ffRequestFree (some a) mem₁ = .ok ((), mem₂) ∧ mem₂.Splits mem.read lost ∧
      LostNodes (lostNodes ffRequestAlloc packets) lost := by
  obtain ⟨a, mem₁, _, hreceive, hs₁, owned, lost, rfl, hholds, hlost⟩ :=
    InMemory.receive_spec packets mem mem.read (.zero mem)
  obtain ⟨_, mem₂, _, hfree, hs₂, part, rfl, rfl⟩ :=
    (InMemory.ffRequestFree_spec hholds).frame lost mem₁ mem.read hs₁
  rw [zero_add] at hs₂
  exact ⟨a, mem₁, mem₂, owned, lost, hreceive, hs₁, hholds, hfree, hs₂, hlost⟩

-- The second packet covers the byte of the first one again.
example : (lostNodes ffRequestAlloc [samplePacket 2 0 [65], samplePacket 2 0 [66]]).length = 1 := by
  decide +kernel

end FfProxy
