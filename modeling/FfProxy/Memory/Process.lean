import FfProxy.Memory.Decrypt
import FfProxy.Memory.Receive
import FfProxy.PayloadHeap

/-!
# The whole way of a request through memory

From the allocation of a request to its release by a worker. The worker forwards what the model on
values forwards, and when it is done every block that was allocated on the way has been released,
but for those that the program drops: nodes of packets that overlap others, and copies of option
values behind which a later option of the same type follows.
-/

namespace FfProxy
open Base

namespace InMemory

/-! ### Options at the start of the payload -/

/-- The value of the first node of a chain is read. -/
theorem loadFirstValue_spec (n : Placed PayloadNode) (ns : List (Placed PayloadNode)) :
    Spec (loadBytes n.value) (payloadCells (n :: ns) none) fun v owned ↦
      v = n.item.value ∧ owned = payloadCells (n :: ns) none := by
  refine (loadBytes_spec n.value n.item.value).last (show _ = _ + (cell n.address _ +
    payloadCells ns none) by rw [payloadCells, Placed.nodeCells]; abel) ?_
  rintro _ _ ⟨rfl, rfl⟩
  refine ⟨rfl, ?_⟩
  rw [payloadCells, Placed.nodeCells]
  abel

/-- A list of options that is taken and does not lead to a new payload is refused. -/
theorem takenThenRefused_of_parsed {r : Request} {node : PayloadNode} {s : RequestState}
    (hc : r.payloadContainsOptions = true)
    (hn : (FfProxy.ffRequestParseOptions { r with state := s } node.buffer).2 ≠ 0)
    (h : node.length.toNat ≤
        (FfProxy.ffRequestParseOptions { r with state := s } node.buffer).2 ∨
      (FfProxy.ffRequestParseOptions { r with state := s } node.buffer).1.payloadContainsOptions =
        true) : PayloadHeap.TakenThenRefused r node := by
  rcases ffRequestParseOptions_cases { r with state := s } node.buffer with
    hm | ⟨os, brk, hlt, hd, hpre, ho⟩
  · rw [hm] at hn
    exact absurd rfl hn
  · rw [ho] at h
    exact ⟨hc, os, brk, hlt, hd, hpre, h⟩

/-- What follows the options becomes the payload, and the old node is released. -/
theorem dropOptions_spec {a : Nat} {r : Request} {array : Option Nat}
    {os : List (Placed OptionNode)} {n : Placed PayloadNode} (h : r.PlacedAs array os [n]) (k : Nat)
    (hk : k < n.item.length.toNat) :
    Spec (dropOptions a n.address k (n.nodeCell none) n.item.value)
      (requestCells a r array os [n]) fun _ owned' ↦
        HoldsRequest a { r with
          payload := [n.item.dropOptions k hk]
          payloadLength := (n.item.dropOptions k hk).length.toUInt64
          state := .parsedOptions } owned' := by
  refine (makeNode_spec (n.item.dropOptions k hk)).step (zero_add _).symm ?_
  rintro node _ ⟨v, rfl⟩
  refine loadRequest_placed.step (add_comm _ _) ?_
  rintro _ _ ⟨rfl, rfl⟩
  rw [requestCells_single]
  refine (Spec.store _ a _).step (show _ = _ + (n.nodeCells none + (arrayCells array os +
    optionCells os + Placed.nodeCells ⟨node, v, n.item.dropOptions k hk⟩ none)) by abel) ?_
  rintro _ _ rfl
  refine (ffRequestPayloadNodeFree_spec n none).last (add_left_comm _ _ _) ?_
  rintro _ _ rfl
  refine ⟨array, os, [⟨node, v, n.item.dropOptions k hk⟩], ⟨h.options, rfl, h.array_none, h.slots⟩,
    ?_⟩
  rw [requestCells_single, zero_add]
  refine congrArg₂ (· + ·) rfl ?_
  abel

/-- `ff_request_parse_options_from_payload` does to the request in memory what it does to the
request as a value, unless it takes the options and then refuses them. -/
theorem ffRequestParseOptionsFromPayload_spec {a : Nat} {r r' : Request} {owned : Cells MemCell}
    (h : HoldsRequest a r owned)
    (hrun : FfProxy.ffRequestParseOptionsFromPayload r = .ok r')
    (hkept : ∀ node, r.payload = [node] → ¬ PayloadHeap.TakenThenRefused r node) :
    Spec (ffRequestParseOptionsFromPayload a) owned fun _ owned' ↦ HoldsRequest a r' owned' := by
  obtain ⟨array, os, ns, h, rfl⟩ := h
  obtain ⟨n, rfl, hrun⟩ : ∃ n : Placed PayloadNode, ns = [n] ∧ r' =
      if r.payloadContainsOptions then payloadOptionsExit n.item
        (FfProxy.ffRequestParseOptions { r with state := .parsingOptions } n.item.buffer)
      else { r with state := .parsedOptions } := by
    rw [FfProxy.ffRequestParseOptionsFromPayload] at hrun
    split at hrun
    · next node hnode =>
      obtain ⟨n, rfl, rfl⟩ := List.map_eq_singleton_iff.mp (h.payload.trans hnode)
      refine ⟨n, rfl, ?_⟩
      split at hrun
      · next hc => rw [if_pos hc, ← Except.ok.inj hrun]
      · next hc => rw [if_neg hc, ← Except.ok.inj hrun]
    · cases hrun
  have hone : r.payload = [n.item] := h.payload.symm
  refine loadRequest_placed.bind ?_
  rintro _ _ ⟨rfl, rfl⟩
  refine (loadFirst_spec n []).step (requestCells_payload a r array os [n]) ?_
  rintro _ _ ⟨rfl, rfl⟩
  rw [← requestCells_payload, if_neg (not_not.mpr (show (n.nodeCell (firstOf [] none)).next = none
    from rfl))]
  refine (modifyFields_placed h { r with state := .parsingOptions } rfl rfl rfl).bind ?_
  rintro _ _ ⟨h, rfl⟩
  dsimp only
  have hcontains : r.bare.payloadContainsOptions = r.payloadContainsOptions := rfl
  rw [hcontains]
  by_cases hc : r.payloadContainsOptions = true
  · rw [if_pos hc] at hrun ⊢
    refine (loadFirstValue_spec n []).step (requestCells_payload a _ array os [n]) ?_
    rintro _ _ ⟨rfl, rfl⟩
    rw [← requestCells_payload, dif_pos (show (n.nodeCell (firstOf [] none)).length.toNat ≤
      n.item.value.length from n.item.length_le)]
    refine (ffRequestParseOptions_placed h n.item.buffer).bind ?_
    rintro _ _ ⟨rfl, array', os', h', rfl⟩
    refine loadRequest_placed.bind ?_
    rintro _ _ ⟨rfl, rfl⟩
    rw [payloadOptionsExit] at hrun
    dsimp only at hrun ⊢
    by_cases hn : (FfProxy.ffRequestParseOptions { r with state := .parsingOptions }
        n.item.buffer).2 = 0
    · rw [if_pos hn] at hrun ⊢
      subst hrun
      exact modifyFields_holds ⟨array', os', [n], h', rfl⟩ _ rfl rfl rfl
    rw [if_neg hn] at hrun ⊢
    -- Either refusal would be one of options that have been taken.
    have hlt : ¬ n.item.length.toNat ≤ (FfProxy.ffRequestParseOptions
        { r with state := .parsingOptions } n.item.buffer).2 := fun hle ↦
      hkept n.item hone (takenThenRefused_of_parsed hc hn (.inl hle))
    have hbreak : ¬ (FfProxy.ffRequestParseOptions { r with state := .parsingOptions }
        n.item.buffer).1.payloadContainsOptions = true := fun hb ↦
      hkept n.item hone (takenThenRefused_of_parsed hc hn (.inr hb))
    rw [dif_neg hlt, if_neg hbreak] at hrun
    rw [if_neg (show ¬ (n.nodeCell (firstOf [] none)).length.toNat ≤ _ from hlt),
      if_neg (show ¬ (Request.bare _).payloadContainsOptions = true from hbreak)]
    subst hrun
    exact dropOptions_spec h' _ (Nat.not_le.mp hlt)
  · rw [if_neg hc] at hrun ⊢
    subst hrun
    exact modifyFields_holds ⟨array, os, [n], h, rfl⟩ { r with state := .parsedOptions } rfl rfl rfl

/-! ### Reading a request -/

/-- The options behind those that have been read. -/
theorem readOptions_spec (a : Nat) (done os : List (Placed OptionNode)) :
    Spec (readOptions (some a) (List.range' done.length os.length))
      (cell a (.array (((done ++ os).map Placed.address).map some)) + optionCells os)
      fun items owned ↦ items = os.map Placed.item ∧
        owned = cell a (.array (((done ++ os).map Placed.address).map some)) + optionCells os := by
  induction os generalizing done with
  | nil => exact Spec.pure ⟨rfl, rfl⟩
  | cons o os ih =>
    have hrest := ih (done ++ [o])
    rw [List.length_append, List.append_assoc] at hrest
    rw [List.length_cons, List.range'_succ, optionCells]
    refine (optionAt_placed a done o os).step rfl ?_
    rintro _ _ ⟨rfl, rfl⟩
    refine (loadOption_placed o).step (show _ = _ + (cell a _ + optionCells os) by abel) ?_
    rintro _ _ ⟨rfl, rfl⟩
    refine (readValue_spec o).step rfl ?_
    rintro _ _ ⟨rfl, rfl⟩
    rw [dif_pos o.item.length_eq]
    refine hrest.step (add_comm _ _) ?_
    rintro _ _ ⟨rfl, rfl⟩
    refine Spec.pure ⟨rfl, ?_⟩
    simp only [List.singleton_append]
    abel

/-- The nodes of a chain. -/
theorem readPayload_spec {fuel : Nat} (ns : List (Placed PayloadNode)) (h : ns.length ≤ fuel) :
    Spec (readPayload fuel (firstOf ns none)) (payloadCells ns none) fun items owned ↦
      items = ns.map Placed.item ∧ owned = payloadCells ns none := by
  induction ns generalizing fuel with
  | nil => cases fuel <;> exact Spec.pure ⟨rfl, rfl⟩
  | cons n ns ih =>
    cases fuel with
    | zero => cases h
    | succ fuel =>
      refine (loadFirst_spec n ns).bind ?_
      rintro _ _ ⟨rfl, rfl⟩
      refine (loadFirstValue_spec n ns).bind ?_
      rintro _ _ ⟨rfl, rfl⟩
      rw [dif_pos (show (n.nodeCell (firstOf ns none)).length.toNat ≤ n.item.value.length from
        n.item.length_le)]
      refine (ih (Nat.le_of_succ_le_succ h)).step (show _ = _ + n.nodeCells (firstOf ns none) by
        rw [payloadCells]; abel) ?_
      rintro _ _ ⟨rfl, rfl⟩
      refine Spec.pure ⟨rfl, ?_⟩
      rw [payloadCells]
      abel

/-- A function that reads a request in memory sees the request as a value. -/
theorem readRequest_spec {a : Nat} {r : Request} {owned : Cells MemCell}
    (h : HoldsRequest a r owned) :
    Spec (readRequest a) owned fun q owned' ↦ q = r ∧ owned' = owned := by
  obtain ⟨array, os, ns, h, rfl⟩ := h
  have hoptions : Spec (readOptions array (List.range os.length))
      (arrayCells array os + optionCells os) fun items owned ↦ items = os.map Placed.item ∧
        owned = arrayCells array os + optionCells os := by
    cases array with
    | none =>
      obtain rfl := h.array_none.mp rfl
      exact Spec.pure ⟨rfl, rfl⟩
    | some array =>
      rw [List.range_eq_range']
      exact readOptions_spec array [] os
  refine loadRequest_placed.bind ?_
  rintro _ _ ⟨rfl, rfl⟩
  dsimp only
  rw [toNat_optionsLength h.slots]
  refine hoptions.step (show _ = _ + (cell a _ + payloadCells ns none) by
    rw [requestCells]; abel) ?_
  rintro _ _ ⟨rfl, rfl⟩
  refine (allocated_payload ns none).step (show _ = _ + (cell a _ + (arrayCells array os +
    optionCells os)) by abel) ?_
  rintro fuel _ ⟨hnodes, rfl⟩
  refine (readPayload_spec ns hnodes).step rfl ?_
  rintro _ _ ⟨rfl, rfl⟩
  refine Spec.pure ⟨?_, ?_⟩
  · rw [h.options, h.payload]
    rfl
  · rw [requestCells]
    abel

/-! ### The worker -/

/-- `ff_http_send_request` sees the request as a value and sets its state. The block of the host
name is released. -/
theorem ffHttpSendRequest_spec (up : Upstream) (garbage : Nat → UInt8) {a : Nat} {r : Request}
    {owned : Cells MemCell} (h : HoldsRequest a r owned) :
    Spec (ffHttpSendRequest up garbage a) owned fun q owned' ↦
      q = r ∧ HoldsRequest a (FfProxy.ffHttpSendRequest up r) owned' := by
  refine (readRequest_spec h).bind ?_
  rintro q _ ⟨hq, rfl⟩
  rw [hq]
  refine (Spec.alloc _).step (zero_add _).symm ?_
  rintro host _ rfl
  refine (modifyFields_holds h (FfProxy.ffHttpSendRequest up r)
    (by rw [ffHttpSendRequest_eq]) (by rw [ffHttpSendRequest_eq])
    (by rw [ffHttpSendRequest_eq]; rfl)).step (add_comm _ _) ?_
  intro _ part hpart
  refine (Spec.release _ host).step (add_comm _ _) ?_
  rintro _ _ rfl
  rw [zero_add]
  exact Spec.pure ⟨rfl, hpart⟩

end InMemory

/-- What the stages behind the decryption leave of a request, `src/server.c:217–242`. -/
def ProcessedTo (env : Environment) (config : Config) (r : Request) (p : Processed) : Prop :=
  if r.state ≠ .decrypted then p = ⟨r, none⟩
  else ∃ r', ffRequestParseOptionsFromPayload r = .ok r' ∧ p =
    if r'.state ≠ .parsedOptions then ⟨r', none⟩
    else if ffProxyValidateRequestTimestamp config env.now r' then
      ⟨ffHttpSendRequest env.upstream r', some r'⟩
    else ⟨r', none⟩

/-- The stages of a worker that comes to its end. -/
theorem ffProxyProcessRequest_stages {env : Environment} {config : Config} {r : Request}
    {p : Processed} (h : ffProxyProcessRequest env config r = .ok p) :
    ∃ r₁ r₂, ffRequestVectorisePayload (env.garbage 0) r = .ok r₁ ∧
      ffDecryptRequest env.ssl (env.garbage 1) config.encryption r₁ = .ok r₂ ∧
      ProcessedTo env config r₂ p := by
  obtain ⟨r₁, hvector, h⟩ := bind_eq_ok h
  obtain ⟨r₂, hdecrypt, h⟩ := bind_eq_ok h
  refine ⟨r₁, r₂, hvector, hdecrypt, ?_⟩
  rw [ProcessedTo]
  split at h
  · next hstate => rw [if_pos hstate, ← Except.ok.inj h]
  next hstate =>
  rw [if_neg hstate]
  obtain ⟨r₃, hparse, h⟩ := bind_eq_ok h
  refine ⟨r₃, hparse, ?_⟩
  split at h
  · next hparsed => rw [if_pos hparsed, ← Except.ok.inj h]
  next hparsed =>
  rw [if_neg hparsed]
  split at h
  · next hvalid => rw [if_pos hvalid, ← Except.ok.inj h]
  · next hvalid => rw [if_neg hvalid, ← Except.ok.inj h]

/-- The worker comes to a decrypted payload whose options it takes and then refuses. -/
def RefusesPayloadOptions (env : Environment) (config : Config) (r : Request) : Prop :=
  ∃ r₁ r₂ node, ffRequestVectorisePayload (env.garbage 0) r = .ok r₁ ∧
    ffDecryptRequest env.ssl (env.garbage 1) config.encryption r₁ = .ok r₂ ∧
    r₂.state = .decrypted ∧ r₂.payload = [node] ∧ PayloadHeap.TakenThenRefused r₂ node

/-- Only a request whose options end with a break has options in its payload. -/
theorem not_refusesPayloadOptions {env : Environment} {config : Config} {r : Request}
    (h : r.payloadContainsOptions = false) : ¬ RefusesPayloadOptions env config r := by
  rintro ⟨r₁, r₂, node, hvector, hdecrypt, -, -, hcontains, -⟩
  obtain ⟨_, rfl, -⟩ := ffRequestVectorisePayload_cases hvector
  rw [ffDecryptRequest_frame hdecrypt] at hcontains
  exact absurd (h.symm.trans hcontains) Bool.false_ne_true

namespace InMemory

theorem processDecrypted_spec {env : Environment} {config : Config} {a : Nat} {r : Request}
    {p : Processed} {owned : Cells MemCell} (h : HoldsRequest a r owned)
    (hp : ProcessedTo env config r p)
    (hkept : r.state = .decrypted → ∀ node, r.payload = [node] →
      ¬ PayloadHeap.TakenThenRefused r node) :
    Spec (processDecrypted env config a) owned fun forwarded owned' ↦
      forwarded = p.forwarded ∧ HoldsRequest a p.request owned' := by
  rw [ProcessedTo] at hp
  refine (loadRequest_holds h).bind ?_
  rintro c _ ⟨hc, rfl⟩
  have hstate : c.fields.state = r.state := by rw [hc]; rfl
  rw [hstate]
  by_cases hdecrypted : r.state = .decrypted
  · rw [if_neg (not_not.mpr hdecrypted)] at hp ⊢
    obtain ⟨r', hparse, rfl⟩ := hp
    refine (ffRequestParseOptionsFromPayload_spec h hparse (hkept hdecrypted)).bind ?_
    intro _ owned' h'
    refine (readRequest_spec h').bind ?_
    rintro q _ ⟨hq, rfl⟩
    rw [hq]
    by_cases hparsed : r'.state = .parsedOptions
    · rw [if_neg (not_not.mpr hparsed), if_neg (not_not.mpr hparsed)]
      by_cases hvalid : ffProxyValidateRequestTimestamp config env.now r' = true
      · rw [if_pos hvalid, if_pos hvalid]
        refine (ffHttpSendRequest_spec env.upstream (env.garbage 2) h').bind ?_
        rintro q' _ ⟨hq', hsent⟩
        exact Spec.pure ⟨congrArg some hq', hsent⟩
      · rw [if_neg hvalid, if_neg hvalid]
        exact Spec.pure ⟨rfl, h'⟩
    · rw [if_pos hparsed, if_pos hparsed]
      exact Spec.pure ⟨rfl, h'⟩
  · rw [if_pos hdecrypted] at hp ⊢
    rw [hp]
    exact Spec.pure ⟨rfl, h⟩

/-- `ff_proxy_process_request` forwards in memory what it forwards as a value, and releases the
request and its own arguments. -/
theorem ffProxyProcessRequest_spec {env : Environment} {config : Config} {args a : Nat}
    {r : Request} {p : Processed} {owned : Cells MemCell} (hssl : env.ssl.FillsKey)
    (h : HoldsRequest a r owned) (hrun : FfProxy.ffProxyProcessRequest env config r = .ok p)
    (hkept : ¬ RefusesPayloadOptions env config r) :
    Spec (ffProxyProcessRequest env config args) (owned + cell args (.args a))
      fun forwarded lost ↦ forwarded = p.forwarded ∧
        LostBytes (lostValues config.encryption r.options) lost := by
  obtain ⟨r₁, r₂, hvector, hdecrypt, hp⟩ := ffProxyProcessRequest_stages hrun
  obtain ⟨node, hr₁, -⟩ := ffRequestVectorisePayload_cases hvector
  have hoptions : r₁.options = r.options := by rw [hr₁]
  refine (Spec.load Fault.useAfterFree args (rfl : MemCell.asArgs (.args a) = some a)).step
    (add_comm _ _) ?_
  rintro _ _ ⟨rfl, rfl⟩
  refine (ffRequestVectorisePayload_spec h hvector).step (add_comm _ _) ?_
  intro _ owned₁ h₁
  refine (ffDecryptRequest_holds hssl h₁ hdecrypt).step rfl ?_
  rintro _ _ ⟨owned₂, lost, rfl, h₂, hlost⟩
  refine (processDecrypted_spec h₂ hp fun hstate node hnode hrefused ↦
    hkept ⟨r₁, r₂, node, hvector, hdecrypt, hstate, hnode, hrefused⟩).step (add_assoc _ _ _) ?_
  rintro _ owned₃ ⟨rfl, h₃⟩
  refine (ffRequestFree_spec h₃).step rfl ?_
  rintro _ _ rfl
  rw [zero_add]
  refine (Spec.release _ args).step (add_comm _ _) ?_
  rintro _ _ rfl
  rw [zero_add]
  refine Spec.pure ⟨rfl, ?_⟩
  rwa [hoptions] at hlost

/-- A request from its allocation to its release: the packets, the arguments of the worker, and the
worker. -/
def serve (env : Environment) (config : Config) (packets : List Buffer) :
    MemM (Option Request) := do
  let request ← InMemory.receive packets
  let args ← alloc (.args request)
  ffProxyProcessRequest env config args

end InMemory

/-- A worker that comes to its end as a value comes to it in memory and forwards the same request,
whatever packets it was given: no block is used that is not live, and none is released twice. All
other blocks are then as they were before the request was allocated, but for the nodes of the
packets that were refused, and for the copies of IVs, tags and salts that a later copy replaced.
Not covered is the way out that takes the options of the payload and then refuses them. -/
theorem worker_blocks_released (mem : Heap MemCell) (env : Environment) (config : Config)
    (packets : List Buffer) (p : Processed) (hssl : env.ssl.FillsKey)
    (hrun : ffProxyProcessRequest env config (parseChunks ffRequestAlloc packets) = .ok p)
    (hkept : ¬ RefusesPayloadOptions env config (parseChunks ffRequestAlloc packets)) :
    ∃ mem' nodes copies, InMemory.serve env config packets mem = .ok (p.forwarded, mem') ∧
      mem'.Splits mem.read (nodes + copies) ∧
      LostNodes (lostNodes ffRequestAlloc packets) nodes ∧
      LostBytes (lostValues config.encryption (parseChunks ffRequestAlloc packets).options)
        copies := by
  have hspec : Spec (InMemory.serve env config packets) 0 fun forwarded owned ↦
      forwarded = p.forwarded ∧ ∃ nodes copies, owned = nodes + copies ∧
        LostNodes (lostNodes ffRequestAlloc packets) nodes ∧
        LostBytes (lostValues config.encryption (parseChunks ffRequestAlloc packets).options)
          copies := by
    refine (InMemory.receive_spec packets).bind ?_
    rintro a _ ⟨owned, nodes, rfl, hholds, hnodes⟩
    refine (Spec.alloc _).step (zero_add _).symm ?_
    rintro args _ rfl
    refine (InMemory.ffProxyProcessRequest_spec hssl hholds hrun hkept).last
      (show _ = _ + nodes by abel) ?_
    rintro _ copies ⟨rfl, hcopies⟩
    exact ⟨rfl, nodes, copies, add_comm _ _, hnodes, hcopies⟩
  obtain ⟨_, mem', _, hserve, hs, rfl, nodes, copies, rfl, hnodes, hcopies⟩ :=
    hspec mem mem.read (.zero mem)
  exact ⟨mem', nodes, copies, hserve, hs, hnodes, hcopies⟩

/-- The first of two packets of a request that is sealed with a key. It has two IVs and two salts,
of which the later one of each counts. -/
def sampleSealedHalf : Buffer :=
  Buffer.ofBytes (writeHeader ⟨1, 9, 2, 0, 1⟩ ++
    encodeOptions [.ofByte OptionType.encryptionMode 1, .ofByte OptionType.encryptionIv 4,
      .ofByte OptionType.encryptionIv 5,
      ⟨OptionType.encryptionTag, 16, 71 :: 72 :: List.replicate 14 0, rfl⟩,
      .ofByte OptionType.keyDeriveMode 1, .ofByte OptionType.keyDeriveSalt 6,
      .ofByte OptionType.keyDeriveSalt 7] false ++ [71])

/-- A sealed request of two packets, with a third one in between that is refused: its node gets
lost, and so do the copies of the first IV and of the first salt. -/
theorem worker_blocks_released_sample :
    let packets := [sampleSealedHalf, samplePacket 2 0 [66], samplePacket 2 1 [72]]
    ∃ (p : Processed) (mem' : Heap MemCell) (nodes copies : Cells MemCell),
      p.forwarded.isSome = true ∧
      InMemory.serve sampleEnvironment ⟨30, some ⟨[107], 1000⟩⟩ packets .empty =
        .ok (p.forwarded, mem') ∧
      mem'.Splits Heap.empty.read (nodes + copies) ∧
      (lostNodes ffRequestAlloc packets).length = 1 ∧
      LostNodes (lostNodes ffRequestAlloc packets) nodes ∧
      lostValues (some ⟨[107], 1000⟩) (parseChunks ffRequestAlloc packets).options = [[4], [6]] ∧
      LostBytes [[4], [6]] copies := by
  intro packets
  have hlost : lostValues (some ⟨[107], 1000⟩) (parseChunks ffRequestAlloc packets).options =
      [[4], [6]] := by decide +kernel
  obtain ⟨p, hrun, hforwarded⟩ : ∃ p, ffProxyProcessRequest sampleEnvironment
      ⟨30, some ⟨[107], 1000⟩⟩ (parseChunks ffRequestAlloc packets) = .ok p ∧
        p.forwarded.isSome = true := exists_ok_of_map (by decide +kernel)
  obtain ⟨mem', nodes, copies, hserve, hsplits, hnodes, hcopies⟩ := worker_blocks_released .empty
    sampleEnvironment ⟨30, some ⟨[107], 1000⟩⟩ packets p sampleSsl_fillsKey hrun
    (not_refusesPayloadOptions (by decide +kernel))
  exact ⟨p, mem', nodes, copies, hforwarded, hserve, hsplits, by decide +kernel, hnodes, hlost,
    hlost ▸ hcopies⟩

end FfProxy
