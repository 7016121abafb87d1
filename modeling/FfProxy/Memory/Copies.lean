import FfProxy.Memory.Blocks
import FfProxy.Memory.Worker

/-!
# Copies in memory

The payload is copied when it is vectorised, and `ff_decrypt_request` and `ff_derive_key` copy the
values of options: each copies the value of every option of a type that it looks for, and its
variables lead to the last copy of a type only. No pointer leads to the other copies any more.
-/

namespace FfProxy
open Base

/-! ### Copies of options -/

/-- The copy of an option's value. -/
structure Copy where
  block : Nat
  item : OptionNode

/-- The variables that are set to a copy. -/
def Copy.copied (c : Copy) : InMemory.Copied := ⟨c.block, c.item.length⟩

/-- The block of a copy. -/
def Copy.cells (c : Copy) : Cells MemCell := cell c.block (.bytes c.item.value)

/-- The blocks of copies. -/
def copyCells : List Copy → Cells MemCell
  | [] => 0
  | c :: cs => c.cells + copyCells cs

/-- The last copy of an option of a type. -/
def lastCopy (type : UInt8) (cs : List Copy) : Option Copy :=
  (cs.filter fun c ↦ c.item.type = type).getLast?

/-- The copies of options of a type but for the last one. -/
def lostCopies (type : UInt8) (cs : List Copy) : List Copy :=
  (cs.filter fun c ↦ c.item.type = type).dropLast

/-- The variables behind a scan that has made the given copies. -/
def copiesOf (cs : List Copy) (type : UInt8) : Option InMemory.Copied :=
  (lastCopy type cs).map Copy.copied

/-- The values of the options of a type but for the last one. -/
def overwrittenValues (type : UInt8) (options : List OptionNode) : List (List UInt8) :=
  ((options.filter fun o ↦ o.type = type).map OptionNode.value).dropLast

/-- The cells are blocks with the given contents, which nothing leads to. -/
def LostBytes (values : List (List UInt8)) (lost : Cells MemCell) : Prop :=
  lost.map Prod.snd = (values.map MemCell.bytes : List MemCell)

theorem LostBytes.zero : LostBytes [] 0 := rfl

theorem LostBytes.add {values values' : List (List UInt8)} {lost lost' : Cells MemCell}
    (h : LostBytes values lost) (h' : LostBytes values' lost') :
    LostBytes (values ++ values') (lost + lost') := by
  rw [LostBytes, Multiset.map_add, h, h', List.map_append, Multiset.coe_add]

theorem copyCells_append (cs cs' : List Copy) :
    copyCells (cs ++ cs') = copyCells cs + copyCells cs' := by
  induction cs with
  | nil => simp [copyCells]
  | cons c cs ih => rw [List.cons_append, copyCells, copyCells, ih, add_assoc]

theorem lostBytes_copyCells (cs : List Copy) :
    LostBytes (cs.map fun c ↦ c.item.value) (copyCells cs) := by
  induction cs with
  | nil => rfl
  | cons c cs ih => exact (show LostBytes [c.item.value] c.cells from rfl).add ih

theorem copiesOf_concat (cs : List Copy) (c : Copy) :
    copiesOf (cs ++ [c]) = Function.update (copiesOf cs) c.item.type (some c.copied) := by
  funext type
  by_cases h : type = c.item.type
  · subst h
    simp [copiesOf, lastCopy, List.filter_append]
  · have hne : ¬ c.item.type = type := fun he ↦ h he.symm
    simp [copiesOf, lastCopy, List.filter_append, hne, Function.update_of_ne h]

/-- The copies that satisfy a test and the others. -/
theorem copyCells_filter (cs : List Copy) (p : Copy → Bool) :
    copyCells cs = copyCells (cs.filter p) + copyCells (cs.filter fun c ↦ !p c) := by
  induction cs with
  | nil => simp [copyCells]
  | cons c cs ih =>
    cases hp : p c with
    | false =>
      rw [List.filter_cons_of_neg (by simp [hp]), List.filter_cons_of_pos (by simp [hp]),
        copyCells, copyCells, ih]
      abel
    | true =>
      rw [List.filter_cons_of_pos hp, List.filter_cons_of_neg (by simp [hp]), copyCells, copyCells,
        ih, add_assoc]

/-- The last copy of a type and the lost ones. -/
theorem copyCells_last (type : UInt8) (cs : List Copy) :
    copyCells (cs.filter fun c ↦ c.item.type = type) =
      copyCells (lastCopy type cs).toList + copyCells (lostCopies type cs) := by
  rw [lastCopy, lostCopies]
  rcases List.eq_nil_or_concat (cs.filter fun c ↦ c.item.type = type) with hnil | ⟨l, c, hc⟩
  · rw [hnil]
    rfl
  · rw [hc, List.concat_eq_append, List.getLast?_append_of_ne_nil, List.dropLast_concat,
      copyCells_append, add_comm]
    · rfl
    · exact List.cons_ne_nil _ _

section Scanned

variable {kept : List UInt8} {options : List OptionNode} {cs : List Copy} {type : UInt8}

/-- The copies are those of the options of the types in `kept`. -/
def CopiesOf (kept : List UInt8) (options : List OptionNode) (cs : List Copy) : Prop :=
  cs.map Copy.item = options.filter fun o ↦ o.type ∈ kept

theorem CopiesOf.filter (h : CopiesOf kept options cs) (ht : type ∈ kept) :
    (cs.filter fun c ↦ c.item.type = type).map Copy.item =
      options.filter fun o ↦ o.type = type := by
  have hmap : (cs.filter fun c ↦ c.item.type = type).map Copy.item =
      (cs.map Copy.item).filter fun o ↦ o.type = type := by
    rw [List.filter_map]
    rfl
  rw [hmap, h, List.filter_filter]
  apply List.filter_congr
  intro o _
  by_cases ho : o.type = type
  · simp [ho, ht]
  · simp [ho]

/-- The last copy is that of the last option. -/
theorem CopiesOf.lastCopy (h : CopiesOf kept options cs) (ht : type ∈ kept) :
    (lastCopy type cs).map Copy.item = (options.filter fun o ↦ o.type = type).getLast? := by
  rw [FfProxy.lastCopy, ← List.getLast?_map, h.filter ht]

theorem CopiesOf.lost (h : CopiesOf kept options cs) (ht : type ∈ kept) :
    LostBytes (overwrittenValues type options) (copyCells (lostCopies type cs)) := by
  rw [overwrittenValues, ← h.filter ht, List.map_map, ← List.map_dropLast]
  exact lostBytes_copyCells _

theorem CopiesOf.type_mem (h : CopiesOf kept options cs) {c : Copy} (hc : c ∈ cs) :
    c.item.type ∈ kept := by
  have hmem : c.item ∈ options.filter fun o ↦ o.type ∈ kept := h ▸ List.mem_map_of_mem hc
  exact of_decide_eq_true (List.mem_filter.mp hmem).2

/-- Of the copies for one type, the last one is kept. -/
theorem CopiesOf.cells_one (h : CopiesOf [type] options cs) :
    copyCells cs = copyCells (FfProxy.lastCopy type cs).toList +
      copyCells (lostCopies type cs) := by
  rw [← copyCells_last, List.filter_eq_self.mpr]
  intro c hc
  exact decide_eq_true (List.mem_singleton.mp (h.type_mem hc))

/-- Of the copies for two types, the last one of each is kept. -/
theorem CopiesOf.cells_two {type' : UInt8} (h : CopiesOf [type, type'] options cs)
    (hne : type ≠ type') :
    copyCells cs = copyCells (FfProxy.lastCopy type cs).toList +
      copyCells (FfProxy.lastCopy type' cs).toList +
      (copyCells (lostCopies type cs) + copyCells (lostCopies type' cs)) := by
  have hothers : (cs.filter fun c ↦ !decide (c.item.type = type)) =
      cs.filter fun c ↦ c.item.type = type' := by
    apply List.filter_congr
    intro c hc
    rcases List.mem_pair.mp (h.type_mem hc) with ht | ht
    · simp [ht, hne]
    · simp [ht, hne.symm]
  rw [copyCells_filter cs fun c ↦ c.item.type = type, hothers, copyCells_last, copyCells_last]
  abel

/-- The copy that counts is that of the option that counts. -/
theorem CopiesOf.present (h : CopiesOf kept options cs) (ht : type ∈ kept) :
    (InMemory.presentCopy (copiesOf cs type) = none ∧
      present (scanValue type options) = none) ∨
    ∃ c, FfProxy.lastCopy type cs = some c ∧
      InMemory.presentCopy (copiesOf cs type) = some c.copied ∧
      present (scanValue type options) = some c.item.value := by
  have hscan : scanValue type options =
      ((options.filter fun o ↦ o.type = type).getLast?.map fun o ↦ some o.value).getD none := by
    apply scanForward_filter
    intro o
    by_cases ho : o.type = type
    · rw [valueAnswer, if_pos ho, if_pos (decide_eq_true ho)]
    · rw [valueAnswer, if_neg ho, if_neg (by simpa using ho)]
  rw [hscan, ← h.lastCopy ht, copiesOf]
  cases hlast : FfProxy.lastCopy type cs with
  | none => exact .inl ⟨rfl, rfl⟩
  | some c =>
    have hlength := c.item.length_eq
    by_cases hzero : c.item.length = 0
    · rw [hzero] at hlength
      have hnil : c.item.value = [] := List.length_eq_zero_iff.mp hlength
      refine .inl ⟨?_, ?_⟩
      · simp [InMemory.presentCopy, Copy.copied, hzero]
      · simp [FfProxy.present, hnil]
    · have hne : c.item.value ≠ [] := by
        intro hnil
        rw [hnil] at hlength
        exact hzero (UInt16.toNat_inj.mp hlength.symm)
      refine .inr ⟨c, rfl, ?_, ?_⟩
      · simp [InMemory.presentCopy, Copy.copied, hzero]
      · simp [FfProxy.present, hne]

end Scanned

namespace InMemory

/-! ### Blocks of bytes -/

theorem loadBytes_spec (a : Nat) (value : List UInt8) :
    Spec (loadBytes a) (cell a (.bytes value)) fun v owned ↦
      v = value ∧ owned = cell a (.bytes value) :=
  Spec.load _ a rfl

theorem readBytes_spec (a : Nat) {value : List UInt8} {length : Nat} (h : length ≤ value.length) :
    Spec (readBytes (some a) length) (cell a (.bytes value)) fun v owned ↦
      v = value.take length ∧ owned = cell a (.bytes value) := by
  refine (loadBytes_spec a value).bind ?_
  rintro _ _ ⟨rfl, rfl⟩
  rw [if_neg (Nat.not_lt.mpr h)]
  exact Spec.pure ⟨rfl, rfl⟩

theorem copyInto_spec (a : Nat) {value bytes out : List UInt8} {offset : Nat}
    (h : overwrite value offset bytes = some out) :
    Spec (copyInto a offset bytes) (cell a (.bytes value)) fun _ owned ↦
      owned = cell a (.bytes out) := by
  refine (loadBytes_spec a value).bind ?_
  rintro _ _ ⟨rfl, rfl⟩
  rw [h]
  exact Spec.store _ a _

theorem readNode_spec (n : Placed PayloadNode) (next : Option Nat) :
    Spec (readBytes (some n.value) n.item.length.toNat) (n.nodeCells next) fun v owned ↦
      v = n.item.bytes ∧ owned = n.nodeCells next := by
  refine (readBytes_spec n.value n.item.length_le).last (add_comm _ _) ?_
  rintro _ _ ⟨rfl, rfl⟩
  exact ⟨rfl, add_comm _ _⟩

/-- A copy is read in full. -/
theorem readCopy_spec (c : Copy) :
    Spec (readBytes (some c.block) c.item.length.toNat) c.cells fun v owned ↦
      v = c.item.value ∧ owned = c.cells := by
  refine (readBytes_spec c.block (Nat.le_of_eq c.item.length_eq.symm)).mono ?_
  rintro _ _ ⟨rfl, rfl⟩
  rw [← c.item.length_eq]
  exact ⟨List.take_length, rfl⟩

/-- The variables of a copy, or null, are released. -/
theorem free_copied_spec (c : Option Copy) :
    Spec (free ((c.map Copy.copied).map Copied.block)) (copyCells c.toList) fun _ owned ↦
      owned = 0 := by
  cases c with
  | none => exact Spec.release_none _
  | some c =>
    have hcells : copyCells (some c).toList = cell c.block (.bytes c.item.value) := add_zero _
    rw [hcells]
    exact Spec.release _ c.block

/-! ### Vectorising -/

/-- The loop copies the nodes of a chain and releases them. -/
theorem copyNodes_spec {fuel : Nat} (target : Nat) (ns : List (Placed PayloadNode))
    (hfuel : ns.length ≤ fuel) {value out : List UInt8}
    (h : vectoriseLoop value (ns.map Placed.item) = .ok out) :
    Spec (copyNodes target fuel (firstOf ns none))
      (payloadCells ns none + cell target (.bytes value)) fun _ owned ↦
        owned = cell target (.bytes out) := by
  induction ns generalizing fuel value with
  | nil =>
    obtain rfl := Except.ok.inj h
    cases fuel <;> exact Spec.pure (zero_add _)
  | cons n ns ih =>
    cases fuel with
    | zero => cases hfuel
    | succ fuel =>
      rw [List.map_cons, vectoriseLoop] at h
      cases hcopy : overwrite value n.item.offset.toNat n.item.bytes with
      | none =>
        rw [hcopy] at h
        cases h
      | some copied =>
        rw [hcopy] at h
        rw [payloadCells, add_assoc]
        refine (loadNode_placed n _).step rfl ?_
        rintro _ _ ⟨rfl, rfl⟩
        refine (readNode_spec n _).step rfl ?_
        rintro _ _ ⟨rfl, rfl⟩
        refine (copyInto_spec target hcopy).step
          (show _ = _ + (n.nodeCells (firstOf ns none) + payloadCells ns none) by abel) ?_
        rintro _ _ rfl
        refine (ffRequestPayloadNodeFree_spec n _).step (add_left_comm _ _ _) ?_
        rintro _ _ rfl
        rw [zero_add, add_comm]
        exact ih (Nat.le_of_succ_le_succ hfuel) h

private theorem payload_ne_nil_of_vectorised {garbage : Nat → UInt8} {r r' : Request}
    (h : FfProxy.ffRequestVectorisePayload garbage r = .ok r') : r.payload ≠ [] := by
  intro hnil
  unfold FfProxy.ffRequestVectorisePayload at h
  split at h
  · cases h
  · next hp => rw [hnil] at hp; cases hp
  · next hne _ => exact hne hnil

/-- Nodes that could be vectorised have been copied. -/
private theorem vectoriseLoop_of_vectorised {garbage : Nat → UInt8} {r r' : Request}
    {first second : PayloadNode} {rest : List PayloadNode}
    (h : FfProxy.ffRequestVectorisePayload garbage r = .ok r')
    (hp : r.payload = first :: second :: rest) :
    ∃ node : PayloadNode, r' = { r with payload := [node] } ∧ node.offset = 0 ∧
      node.length = r.payloadLength.toUInt16 ∧
      vectoriseLoop (mallocBlock garbage r.payloadLength.toNat) r.payload = .ok node.value := by
  cases hloop : vectoriseLoop (mallocBlock garbage r.payloadLength.toNat) r.payload with
  | error fault =>
    unfold FfProxy.ffRequestVectorisePayload at h
    split at h
    · cases h
    · next hone => rw [hp] at hone; cases hone
    · split at h
      · cases h
      · next hok => rw [hloop] at hok; cases hok
  | ok out =>
    obtain ⟨node, hmany, hoffset, hlength, hvalue⟩ :=
      ffRequestVectorisePayload_many garbage r first second rest out hp hloop
    rw [hmany] at h
    exact ⟨node, (Except.ok.inj h).symm, hoffset, hlength, by rw [hvalue]⟩

/-- `ff_request_vectorise_payload` does to the request in memory what it does to the request as a
value. -/
theorem ffRequestVectorisePayload_spec {garbage : Nat → UInt8} {a : Nat} {r r' : Request}
    {owned : Cells MemCell} (h : HoldsRequest a r owned)
    (hrun : FfProxy.ffRequestVectorisePayload garbage r = .ok r') :
    Spec (ffRequestVectorisePayload garbage a) owned fun _ owned' ↦ HoldsRequest a r' owned' := by
  obtain ⟨array, os, ns, h, rfl⟩ := h
  have hpayload := h.payload
  refine loadRequest_placed.bind ?_
  rintro _ _ ⟨rfl, rfl⟩
  match ns with
  | [] => exact absurd hpayload.symm (payload_ne_nil_of_vectorised hrun)
  | [n] =>
    rw [FfProxy.ffRequestVectorisePayload_single garbage r n.item hpayload.symm] at hrun
    obtain rfl := Except.ok.inj hrun
    refine (loadFirst_spec n []).step (requestCells_payload a r array os [n]) ?_
    rintro _ _ ⟨rfl, rfl⟩
    rw [← requestCells_payload]
    exact Spec.pure ⟨array, os, [n], h, rfl⟩
  | n :: m :: ns =>
    obtain ⟨node, rfl, hoffset, hlength, hloop⟩ := vectoriseLoop_of_vectorised hrun hpayload.symm
    rw [← hpayload] at hloop
    have hroom : r.bare.payloadLength = r.payloadLength := rfl
    refine (loadFirst_spec n (m :: ns)).step (requestCells_payload a r array os (n :: m :: ns)) ?_
    rintro _ _ ⟨rfl, rfl⟩
    dsimp only
    rw [hroom]
    refine (Spec.alloc _).step (zero_add _).symm ?_
    rintro payload _ rfl
    refine (Spec.alloc _).step (zero_add _).symm ?_
    rintro block _ rfl
    refine (Spec.store _ payload _).step (add_left_comm _ _ _) ?_
    rintro _ _ rfl
    refine (allocated_payload (n :: m :: ns) none).step (show _ = _ + (cell payload _ +
      (cell block _ + (cell a _ + (arrayCells array os + optionCells os)))) by abel) ?_
    rintro fuel _ ⟨hnodes, rfl⟩
    refine (copyNodes_spec block (n :: m :: ns) hnodes hloop).step (show _ = _ + (cell payload _ +
      (cell a _ + (arrayCells array os + optionCells os))) by abel) ?_
    rintro _ _ rfl
    refine (Spec.store _ a _).last (show _ = _ + (cell block _ + (cell payload _ +
      (arrayCells array os + optionCells os))) by abel) ?_
    rintro _ _ rfl
    refine ⟨array, os, [⟨payload, block, node⟩], ⟨h.options, rfl, h.array_none, h.slots⟩, ?_⟩
    have hbare : ({ r with payload := [node] } : Request).bare = r.bare := rfl
    rw [requestCells_single, Placed.nodeCells, Placed.nodeCell, hoffset, hlength, hbare]
    abel

/-! ### The scan of the options -/

/-- The value of an option is read in full. -/
theorem readValue_spec (o : Placed OptionNode) :
    Spec (readBytes (some o.value) o.item.length.toNat) o.optionCells fun v owned ↦
      v = o.item.value ∧ owned = o.optionCells := by
  refine (readBytes_spec o.value (Nat.le_of_eq o.item.length_eq.symm)).last (add_comm _ _) ?_
  rintro _ _ ⟨rfl, rfl⟩
  rw [← o.item.length_eq, List.take_length]
  exact ⟨rfl, add_comm _ _⟩

theorem copyValue_spec (o : Placed OptionNode) :
    Spec (copyValue ⟨o.item.type, o.item.length, some o.value⟩) o.optionCells fun copy owned ↦
      ∃ c : Copy, copy = c.copied ∧ c.item = o.item ∧ owned = o.optionCells + c.cells := by
  refine (readValue_spec o).bind ?_
  rintro _ _ ⟨rfl, rfl⟩
  refine (Spec.alloc _).step (zero_add _).symm ?_
  rintro block _ rfl
  exact Spec.pure ⟨⟨block, o.item⟩, rfl, rfl, add_comm _ _⟩

theorem loadOption_placed (o : Placed OptionNode) :
    Spec (loadOption o.address) o.optionCells fun c owned ↦
      c = ⟨o.item.type, o.item.length, some o.value⟩ ∧ owned = o.optionCells := by
  refine (loadOption_spec o.address _).last rfl ?_
  rintro _ _ ⟨rfl, rfl⟩
  exact ⟨rfl, rfl⟩

/-- A mode option is read. -/
theorem readMode_spec (o : Placed OptionNode) (h : o.item.length = 1) :
    Spec (readBytes (some o.value) 1) o.optionCells fun v owned ↦
      some (v.headD 0) = o.item.value.head? ∧ owned = o.optionCells := by
  have hlength : o.item.value.length = 1 := by
    rw [o.item.length_eq, h]
    rfl
  refine (readBytes_spec o.value (Nat.le_of_eq hlength.symm)).last (add_comm _ _) ?_
  rintro _ _ ⟨rfl, rfl⟩
  obtain ⟨v, hv⟩ := List.length_eq_one_iff.mp hlength
  rw [hv]
  exact ⟨rfl, by rw [Placed.optionCells, hv, add_comm]⟩

/-- What a scan of options leaves that started with the mode `mode` and the copies `cs`: the mode
that the scan of values finds, and the copies of the options of the types that are kept. -/
def AfterScan (modeType : UInt8) (kept : List UInt8) (options : List OptionNode) (mode : UInt8)
    (cs : List Copy) (blocks : Cells MemCell) (result : UInt8 × (UInt8 → Option Copied))
    (owned : Cells MemCell) : Prop :=
  ∃ new, CopiesOf kept options new ∧
    result = (scanForward (modeAnswer modeType) mode options, copiesOf (cs ++ new)) ∧
    owned = blocks + copyCells (cs ++ new)

theorem AfterScan.cons {modeType mode mode' : UInt8} {kept : List UInt8} {o : OptionNode}
    {options : List OptionNode} {cs extra : List Copy} {blocks : Cells MemCell}
    {result : UInt8 × (UInt8 → Option Copied)} {owned : Cells MemCell}
    (hextra : CopiesOf kept [o] extra) (hmode : (modeAnswer modeType o).getD mode = mode')
    (h : AfterScan modeType kept options mode' (cs ++ extra) blocks result owned) :
    AfterScan modeType kept (o :: options) mode cs blocks result owned := by
  obtain ⟨new, hnew, rfl, rfl⟩ := h
  refine ⟨extra ++ new, ?_, ?_, ?_⟩
  · rw [CopiesOf, List.map_append, hextra, hnew, ← List.filter_append]
    rfl
  · rw [List.append_assoc, ← hmode]
    rfl
  · rw [List.append_assoc]

/-- The scan goes through the options behind those that it has seen. -/
theorem scanOptions_spec (modeType : UInt8) {kept : List UInt8} (hkept : modeType ∉ kept) (a : Nat)
    (done os : List (Placed OptionNode)) (mode : UInt8) (cs : List Copy) :
    Spec (scanOptions modeType kept (some a) (List.range' done.length os.length) mode (copiesOf cs))
      (cell a (.array (((done ++ os).map Placed.address).map some)) + optionCells os +
        copyCells cs)
      (AfterScan modeType kept (os.map Placed.item) mode cs
        (cell a (.array (((done ++ os).map Placed.address).map some)) + optionCells os)) := by
  induction os generalizing done mode cs with
  | nil =>
    refine Spec.pure ⟨[], rfl, ?_, ?_⟩
    · rw [List.append_nil cs]
      rfl
    · rw [List.append_nil cs]
  | cons o os ih =>
    -- Once the option has its copies `extra`, the rest is the induction hypothesis.
    have hgo {mode' : UInt8} {extra : List Copy} (hextra : CopiesOf kept [o.item] extra)
        (hmode : (modeAnswer modeType o.item).getD mode = mode') :
        Spec (scanOptions modeType kept (some a) (List.range' (done.length + 1) os.length) mode'
            (copiesOf (cs ++ extra)))
          (o.optionCells + (cell a (.array (((done ++ o :: os).map Placed.address).map some)) +
            optionCells os + copyCells (cs ++ extra)))
          (AfterScan modeType kept ((o :: os).map Placed.item) mode cs
            (cell a (.array (((done ++ o :: os).map Placed.address).map some)) +
              optionCells (o :: os))) := by
      have hrest := ih (done ++ [o]) mode' (cs ++ extra)
      rw [List.length_append, List.append_assoc] at hrest
      refine hrest.last (add_comm _ _) ?_
      rintro _ _ ⟨new, hnew, rfl, rfl⟩
      refine .cons hextra hmode ⟨new, hnew, rfl, ?_⟩
      rw [optionCells]
      simp only [List.singleton_append]
      abel
    have hstay {mode' : UInt8} (hnone : CopiesOf kept [o.item] [])
        (hmode : (modeAnswer modeType o.item).getD mode = mode') := hgo hnone hmode
    rw [List.append_nil cs] at hstay
    rw [List.length_cons, List.range'_succ]
    refine (optionAt_placed a done o os).step (show _ = _ + (o.optionCells + optionCells os +
      copyCells cs) by rw [optionCells]; abel) ?_
    rintro _ _ ⟨rfl, rfl⟩
    refine (loadOption_placed o).step (show _ = _ + (cell a _ + optionCells os +
      copyCells cs) by abel) ?_
    rintro _ _ ⟨rfl, rfl⟩
    dsimp only
    split
    · next ht =>
      have hnone : CopiesOf kept [o.item] [] := by
        rw [CopiesOf, List.filter_cons_of_neg (by simp [ht, hkept])]
        rfl
      split
      · next hl =>
        refine (readMode_spec o hl).step rfl ?_
        rintro v _ ⟨hv, rfl⟩
        apply hstay hnone
        rw [modeAnswer, if_pos ⟨ht, hl⟩, ← hv]
        rfl
      · next hl =>
        apply hstay hnone
        rw [modeAnswer, if_neg fun h ↦ hl h.2]
        rfl
    next ht =>
    have hanswer : (modeAnswer modeType o.item).getD mode = mode := by
      rw [modeAnswer, if_neg fun h ↦ ht h.1]
      rfl
    split
    · next hk =>
      refine (copyValue_spec o).step rfl ?_
      rintro _ _ ⟨c, rfl, hc, rfl⟩
      have hone : CopiesOf kept [o.item] [c] := by
        rw [CopiesOf, List.filter_cons_of_pos (by simp [hk]), ← hc]
        rfl
      have hcells (array : Cells MemCell) : o.optionCells + c.cells + (array + optionCells os +
          copyCells cs) = o.optionCells + (array + optionCells os + copyCells (cs ++ [c])) := by
        rw [copyCells_append, copyCells, copyCells]
        abel
      have hnext := hgo hone hanswer
      rw [copiesOf_concat, hc] at hnext
      rw [hcells]
      exact hnext
    · next hk =>
      refine hstay ?_ hanswer
      rw [CopiesOf, List.filter_cons_of_neg (by simp [hk])]
      rfl

/-- The scan of all options of a request. -/
theorem scanOptions_all_spec (modeType : UInt8) {kept : List UInt8} (hkept : modeType ∉ kept)
    {array : Option Nat} {os : List (Placed OptionNode)} (h : array = none ↔ os = []) :
    Spec (scanOptions modeType kept array (List.range os.length) 0 fun _ ↦ none)
      (arrayCells array os + optionCells os)
      (AfterScan modeType kept (os.map Placed.item) 0 []
        (arrayCells array os + optionCells os)) := by
  cases array with
  | none =>
    obtain rfl := h.mp rfl
    exact Spec.pure ⟨[], rfl, rfl, rfl⟩
  | some a =>
    have hscan := scanOptions_spec modeType hkept a [] os 0 []
    rw [copyCells, add_zero] at hscan
    rw [List.range_eq_range']
    exact hscan

end InMemory

end FfProxy
