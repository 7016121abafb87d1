import FfProxy.Memory.Copies

/-!
# Decryption in memory

What `ff_decrypt_request` does in memory is what it does to a request as a value. Of the copies
that it makes of IVs, tags and salts, it releases the last one of a type; the others get lost.
-/

namespace FfProxy
open Base

/-! ### The derived key -/

/-- `PKCS5_PBKDF2_HMAC` yields a key of the length that it is asked for. -/
def OpenSsl.FillsKey (ssl : OpenSsl) : Prop :=
  ∀ password salt iterations length key,
    ssl.pbkdf2 password salt iterations length = some key → key.length = length

theorem sampleSsl_fillsKey : sampleSsl.FillsKey := by
  intro _ _ _ length key h
  rw [← Option.some.inj (h : some (List.replicate length 0) = some key), List.length_replicate]

/-- The blocks of a derived key. -/
def keyCells (k block : Nat) (key : List UInt8) : Cells MemCell :=
  cell k (.derivedKey ⟨32, some block⟩) + cell block (.bytes key)

namespace InMemory

theorem ffDerivedKeyAlloc_spec :
    Spec (ffDerivedKeyAlloc 32) 0 fun k owned ↦
      ∃ block, owned = keyCells k block (List.replicate derivedKeySize 0) := by
  refine (Spec.alloc _).bind ?_
  rintro k _ rfl
  refine (Spec.alloc _).step (zero_add _).symm ?_
  rintro block _ rfl
  refine (Spec.store _ k _).step (add_comm _ _) ?_
  rintro _ _ rfl
  exact Spec.pure ⟨block, rfl⟩

theorem loadDerivedKey_spec (k block : Nat) (key : List UInt8) :
    Spec (loadDerivedKey k) (keyCells k block key) fun c owned ↦
      c = ⟨32, some block⟩ ∧ owned = keyCells k block key := by
  have hload : Spec (loadDerivedKey k) (cell k (.derivedKey ⟨32, some block⟩)) fun c owned ↦
      c = ⟨32, some block⟩ ∧ owned = cell k (.derivedKey ⟨32, some block⟩) := Spec.load _ k rfl
  refine hload.last rfl ?_
  rintro _ _ ⟨rfl, rfl⟩
  exact ⟨rfl, rfl⟩

theorem ffDerivedKeyFree_spec (k block : Nat) (key : List UInt8) :
    Spec (ffDerivedKeyFree (some k)) (keyCells k block key) fun _ owned ↦ owned = 0 := by
  refine (loadDerivedKey_spec k block key).bind ?_
  rintro _ _ ⟨rfl, rfl⟩
  refine (Spec.release _ block).step (add_comm _ _) ?_
  rintro _ _ rfl
  rw [zero_add]
  exact Spec.release _ k

/-- A new key takes the place of the old one. -/
theorem ffDeriveKeyPbkdf2_spec {ssl : OpenSsl} (hssl : ssl.FillsKey) (config : EncryptionConfig)
    (c : Copy) (k block : Nat) {key : List UInt8} (hkey : key.length = derivedKeySize) :
    Spec (ffDeriveKeyPbkdf2 ssl config c.copied k) (c.cells + keyCells k block key)
      fun derived owned ↦
        derived = (FfProxy.ffDeriveKeyPbkdf2 ssl config c.item.value).isSome ∧
          owned = c.cells + keyCells k block
            ((FfProxy.ffDeriveKeyPbkdf2 ssl config c.item.value).getD key) := by
  refine (readCopy_spec c).step rfl ?_
  rintro _ _ ⟨rfl, rfl⟩
  refine (loadDerivedKey_spec k block key).step (add_comm _ _) ?_
  rintro _ _ ⟨rfl, rfl⟩
  have hsize : (32 : UInt16).toNat = derivedKeySize := rfl
  rw [FfProxy.ffDeriveKeyPbkdf2]
  dsimp only
  rw [hsize]
  cases hnew : ssl.pbkdf2 config.key c.item.value config.pbkdf2Iterations derivedKeySize with
  | none => exact Spec.pure ⟨rfl, add_comm _ _⟩
  | some new =>
    have hwrite : overwrite key 0 new = some new := by
      have hlength : new.length = key.length := (hssl _ _ _ _ _ hnew).trans hkey.symm
      rw [overwrite, if_pos (by omega)]
      simp [hlength]
    refine (copyInto_spec block hwrite).step (show _ = _ + (cell k _ + c.cells) by
      rw [keyCells]; abel) ?_
    rintro _ _ rfl
    refine Spec.pure ⟨rfl, ?_⟩
    rw [Option.getD_some, keyCells]
    abel

/-- The key is derived from the copy of the salt as it is from its value. -/
theorem deriveFrom_spec {ssl : OpenSsl} (hssl : ssl.FillsKey) (config : EncryptionConfig)
    {options : List OptionNode} {cs : List Copy}
    (hcs : CopiesOf [OptionType.keyDeriveSalt] options cs) (k block : Nat) {key : List UInt8}
    (hkey : key.length = derivedKeySize) :
    Spec (deriveFrom ssl config (scanMode OptionType.keyDeriveMode options)
        (copiesOf cs OptionType.keyDeriveSalt) k)
      (copyCells (lastCopy OptionType.keyDeriveSalt cs).toList + keyCells k block key)
      fun derived owned ↦
        derived = (FfProxy.ffDeriveKey ssl config options).isSome ∧
          owned = copyCells (lastCopy OptionType.keyDeriveSalt cs).toList +
            keyCells k block ((FfProxy.ffDeriveKey ssl config options).getD key) := by
  rw [deriveFrom, FfProxy.ffDeriveKey]
  rcases hcs.present (List.mem_singleton.mpr rfl) with ⟨hnone, hvalue⟩ | ⟨c, hlast, hsome, hvalue⟩
  · rw [hnone, hvalue]
    split
    · exact Spec.pure ⟨rfl, rfl⟩
    · exact Spec.pure ⟨rfl, rfl⟩
  · have hcells : copyCells (some c).toList = c.cells := add_zero _
    rw [hsome, hvalue, hlast, hcells]
    dsimp only
    by_cases hmode : scanMode OptionType.keyDeriveMode options = ffKeyDeriveModePbkdf2
    · have hne : ¬ ffKeyDeriveModePbkdf2 = 0 := by decide
      rw [hmode, if_neg hne, if_pos rfl, if_pos rfl]
      exact ffDeriveKeyPbkdf2_spec hssl config c k block hkey
    · rw [if_neg hmode, if_neg hmode]
      split
      · exact Spec.pure ⟨rfl, rfl⟩
      · exact Spec.pure ⟨rfl, rfl⟩

/-- `ff_derive_key` derives the key that the model on values derives. All copies of salts but the
last one get lost. -/
theorem ffDeriveKey_spec {ssl : OpenSsl} (hssl : ssl.FillsKey) (config : EncryptionConfig)
    {a : Nat} {r : Request} {owned : Cells MemCell} (h : HoldsRequest a r owned) (k block : Nat)
    {key : List UInt8} (hkey : key.length = derivedKeySize) :
    Spec (ffDeriveKey ssl config a k) (owned + keyCells k block key) fun derived owned' ↦
      ∃ lost, derived = (FfProxy.ffDeriveKey ssl config r.options).isSome ∧
        owned' = owned + keyCells k block ((FfProxy.ffDeriveKey ssl config r.options).getD key) +
          lost ∧
        LostBytes (overwrittenValues OptionType.keyDeriveSalt r.options) lost := by
  obtain ⟨array, os, ns, h, rfl⟩ := h
  refine loadRequest_placed.step rfl ?_
  rintro _ _ ⟨rfl, rfl⟩
  dsimp only
  rw [toNat_optionsLength h.slots]
  refine (scanOptions_all_spec OptionType.keyDeriveMode (by decide) h.array_none).step
    (show _ = _ + (cell a _ + payloadCells ns none + keyCells k block key) by
      rw [requestCells]; abel) ?_
  rintro _ _ ⟨cs, hcs, rfl, rfl⟩
  rw [h.options] at hcs ⊢
  rw [List.nil_append]
  refine (deriveFrom_spec hssl config hcs k block hkey).step (show _ = _ + (cell a _ +
    payloadCells ns none + (arrayCells array os + optionCells os) +
      copyCells (lostCopies OptionType.keyDeriveSalt cs)) by rw [hcs.cells_one]; abel) ?_
  rintro _ _ ⟨rfl, rfl⟩
  refine (free_copied_spec (lastCopy OptionType.keyDeriveSalt cs)).step (add_assoc _ _ _) ?_
  rintro _ _ rfl
  refine Spec.pure ⟨_, rfl, ?_, hcs.lost (List.mem_singleton.mpr rfl)⟩
  rw [requestCells]
  abel

/-! ### The cipher -/

/-- The payload goes through the cipher as the nodes on values do; what comes out stands at the
front of the block. -/
theorem cipherLoop_spec {update : List UInt8 → List UInt8 → Option (List UInt8)}
    {block : List UInt8} (target : Nat) {fuel : Nat} (ns : List (Placed PayloadNode))
    (hfuel : ns.length ≤ fuel) {seen result : List UInt8} (hresult : result.length ≤ block.length)
    {passed : Option (List UInt8 × List UInt8)}
    (h : FfProxy.cipherLoop update block.length (ns.map Placed.item) seen result = .ok passed) :
    Spec (cipherLoop update target fuel (firstOf ns none) seen result.length)
      (payloadCells ns none + cell target (.bytes (result ++ block.drop result.length)))
      fun p owned ↦ ∃ out, p = passed.map (fun x ↦ (x.1, x.2.length)) ∧
        owned = payloadCells ns none + cell target (.bytes out) ∧
        ∀ x ∈ passed, out = x.2 ++ block.drop x.2.length := by
  induction ns generalizing fuel seen result with
  | nil =>
    obtain rfl := Except.ok.inj h
    have hall : ∀ x ∈ some (seen, result), result ++ block.drop result.length =
        x.2 ++ block.drop x.2.length := by
      intro x hx
      rw [← Option.some.inj hx]
    cases fuel <;> exact Spec.pure ⟨_, rfl, rfl, hall⟩
  | cons n ns ih =>
    cases fuel with
    | zero => cases hfuel
    | succ fuel =>
      rw [List.map_cons, FfProxy.cipherLoop] at h
      rw [payloadCells, add_assoc]
      refine (loadNode_placed n _).step rfl ?_
      rintro _ _ ⟨rfl, rfl⟩
      refine (readNode_spec n _).step rfl ?_
      rintro _ _ ⟨rfl, rfl⟩
      cases hupdate : update seen n.item.bytes with
      | none =>
        rw [hupdate] at h
        obtain rfl := Except.ok.inj h
        refine Spec.pure ⟨_, rfl, (add_assoc _ _ _).symm, ?_⟩
        intro x hx
        cases hx
      | some out =>
        rw [hupdate] at h
        dsimp only at h ⊢
        split at h
        · cases h
        next hfits =>
          have hnext : (result ++ out).length ≤ block.length := by
            rw [List.length_append]
            omega
          have hcopy : overwrite (result ++ block.drop result.length) result.length out =
              some (result ++ out ++ block.drop (result ++ out).length) := by
            rw [overwrite_append _ _ _ (by rw [List.length_drop]; omega), List.drop_drop,
              List.length_append]
          refine (copyInto_spec target hcopy).step (show _ = _ + (n.nodeCells (firstOf ns none) +
            payloadCells ns none) by abel) ?_
          rintro _ _ rfl
          rw [← List.length_append]
          refine (ih (Nat.le_of_succ_le_succ hfuel) hnext h).last
            (show _ = _ + n.nodeCells (firstOf ns none) by abel) ?_
          rintro _ _ ⟨last, rfl, rfl, hlast⟩
          exact ⟨last, rfl, by abel, hlast⟩

/-- How decryption ends: with a failure, or with a plaintext that stands at the front of its
block. -/
def Deciphered (garbage : Nat → UInt8) (r : Request) (result : Option Request)
    (length : Option Nat) (out : List UInt8) : Prop :=
  result = none ∧ length = none ∨ ∃ plaintext : List UInt8, length = some plaintext.length ∧
    out = (cipherNode garbage r.payloadLength.toNat plaintext).value ∧
    result = some { r with
      payloadLength := UInt64.ofNat plaintext.length
      payload := [cipherNode garbage r.payloadLength.toNat plaintext] }

/-- What the calls of the cipher leave: a request as it was, the copies of IV and tag, the block for
the plaintext, and the copies of salts that got lost. -/
def AfterCipher (garbage : Nat → UInt8) (r : Request) (result : Option Request)
    (owned copies : Cells MemCell) (pt k block : Nat) (length : Option Nat)
    (owned' : Cells MemCell) : Prop :=
  ∃ key out lost, owned' = owned + copies + keyCells k block key + cell pt (.bytes out) + lost ∧
    LostBytes (overwrittenValues OptionType.keyDeriveSalt r.options) lost ∧
    Deciphered garbage r result length out

theorem length_of_derived {ssl : OpenSsl} (hssl : ssl.FillsKey) {config : EncryptionConfig}
    {options : List OptionNode} {key : List UInt8}
    (h : FfProxy.ffDeriveKey ssl config options = some key) : key.length = derivedKeySize := by
  rw [FfProxy.ffDeriveKey] at h
  split at h
  · cases h
  · split at h
    · exact hssl _ _ _ _ _ h
    · cases h

theorem readKey_spec (k block : Nat) {key : List UInt8} (hkey : key.length = derivedKeySize) :
    Spec (readBytes (some block) (32 : UInt16).toNat) (keyCells k block key) fun v owned ↦
      v = key ∧ owned = keyCells k block key := by
  have hsize : (32 : UInt16).toNat = key.length := hkey.symm
  refine (readBytes_spec block (Nat.le_of_eq hsize)).last (add_comm _ _) ?_
  rintro _ _ ⟨rfl, rfl⟩
  exact ⟨by rw [hsize, List.take_length], add_comm _ _⟩

/-- What the cipher makes of a payload as a value, `src/crypto.c:172–213`. -/
def deciphered (ssl : OpenSsl) (garbage : Nat → UInt8) (key iv tag : List UInt8) (r : Request) :
    Except Fault (Option Request) :=
  match FfProxy.cipherLoop (ssl.decryptUpdate key iv) r.payloadLength.toNat r.payload [] [] with
  | .error fault => .error fault
  | .ok none => .ok none
  | .ok (some (ciphertext, plaintext)) =>
    if ssl.setTag tag && ssl.decryptFinal key iv ciphertext tag then
      .ok (some { r with
        payloadLength := UInt64.ofNat plaintext.length
        payload := [cipherNode garbage r.payloadLength.toNat plaintext] })
    else .ok none

/-- The payload in memory goes through the cipher. -/
theorem decryptPayload_spec {ssl : OpenSsl} {garbage : Nat → UInt8} {a : Nat} {r : Request}
    {owned : Cells MemCell} (h : HoldsRequest a r owned) (hpayload : r.payload ≠ [])
    (key iv : List UInt8) (tag : Copy) (pt : Nat) {result : Option Request}
    (hrun : deciphered ssl garbage key iv tag.item.value r = .ok result) :
    Spec (decryptPayload ssl key iv a tag.copied pt)
      (owned + tag.cells + cell pt (.bytes (mallocBlock garbage r.payloadLength.toNat)))
      fun length owned' ↦ ∃ out, owned' = owned + tag.cells + cell pt (.bytes out) ∧
        Deciphered garbage r result length out := by
  obtain ⟨array, os, ns, h, rfl⟩ := h
  obtain ⟨n, ns, rfl⟩ : ∃ n ns', ns = n :: ns' := by
    apply List.exists_cons_of_ne_nil
    rintro rfl
    exact hpayload h.payload.symm
  have hroom : (mallocBlock garbage r.payloadLength.toNat).length = r.payloadLength.toNat := by
    rw [mallocBlock, List.length_map, List.length_range]
  rw [deciphered, ← hroom, ← h.payload] at hrun
  rw [add_assoc]
  refine loadRequest_placed.step rfl ?_
  rintro _ _ ⟨rfl, rfl⟩
  dsimp only
  rw [if_neg (show ¬ firstOf (n :: ns) none = none from Option.some_ne_none _)]
  rw [requestCells_payload]
  refine (allocated_payload (n :: ns) none).step (add_assoc _ _ _) ?_
  rintro fuel _ ⟨hnodes, rfl⟩
  cases hloop : FfProxy.cipherLoop (ssl.decryptUpdate key iv)
      (mallocBlock garbage r.payloadLength.toNat).length ((n :: ns).map Placed.item) [] [] with
  | error fault =>
    rw [hloop] at hrun
    cases hrun
  | ok passed =>
    rw [hloop] at hrun
    refine (cipherLoop_spec pt (n :: ns) hnodes (Nat.zero_le _) hloop).step
      (show _ = _ + (cell a _ + (arrayCells array os + optionCells os) + tag.cells) by
        rw [List.nil_append, List.length_nil, List.drop_zero]; abel) ?_
    rintro _ _ ⟨out, rfl, rfl, hout⟩
    cases passed with
    | none =>
      obtain rfl := Except.ok.inj hrun
      refine Spec.pure ⟨out, ?_, .inl ⟨rfl, rfl⟩⟩
      abel
    | some passed =>
      refine (readCopy_spec tag).step (show _ = _ + (payloadCells (n :: ns) none +
        (cell a _ + (arrayCells array os + optionCells os)) + cell pt _) by abel) ?_
      rintro _ _ ⟨rfl, rfl⟩
      refine Spec.pure ⟨out, ?_, ?_⟩
      · abel
      · dsimp only at hrun
        split at hrun
        · next hok =>
          obtain rfl := Except.ok.inj hrun
          rw [if_pos hok]
          exact .inr ⟨passed.2, rfl, hout passed rfl, by rw [hroom]⟩
        · next hok =>
          obtain rfl := Except.ok.inj hrun
          rw [if_neg hok]
          exact .inl ⟨rfl, rfl⟩

/-- The calls of the cipher on the payload in memory. -/
theorem decryptInto_spec {ssl : OpenSsl} (hssl : ssl.FillsKey) {garbage : Nat → UInt8}
    {config : EncryptionConfig} {a : Nat} {r : Request} {owned : Cells MemCell}
    (h : HoldsRequest a r owned) (iv tag : Copy) (pt k block : Nat) {key : List UInt8}
    (hkey : key.length = derivedKeySize) {result : Option Request}
    (hrun : FfProxy.ffDecryptRequestAes256Gcm ssl garbage config iv.item.value tag.item.value r =
      .ok result) :
    Spec (decryptInto ssl config a iv.copied tag.copied pt k)
      (owned + (iv.cells + tag.cells) + keyCells k block key +
        cell pt (.bytes (mallocBlock garbage r.payloadLength.toNat)))
      (AfterCipher garbage r result owned (iv.cells + tag.cells) pt k block) := by
  refine (ffDeriveKey_spec hssl config h k block hkey).step
    (show _ = _ + (iv.cells + tag.cells + cell pt _) by abel) ?_
  rintro _ _ ⟨lost, rfl, rfl, hlost⟩
  rw [FfProxy.ffDecryptRequestAes256Gcm] at hrun
  cases hderive : FfProxy.ffDeriveKey ssl config r.options with
  | none =>
    rw [hderive] at hrun
    obtain rfl := Except.ok.inj hrun
    refine Spec.pure ⟨key, mallocBlock garbage r.payloadLength.toNat, lost, ?_, hlost,
      .inl ⟨rfl, rfl⟩⟩
    rw [Option.getD_none]
    abel
  | some key =>
    rw [hderive] at hrun
    have hkey := length_of_derived hssl hderive
    dsimp only at hrun
    rw [Option.getD_some, Option.isSome_some, if_pos rfl]
    refine (loadDerivedKey_spec k block key).step (show _ = _ + (owned + lost + (iv.cells +
      tag.cells + cell pt _)) by abel) ?_
    rintro _ _ ⟨rfl, rfl⟩
    refine (readKey_spec k block hkey).step rfl ?_
    rintro _ _ ⟨hread, rfl⟩
    rw [hread]
    refine (readCopy_spec iv).step (show _ = _ + (keyCells k block key + (owned + lost +
      (tag.cells + cell pt _))) by abel) ?_
    rintro _ _ ⟨rfl, rfl⟩
    split
    · next hinit =>
      rw [if_pos hinit] at hrun
      split at hrun
      · cases hrun
      next hpayload =>
      refine (decryptPayload_spec h (fun hnil ↦ hpayload (by rw [hnil]; rfl)) key iv.item.value tag
        pt hrun).last (show _ = _ + (iv.cells + keyCells k block key + lost) by abel) ?_
      rintro _ _ ⟨out, rfl, hout⟩
      refine ⟨key, out, lost, ?_, hlost, hout⟩
      abel
    · next hinit =>
      rw [if_neg hinit] at hrun
      obtain rfl := Except.ok.inj hrun
      refine Spec.pure ⟨key, mallocBlock garbage r.payloadLength.toNat, lost, ?_, hlost,
        .inl ⟨rfl, rfl⟩⟩
      abel

/-- The nodes of the payload are released, and a node with the plaintext takes their place. -/
theorem replacePayload_spec {a : Nat} {r : Request} {owned : Cells MemCell}
    (h : HoldsRequest a r owned) (garbage : Nat → UInt8) (pt : Nat) (plaintext : List UInt8) :
    Spec (replacePayload a pt plaintext.length)
      (owned + cell pt (.bytes (cipherNode garbage r.payloadLength.toNat plaintext).value))
      fun _ owned' ↦ HoldsRequest a { r with
        payloadLength := UInt64.ofNat plaintext.length
        payload := [cipherNode garbage r.payloadLength.toNat plaintext] } owned' := by
  obtain ⟨array, os, ns, h, rfl⟩ := h
  rw [requestCells_eq]
  refine (modifyFields_spec a _ _).step (add_assoc _ _ _) ?_
  rintro _ _ rfl
  refine (loadRequest_spec a _).step rfl ?_
  rintro _ _ ⟨rfl, rfl⟩
  dsimp only
  refine (allocated_payload ns none).step (show _ = _ + (cell a _ + (arrayCells array os +
    optionCells os + cell pt _)) by abel) ?_
  rintro fuel _ ⟨hnodes, rfl⟩
  refine (freePayload_spec ns hnodes).step rfl ?_
  rintro _ _ rfl
  rw [zero_add]
  refine (Spec.alloc _).step (zero_add _).symm ?_
  rintro node _ rfl
  refine (Spec.store _ node _).step rfl ?_
  rintro _ _ rfl
  refine (Spec.store _ a _).last (add_left_comm _ _ _) ?_
  rintro _ _ rfl
  refine ⟨array, os, [⟨node, pt, cipherNode garbage r.payloadLength.toNat plaintext⟩],
    ⟨h.options, rfl, h.array_none, h.slots⟩, ?_⟩
  rw [requestCells_single]
  refine congrArg₂ (· + ·) rfl ?_
  have hnode : Placed.nodeCells
      ⟨node, pt, cipherNode garbage r.payloadLength.toNat plaintext⟩ none =
      cell node (.node ⟨0, UInt16.ofNat plaintext.length, some pt, none⟩) +
        cell pt (.bytes (cipherNode garbage r.payloadLength.toNat plaintext).value) := rfl
  rw [hnode]
  abel

/-- The block for the plaintext is released, or it becomes the payload. -/
theorem settlePlaintext_spec {garbage : Nat → UInt8} {a : Nat} {r : Request}
    {owned : Cells MemCell} (h : HoldsRequest a r owned) {result : Option Request}
    {length : Option Nat} {out : List UInt8} {pt : Nat}
    (hout : Deciphered garbage r result length out) :
    Spec (settlePlaintext a pt length) (owned + cell pt (.bytes out)) fun _ owned' ↦
      length.isSome = result.isSome ∧ HoldsRequest a (result.getD r) owned' := by
  rcases hout with ⟨rfl, rfl⟩ | ⟨plaintext, rfl, rfl, rfl⟩
  · refine (Spec.release _ pt).last (add_comm _ _) ?_
    rintro _ _ rfl
    rw [zero_add]
    exact ⟨rfl, h⟩
  · exact (replacePayload_spec h garbage pt plaintext).mono fun _ _ hholds ↦ ⟨rfl, hholds⟩

/-- `ff_decrypt_request_aes_256_gcm` does to the request in memory what it does to the request as a
value. -/
theorem ffDecryptRequestAes256Gcm_spec {ssl : OpenSsl} (hssl : ssl.FillsKey)
    {garbage : Nat → UInt8} {config : EncryptionConfig} {a : Nat} {r : Request}
    {owned : Cells MemCell} (h : HoldsRequest a r owned) (iv tag : Copy) {result : Option Request}
    (hrun : FfProxy.ffDecryptRequestAes256Gcm ssl garbage config iv.item.value tag.item.value r =
      .ok result) :
    Spec (ffDecryptRequestAes256Gcm ssl garbage config a iv.copied tag.copied)
      (owned + (iv.cells + tag.cells)) fun decrypted owned' ↦ ∃ part lost,
        owned' = part + (iv.cells + tag.cells) + lost ∧ decrypted = result.isSome ∧
        HoldsRequest a (result.getD r) part ∧
        LostBytes (overwrittenValues OptionType.keyDeriveSalt r.options) lost := by
  refine (loadRequest_holds h).step rfl ?_
  rintro c _ ⟨hc, rfl⟩
  have hroom : c.fields.payloadLength = r.payloadLength := by rw [hc]; rfl
  rw [hroom]
  refine (Spec.alloc _).step (zero_add _).symm ?_
  rintro pt _ rfl
  refine ffDerivedKeyAlloc_spec.step (zero_add _).symm ?_
  rintro k _ ⟨block, rfl⟩
  refine (decryptInto_spec hssl h iv tag pt k block List.length_replicate hrun).step
    (show _ = _ + 0 by abel) ?_
  rintro length _ ⟨key, out, lost, rfl, hlost, hout⟩
  refine (settlePlaintext_spec h hout).step (show _ = _ + (iv.cells + tag.cells +
    keyCells k block key + lost) by abel) ?_
  rintro _ part ⟨hsome, hholds⟩
  refine (ffDerivedKeyFree_spec k block key).step (show _ = _ + (part + (iv.cells + tag.cells) +
    lost) by abel) ?_
  rintro _ _ rfl
  exact Spec.pure ⟨part, lost, zero_add _, hsome, hholds, hlost⟩

end InMemory

/-! ### Decryption -/

/-- Whether decryption comes to derive a key: there is a key to derive it from, and the request says
that it is encrypted and has an IV and a tag. -/
def DerivesKey (config : Option EncryptionConfig) (options : List OptionNode) : Prop :=
  config.isSome ∧ scanMode OptionType.encryptionMode options = ffCryptoModeAes256Gcm ∧
    (present (scanValue OptionType.encryptionIv options)).isSome ∧
    (present (scanValue OptionType.encryptionTag options)).isSome

instance (config : Option EncryptionConfig) (options : List OptionNode) :
    Decidable (DerivesKey config options) :=
  inferInstanceAs (Decidable (_ ∧ _ ∧ _ ∧ _))

/-- The salts whose copies get lost. -/
def lostSalts (config : Option EncryptionConfig) (options : List OptionNode) : List (List UInt8) :=
  if DerivesKey config options then overwrittenValues OptionType.keyDeriveSalt options else []

/-- The values whose copies get lost in a decryption. -/
def lostValues (config : Option EncryptionConfig) (options : List OptionNode) :
    List (List UInt8) :=
  overwrittenValues OptionType.encryptionIv options ++
    overwrittenValues OptionType.encryptionTag options ++ lostSalts config options

namespace InMemory

/-- What `ff_decrypt_request` leaves before it releases its last copies. -/
def AfterDecryption (a : Nat) (r : Request) (config : Option EncryptionConfig)
    (copies : Cells MemCell) (result : Option Request) (decrypted : Bool)
    (owned' : Cells MemCell) : Prop :=
  ∃ part lost, owned' = part + copies + lost ∧ decrypted = result.isSome ∧
    HoldsRequest a (result.getD r) part ∧ LostBytes (lostSalts config r.options) lost

theorem AfterDecryption.refused {a : Nat} {r : Request} {config : Option EncryptionConfig}
    {owned copies : Cells MemCell} (h : HoldsRequest a r owned)
    (hno : ¬ DerivesKey config r.options) :
    AfterDecryption a r config copies none false (owned + copies) :=
  ⟨owned, 0, (add_zero _).symm, rfl, h, by rw [lostSalts, if_neg hno]; exact LostBytes.zero⟩

/-- The decision what to do with the scanned options. -/
theorem decryptWith_spec {ssl : OpenSsl} (hssl : ssl.FillsKey) {garbage : Nat → UInt8}
    {config : Option EncryptionConfig} {a : Nat} {r : Request} {owned : Cells MemCell}
    (h : HoldsRequest a r owned) {cs : List Copy}
    (hcs : CopiesOf [OptionType.encryptionIv, OptionType.encryptionTag] r.options cs)
    {result : Option Request} (hrun : decryptWithOptions ssl garbage config r = .ok result) :
    Spec (decryptWith ssl garbage config a (scanMode OptionType.encryptionMode r.options)
        (copiesOf cs OptionType.encryptionIv) (copiesOf cs OptionType.encryptionTag))
      (owned + (copyCells (lastCopy OptionType.encryptionIv cs).toList +
        copyCells (lastCopy OptionType.encryptionTag cs).toList))
      (AfterDecryption a r config (copyCells (lastCopy OptionType.encryptionIv cs).toList +
        copyCells (lastCopy OptionType.encryptionTag cs).toList) result) := by
  cases config with
  | none =>
    -- Without a key of its own the server lets pass what does not claim to be encrypted.
    rw [decryptWithOptions] at hrun
    have hno : ¬ DerivesKey none r.options := fun hd ↦ Bool.false_ne_true hd.1
    obtain rfl := Except.ok.inj hrun
    by_cases hmode : scanMode OptionType.encryptionMode r.options = 0
    · refine Spec.pure ⟨owned, 0, (add_zero _).symm, ?_, ?_, ?_⟩
      · rw [if_pos hmode]
        exact decide_eq_true hmode
      · rw [if_pos hmode]
        exact h
      · rw [lostSalts, if_neg hno]
        exact LostBytes.zero
    · rw [if_neg hmode]
      refine Spec.pure ?_
      rw [decide_eq_false hmode]
      exact .refused h hno
  | some config =>
    rw [decryptWithOptions] at hrun
    rw [decryptWith]
    by_cases hmode : scanMode OptionType.encryptionMode r.options = 0
    · have hno : ¬ DerivesKey (some config) r.options := by
        intro hd
        rw [hd.2.1] at hmode
        exact absurd hmode (by decide)
      rw [if_pos hmode] at hrun ⊢
      obtain rfl := Except.ok.inj hrun
      exact Spec.pure (.refused h hno)
    rw [if_neg hmode] at hrun ⊢
    -- Behind each test that fails, the copies are all there is to release.
    rcases hcs.present (List.mem_cons_self ..) with ⟨hiv, hivValue⟩ | ⟨iv, hivLast, hiv, hivValue⟩
    · have hno : ¬ DerivesKey (some config) r.options := by
        intro hd
        rw [DerivesKey, hivValue] at hd
        exact Bool.false_ne_true hd.2.2.1
      rw [hivValue] at hrun
      rw [hiv]
      obtain rfl := Except.ok.inj hrun
      exact Spec.pure (.refused h hno)
    rcases hcs.present (List.mem_cons_of_mem _ (List.mem_singleton.mpr rfl)) with
      ⟨htag, htagValue⟩ | ⟨tag, htagLast, htag, htagValue⟩
    · have hno : ¬ DerivesKey (some config) r.options := by
        intro hd
        rw [DerivesKey, htagValue] at hd
        exact Bool.false_ne_true hd.2.2.2
      rw [hivValue, htagValue] at hrun
      rw [hiv, htag]
      obtain rfl := Except.ok.inj hrun
      exact Spec.pure (.refused h hno)
    rw [hivValue, htagValue] at hrun
    rw [hiv, htag]
    dsimp only at hrun ⊢
    by_cases haes : scanMode OptionType.encryptionMode r.options = ffCryptoModeAes256Gcm
    · have hyes : DerivesKey (some config) r.options :=
        ⟨rfl, haes, by rw [hivValue]; rfl, by rw [htagValue]; rfl⟩
      have hcells : copyCells (some iv).toList + copyCells (some tag).toList =
          iv.cells + tag.cells := congrArg₂ (· + ·) (add_zero _) (add_zero _)
      rw [if_pos haes] at hrun ⊢
      rw [hivLast, htagLast, hcells]
      refine (ffDecryptRequestAes256Gcm_spec hssl h iv tag hrun).mono ?_
      rintro _ _ ⟨part, lost, rfl, hsome, hholds, hlost⟩
      exact ⟨part, lost, rfl, hsome, hholds, by rwa [lostSalts, if_pos hyes]⟩
    · rw [if_neg haes] at hrun ⊢
      obtain rfl := Except.ok.inj hrun
      exact Spec.pure (.refused h fun hd ↦ haes hd.2.1)

/-- `ff_decrypt_request` does to the request in memory what it does to the request as a value. Of
the copies that it makes, all but the last one of a type get lost. -/
theorem ffDecryptRequest_holds {ssl : OpenSsl} (hssl : ssl.FillsKey) {garbage : Nat → UInt8}
    {config : Option EncryptionConfig} {a : Nat} {r r' : Request} {owned : Cells MemCell}
    (h : HoldsRequest a r owned)
    (hrun : FfProxy.ffDecryptRequest ssl garbage config r = .ok r') :
    Spec (ffDecryptRequest ssl garbage config a) owned fun _ owned' ↦ ∃ part lost,
      owned' = part + lost ∧ HoldsRequest a r' part ∧
        LostBytes (lostValues config r.options) lost := by
  obtain ⟨result, hresult, rfl⟩ : ∃ result : Option Request,
      decryptWithOptions ssl garbage config { r with state := .decrypting } = .ok result ∧
        r' = { result.getD { r with state := .decrypting } with
          state := if result.isSome then .decrypted else .decryptingFailed } := by
    rw [FfProxy.ffDecryptRequest] at hrun
    split at hrun
    · cases hrun
    · next hnone => exact ⟨none, hnone, (Except.ok.inj hrun).symm⟩
    · next r'' hsome => exact ⟨some r'', hsome, (Except.ok.inj hrun).symm⟩
  refine (modifyFields_holds h { r with state := .decrypting } rfl rfl rfl).bind ?_
  intro _ _ h
  obtain ⟨array, os, ns, hplaced, rfl⟩ := h
  refine loadRequest_placed.bind ?_
  rintro _ _ ⟨rfl, rfl⟩
  dsimp only
  rw [toNat_optionsLength hplaced.slots]
  refine (scanOptions_all_spec OptionType.encryptionMode (by decide) hplaced.array_none).step
    (show _ = _ + (cell a _ + payloadCells ns none) by rw [requestCells]; abel) ?_
  rintro _ _ ⟨cs, hcs, rfl, rfl⟩
  rw [hplaced.options] at hcs ⊢
  rw [List.nil_append]
  -- The copies that a later one replaced go to the frame here, and stay there.
  refine (decryptWith_spec hssl ⟨array, os, ns, hplaced, rfl⟩ hcs hresult).step (show _ = _ +
    (copyCells (lostCopies OptionType.encryptionIv cs) +
      copyCells (lostCopies OptionType.encryptionTag cs)) by
        rw [hcs.cells_two (by decide), requestCells]; abel) ?_
  rintro _ _ ⟨part, lost, rfl, rfl, hholds, hlost⟩
  refine (modifyFields_holds hholds { result.getD { r with state := .decrypting } with
    state := if result.isSome then .decrypted else .decryptingFailed } rfl rfl rfl).step
    (show _ = _ + (copyCells (lastCopy OptionType.encryptionIv cs).toList +
      copyCells (lastCopy OptionType.encryptionTag cs).toList +
      (copyCells (lostCopies OptionType.encryptionIv cs) +
        copyCells (lostCopies OptionType.encryptionTag cs) + lost)) by abel) ?_
  intro _ part' hpart
  refine (free_copied_spec (lastCopy OptionType.encryptionIv cs)).step (show _ = _ + (part' +
    (copyCells (lastCopy OptionType.encryptionTag cs).toList +
      (copyCells (lostCopies OptionType.encryptionIv cs) +
        copyCells (lostCopies OptionType.encryptionTag cs) + lost))) by abel) ?_
  rintro _ _ rfl
  refine (free_copied_spec (lastCopy OptionType.encryptionTag cs)).last (show _ = _ + (part' +
    (copyCells (lostCopies OptionType.encryptionIv cs) +
      copyCells (lostCopies OptionType.encryptionTag cs) + lost)) by abel) ?_
  rintro _ _ rfl
  exact ⟨part', _, zero_add _, hpart, ((hcs.lost (List.mem_cons_self ..)).add
    (hcs.lost (List.mem_cons_of_mem _ (List.mem_singleton.mpr rfl)))).add hlost⟩

end InMemory

end FfProxy
