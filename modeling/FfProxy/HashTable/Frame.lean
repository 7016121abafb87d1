import FfProxy.Base.Simulation
import FfProxy.HashTable.Refine

/-!
# What the operations touch in the trie

Every operation walks down to the leaf slot of its id first. A put may then store a pointer in
this slot. A removal may store one too, and walks back up if the slot is null then. No
operation changes the number of levels or the root.
-/

namespace FfProxy
open Base

variable {α : Type}

/-- The number of levels and the root are those of another table. -/
structure SameRoot (t t' : HashTable α) : Prop where
  levels : t'.bucketLevels = t.bucketLevels
  root : t'.buckets = t.buckets

theorem SameRoot.refl (t : HashTable α) : SameRoot t t := ⟨rfl, rfl⟩

theorem SameRoot.trans {t t₁ t₂ : HashTable α} (h : SameRoot t t₁) (h' : SameRoot t₁ t₂) :
    SameRoot t t₂ :=
  ⟨h'.levels.trans h.levels, h'.root.trans h.root⟩

/-- A new table has a level for every eight bits of the prefix. -/
theorem ffHashTableInit_levels {bits : UInt8} {t : HashTable α}
    (h : ffHashTableInit bits = .ok t) : t.bucketLevels = bits.toNat / 8 := by
  rw [ffHashTableInit] at h
  split at h
  · cases h
  · obtain rfl := Except.ok.inj h
    rfl

/-- The leaf slot of an id holds what it held, or another pointer. -/
def LeafWritten (arrays arrays' : Heap Bucket) (leaf : Nat) (hash : UInt8) : Prop :=
  arrays' = arrays ∨ ∃ pointer, writeSlot arrays leaf hash pointer = .ok arrays'

section Parts

variable {t t' : HashTable α} {leaf node : Nat} {hash : UInt8} {other : Option Nat}

theorem appendToChain_frame (h : appendToChain t leaf hash other node = .ok t') :
    SameRoot t t' ∧ LeafWritten t.arrays t'.arrays leaf hash := by
  cases other with
  | none =>
    obtain ⟨arrays, hwrite, h⟩ := bind_eq_ok h
    cases h
    exact ⟨⟨rfl, rfl⟩, .inr ⟨_, hwrite⟩⟩
  | some last =>
    obtain ⟨nodes, _, h⟩ := bind_eq_ok h
    cases h
    exact ⟨⟨rfl, rfl⟩, .inl rfl⟩

theorem appendToList_frame (h : appendToList t node = .ok t') :
    SameRoot t t' ∧ t'.arrays = t.arrays := by
  rw [appendToList] at h
  split at h
  · cases h
    exact ⟨⟨rfl, rfl⟩, rfl⟩
  · obtain ⟨nodes, _, h⟩ := bind_eq_ok h
    split at h
    · cases h
    · obtain ⟨nodes', _, h⟩ := bind_eq_ok h
      cases h
      exact ⟨⟨rfl, rfl⟩, rfl⟩

theorem unlinkFromChain_frame (h : unlinkFromChain t leaf hash other node = .ok t') :
    SameRoot t t' ∧ LeafWritten t.arrays t'.arrays leaf hash := by
  obtain ⟨n, _, h⟩ := bind_eq_ok h
  cases other with
  | some previous =>
    obtain ⟨nodes, _, h⟩ := bind_eq_ok h
    cases h
    exact ⟨⟨rfl, rfl⟩, .inl rfl⟩
  | none =>
    obtain ⟨arrays, hwrite, h⟩ := bind_eq_ok h
    cases h
    exact ⟨⟨rfl, rfl⟩, .inr ⟨_, hwrite⟩⟩

theorem unlinkFromList_frame (h : unlinkFromList t node = .ok t') :
    SameRoot t t' ∧ t'.arrays = t.arrays := by
  obtain ⟨n, _, h⟩ := bind_eq_ok h
  obtain ⟨nodes, _, h⟩ := bind_eq_ok h
  obtain ⟨n, _, h⟩ := bind_eq_ok h
  obtain ⟨nodes, _, h⟩ := bind_eq_ok h
  obtain ⟨n, _, h⟩ := bind_eq_ok h
  cases h
  exact ⟨⟨rfl, rfl⟩, rfl⟩

/-- The end of a removal. -/
private theorem clear_frame {itemId : UInt64} {passed : List Nat}
    (h : (readBucket t.arrays leaf >>= fun b ↦
      if b hash = none then
        if t.bucketLevels < 2 then .error .outOfBounds
        else clearUnusedLoop itemId t.buckets passed (t.bucketLevels - 2) t.arrays >>= fun arrays ↦
          pure { t with arrays := arrays }
      else pure t) = .ok t') :
    SameRoot t t' ∧ ∃ b, readBucket t.arrays leaf = .ok b ∧
      (b hash ≠ none ∧ t'.arrays = t.arrays ∨
        b hash = none ∧
          clearUnusedLoop itemId t.buckets passed (t.bucketLevels - 2) t.arrays =
            .ok t'.arrays) := by
  obtain ⟨b, hread, h⟩ := bind_eq_ok h
  split at h
  · next hnull =>
    split at h
    · cases h
    · obtain ⟨arrays, hclear, h⟩ := bind_eq_ok h
      cases h
      exact ⟨⟨rfl, rfl⟩, b, hread, .inr ⟨hnull, hclear⟩⟩
  · next hslot =>
    cases h
    exact ⟨.refl t, b, hread, .inl ⟨hslot, rfl⟩⟩

end Parts

section Operations

variable {t t' : HashTable α} {itemId : UInt64}

/-- A put walks down and may write the leaf slot. -/
theorem ffHashTablePutItem_frame {item : Option α} (h : ffHashTablePutItem t itemId item = .ok t') :
    SameRoot t t' ∧ ∃ arrays leaf passed,
      ffHashTableGetOrCreateBucket t itemId true = .ok (arrays, some (leaf, passed)) ∧
      LeafWritten arrays t'.arrays leaf (t.leafHash itemId) := by
  rw [ffHashTablePutItem] at h
  obtain ⟨⟨arrays, bucket⟩, hwalk, h⟩ := bind_eq_ok h
  cases bucket with
  | none => cases h
  | some slot =>
    obtain ⟨leaf, passed⟩ := slot
    obtain ⟨b, _, h⟩ := bind_eq_ok h
    obtain ⟨⟨found, last⟩, _, h⟩ := bind_eq_ok h
    cases found with
    | some a =>
      obtain ⟨nodes, _, h⟩ := bind_eq_ok h
      cases h
      exact ⟨⟨rfl, rfl⟩, arrays, leaf, passed, hwalk, .inl rfl⟩
    | none =>
      obtain ⟨t₁, hchain, hlist⟩ := bind_eq_ok h
      obtain ⟨hroot, hwritten⟩ := appendToChain_frame hchain
      obtain ⟨hroot', harrays⟩ := appendToList_frame hlist
      refine ⟨⟨hroot'.levels.trans hroot.levels, hroot'.root.trans hroot.root⟩, arrays, leaf,
        passed, hwalk, ?_⟩
      rw [harrays]
      exact hwritten

/-- A removal walks down and may write the leaf slot; if the slot was written and is null, it
walks back up. -/
theorem ffHashTableRemoveItem_frame (h : ffHashTableRemoveItem t itemId = .ok t') :
    SameRoot t t' ∧ ∃ arrays bucket,
      ffHashTableGetOrCreateBucket t itemId true = .ok (arrays, bucket) ∧
      (t'.arrays = arrays ∨ ∃ leaf passed arrays₁ b, bucket = some (leaf, passed) ∧
        LeafWritten arrays arrays₁ leaf (t.leafHash itemId) ∧ readBucket arrays₁ leaf = .ok b ∧
        (b (t.leafHash itemId) ≠ none ∧ t'.arrays = arrays₁ ∨
          b (t.leafHash itemId) = none ∧
            clearUnusedLoop itemId t.buckets passed (t.bucketLevels - 2) arrays₁ =
              .ok t'.arrays)) := by
  rw [ffHashTableRemoveItem] at h
  obtain ⟨⟨arrays, bucket⟩, hwalk, h⟩ := bind_eq_ok h
  cases bucket with
  | none =>
    cases h
    exact ⟨⟨rfl, rfl⟩, arrays, none, hwalk, .inl rfl⟩
  | some slot =>
    obtain ⟨leaf, passed⟩ := slot
    obtain ⟨b, hread, h⟩ := bind_eq_ok h
    dsimp only at h
    split at h
    · cases h
      exact ⟨⟨rfl, rfl⟩, arrays, _, hwalk, .inl rfl⟩
    · obtain ⟨⟨found, previous⟩, _, h⟩ := bind_eq_ok h
      cases found with
      | none =>
        obtain ⟨hroot, b', hread', hclear⟩ := clear_frame h
        exact ⟨⟨hroot.levels, hroot.root⟩, arrays, _, hwalk,
          .inr ⟨leaf, passed, arrays, b', rfl, .inl rfl, hread', hclear⟩⟩
      | some node =>
        obtain ⟨t₁, hchain, h⟩ := bind_eq_ok h
        obtain ⟨t₂, hlist, h⟩ := bind_eq_ok h
        obtain ⟨hroot₁, hwritten⟩ := unlinkFromChain_frame hchain
        obtain ⟨hroot₂, harrays⟩ := unlinkFromList_frame hlist
        obtain ⟨hroot, b', hread', hclear⟩ := clear_frame h
        have hlevels : t₂.bucketLevels = t.bucketLevels := hroot₂.levels.trans hroot₁.levels
        have hbuckets : t₂.buckets = t.buckets := hroot₂.root.trans hroot₁.root
        rw [harrays] at hread' hclear
        rw [hlevels, hbuckets] at hclear
        exact ⟨⟨hroot.levels.trans hlevels, hroot.root.trans hbuckets⟩, arrays, _, hwalk,
          .inr ⟨leaf, passed, t₁.arrays, b', rfl, hwritten, hread', hclear⟩⟩

/-- No operation changes the number of levels or the root. -/
theorem TableOp.run_sameRoot {op : TableOp α} {value : Option α} (h : op.run t = .ok (t', value)) :
    SameRoot t t' := by
  cases op with
  | put itemId item =>
    obtain ⟨t₁, hput, h⟩ := bind_eq_ok h
    cases h
    exact (ffHashTablePutItem_frame hput).1
  | remove itemId =>
    obtain ⟨t₁, hremove, h⟩ := bind_eq_ok h
    cases h
    exact (ffHashTableRemoveItem_frame hremove).1
  | get itemId =>
    obtain ⟨found, _, h⟩ := bind_eq_ok h
    cases h
    exact .refl t

/-- Nor does a run. -/
theorem runOps_sameRoot {ops : List (TableOp α)} {values : List (Option α)}
    (h : runOps t ops = .ok (t', values)) : SameRoot t t' := by
  induction ops generalizing t values with
  | nil =>
    cases h
    exact .refl _
  | cons op ops ih =>
    obtain ⟨⟨t₁, value⟩, hop, h⟩ := bind_eq_ok h
    obtain ⟨⟨t₂, rest⟩, hrest, h⟩ := bind_eq_ok h
    cases h
    exact (TableOp.run_sameRoot hop).trans (ih hrest)

end Operations

end FfProxy
