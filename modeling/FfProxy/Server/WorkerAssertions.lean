import FfProxy.Server.OverHashTable

/-!
# The assertions of the worker

`ff_request_parse_options_from_payload` asserts that the payload is a single node,
`src/parser.c:370–371`, and the vectoriser and the decryption loop follow the payload pointer
unchecked. A request is handed to a worker only after a node was linked to it. Nothing that
happens later takes its last node away, so the worker finds a payload whenever it starts, and
from there on every stage that succeeds leaves a single node.
-/

namespace FfProxy
open Base

/-- What the worker relies on, `src/server.c:213–222`: the vectoriser and the decryption loop
are handed a payload, and a request that comes to the option parser has a single node. -/
structure AssertionsHold (env : Environment) (config : Config) (r : Request) : Prop where
  vectorise : ffRequestVectorisePayload (env.garbage 0) r ≠ .error .nullDereference
  decrypt : ∀ r₁, ffRequestVectorisePayload (env.garbage 0) r = .ok r₁ →
    ffDecryptRequest env.ssl (env.garbage 1) config.encryption r₁ ≠ .error .nullDereference
  single : ∀ r₁ r₂, ffRequestVectorisePayload (env.garbage 0) r = .ok r₁ →
    ffDecryptRequest env.ssl (env.garbage 1) config.encryption r₁ = .ok r₂ →
    r₂.state = .decrypted → ∃ node, r₂.payload = [node]
  asserts : ∀ r₁ r₂, ffRequestVectorisePayload (env.garbage 0) r = .ok r₁ →
    ffDecryptRequest env.ssl (env.garbage 1) config.encryption r₁ = .ok r₂ →
    r₂.state = .decrypted → ffRequestParseOptionsFromPayload r₂ ≠ .error .assertion

/-! ### The parser -/

/-- A data chunk is refused and the payload left alone, or its node is linked. -/
theorem ffRequestParseDataChunk_payload (r : Request) (b : Buffer) :
    (ffRequestParseDataChunk r b).state = .receivingFail ∧
        (ffRequestParseDataChunk r b).payload = r.payload ∨
      (ffRequestParseDataChunk r b).payload ≠ [] := by
  unfold ffRequestParseDataChunk
  rcases parseChunkNode_cases r b with (h | ⟨r', ht, h⟩) | ⟨r', node, ht, _, _, h⟩
  · rw [h]
    exact Or.inl ⟨rfl, rfl⟩
  · rw [h]
    exact Or.inl ⟨rfl, (TookOptions.sameIdentity (Or.inr ht)).2.1⟩
  · simp only [h]
    cases hl : linkNode r' node with
    | none => exact Or.inl ⟨rfl, (TookOptions.sameIdentity (Or.inr ht)).2.1⟩
    | some r'' =>
      have hne : r''.payload ≠ [] := by
        unfold linkNode at hl
        split at hl
        · rw [← Option.some.inj hl]
          exact List.cons_ne_nil _ _
        · split at hl
          · cases hl
          · rw [← Option.some.inj hl]
            exact List.concat_ne_nil node _
      refine Or.inr ?_
      dsimp only
      split
      · exact hne
      · exact hne

/-- A packet is refused and the payload left alone, or the request has a payload after it. -/
theorem ffRequestParseChunk_payload (r : Request) (b : Buffer) :
    (ffRequestParseChunk r b).state = .receivingFail ∧
        (ffRequestParseChunk r b).payload = r.payload ∨
      (ffRequestParseChunk r b).payload ≠ [] := by
  unfold ffRequestParseChunk
  split
  · unfold ffRequestParseFirstChunk
    split
    · exact Or.inr (List.cons_ne_nil _ _)
    · split
      · exact Or.inl ⟨rfl, rfl⟩
      · exact ffRequestParseDataChunk_payload _ b
  · exact ffRequestParseDataChunk_payload r b

/-- A complete request has a payload. -/
theorem payload_ne_nil_of_received {r : Request} {b : Buffer}
    (hs : (ffRequestParseChunk r b).state = .received) :
    (ffRequestParseChunk r b).payload ≠ [] := by
  rcases ffRequestParseChunk_payload r b with ⟨hf, _⟩ | hne
  · rw [hf] at hs
    cases hs
  · exact hne

/-- A packet takes no payload away. -/
theorem ffRequestParseChunk_ne_nil {r : Request} (b : Buffer) (h : r.payload ≠ []) :
    (ffRequestParseChunk r b).payload ≠ [] := by
  rcases ffRequestParseChunk_payload r b with ⟨_, he⟩ | hne
  · rwa [he]
  · exact hne

/-! ### The stages -/

/-- No stage takes the payload away. -/
theorem workerStage_ne_nil {env : Environment} {config : Config} {stage : WorkerStage}
    {r r' : Request} (h : workerStage env config stage r = .ok r') (hp : r.payload ≠ []) :
    r'.payload ≠ [] := by
  cases stage with
  | vectorise =>
    obtain ⟨node, rfl, _⟩ := ffRequestVectorisePayload_cases h
    exact List.cons_ne_nil _ _
  | decrypt =>
    rcases ffDecryptRequest_payload h with he | ⟨node, he⟩
    · rwa [he]
    · rw [he]
      exact List.cons_ne_nil _ _
  | parseOptions =>
    obtain ⟨node, he⟩ := ffRequestParseOptionsFromPayload_payload h
    rw [he]
    exact List.cons_ne_nil _ _
  | send =>
    rw [← Except.ok.inj h, ffHttpSendRequest_eq]
    exact hp

/-- On a request with a payload the assertions hold. -/
theorem assertionsHold_of_ne_nil (env : Environment) (config : Config) {r : Request}
    (hp : r.payload ≠ []) : AssertionsHold env config r := by
  have hsingle : ∀ r₁ r₂, ffRequestVectorisePayload (env.garbage 0) r = .ok r₁ →
      ffDecryptRequest env.ssl (env.garbage 1) config.encryption r₁ = .ok r₂ →
      ∃ node, r₂.payload = [node] := by
    intro r₁ r₂ h₁ h₂
    obtain ⟨node, rfl, _⟩ := ffRequestVectorisePayload_cases h₁
    exact (ffDecryptRequest_payload h₂).elim (fun he ↦ ⟨node, he⟩) id
  refine ⟨fun h ↦ hp (payload_eq_nil_of_vectorise h), fun r₁ h₁ h ↦ ?_,
    fun r₁ r₂ h₁ h₂ _ ↦ hsingle r₁ r₂ h₁ h₂, fun r₁ r₂ h₁ h₂ _ h ↦ ?_⟩
  · obtain ⟨node, rfl, _⟩ := ffRequestVectorisePayload_cases h₁
    cases payload_eq_nil_of_nullDereference h
  · obtain ⟨node, hone⟩ := hsingle r₁ r₂ h₁ h₂
    exact ffRequestParseOptionsFromPayload_ne_assertion hone h

/-! ### Runs -/

/-- Everything an event can do: a datagram is received, nothing happens, a worker runs a stage
on a request in memory, or a worker is done. -/
theorem step_cases {T : Type} {ops : RequestTable T} {config : Config} {p p' : Proxy T} {e : Event}
    (hstep : p.step ops config e = .ok p') :
    (∃ d s, ffProxyProcessIncomingPacket ops p.receiver d = .ok s ∧
      p' = { p with receiver := s }) ∨ p' = p ∨
    (∃ env stage h r r', p.receiver.objects.read h = some r ∧
      workerStage env config stage r = .ok r' ∧
      p' = { p with receiver := { p.receiver with
        objects := p.receiver.objects.write h r' } }) ∨
    ∃ worker h table, p' = p.cleaned worker h table := by
  cases e with
  | packet d =>
    obtain ⟨s, hrun, rfl⟩ := step_packet_eq hstep
    exact Or.inl ⟨d, s, hrun, rfl⟩
  | work worker env stage =>
    rcases step_work_cases hstep with rfl | ⟨h, r, r', _, hr, hrun, rfl⟩
    · exact Or.inr (Or.inl rfl)
    · exact Or.inr (Or.inr (Or.inl ⟨env, stage, h, r, r', hr, hrun, rfl⟩))
  | finish worker =>
    rcases step_finish_of_any hstep with rfl | ⟨h, r, _, _, hrun⟩
    · exact Or.inr (Or.inl rfl)
    · obtain ⟨table, rfl⟩ := cleaned_of_cleanup hrun
      exact Or.inr (Or.inr (Or.inr ⟨worker, h, table, rfl⟩))

/-- Every request that was handed over and is still in memory has a payload. -/
def PayloadsInv {T : Type} (s : Receiver T) : Prop :=
  ∀ h ∈ s.dispatched, h < s.objects.next ∧ ∀ r, s.objects.read h = some r → r.payload ≠ []

namespace PayloadsInv

variable {T : Type} {ops : RequestTable T} {s s' : Receiver T}

/-- Writing back a request keeps the invariant, if it has a payload or was not handed over. -/
theorem write (hi : PayloadsInv s) {h : Nat} {r : Request} (hlt : h < s.objects.next)
    (hr : h ∈ s.dispatched → r.payload ≠ []) :
    PayloadsInv { s with objects := s.objects.write h r } := by
  intro h' hh'
  obtain ⟨hlt', hread⟩ := hi h' hh'
  refine ⟨by simpa using hlt', fun r' hr' ↦ ?_⟩
  rw [Heap.read_write _ _ _ _ hlt] at hr'
  split at hr'
  · next he =>
    subst he
    rw [← Option.some.inj hr']
    exact hr hh'
  · exact hread r' hr'

/-- Releasing a request keeps the invariant, whatever becomes of the table. -/
theorem free (hi : PayloadsInv s) (h : Nat) (table : T) :
    PayloadsInv { s with table := table, objects := s.objects.free h } := by
  intro h' hh'
  obtain ⟨hlt, hread⟩ := hi h' hh'
  refine ⟨by simpa using hlt, fun r hr ↦ ?_⟩
  rw [Heap.read_free] at hr
  split at hr
  · cases hr
  · exact hread r hr

/-- A new request keeps the invariant. -/
theorem alloc (hi : PayloadsInv s) (r : Request) (table : T) :
    PayloadsInv { s with table := table, objects := s.objects.alloc r } := by
  intro h hh
  obtain ⟨hlt, hread⟩ := hi h hh
  refine ⟨by simpa using Nat.lt_succ_of_lt hlt, fun r' hr' ↦ ?_⟩
  rw [Heap.read_alloc, if_neg (Nat.ne_of_lt hlt)] at hr'
  exact hread r' hr'

/-- Handing over a request that has a payload keeps the invariant. -/
theorem dispatch (hi : PayloadsInv s) {h : Nat} (hlt : h < s.objects.next)
    (hr : ∀ r, s.objects.read h = some r → r.payload ≠ []) :
    PayloadsInv { s with dispatched := s.dispatched ++ [h] } := by
  intro h' hh'
  rcases List.mem_append.mp hh' with hh' | hh'
  · exact hi h' hh'
  · rw [List.mem_singleton.mp hh']
    exact ⟨hlt, hr⟩

/-- What becomes of a parsed request keeps the invariant. -/
theorem settles (hi : PayloadsInv s) {h : Nat} {r : Request} (hlt : h < s.objects.next)
    (hr : h ∈ s.dispatched → r.payload ≠ []) (hreceived : r.state = .received → r.payload ≠ [])
    (hsettles : SettledAs s h r s') : PayloadsInv s' := by
  cases hsettles with
  | kept => exact hi.write hlt hr
  | released table => exact hi.free h table
  | handedOver hs =>
    refine (hi.write hlt hr).dispatch (by simpa using hlt) fun r' hr' ↦ ?_
    rw [Heap.read_write _ _ _ _ hlt, if_pos rfl] at hr'
    rw [← Option.some.inj hr']
    exact hreceived hs

/-- A datagram keeps the invariant. -/
theorem packet (hi : PayloadsInv s) {d : Datagram}
    (hrun : ffProxyProcessIncomingPacket ops s d = .ok s') : PayloadsInv s' := by
  rcases fetched_of_packet hrun with rfl | ⟨s₁, h, r, hf, hsettles⟩
  · exact hi
  · have hi₁ : PayloadsInv s₁ := by
      cases hf with
      | made table _ => exact hi.alloc r table
      | found _ => exact hi
    exact hi₁.settles (Heap.lt_next_of_read hf.read)
      (fun hh ↦ ffRequestParseChunk_ne_nil d.buffer ((hi₁ h hh).2 r hf.read))
      payload_ne_nil_of_received hsettles

variable {p p' : Proxy T} {config : Config}

/-- An event keeps the invariant. -/
theorem step (hi : PayloadsInv p.receiver) {e : Event} (hstep : p.step ops config e = .ok p') :
    PayloadsInv p'.receiver := by
  obtain ⟨d, s, hrun, rfl⟩ | rfl | ⟨env, stage, h, r, r', hr, hrun, rfl⟩ | ⟨_, h, _, rfl⟩ :=
    step_cases hstep
  · exact hi.packet hrun
  · exact hi
  · exact hi.write (Heap.lt_next_of_read hr) fun hh ↦ workerStage_ne_nil hrun ((hi h hh).2 r hr)
  · exact hi.free h _

/-- Events keep the invariant. -/
theorem run (hi : PayloadsInv p.receiver) {es : List Event} (hrun : p.run ops config es = .ok p') :
    PayloadsInv p'.receiver :=
  foldlM_keeps (P := fun p : Proxy T ↦ PayloadsInv p.receiver) (fun hi hstep ↦ hi.step hstep) hi
    hrun

end PayloadsInv

/-! ### Handing over -/

section HandsOver

variable {T : Type} {ops : RequestTable T} {s s' : Receiver T}

/-- Nothing is handed over, or one request that is in memory and complete. -/
def HandsOver (s s' : Receiver T) : Prop :=
  s'.dispatched = s.dispatched ∨ ∃ h r, s'.dispatched = s.dispatched ++ [h] ∧
    s'.objects.read h = some r ∧ r.state = .received

/-- A datagram hands over nothing, or one request that is in memory and complete. -/
theorem packet_handsOver {d : Datagram} (hrun : ffProxyProcessIncomingPacket ops s d = .ok s') :
    HandsOver s s' := by
  rcases fetched_of_packet hrun with rfl | ⟨s₁, h, r, hf, hsettles⟩
  · exact Or.inl rfl
  · cases hsettles with
    | kept => exact Or.inl hf.dispatched_eq
    | released table => exact Or.inl hf.dispatched_eq
    | handedOver hs =>
      refine Or.inr ⟨h, _, by rw [hf.dispatched_eq], ?_, hs⟩
      rw [Heap.read_write _ _ _ _ (Heap.lt_next_of_read hf.read), if_pos rfl]

variable {p p' : Proxy T} {config : Config}

/-- So does every event. -/
theorem step_handsOver {e : Event} (hstep : p.step ops config e = .ok p') :
    HandsOver p.receiver p'.receiver := by
  obtain ⟨d, s, hrun, rfl⟩ | rfl | ⟨_, _, _, _, _, _, _, rfl⟩ | ⟨_, _, _, rfl⟩ := step_cases hstep
  · exact packet_handsOver hrun
  · exact Or.inl rfl
  · exact Or.inl rfl
  · exact Or.inl rfl

/-- What was handed over stays handed over. -/
theorem dispatched_subset_of_run {es : List Event} (hrun : p.run ops config es = .ok p') :
    p.receiver.dispatched ⊆ p'.receiver.dispatched := by
  apply foldlM_keeps (P := fun q : Proxy T ↦ p.receiver.dispatched ⊆ q.receiver.dispatched) _
    (List.Subset.refl _) hrun
  intro q q' e hq hstep
  rcases step_handsOver hstep with he | ⟨_, _, he, _⟩
  · rwa [he]
  · rw [he]
    exact List.Subset.trans hq (List.subset_append_left _ _)

end HandsOver

/-- Whatever packets and workers led to a datagram that hands over a request, the request is in
memory and complete; and however long its worker takes to start, as long as the request is in
memory the assertions hold on it. -/
theorem worker_assertions {table : HashTable Nat} {config : Config} {es : List Event}
    {d : Datagram} {p p' : Proxy (HashTable Nat)} {h : Nat}
    (hrun : (Proxy.initial table).run hashTable config es = .ok p)
    (hstep : p.step hashTable config (.packet d) = .ok p')
    (hd : p'.receiver.dispatched = p.receiver.dispatched ++ [h]) :
    (∃ r, p'.receiver.objects.read h = some r ∧ r.state = .received) ∧
      ∀ es' q, p'.run hashTable config es' = .ok q → ∀ r, q.receiver.objects.read h = some r →
        ∀ env, AssertionsHold env config r := by
  have hinit : PayloadsInv (Proxy.initial table).receiver := fun _ hh ↦ by cases hh
  have hi : PayloadsInv p'.receiver := (hinit.run hrun).step hstep
  constructor
  · rcases step_handsOver hstep with he | ⟨h', r, he, hr, hs⟩
    · rw [he] at hd
      simp at hd
    · obtain rfl : h' = h := by simpa using List.append_cancel_left (he.symm.trans hd)
      exact ⟨r, hr, hs⟩
  · intro es' q hq r hr env
    have hmem : h ∈ q.receiver.dispatched := dispatched_subset_of_run hq (by simp [hd])
    exact assertionsHold_of_ne_nil env config ((hi.run hq h hmem).2 r hr)

/-- The first packet of a request of two bytes. -/
def sampleFirstHalf : Datagram := arrivalOf (samplePacket 2 0 [65]).bytes (by decide) (by decide)

/-- The second packet of the request. -/
def sampleSecondHalf : Datagram := arrivalOf (samplePacket 2 1 [66]).bytes (by decide) (by decide)

/-- The second packet hands the request over with two chunks, and the assertions hold on it. -/
theorem worker_assertions_sample : ∃ (table : HashTable Nat) (p p' : Proxy (HashTable Nat))
    (r : Request), ffHashTableInit 16 = .ok table ∧
      (Proxy.initial table).run hashTable ⟨0, none⟩ [.packet sampleFirstHalf] = .ok p ∧
      p.step hashTable ⟨0, none⟩ (.packet sampleSecondHalf) = .ok p' ∧
      p.receiver.dispatched = [] ∧ p'.receiver.dispatched = [0] ∧
      p'.receiver.objects.read 0 = some r ∧ r.payload.length = 2 ∧
      AssertionsHold sampleEnvironment ⟨0, none⟩ r := by
  obtain ⟨table, hinit⟩ := exists_table
  -- The run is computed over the map, and the proxy over the hash table follows it.
  obtain ⟨q, hq, hnone⟩ : ∃ q, (Proxy.initial OrderedMap.empty).run mapTable ⟨0, none⟩
      [.packet sampleFirstHalf] = .ok q ∧ q.receiver.dispatched = [] :=
    exists_ok_of_map (by decide +kernel)
  obtain ⟨q', hq', hseen⟩ : ∃ q', (Proxy.initial OrderedMap.empty).run mapTable ⟨0, none⟩
      ([.packet sampleFirstHalf] ++ [.packet sampleSecondHalf]) = .ok q' ∧
        (q'.receiver.dispatched,
          (q'.receiver.objects.read 0).map fun r ↦ r.payload.length) = ([0], some 2) :=
    exists_ok_of_map (f := fun q' : Proxy (OrderedMap UInt64 Nat) ↦ (q'.receiver.dispatched,
      (q'.receiver.objects.read 0).map fun r ↦ r.payload.length)) (by decide +kernel)
  obtain ⟨q₁, hq₁, hlast⟩ := foldlM_concat_eq_ok.mp hq'
  obtain rfl : q₁ = q := Except.ok.inj (hq₁.symm.trans hq)
  obtain ⟨p, hrun, hp⟩ := (run_related hashTable_simulates_mapTable
    (initial_related (refines_empty hinit)) _).of_ok_right hq
  obtain ⟨p', hstep, hp'⟩ := (step_related hashTable_simulates_mapTable hp _).of_ok_right hlast
  have hbefore : p.receiver.dispatched = [] := hp.receiver.dispatched.trans hnone
  have hafter : p'.receiver.dispatched = [0] :=
    hp'.receiver.dispatched.trans (congrArg Prod.fst hseen)
  obtain ⟨⟨r, hr, _⟩, hasserts⟩ := worker_assertions hrun hstep (by rw [hbefore, hafter]; rfl)
  have hchunks : (p'.receiver.objects.read 0).map (fun r ↦ r.payload.length) = some 2 := by
    rw [hp'.receiver.objects]
    exact congrArg Prod.snd hseen
  rw [hr] at hchunks
  exact ⟨table, p, p', r, hinit, hrun, hstep, hbefore, hafter, hr, Option.some.inj hchunks,
    hasserts [] p' rfl r hr sampleEnvironment⟩

end FfProxy
