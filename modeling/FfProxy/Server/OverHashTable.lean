import FfProxy.Base.Simulation
import FfProxy.HashTable.Refine
import FfProxy.Server.Dispatch

/-!
# The proxy over its hash table

Two tables that behave alike make receivers and proxies that take the same steps. The hash
table behaves like an insertion-ordered map, so what holds of the proxy over a map holds of
the proxy as it is.
-/

namespace FfProxy
open Base

/-! ### Tables that behave alike -/

/-- The operations of two tables agree as long as the tables are related. -/
structure TableSimulation {T T' : Type} (ops : RequestTable T) (ops' : RequestTable T')
    (R : T → T' → Prop) : Prop where
  getItem : ∀ {t t'} k, R t t' → ops.getItem t k = ops'.getItem t' k
  putItem : ∀ {t t'} k h, R t t' → ExceptRel R (ops.putItem t k h) (ops'.putItem t' k h)
  removeItem : ∀ {t t'} k, R t t' → ExceptRel R (ops.removeItem t k) (ops'.removeItem t' k)

/-- The two tables can be exchanged. -/
theorem TableSimulation.symm {T T' : Type} {ops : RequestTable T} {ops' : RequestTable T'}
    {R : T → T' → Prop} (hsim : TableSimulation ops ops' R) :
    TableSimulation ops' ops fun t' t ↦ R t t' where
  getItem k hR := (hsim.getItem k hR).symm
  putItem k h hR := (hsim.putItem k h hR).symm
  removeItem k hR := (hsim.removeItem k hR).symm

/-- Receivers that differ in their tables only. -/
structure Receiver.Related {T T' : Type} (R : T → T' → Prop) (s : Receiver T) (s' : Receiver T') :
    Prop where
  objects : s.objects = s'.objects
  dispatched : s.dispatched = s'.dispatched
  table : R s.table s'.table

/-- Proxies that differ in their tables only. -/
structure Proxy.Related {T T' : Type} (R : T → T' → Prop) (p : Proxy T) (p' : Proxy T') : Prop where
  receiver : p.receiver.Related R p'.receiver
  finished : p.finished = p'.finished

section Simulation

variable {T T' : Type} {ops : RequestTable T} {ops' : RequestTable T'} {R : T → T' → Prop}
  {s : Receiver T} {s' : Receiver T'}

private theorem settle_related (hsim : TableSimulation ops ops' R) (hs : s.Related R s')
    (requestId : UInt64) (h : Nat) (r : Request) :
    ExceptRel (Receiver.Related R) (settle ops s requestId h r) (settle ops' s' requestId h r) := by
  obtain ⟨hobjects, hdispatched, htable⟩ := hs
  unfold settle
  rw [hobjects, hdispatched]
  split
  · exact .ok ⟨rfl, rfl, htable⟩
  · split
    · obtain ⟨t, t', ht, ht', hR⟩ | ⟨e, ht, ht'⟩ := (hsim.removeItem requestId htable).outcome
      · rw [ht, ht']
        exact .ok ⟨rfl, rfl, hR⟩
      · rw [ht, ht']
        exact .error e
    · exact .ok ⟨rfl, rfl, htable⟩
  · exact .ok ⟨rfl, rfl, htable⟩
  · exact .ok ⟨rfl, rfl, htable⟩

private theorem receiveChunk_related (hsim : TableSimulation ops ops' R) (hs : s.Related R s')
    (requestId : UInt64) (h : Nat) (d : Datagram) :
    ExceptRel (Receiver.Related R) (receiveChunk ops s requestId h d)
      (receiveChunk ops' s' requestId h d) := by
  unfold receiveChunk
  rw [hs.objects]
  split
  · exact .error _
  · split
    · exact .ok hs
    · exact settle_related hsim hs _ _ _

/-- A packet is handled alike. -/
theorem ffProxyProcessIncomingPacket_related (hsim : TableSimulation ops ops' R)
    (hs : s.Related R s') (d : Datagram) :
    ExceptRel (Receiver.Related R) (ffProxyProcessIncomingPacket ops s d)
      (ffProxyProcessIncomingPacket ops' s' d) := by
  unfold ffProxyProcessIncomingPacket
  dsimp only
  rw [hsim.getItem _ hs.table, hs.objects]
  split
  · apply settle_related hsim
    exact ⟨rfl, hs.dispatched, hs.table⟩
  · split
    · exact .ok hs
    · split
      · exact .error _
      · exact receiveChunk_related hsim hs _ _ _
      · obtain ⟨t, t', ht, ht', hR⟩ | ⟨e, ht, ht'⟩ :=
          (hsim.putItem (ffRequestParseId d.buffer) s'.objects.next hs.table).outcome
        · rw [ht, ht']
          apply receiveChunk_related hsim
          exact ⟨rfl, hs.dispatched, hR⟩
        · rw [ht, ht']
          exact .error e

/-- Packets are handled alike. -/
theorem processIncomingPackets_related (hsim : TableSimulation ops ops' R) (hs : s.Related R s')
    (ds : List Datagram) :
    ExceptRel (Receiver.Related R) (processIncomingPackets ops s ds)
      (processIncomingPackets ops' s' ds) := by
  induction ds generalizing s s' with
  | nil => exact .ok hs
  | cons d ds ih =>
    rw [processIncomingPackets, processIncomingPackets]
    obtain ⟨u, u', hu, hu', hs'⟩ | ⟨e, hu, hu'⟩ :=
      (ffProxyProcessIncomingPacket_related hsim hs d).outcome
    · rw [hu, hu']
      exact ih hs'
    · rw [hu, hu']
      exact .error e

/-- New receivers with related tables. -/
theorem receiver_initial {t : T} {t' : T'} (hR : R t t') :
    (Receiver.initial t).Related R (Receiver.initial t') :=
  ⟨rfl, rfl, hR⟩

variable {p : Proxy T} {p' : Proxy T'} {config : Config}

private theorem workOf_related (hp : p.Related R p') (worker : Nat) :
    p.workOf worker = p'.workOf worker := by
  rw [Proxy.workOf, Proxy.workOf, hp.finished, hp.receiver.dispatched]

private theorem cleanup_related (hsim : TableSimulation ops ops' R) (hp : p.Related R p')
    (worker h : Nat) (r : Request) :
    ExceptRel (Proxy.Related R) (p.cleanup ops worker h r) (p'.cleanup ops' worker h r) := by
  have hcleaned : ∀ t t', R t t' → (p.cleaned worker h t).Related R (p'.cleaned worker h t') :=
    fun t t' hR ↦ ⟨⟨congrArg (Heap.free · h) hp.receiver.objects, hp.receiver.dispatched, hR⟩,
      congrArg (· ++ [worker]) hp.finished⟩
  unfold Proxy.cleanup
  split
  · obtain ⟨t, t', ht, ht', hR⟩ | ⟨e, ht, ht'⟩ :=
      (hsim.removeItem r.requestId hp.receiver.table).outcome
    · rw [ht, ht']
      exact .ok (hcleaned t t' hR)
    · rw [ht, ht']
      exact .error e
  · exact .ok (hcleaned _ _ hp.receiver.table)

/-- An event does the same. -/
theorem step_related (hsim : TableSimulation ops ops' R) (hp : p.Related R p') (e : Event) :
    ExceptRel (Proxy.Related R) (p.step ops config e) (p'.step ops' config e) := by
  cases e with
  | packet d =>
    unfold Proxy.step
    dsimp only
    obtain ⟨s, s', hs, hs', hR⟩ | ⟨e, hs, hs'⟩ :=
      (ffProxyProcessIncomingPacket_related hsim hp.receiver d).outcome
    · rw [hs, hs']
      exact .ok ⟨hR, hp.finished⟩
    · rw [hs, hs']
      exact .error e
  | work worker env stage =>
    unfold Proxy.step
    dsimp only
    rw [workOf_related hp, hp.receiver.objects]
    split
    · exact .ok hp
    · split
      · exact .error _
      · split
        · exact .error _
        · exact .ok ⟨⟨rfl, hp.receiver.dispatched, hp.receiver.table⟩, hp.finished⟩
  | finish worker =>
    unfold Proxy.step
    dsimp only
    rw [workOf_related hp, hp.receiver.objects]
    split
    · exact .ok hp
    · split
      · exact .error _
      · exact cleanup_related hsim hp _ _ _

/-- Events do the same. -/
theorem run_related (hsim : TableSimulation ops ops' R) (hp : p.Related R p') (es : List Event) :
    ExceptRel (Proxy.Related R) (p.run ops config es) (p'.run ops' config es) :=
  ExceptRel.foldlM (fun _ _ e hp ↦ step_related hsim hp e) hp es

/-- New proxies with related tables. -/
theorem initial_related {t : T} {t' : T'} (hR : R t t') :
    (Proxy.initial t).Related R (Proxy.initial t') :=
  ⟨receiver_initial hR, rfl⟩

/-- Related proxies have handed over the same requests. -/
theorem handedOver_related (hp : p.Related R p') (h : Nat) :
    p.HandedOver h ↔ p'.HandedOver h :=
  exists_congr fun worker ↦ by rw [workOf_related hp]

private theorem addressed_related (hsim : TableSimulation ops ops' R) (hp : p.Related R p')
    (d : Datagram) (h : Nat) : p.Addressed ops d h ↔ p'.Addressed ops' d h := by
  unfold Proxy.Addressed
  rw [hsim.getItem _ hp.receiver.table, hp.receiver.objects]

/-- The same datagrams are addressed to requests of workers. -/
theorem Unaddressed.transfer (hsim : TableSimulation ops ops' R) {t : T} {t' : T'} (hR : R t t')
    {es : List Event} (h : Unaddressed ops t config es) : Unaddressed ops' t' config es := by
  intro es₁ d p' hpre hrun' j hj
  obtain ⟨p, hrun, hp⟩ := (run_related hsim (initial_related hR) es₁).of_ok_right hrun'
  rw [← addressed_related hsim hp]
  exact h es₁ d p hpre hrun j ((handedOver_related hp j).mpr hj)

/-- What holds of the requests handed over does not depend on the table. -/
theorem HandoverRespected.transfer (hsim : TableSimulation ops ops' R) {t : T} {t' : T'}
    (hR : R t t') {es : List Event} (h : HandoverRespected ops t config es) :
    HandoverRespected ops' t' config es := by
  refine ⟨fun es₁ p' hpre hrun' ↦ ?_, fun es₁ d p' hpre hrun' ↦ ?_⟩
  · obtain ⟨p, hrun, hp⟩ := (run_related hsim (initial_related hR) es₁).of_ok_right hrun'
    rw [← hp.receiver.dispatched]
    exact h.once es₁ p hpre hrun
  · obtain ⟨p, hrun, hp⟩ := (run_related hsim (initial_related hR) es₁).of_ok_right hrun'
    obtain ⟨q, hstep, hq⟩ := h.untouched es₁ d p hpre hrun
    obtain ⟨q', hstep', hqq⟩ := (step_related hsim hp (.packet d)).of_ok_left hstep
    refine ⟨q', hstep', fun j hj ↦ ?_⟩
    rw [← hqq.receiver.objects, ← hp.receiver.objects]
    exact hq j ((handedOver_related hp j).mpr hj)

end Simulation

/-! ### The hash table -/

/-- The operations of the hash table, with requests as values. -/
def hashTable : RequestTable (HashTable Nat) where
  getItem := ffHashTableGetItem
  putItem t k h := ffHashTablePutItem t k (some h)
  removeItem := ffHashTableRemoveItem

/-- The hash table behaves like a map. -/
theorem hashTable_simulates_mapTable : TableSimulation hashTable mapTable Refines where
  getItem k hR := hR.getItem k
  putItem k h hR := by
    obtain ⟨t', hput, hR'⟩ := hR.putItem k h
    rw [show hashTable.putItem _ k h = _ from hput]
    exact .ok hR'
  removeItem k hR := by
    obtain ⟨t', hremove, hR'⟩ := hR.removeItem k
    rw [show hashTable.removeItem _ k = _ from hremove]
    exact .ok hR'

/-- The table of the proxy, `src/server.c:39`, starts as the empty map. -/
theorem refines_empty {table : HashTable Nat} (hinit : ffHashTableInit 16 = .ok table) :
    Refines table OrderedMap.empty := by
  obtain ⟨t, ht, hR⟩ := represents_init (α := Nat) (show PrefixLength 16 by decide)
  obtain rfl := Except.ok.inj (hinit.symm.trans ht)
  exact ⟨[], hR, rfl⟩

/-- The table of the proxy can be made. -/
theorem exists_table : ∃ table : HashTable Nat, ffHashTableInit 16 = .ok table :=
  ⟨_, if_neg (by decide)⟩

/-- What packets lead to over the hash table, they lead to over a map, where the table
invariant holds. -/
theorem exists_mapReceiver {table : HashTable Nat} (hinit : ffHashTableInit 16 = .ok table)
    {ds : List Datagram} {s : Receiver (HashTable Nat)}
    (hrun : processIncomingPackets hashTable (Receiver.initial table) ds = .ok s) :
    ∃ s', s.Related Refines s' ∧ TableInv s' := by
  obtain ⟨s', hrun', hi⟩ := TableInv.initial.run ds
  obtain ⟨s'', hrun'', hs⟩ := (processIncomingPackets_related hashTable_simulates_mapTable
    (receiver_initial (refines_empty hinit)) ds).of_ok_left hrun
  obtain rfl := Except.ok.inj (hrun'.symm.trans hrun'')
  exact ⟨s', hs, hi⟩

private theorem total_eq_sum (nodes : List PayloadNode) :
    Span.total (nodes.map PayloadNode.span) = (nodes.map fun n ↦ n.length.toNat).sum := by
  induction nodes with
  | nil => rfl
  | cons n nodes ih => rw [List.map_cons, Span.total, ih]; rfl

/-- After any datagrams the receiver has not failed, and every request in the table has its key
as its id, is of version 1, is being received or complete, has counted its nodes, leaves an
option slot free, and is not marked as being received with all of its payload there. -/
theorem table_invariant (ds : List Datagram) :
    ∃ table s, ffHashTableInit 16 = .ok table ∧
      processIncomingPackets hashTable (Receiver.initial table) ds = .ok s ∧
      ∀ k h, ffHashTableGetItem s.table k = .ok (some h) → ∃ r, s.objects.read h = some r ∧
        r.requestId = k ∧ r.version = ffVersion1 ∧
        (r.state = .receiving ∨ r.state = .received) ∧
        r.receivedLength.toNat = (r.payload.map fun n ↦ n.length.toNat).sum ∧
        r.optionsLength ≤ 19 ∧
        (r.state = .receiving → r.receivedLength ≠ r.payloadLength) := by
  obtain ⟨table, hinit⟩ := exists_table
  obtain ⟨s', hrun', hi⟩ := TableInv.initial.run ds
  obtain ⟨s, hrun, hs⟩ := (processIncomingPackets_related hashTable_simulates_mapTable
    (receiver_initial (refines_empty hinit)) ds).of_ok_right hrun'
  refine ⟨table, s, hinit, hrun, fun k h hget ↦ ?_⟩
  rw [hs.table.getItem] at hget
  obtain ⟨r, hr, he⟩ := hi k h (Except.ok.inj hget)
  exact ⟨r, by rw [hs.objects, hr], he.requestId, he.version, he.state,
    by rw [he.counted.received, total_eq_sum], Nat.le_of_lt_succ he.counted.options, he.incomplete⟩

/-- In a run each request is handed over at most once and then left to its worker exactly if no
datagram is addressed to a request that a worker has. -/
theorem handoverRespected_iff {table : HashTable Nat} (hinit : ffHashTableInit 16 = .ok table)
    (config : Config) (es : List Event) :
    HandoverRespected hashTable table config es ↔ Unaddressed hashTable table config es := by
  have hR := refines_empty hinit
  constructor
  · intro h
    have hmap := (handoverRespected_mapTable config es).mp
      (h.transfer hashTable_simulates_mapTable hR)
    exact hmap.transfer hashTable_simulates_mapTable.symm hR
  · intro h
    have hmap := (handoverRespected_mapTable config es).mpr
      (h.transfer hashTable_simulates_mapTable hR)
    exact hmap.transfer hashTable_simulates_mapTable.symm hR

/-- Two requests with different ids from one source: each goes to its own worker. -/
theorem handoverRespected_two_requests : ∃ table : HashTable Nat,
    ffHashTableInit 16 = .ok table ∧
    HandoverRespected hashTable table ⟨0, none⟩ [.packet (sampleDatagram 9 0 [65] (by decide)),
      .packet (sampleDatagram 10 0 [65] (by decide))] := by
  obtain ⟨table, hinit⟩ := exists_table
  refine ⟨table, hinit, (handoverRespected_iff hinit _ _).mpr ?_⟩
  exact unaddressed_two_requests.transfer hashTable_simulates_mapTable.symm (refines_empty hinit)

/-- An empty chunk at the end of a complete request hands it over a second time. -/
theorem not_handoverRespected_empty_chunk : ∃ table : HashTable Nat,
    ffHashTableInit 16 = .ok table ∧
    ¬ HandoverRespected hashTable table ⟨0, none⟩ [.packet (sampleDatagram 9 0 [65] (by decide)),
      .packet (sampleDatagram 9 1 [] (by decide))] := by
  obtain ⟨table, hinit⟩ := exists_table
  refine ⟨table, hinit, fun h ↦ not_handoverRespected_mapTable ?_⟩
  exact h.transfer hashTable_simulates_mapTable (refines_empty hinit)

end FfProxy
