import FfProxy.Server.Process
import FfProxy.Server.Receiver

/-!
# Packets and workers

The receiver next to the workers it starts. A dispatched request stays in the table until its
worker removes it, so the receiver and the worker can both hold it. Every request is handed over
at most once and touched by its worker only exactly as long as no packet is addressed to a
request that a worker holds.
-/

namespace FfProxy
open Base

/-- The stages of `ff_proxy_process_request` that change the request, `src/server.c:213–240`. -/
inductive WorkerStage
  | vectorise
  | decrypt
  | parseOptions
  | send
  deriving DecidableEq, Repr

/-- What a stage does to the request of its worker. -/
def workerStage (env : Environment) (config : Config) : WorkerStage → Request → Except Fault Request
  | .vectorise, r => ffRequestVectorisePayload (env.garbage 0) r
  | .decrypt, r => ffDecryptRequest env.ssl (env.garbage 1) config.encryption r
  | .parseOptions, r => ffRequestParseOptionsFromPayload r
  | .send, r => .ok (ffHttpSendRequest env.upstream r)

/-- The receiver and the workers; workers are numbered in the order in which they were
started, and `finished` lists those that are done. -/
structure Proxy (T : Type) where
  receiver : Receiver T
  finished : List Nat

/-- What can happen: a datagram arrives, a worker runs a stage, a worker cleans up. The stages
come in any order, so the events of the source are among these. -/
inductive Event
  | packet (d : Datagram)
  | work (worker : Nat) (env : Environment) (stage : WorkerStage)
  | finish (worker : Nat)

section Model

variable {T : Type} (ops : RequestTable T)

/-- The proxy before the first packet. -/
def Proxy.initial (table : T) : Proxy T := ⟨Receiver.initial table, []⟩

/-- The request that a worker still works on. -/
def Proxy.workOf (p : Proxy T) (worker : Nat) : Option Nat :=
  if worker ∈ p.finished then none else p.receiver.dispatched[worker]?

/-- A worker is done and its request released. -/
def Proxy.cleaned (p : Proxy T) (worker h : Nat) (table : T) : Proxy T where
  receiver := { p.receiver with objects := p.receiver.objects.free h, table := table }
  finished := p.finished ++ [worker]

/-- The cleanup of a worker, `src/server.c:252–258`. -/
def Proxy.cleanup (p : Proxy T) (worker h : Nat) (r : Request) : Except Fault (Proxy T) :=
  if r.requestId ≠ 0 then
    match ops.removeItem p.receiver.table r.requestId with
    | .error fault => .error fault
    | .ok table => .ok (p.cleaned worker h table)
  else .ok (p.cleaned worker h p.receiver.table)

/-- One event. Workers that do not run do nothing. -/
def Proxy.step (config : Config) (p : Proxy T) : Event → Except Fault (Proxy T)
  | .packet d =>
    match ffProxyProcessIncomingPacket ops p.receiver d with
    | .error fault => .error fault
    | .ok receiver => .ok { p with receiver := receiver }
  | .work worker env stage =>
    match p.workOf worker with
    | none => .ok p
    | some h =>
      match p.receiver.objects.read h with
      | none => .error .useAfterFree
      | some r =>
        match workerStage env config stage r with
        | .error fault => .error fault
        | .ok r => .ok { p with receiver := { p.receiver with
            objects := p.receiver.objects.write h r } }
  | .finish worker =>
    match p.workOf worker with
    | none => .ok p
    | some h =>
      match p.receiver.objects.read h with
      | none => .error .useAfterFree
      | some r => p.cleanup ops worker h r

/-- A sequence of events. -/
def Proxy.run (config : Config) (p : Proxy T) (es : List Event) : Except Fault (Proxy T) :=
  es.foldlM (Proxy.step ops config) p

/-- A worker has the request and is not done. -/
def Proxy.HandedOver (p : Proxy T) (h : Nat) : Prop := ∃ worker, p.workOf worker = some h

/-- The table has the request under the id that is read for a datagram, and the bytes that are
compared of its source are those of the request. -/
def Proxy.Addressed (p : Proxy T) (d : Datagram) (h : Nat) : Prop :=
  ffRequestIsRawHttp d.buffer = false ∧
    ops.getItem p.receiver.table (ffRequestParseId d.buffer) = .ok (some h) ∧
    ∃ r, p.receiver.objects.read h = some r ∧ r.source = d.source.val

/-- In every state that the events lead through no request was handed over twice, and no
datagram changes or releases a request that a worker has. -/
structure HandoverRespected (table : T) (config : Config) (es : List Event) : Prop where
  once : ∀ es₁ p, es₁ <+: es → (Proxy.initial table).run ops config es₁ = .ok p →
    p.receiver.dispatched.Nodup
  untouched : ∀ es₁ d p, es₁ ++ [.packet d] <+: es →
    (Proxy.initial table).run ops config es₁ = .ok p →
    ∃ p', p.step ops config (.packet d) = .ok p' ∧
      ∀ h, p.HandedOver h → p'.receiver.objects.read h = p.receiver.objects.read h

/-- No datagram is addressed to a request that a worker has. -/
def Unaddressed (table : T) (config : Config) (es : List Event) : Prop :=
  ∀ es₁ d p, es₁ ++ [.packet d] <+: es → (Proxy.initial table).run ops config es₁ = .ok p →
    ∀ h, p.HandedOver h → ¬ p.Addressed ops d h

end Model

/-- A proxy whose table is a map. -/
abbrev MapProxy := Proxy (OrderedMap UInt64 Nat)

/-- The cleanup on a map. -/
theorem cleanup_mapTable (p : MapProxy) (worker h : Nat) (r : Request) :
    p.cleanup mapTable worker h r = .ok (p.cleaned worker h
      (if r.requestId ≠ 0 then p.receiver.table.remove r.requestId else p.receiver.table)) := by
  rw [Proxy.cleanup]
  split <;> rfl

/-! ### Stages -/

/-- No stage changes the id or the version of the request. -/
theorem workerStage_identity {env : Environment} {config : Config} {stage : WorkerStage}
    {r r' : Request} (h : workerStage env config stage r = .ok r') :
    r'.requestId = r.requestId ∧ r'.version = r.version := by
  cases stage with
  | vectorise =>
    obtain ⟨node, rfl, _⟩ := ffRequestVectorisePayload_cases h
    exact ⟨rfl, rfl⟩
  | decrypt =>
    rw [ffDecryptRequest_frame h]
    exact ⟨rfl, rfl⟩
  | parseOptions =>
    rw [ffRequestParseOptionsFromPayload_frame h]
    exact ⟨rfl, rfl⟩
  | send =>
    rw [← Except.ok.inj h, ffHttpSendRequest_eq]
    exact ⟨rfl, rfl⟩

/-- No stage makes a request one that is still being received. -/
theorem workerStage_state {env : Environment} {config : Config} {stage : WorkerStage}
    {r r' : Request} (h : workerStage env config stage r = .ok r') (hs : r.state ≠ .receiving) :
    r'.state ≠ .receiving := by
  cases stage with
  | vectorise =>
    obtain ⟨node, rfl, _⟩ := ffRequestVectorisePayload_cases h
    exact hs
  | decrypt =>
    simp only [workerStage, ffDecryptRequest] at h
    split at h
    · cases h
    all_goals
      rw [← Except.ok.inj h]
      exact RequestState.noConfusion
  | parseOptions =>
    rcases ffRequestParseOptionsFromPayload_state h with hs' | hs'
    all_goals
      rw [hs']
      exact RequestState.noConfusion
  | send =>
    rw [← Except.ok.inj h, ffHttpSendRequest_eq]
    exact RequestState.noConfusion

/-! ### Steps -/

section AnyTable

variable {T : Type} {ops : RequestTable T} {p p' : Proxy T} {config : Config} {worker : Nat}

/-- A packet is received. -/
theorem step_packet_eq {d : Datagram} (hstep : p.step ops config (.packet d) = .ok p') :
    ∃ s, ffProxyProcessIncomingPacket ops p.receiver d = .ok s ∧ p' = { p with receiver := s } := by
  simp only [Proxy.step] at hstep
  split at hstep
  · cases hstep
  next s hrun => exact ⟨s, hrun, (Except.ok.inj hstep).symm⟩

/-- A stage changes nothing if its worker does not run, and else the request of the worker. -/
theorem step_work_cases {env : Environment} {stage : WorkerStage}
    (hstep : p.step ops config (.work worker env stage) = .ok p') :
    p' = p ∨ ∃ h r r', p.workOf worker = some h ∧ p.receiver.objects.read h = some r ∧
      workerStage env config stage r = .ok r' ∧
      p' = { p with receiver := { p.receiver with
        objects := p.receiver.objects.write h r' } } := by
  simp only [Proxy.step] at hstep
  split at hstep
  · exact Or.inl (Except.ok.inj hstep).symm
  next h hw =>
  split at hstep
  · cases hstep
  next r hr =>
  split at hstep
  · cases hstep
  next r' hrun => exact Or.inr ⟨h, r, r', hw, hr, hrun, (Except.ok.inj hstep).symm⟩

/-- A cleanup changes nothing if its worker does not run, and else releases the request of the
worker. -/
theorem step_finish_of_any (hstep : p.step ops config (.finish worker) = .ok p') :
    p' = p ∨ ∃ h r, p.workOf worker = some h ∧ p.receiver.objects.read h = some r ∧
      p.cleanup ops worker h r = .ok p' := by
  simp only [Proxy.step] at hstep
  split at hstep
  · exact Or.inl (Except.ok.inj hstep).symm
  next h hw =>
  split at hstep
  · cases hstep
  next r hr => exact Or.inr ⟨h, r, hw, hr, hstep⟩

theorem cleaned_of_cleanup {h : Nat} {r : Request} (hrun : p.cleanup ops worker h r = .ok p') :
    ∃ table, p' = p.cleaned worker h table := by
  unfold Proxy.cleanup at hrun
  split at hrun
  · split at hrun
    · cases hrun
    next table _ => exact ⟨table, (Except.ok.inj hrun).symm⟩
  · exact ⟨_, (Except.ok.inj hrun).symm⟩

end AnyTable

/-! ### Steps over ordered maps -/

section Steps

variable {p p' : MapProxy} {config : Config} {worker : Nat}

/-- A cleanup changes nothing if its worker does not run, and else removes and releases the
request of the worker. -/
theorem step_finish_cases (hstep : p.step mapTable config (.finish worker) = .ok p') :
    p' = p ∨ ∃ h r, p.workOf worker = some h ∧ p.receiver.objects.read h = some r ∧
      p' = p.cleaned worker h (if r.requestId ≠ 0 then p.receiver.table.remove r.requestId
        else p.receiver.table) := by
  rcases step_finish_of_any hstep with rfl | ⟨h, r, hw, hr, hrun⟩
  · exact Or.inl rfl
  · rw [cleanup_mapTable] at hrun
    exact Or.inr ⟨h, r, hw, hr, (Except.ok.inj hrun).symm⟩

/-- The worker runs and was started with the request. -/
theorem dispatched_of_workOf {T : Type} {p : Proxy T} {h : Nat} (hw : p.workOf worker = some h) :
    worker ∉ p.finished ∧ p.receiver.dispatched[worker]? = some h := by
  unfold Proxy.workOf at hw
  split at hw
  · cases hw
  · next hf => exact ⟨hf, hw⟩

/-- The entries that a cleanup leaves are old, and none is under the id of the request. -/
theorem get_cleaned {r : Request} {j : UInt64} {h : Nat} {table : OrderedMap UInt64 Nat}
    (hget : (if r.requestId ≠ 0 then table.remove r.requestId else table).get j = some h) :
    table.get j = some h ∧ (r.requestId ≠ 0 → j ≠ r.requestId) := by
  split at hget
  · rw [OrderedMap.get_remove] at hget
    split at hget
    · cases hget
    · next hj => exact ⟨hget, fun _ ↦ hj⟩
  · next h0 => exact ⟨hget, fun hne ↦ absurd hne h0⟩

variable {d : Datagram} {s₁ : MapReceiver} {k : UInt64} {h : Nat} {r : Request}

/-- Requests that were handed over are in memory. -/
theorem Prepared.allocated {s : MapReceiver} (hp : Prepared s d s₁ k h r) (r' : Request)
    (ha : ∀ h' ∈ s.dispatched, h' < s.objects.next) :
    ∀ h' ∈ (s₁.settled k h r').dispatched, h' < (s₁.settled k h r').objects.next := by
  intro h' hh'
  rw [s₁.dispatched_settled, hp.dispatched_eq, List.mem_append] at hh'
  rw [s₁.next_settled]
  rcases hh' with hh' | hh'
  · exact Nat.lt_of_lt_of_le (ha h' hh') hp.next_le
  · split at hh'
    · rw [List.mem_singleton.mp hh']
      exact hp.lt_next
    · cases hh'

/-- The workers keep their requests, and a request that became complete gets a new one. -/
theorem workOf_settled (hp : Prepared p.receiver d s₁ k h r) (r' : Request) {h' : Nat} :
    ({ p with receiver := s₁.settled k h r' } : MapProxy).workOf worker = some h' ↔
      p.workOf worker = some h' ∨ (r'.state = .received ∧ h' = h ∧ worker ∉ p.finished ∧
        worker = p.receiver.dispatched.length) := by
  unfold Proxy.workOf
  dsimp only
  rw [s₁.dispatched_settled, hp.dispatched_eq]
  split
  · next hf => simp [hf]
  next hf =>
  rcases Nat.lt_trichotomy worker p.receiver.dispatched.length with hlt | heq | hgt
  · rw [List.getElem?_append_left hlt]
    simp [Nat.ne_of_lt hlt]
  · rw [List.getElem?_append_right (Nat.le_of_eq heq.symm),
      List.getElem?_eq_none (Nat.le_of_eq heq.symm), heq, Nat.sub_self]
    split
    · next hs => simp [hs, heq ▸ hf, eq_comm]
    · next hs => simp [hs]
  · rw [List.getElem?_append_right (Nat.le_of_lt hgt), List.getElem?_eq_none (Nat.le_of_lt hgt),
      List.getElem?_eq_none]
    · simp [Nat.ne_of_gt hgt]
    · split
      · rw [List.length_singleton]
        omega
      · exact Nat.zero_le _

end Steps

/-! ### Entries of the table -/

/-- Every entry of the table refers to a live request that has the key as its id. -/
def EntryInv (s : MapReceiver) : Prop :=
  ∀ k h, s.table.get k = some h → k ≠ 0 ∧
    ∃ r, s.objects.read h = some r ∧ r.requestId = k ∧ r.version ≠ 0

namespace EntryInv

variable {s s₁ : MapReceiver} {d : Datagram} {k : UInt64} {h : Nat} {r r' : Request}

theorem live (hi : EntryInv s) (k : UInt64) (h : Nat) (hget : s.table.get k = some h) :
    (s.objects.read h).isSome := by
  obtain ⟨_, r, hr, _⟩ := hi k h hget
  rw [hr]
  rfl

theorem injective (hi : EntryInv s) (j k : UInt64) (h : Nat) (hj : s.table.get j = some h)
    (hk : s.table.get k = some h) : j = k := by
  obtain ⟨_, r, hr, hid, _⟩ := hi j h hj
  obtain ⟨_, r', hr', hid', _⟩ := hi k h hk
  obtain rfl := Option.some.inj (hr.symm.trans hr')
  exact hid.symm.trans hid'

/-- What the parser leaves in a request with an entry is dropped or has the id of its key. -/
theorem parsed (hi : EntryInv s) (hp : Prepared s d s₁ k h r) (hk : k ≠ 0) :
    (ffRequestParseChunk r d.buffer).state = .receivingFail ∨
      (ffRequestParseChunk r d.buffer).requestId = k ∧
        (ffRequestParseChunk r d.buffer).version ≠ 0 := by
  cases hp with
  | raw => exact absurd rfl hk
  | fresh hraw =>
    refine (tableEntry_newRequest d hraw).imp_right fun he ↦ ⟨he.requestId, ?_⟩
    rw [he.version]
    decide
  | known hraw hid hget hread hsource =>
    obtain ⟨_, r', hr', hid', hv⟩ := hi _ _ hget
    obtain rfl := Option.some.inj (hread.symm.trans hr')
    have hsame := ffRequestParseDataChunk_sameIdentity r d.buffer
    rw [ffRequestParseChunk, if_neg hv]
    exact Or.inr ⟨hsame.requestId.trans hid', by rw [hsame.version]; exact hv⟩

/-- A datagram keeps the entries right: an entry of the parsed request is kept only if the
request has not failed. -/
theorem packet (hi : EntryInv s) (hp : Prepared s d s₁ k h r) :
    EntryInv (s₁.settled k h (ffRequestParseChunk r d.buffer)) := by
  intro j h' hget
  have hlt := hp.lt_next
  rw [MapReceiver.get_settled] at hget
  split at hget
  · cases hget
  next hkeep =>
  by_cases hh : h' = h
  · obtain ⟨rfl, hk⟩ := hp.key_eq hi.live hi.injective (hh ▸ hget)
    have hs : (ffRequestParseChunk r d.buffer).state ≠ .receivingFail :=
      fun hf ↦ hkeep ⟨hf, hk, rfl⟩
    obtain ⟨hid, hv⟩ := (hi.parsed hp hk).resolve_left hs
    exact ⟨hk, _, by rw [hh]; exact MapReceiver.read_settled_self _ _ _ _ hlt hs, hid, hv⟩
  · obtain ⟨hk, r₀, hr₀, he⟩ := hi j h' (hp.get_of_ne hh hget)
    exact ⟨hk, r₀, by rw [MapReceiver.read_settled_of_ne _ _ _ _ hlt hh, hp.read_of_ne hh, hr₀],
      he⟩

/-- Replacing a request by one with the same id keeps the entries right. -/
theorem write (hi : EntryInv s) (hr : s.objects.read h = some r)
    (hid : r'.requestId = r.requestId) (hv : r'.version = r.version) :
    EntryInv { s with objects := s.objects.write h r' } := by
  intro k h' hget
  obtain ⟨hk, r₀, hr₀, hid₀, hv₀⟩ := hi k h' hget
  refine ⟨hk, ?_⟩
  dsimp only
  rw [Heap.read_write _ _ _ _ (Heap.lt_next_of_read hr)]
  split
  · next hh =>
    obtain rfl := Option.some.inj (hr.symm.trans (hh ▸ hr₀))
    exact ⟨r', rfl, hid.trans hid₀, by rw [hv]; exact hv₀⟩
  · exact ⟨r₀, hr₀, hid₀, hv₀⟩

/-- A cleanup leaves no entry of the released request. -/
theorem cleaned {p : MapProxy} (hi : EntryInv p.receiver)
    (hr : p.receiver.objects.read h = some r) (worker : Nat) :
    EntryInv (p.cleaned worker h (if r.requestId ≠ 0 then p.receiver.table.remove r.requestId
      else p.receiver.table)).receiver := by
  intro j h' hget
  obtain ⟨hget, hother⟩ := get_cleaned hget
  obtain ⟨hj, r₀, hr₀, hid₀, hv₀⟩ := hi j h' hget
  refine ⟨hj, r₀, ?_, hid₀, hv₀⟩
  change (p.receiver.objects.free h).read h' = _
  rw [Heap.read_free, if_neg, hr₀]
  rintro rfl
  obtain rfl := Option.some.inj (hr.symm.trans hr₀)
  exact hother (by rw [hid₀]; exact hj) hid₀.symm

end EntryInv

/-! ### The invariant -/

/-- What holds as long as no datagram is addressed to a request that a worker has. -/
structure ProxyInv (p : MapProxy) : Prop where
  entry : ∀ k h, p.receiver.table.get k = some h → k ≠ 0 ∧
    ∃ r, p.receiver.objects.read h = some r ∧ r.requestId = k ∧ r.version ≠ 0
  once : p.receiver.dispatched.Nodup
  allocated : ∀ h ∈ p.receiver.dispatched, h < p.receiver.objects.next
  held : ∀ worker h, p.workOf worker = some h → (p.receiver.objects.read h).isSome
  released : ∀ worker ∈ p.finished, ∃ h, p.receiver.dispatched[worker]? = some h ∧
    p.receiver.objects.read h = none

namespace ProxyInv

variable {p p' : MapProxy} {config : Config}

theorem initial : ProxyInv (Proxy.initial OrderedMap.empty) where
  entry k h hget := by cases hget
  once := List.nodup_nil
  allocated h hh := by cases hh
  held worker h hw := by cases hw
  released worker hw := by cases hw

/-- The entries of the table are right. -/
theorem entryInv (hi : ProxyInv p) : EntryInv p.receiver := hi.entry

/-- The request that a datagram is parsed into was never handed over. -/
theorem not_dispatched (hi : ProxyInv p) {d : Datagram} {s₁ : MapReceiver} {k : UInt64} {h : Nat}
    {r : Request} (hp : Prepared p.receiver d s₁ k h r)
    (hq : ∀ h, p.HandedOver h → ¬ p.Addressed mapTable d h) : h ∉ p.receiver.dispatched := by
  intro hmem
  cases hp with
  | raw => exact Nat.lt_irrefl _ (hi.allocated _ hmem)
  | fresh => exact Nat.lt_irrefl _ (hi.allocated _ hmem)
  | known hraw hid hget hread hsource =>
    obtain ⟨worker, hw⟩ := List.mem_iff_getElem?.mp hmem
    by_cases hf : worker ∈ p.finished
    · obtain ⟨h', hw', hnone⟩ := hi.released worker hf
      obtain rfl := Option.some.inj (hw.symm.trans hw')
      rw [hread] at hnone
      cases hnone
    · exact hq h ⟨worker, by rw [Proxy.workOf, if_neg hf, hw]⟩
        ⟨hraw, congrArg _ hget, r, hread, hsource⟩

/-- A datagram that is addressed to no request of a worker keeps the invariant and leaves
those requests alone. -/
theorem packet (hi : ProxyInv p) (config : Config) (d : Datagram)
    (hq : ∀ h, p.HandedOver h → ¬ p.Addressed mapTable d h) :
    ∃ p', p.step mapTable config (.packet d) = .ok p' ∧ ProxyInv p' ∧
      ∀ h, p.HandedOver h → p'.receiver.objects.read h = p.receiver.objects.read h := by
  rcases ffProxyProcessIncomingPacket_cases d hi.entryInv.live with hrun | ⟨s₁, k, h, r, hp⟩
  · exact ⟨p, by simp only [Proxy.step, hrun], hi, fun _ _ ↦ rfl⟩
  have hnew := hi.not_dispatched hp hq
  have hlt := hp.lt_next
  let r' := ffRequestParseChunk r d.buffer
  have hread : ∀ h' ∈ p.receiver.dispatched,
      (s₁.settled k h r').objects.read h' = p.receiver.objects.read h' := fun h' hh' ↦ by
    have hne : h' ≠ h := fun he ↦ hnew (he ▸ hh')
    rw [s₁.read_settled_of_ne k h r' hlt hne, hp.read_of_ne hne]
  have hdisp : (s₁.settled k h r').dispatched = p.receiver.dispatched ++
      if r'.state = .received then [h] else [] := by
    rw [s₁.dispatched_settled, hp.dispatched_eq]
  refine ⟨{ p with receiver := s₁.settled k h r' }, by simp only [Proxy.step, hp.run]; rfl,
    ⟨hi.entryInv.packet hp, ?_, hp.allocated r' hi.allocated, fun worker h' hw ↦ ?_,
      fun worker hw ↦ ?_⟩,
    fun h' ⟨worker, hw⟩ ↦ hread h' (List.mem_of_getElem? (dispatched_of_workOf hw).2)⟩
  · rw [hdisp]
    split
    · exact List.nodup_append.mpr ⟨hi.once, List.nodup_singleton h, fun a ha b hb he ↦
        hnew (List.mem_singleton.mp hb ▸ he ▸ ha)⟩
    · rw [List.append_nil]
      exact hi.once
  · rcases (workOf_settled hp r').mp hw with hw | ⟨hs, rfl, _⟩
    · rw [hread h' (List.mem_of_getElem? (dispatched_of_workOf hw).2)]
      exact hi.held worker h' hw
    · rw [s₁.read_settled_self k h' r' hlt (by rw [hs]; exact RequestState.noConfusion)]
      rfl
  · obtain ⟨h', hw', hnone⟩ := hi.released worker hw
    refine ⟨h', ?_, by rw [hread h' (List.mem_of_getElem? hw'), hnone]⟩
    rw [hdisp, List.getElem?_append_left (List.getElem?_eq_some_iff.mp hw').1, hw']

/-- A datagram that leaves the requests of the workers alone is addressed to none of them: into
the request that it is addressed to it links a node, or it makes the receiver release it. -/
theorem not_addressed (hi : ProxyInv p) {d : Datagram}
    (hstep : p.step mapTable config (.packet d) = .ok p')
    (hsame : ∀ h, p.HandedOver h → p'.receiver.objects.read h = p.receiver.objects.read h) :
    ∀ h, p.HandedOver h → ¬ p.Addressed mapTable d h := by
  rintro h hheld ⟨hraw, hget, r, hread, hsource⟩
  have hentry : p.receiver.table.get (ffRequestParseId d.buffer) = some h := Except.ok.inj hget
  obtain ⟨hid, r₀, hr₀, _, hv⟩ := hi.entry _ _ hentry
  obtain rfl := Option.some.inj (hread.symm.trans hr₀)
  have hp : Prepared p.receiver d p.receiver (ffRequestParseId d.buffer) h r :=
    .known hraw hid hentry hread hsource
  obtain ⟨s, hrun, rfl⟩ := step_packet_eq hstep
  obtain rfl := Except.ok.inj (hp.run.symm.trans hrun)
  have hkept := hsame h hheld
  rw [hread] at hkept
  dsimp only at hkept
  by_cases hfail : (ffRequestParseChunk r d.buffer).state = .receivingFail
  · rw [MapReceiver.read_settled_failed _ _ _ _ hfail] at hkept
    cases hkept
  · rw [MapReceiver.read_settled_self _ _ _ _ hp.lt_next hfail] at hkept
    rw [ffRequestParseChunk, if_neg hv] at hkept hfail
    obtain ⟨node, hnode⟩ := (ffRequestParseDataChunk_touches r d.buffer).resolve_left hfail
    have hpayload := congrArg Request.payload (Option.some.inj hkept)
    rw [hnode] at hpayload
    exact absurd (List.append_right_eq_self.mp hpayload) (List.cons_ne_nil _ _)

/-- A stage of a worker keeps the invariant. -/
theorem work (hi : ProxyInv p) {worker : Nat} {env : Environment} {stage : WorkerStage}
    (hstep : p.step mapTable config (.work worker env stage) = .ok p') : ProxyInv p' := by
  rcases step_work_cases hstep with rfl | ⟨h, r, r', _, hr, hrun, rfl⟩
  · exact hi
  obtain ⟨hid, hv⟩ := workerStage_identity hrun
  have hread : ∀ h', (p.receiver.objects.write h r').read h' =
      if h' = h then some r' else p.receiver.objects.read h' :=
    fun h' ↦ Heap.read_write _ _ _ _ (Heap.lt_next_of_read hr)
  refine ⟨hi.entryInv.write hr hid hv, hi.once, fun h' hh' ↦ ?_, fun worker' h' hw' ↦ ?_,
    fun worker' hf ↦ ?_⟩
  · rw [Heap.next_write]
    exact hi.allocated h' hh'
  · rw [hread]
    split
    · rfl
    · exact hi.held worker' h' hw'
  · obtain ⟨h', hw', hnone⟩ := hi.released worker' hf
    refine ⟨h', hw', ?_⟩
    rw [hread, if_neg, hnone]
    rintro rfl
    rw [hr] at hnone
    cases hnone

/-- The cleanup of a worker keeps the invariant: no entry of the released request is left, and
no other worker has it. -/
theorem finish (hi : ProxyInv p) {worker : Nat}
    (hstep : p.step mapTable config (.finish worker) = .ok p') : ProxyInv p' := by
  rcases step_finish_cases hstep with rfl | ⟨h, r, hw, hr, rfl⟩
  · exact hi
  obtain ⟨_, hwork⟩ := dispatched_of_workOf hw
  have hread : ∀ h', (p.receiver.objects.free h).read h' =
      if h' = h then none else p.receiver.objects.read h' := fun h' ↦ Heap.read_free _ _ _
  refine ⟨hi.entryInv.cleaned hr worker, hi.once, fun h' hh' ↦ ?_, fun worker' h' hw' ↦ ?_,
    fun worker' hf ↦ ?_⟩
  · change h' < (p.receiver.objects.free h).next
    rw [Heap.next_free]
    exact hi.allocated h' hh'
  · obtain ⟨hf, hwork'⟩ := dispatched_of_workOf hw'
    have hf' : worker' ∉ p.finished ∧ worker' ≠ worker := by
      simpa [Proxy.cleaned] using hf
    change ((p.receiver.objects.free h).read h').isSome
    rw [hread, if_neg]
    · exact hi.held worker' h' (by rw [Proxy.workOf, if_neg hf'.1]; exact hwork')
    · rintro rfl
      exact hf'.2 ((List.getElem?_inj (List.getElem?_eq_some_iff.mp hwork').1 hi.once).mp
        (hwork'.trans hwork.symm))
  · change ∃ h', p.receiver.dispatched[worker']? = some h' ∧
      (p.receiver.objects.free h).read h' = none
    rcases List.mem_append.mp hf with hf | hf
    · obtain ⟨h', hw', hnone⟩ := hi.released worker' hf
      refine ⟨h', hw', ?_⟩
      rw [hread, hnone, ite_self]
    · rw [List.mem_singleton.mp hf]
      exact ⟨h, hwork, by rw [hread, if_pos rfl]⟩

end ProxyInv

/-! ### Whole runs -/

/-- The invariant holds in every state of a run, if in no state with the invariant a datagram for
a handed-over request follows. -/
theorem ProxyInv.run {config : Config} {es es₁ : List Event} {p : MapProxy}
    (hu : ∀ es₁ d p, es₁ ++ [.packet d] <+: es →
      (Proxy.initial OrderedMap.empty).run mapTable config es₁ = .ok p → ProxyInv p →
      ∀ h, p.HandedOver h → ¬ p.Addressed mapTable d h) (hpre : es₁ <+: es)
    (hrun : (Proxy.initial OrderedMap.empty).run mapTable config es₁ = .ok p) : ProxyInv p := by
  induction es₁ using List.reverseRecOn generalizing p with
  | nil =>
    rw [← Except.ok.inj hrun]
    exact .initial
  | append_singleton es₁ e ih =>
    obtain ⟨q, hq, hstep⟩ := foldlM_concat_eq_ok.mp hrun
    have hi := ih ((List.prefix_append es₁ [e]).trans hpre) hq
    cases e with
    | packet d =>
      obtain ⟨p', hstep', hi', _⟩ := hi.packet config d (hu es₁ d q hpre hq hi)
      obtain rfl := Except.ok.inj (hstep'.symm.trans hstep)
      exact hi'
    | work => exact hi.work hstep
    | finish => exact hi.finish hstep

/-- In a run each request is handed over at most once and then left to its worker exactly if no
datagram is addressed to a request that a worker has. -/
theorem handoverRespected_mapTable (config : Config) (es : List Event) :
    HandoverRespected mapTable OrderedMap.empty config es ↔
      Unaddressed mapTable OrderedMap.empty config es := by
  constructor
  · intro h
    have hu (es₁ : List Event) (d : Datagram) (p : MapProxy) (hpre : es₁ ++ [.packet d] <+: es)
        (hrun : (Proxy.initial OrderedMap.empty).run mapTable config es₁ = .ok p)
        (hi : ProxyInv p) : ∀ h, p.HandedOver h → ¬ p.Addressed mapTable d h := by
      obtain ⟨p', hstep, hsame⟩ := h.untouched es₁ d p hpre hrun
      exact hi.not_addressed hstep hsame
    intro es₁ d p hpre hrun
    exact hu es₁ d p hpre hrun
      (ProxyInv.run hu ((List.prefix_append es₁ [.packet d]).trans hpre) hrun)
  · intro h
    have hu (es₁ : List Event) (d : Datagram) (p : MapProxy) (hpre : es₁ ++ [.packet d] <+: es)
        (hrun : (Proxy.initial OrderedMap.empty).run mapTable config es₁ = .ok p)
        (_ : ProxyInv p) : ∀ h, p.HandedOver h → ¬ p.Addressed mapTable d h :=
      h es₁ d p hpre hrun
    refine ⟨fun es₁ p hpre hrun ↦ (ProxyInv.run hu hpre hrun).once, fun es₁ d p hpre hrun ↦ ?_⟩
    have hi := ProxyInv.run hu ((List.prefix_append es₁ [.packet d]).trans hpre) hrun
    obtain ⟨p', hstep, _, hsame⟩ := hi.packet config d (h es₁ d p hpre hrun)
    exact ⟨p', hstep, hsame⟩

/-- A version-1 packet of a request of one byte. -/
def samplePacketBytes (requestId : UInt64) (offset : UInt32) (data : List UInt8) : List UInt8 :=
  writeHeader ⟨1, requestId, 1, offset, UInt16.ofNat data.length⟩ ++ ([0, 0, 0] ++ data)

/-- The receive buffer with the bytes at its start and zeros behind them. -/
def receiveBuffer (bytes : List UInt8) : List UInt8 :=
  bytes ++ List.replicate (ffProxyBuffSize - bytes.length) 0

theorem length_receiveBuffer {bytes : List UInt8} (h : bytes.length ≤ ffProxyBuffSize) :
    (receiveBuffer bytes).length = ffProxyBuffSize := by
  rw [receiveBuffer, List.length_append, List.length_replicate]
  omega

theorem le_length_receiveBuffer (bytes : List UInt8) :
    bytes.length ≤ (receiveBuffer bytes).length := by
  rw [receiveBuffer, List.length_append]
  exact Nat.le_add_right _ _

private theorem length_samplePacketBytes_pos (requestId : UInt64) (offset : UInt32)
    (data : List UInt8) : 0 < (samplePacketBytes requestId offset data).length := by
  rw [samplePacketBytes, List.length_append, length_writeHeader]
  exact Nat.add_pos_left (by decide) _

/-- Such a packet as a datagram. -/
def sampleDatagram (requestId : UInt64) (offset : UInt32) (data : List UInt8)
    (h : (samplePacketBytes requestId offset data).length ≤ ffProxyBuffSize) : Datagram where
  source := ⟨List.replicate sockaddrSize 1, List.length_replicate⟩
  buffer := {
    mem := receiveBuffer (samplePacketBytes requestId offset data)
    size := (samplePacketBytes requestId offset data).length
    size_le := le_length_receiveBuffer _ }
  time := 0
  block := length_receiveBuffer h
  nonempty := length_samplePacketBytes_pos requestId offset data

/-- A datagram from the source of the sample packets. -/
def arrivalOf (bytes : List UInt8) (hpos : 0 < bytes.length)
    (hfit : bytes.length ≤ ffProxyBuffSize) : Datagram where
  source := ⟨List.replicate sockaddrSize 1, List.length_replicate⟩
  buffer := ⟨receiveBuffer bytes, bytes.length, le_length_receiveBuffer bytes⟩
  time := 0
  block := length_receiveBuffer hfit
  nonempty := hpos

/-- Two requests with different ids from one source. -/
theorem unaddressed_two_requests :
    Unaddressed mapTable OrderedMap.empty ⟨0, none⟩ [.packet (sampleDatagram 9 0 [65] (by decide)),
      .packet (sampleDatagram 10 0 [65] (by decide))] := by
  rintro es₁ d p hpre hrun h ⟨worker, hw⟩ ⟨_, hget, _⟩
  rcases es₁ with _ | ⟨e, _ | ⟨e', es₁⟩⟩
  · obtain rfl := Except.ok.inj hrun
    cases hw
  · -- The second datagram finds no entry for its id.
    obtain ⟨rfl, hrest⟩ := List.cons_prefix_cons.mp hpre
    obtain ⟨hd, _⟩ := List.cons_prefix_cons.mp hrest
    obtain rfl := Event.packet.inj hd
    have hnone : p.receiver.table.get 10 = none :=
      eq_of_map_toOption (f := fun p : MapProxy ↦ p.receiver.table.get 10) (by decide) hrun
    have hid : ffRequestParseId (sampleDatagram 10 0 [65] (by decide)).buffer = 10 := by decide
    rw [hid] at hget
    have hsome : p.receiver.table.get 10 = some h := Except.ok.inj hget
    rw [hnone] at hsome
    cases hsome
  · have := hpre.length_le
    simp at this

/-- An empty chunk at the end of a complete request hands it over a second time. -/
theorem not_handoverRespected_mapTable :
    ¬ HandoverRespected mapTable OrderedMap.empty ⟨0, none⟩
      [.packet (sampleDatagram 9 0 [65] (by decide)),
      .packet (sampleDatagram 9 1 [] (by decide))] := by
  intro h
  have hseen : ((Proxy.initial OrderedMap.empty).run mapTable ⟨0, none⟩
      [.packet (sampleDatagram 9 0 [65] (by decide)),
      .packet (sampleDatagram 9 1 [] (by decide))]).toOption.map (fun p ↦ p.receiver.dispatched) =
      some [0, 0] := by decide
  obtain ⟨p, hrun, htwice⟩ := exists_ok_of_map hseen
  have hnodup := h.once _ p (List.prefix_refl _) hrun
  rw [htwice] at hnodup
  exact absurd hnodup (by decide)

end FfProxy
