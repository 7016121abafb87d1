import FfProxy.Server.OverHashTable

/-!
# The sweep for old requests

`ff_proxy_clean_up_old_requests_loop`, `src/server.c:290–326`, next to the receiver and the
workers. The sweep collects the expired requests while an iterator holds the lock of the table,
and removes their entries afterwards, one locked step each. It removes an entry without
releasing the request and without looking at the request again, so that every entry it removes
is a request lost, or one that a worker has.
-/

namespace FfProxy
open Base

/-! ### The three parties -/

/-- `FF_PROXY_OLD_REQUEST_THRESHOLD_SECS`, `src/server.c:23`. -/
def ffProxyOldRequestThresholdSecs : Int := 60

/-- The table operations that the sweep uses as well: the values that an iterator runs
through. -/
structure SweepTable (T : Type) extends RequestTable T where
  items : T → Except Fault (List Nat)

/-- The receiver and the workers next to the sweep, with the requests that the sweep has
collected and not yet come to, `requests_to_remove[i..count]`. -/
structure SweptProxy (T : Type) where
  proxy : Proxy T
  pending : List Nat

/-- What can happen: the receiver or a worker takes a step, the sweep collects, the sweep
removes one entry. The time of a removal is not used by the code. -/
inductive SweepEvent
  | proxy (e : Event)
  | collect (now : Int)
  | remove (now : Int)

/-- The time of a step of the sweep. -/
def SweepEvent.sweptAt : SweepEvent → Option Int
  | .proxy _ => none
  | .collect now => some now
  | .remove now => some now

/-- `has_expired`, `src/server.c:308–309`. -/
def hasExpired (now : Int) (r : Request) : Bool :=
  decide (r.state = .receiving) && decide (ffProxyOldRequestThresholdSecs ≤ now - r.receivedAt)

/-- The loop over the iterator, `src/server.c:306–315`. -/
def collectExpired (objects : Heap Request) (now : Int) : List Nat → Except Fault (List Nat)
  | [] => .ok []
  | h :: hs =>
    match objects.read h with
    | none => .error .useAfterFree
    | some r =>
      match collectExpired objects now hs with
      | .error fault => .error fault
      | .ok collected => .ok (if hasExpired now r then h :: collected else collected)

section Model

variable {T : Type} (ops : SweepTable T)

/-- The proxy before the first packet. -/
def SweptProxy.initial (table : T) : SweptProxy T := ⟨Proxy.initial table, []⟩

/-- The first half of a sweep, `src/server.c:298–317`. The sweep is back here only once it has
removed what it collected before. -/
def SweptProxy.collect (p : SweptProxy T) (now : Int) : Except Fault (SweptProxy T) :=
  match p.pending with
  | _ :: _ => .ok p
  | [] =>
    match ops.items p.proxy.receiver.table with
    | .error fault => .error fault
    | .ok items =>
      match collectExpired p.proxy.receiver.objects now items with
      | .error fault => .error fault
      | .ok collected => .ok { p with pending := collected }

/-- One round of the second half, `src/server.c:319–322`: the id is read from the request. -/
def SweptProxy.remove (p : SweptProxy T) : Except Fault (SweptProxy T) :=
  match p.pending with
  | [] => .ok p
  | h :: rest =>
    match p.proxy.receiver.objects.read h with
    | none => .error .useAfterFree
    | some r =>
      match ops.removeItem p.proxy.receiver.table r.requestId with
      | .error fault => .error fault
      | .ok table => .ok {
          proxy := { p.proxy with receiver := { p.proxy.receiver with table := table } }
          pending := rest }

/-- One event. -/
def SweptProxy.step (config : Config) (p : SweptProxy T) :
    SweepEvent → Except Fault (SweptProxy T)
  | .proxy e =>
    match p.proxy.step ops.toRequestTable config e with
    | .error fault => .error fault
    | .ok proxy => .ok { p with proxy := proxy }
  | .collect now => p.collect ops now
  | .remove _ => p.remove ops

/-- A sequence of events. -/
def SweptProxy.run (config : Config) (p : SweptProxy T) (es : List SweepEvent) :
    Except Fault (SweptProxy T) :=
  es.foldlM (SweptProxy.step ops config) p

/-- A request is released, or in the table, or a worker has it. -/
def SweptProxy.AccountsFor (p : SweptProxy T) (h : Nat) : Prop :=
  p.proxy.receiver.objects.read h = none ∨
    (∃ k, ops.getItem p.proxy.receiver.table k = .ok (some h)) ∨ p.proxy.HandedOver h

/-- In every state that the events lead through every request is accounted for; a step of the
sweep removes entries of expired requests only, and reads no released request. -/
structure SweepSafe (table : T) (config : Config) (es : List SweepEvent) : Prop where
  accounted : ∀ es₁ p, es₁ <+: es → (SweptProxy.initial table).run ops config es₁ = .ok p →
    ∀ h < p.proxy.receiver.objects.next, p.AccountsFor ops h
  expiredOnly : ∀ es₁ e now p p', e.sweptAt = some now → es₁ ++ [e] <+: es →
    (SweptProxy.initial table).run ops config es₁ = .ok p → p.step ops config e = .ok p' →
    ∀ k h, ops.getItem p.proxy.receiver.table k = .ok (some h) →
      ops.getItem p'.proxy.receiver.table k = .ok none →
      ∃ r, p.proxy.receiver.objects.read h = some r ∧ hasExpired now r = true
  readsLive : ∀ es₁ e now p, e.sweptAt = some now → es₁ ++ [e] <+: es →
    (SweptProxy.initial table).run ops config es₁ = .ok p → ∃ p', p.step ops config e = .ok p'

/-- Whenever the sweep comes to remove an entry it has collected none. -/
def NothingCollected (table : T) (config : Config) (es : List SweepEvent) : Prop :=
  ∀ es₁ now p, es₁ ++ [.remove now] <+: es →
    (SweptProxy.initial table).run ops config es₁ = .ok p → p.pending = []

end Model

/-! ### Accounting without the sweep -/

/-- A proxy whose table is a map, with the sweep. -/
abbrev SweptMapProxy := SweptProxy (OrderedMap UInt64 Nat)

/-- Every live request is in the table under its id, or has none and is a worker's. A request
that a worker has is past being received. -/
structure AccountInv (p : MapProxy) : Prop where
  entry : EntryInv p.receiver
  owned : ∀ h r, p.receiver.objects.read h = some r → r.requestId ≠ 0 →
    p.receiver.table.get r.requestId = some h
  anonymous : ∀ h r, p.receiver.objects.read h = some r → r.requestId = 0 → p.HandedOver h
  allocated : ∀ h ∈ p.receiver.dispatched, h < p.receiver.objects.next
  finished : ∀ worker ∈ p.finished, worker < p.receiver.dispatched.length
  started : ∀ h r, p.HandedOver h → p.receiver.objects.read h = some r → r.state ≠ .receiving

namespace AccountInv

variable {p p' : MapProxy} {config : Config}

theorem initial : AccountInv (Proxy.initial OrderedMap.empty) where
  entry k h hget := by cases hget
  owned h r hr := by cases hr
  anonymous h r hr := by cases hr
  allocated h hh := by cases hh
  finished worker hw := by cases hw
  started h r _ hr := by cases hr

section Packet

variable {d : Datagram} {s₁ : MapReceiver} {k : UInt64} {h : Nat} {r : Request}

/-- What the parser leaves in a request without an id. -/
private theorem parsed_raw (hp : Prepared p.receiver d s₁ k h r) (hk : k = 0) :
    (ffRequestParseChunk r d.buffer).state = .received ∧
      (ffRequestParseChunk r d.buffer).requestId = 0 := by
  cases hp with
  | raw hraw =>
    have hnew : ffRequestAlloc.version = 0 := rfl
    rw [ffRequestParseChunk, if_pos hnew, ffRequestParseFirstChunk, if_pos hraw]
    exact ⟨rfl, rfl⟩
  | fresh _ hid => exact absurd hk hid
  | known _ hid => exact absurd hk hid

/-- The parsed request has the id of its key, unless it has failed. -/
private theorem parsed_requestId (hi : AccountInv p) (hp : Prepared p.receiver d s₁ k h r)
    (hs : (ffRequestParseChunk r d.buffer).state ≠ .receivingFail) :
    (ffRequestParseChunk r d.buffer).requestId = k := by
  by_cases hk : k = 0
  · rw [(parsed_raw hp hk).2, hk]
  · exact ((hi.entry.parsed hp hk).resolve_left hs).1

/-- A request that a worker has is not parsed back into one that is being received. -/
private theorem parsed_state (hi : AccountInv p) (hp : Prepared p.receiver d s₁ k h r)
    (hh : p.HandedOver h) : (ffRequestParseChunk r d.buffer).state ≠ .receiving := by
  obtain ⟨worker, hw⟩ := hh
  have hold := hi.allocated h (List.mem_of_getElem? (dispatched_of_workOf hw).2)
  cases hp with
  | raw => exact absurd hold (Nat.lt_irrefl _)
  | fresh => exact absurd hold (Nat.lt_irrefl _)
  | known hraw hid hget hread hsource =>
    obtain ⟨_, r', hr', _, hv⟩ := hi.entry _ _ hget
    obtain rfl := Option.some.inj (hread.symm.trans hr')
    have hs := hi.started h r ⟨worker, hw⟩ hread
    rw [ffRequestParseChunk, if_neg hv]
    rcases (ffRequestParseDataChunk_frame r d.buffer).2 with he | he | he
    · rw [he]
      exact RequestState.noConfusion
    · rw [he]
      exact RequestState.noConfusion
    · rw [he]
      exact hs

/-- The contents of a request after a datagram: the old ones, or what the parser left. -/
private theorem read_settled (hp : Prepared p.receiver d s₁ k h r) {h' : Nat} {r₀ : Request}
    (hread : (s₁.settled k h (ffRequestParseChunk r d.buffer)).objects.read h' = some r₀) :
    (h' ≠ h ∧ p.receiver.objects.read h' = some r₀) ∨
      (h' = h ∧ r₀ = ffRequestParseChunk r d.buffer ∧ r₀.state ≠ .receivingFail) := by
  by_cases hh : h' = h
  · subst hh
    have hs : (ffRequestParseChunk r d.buffer).state ≠ .receivingFail := fun hf ↦ by
      rw [MapReceiver.read_settled_failed _ _ _ _ hf] at hread
      cases hread
    rw [MapReceiver.read_settled_self _ _ _ _ hp.lt_next hs] at hread
    obtain rfl := Option.some.inj hread
    exact Or.inr ⟨rfl, rfl, hs⟩
  · rw [MapReceiver.read_settled_of_ne _ _ _ _ hp.lt_next hh, hp.read_of_ne hh] at hread
    exact Or.inl ⟨hh, hread⟩

/-- A datagram keeps every request accounted for. -/
theorem packet (hi : AccountInv p) (hp : Prepared p.receiver d s₁ k h r) :
    AccountInv { p with receiver := s₁.settled k h (ffRequestParseChunk r d.buffer) } where
  entry := hi.entry.packet hp
  owned h' r₀ hread hid := by
    change (s₁.settled k h (ffRequestParseChunk r d.buffer)).table.get _ = _
    rw [MapReceiver.get_settled, if_neg]
    · rcases read_settled hp hread with ⟨_, hread⟩ | ⟨rfl, rfl, hs⟩
      · exact hp.get_of_get (hi.owned h' r₀ hread hid)
      · rw [hi.parsed_requestId hp hs] at hid ⊢
        exact hp.get_key hid
    · -- An entry that goes is that of the parsed request, which is then gone as well.
      rintro ⟨hf, hk, he⟩
      rcases read_settled hp hread with ⟨hne, hread⟩ | ⟨_, rfl, hs⟩
      · have hget := hp.get_of_get (hi.owned h' r₀ hread hid)
        rw [he, hp.get_key hk] at hget
        exact hne (Option.some.inj hget).symm
      · exact hs hf
  anonymous h' r₀ hread hid := by
    rcases read_settled hp hread with ⟨_, hread⟩ | ⟨rfl, rfl, hs⟩
    · obtain ⟨worker, hw⟩ := hi.anonymous h' r₀ hread hid
      exact ⟨worker, (workOf_settled hp _).mpr (Or.inl hw)⟩
    · rw [hi.parsed_requestId hp hs] at hid
      have hnew : p.receiver.dispatched.length ∉ p.finished :=
        fun hf ↦ Nat.lt_irrefl _ (hi.finished _ hf)
      exact ⟨_, (workOf_settled hp _).mpr (Or.inr ⟨(parsed_raw hp hid).1, rfl, hnew, rfl⟩)⟩
  allocated := hp.allocated _ hi.allocated
  finished worker hw := by
    change worker < (s₁.settled k h (ffRequestParseChunk r d.buffer)).dispatched.length
    rw [MapReceiver.dispatched_settled, hp.dispatched_eq, List.length_append]
    exact Nat.lt_of_lt_of_le (hi.finished worker hw) (Nat.le_add_right _ _)
  started h' r₀ hh hread := by
    obtain ⟨worker, hw⟩ := hh
    rcases (workOf_settled hp _).mp hw with hold | ⟨hs, rfl, _⟩
    · rcases read_settled hp hread with ⟨_, hread⟩ | ⟨rfl, rfl, _⟩
      · exact hi.started h' r₀ ⟨worker, hold⟩ hread
      · exact hi.parsed_state hp ⟨worker, hold⟩
    · rcases read_settled hp hread with ⟨hne, _⟩ | ⟨_, rfl, _⟩
      · exact absurd rfl hne
      · rw [hs]
        exact RequestState.noConfusion

/-- No datagram gives an old request another id. -/
private theorem requestId_packet (hi : AccountInv p) (hp : Prepared p.receiver d s₁ k h r)
    {h' : Nat} {r₀ : Request} (hold : h' < p.receiver.objects.next)
    (hread : (s₁.settled k h (ffRequestParseChunk r d.buffer)).objects.read h' = some r₀) :
    ∃ r', p.receiver.objects.read h' = some r' ∧ r₀.requestId = r'.requestId := by
  rcases read_settled hp hread with ⟨_, hread⟩ | ⟨rfl, rfl, hs⟩
  · exact ⟨r₀, hread, rfl⟩
  · rw [hi.parsed_requestId hp hs]
    cases hp with
    | raw => exact absurd hold (Nat.lt_irrefl _)
    | fresh => exact absurd hold (Nat.lt_irrefl _)
    | known hraw hid hget hread hsource =>
      obtain ⟨_, r', hr', hid', _⟩ := hi.entry _ _ hget
      exact ⟨r', hr', hid'.symm⟩

end Packet

/-- A stage of a worker keeps every request accounted for. -/
theorem work {h : Nat} {r r' : Request} (hi : AccountInv p)
    (hr : p.receiver.objects.read h = some r) (hid : r'.requestId = r.requestId)
    (hv : r'.version = r.version) (hs : r'.state ≠ .receiving) :
    AccountInv { p with receiver := { p.receiver with
      objects := p.receiver.objects.write h r' } } := by
  have hread : ∀ h' r₀, (p.receiver.objects.write h r').read h' = some r₀ →
      ∃ r₁, p.receiver.objects.read h' = some r₁ ∧ r₀.requestId = r₁.requestId ∧
        (r₀ = r₁ ∨ r₀.state ≠ .receiving) := by
    intro h' r₀ hread
    rw [Heap.read_write _ _ _ _ (Heap.lt_next_of_read hr)] at hread
    split at hread
    · next hh =>
      obtain rfl := Option.some.inj hread
      exact ⟨r, hh ▸ hr, hid, Or.inr hs⟩
    · exact ⟨r₀, hread, rfl, Or.inl rfl⟩
  refine ⟨hi.entry.write hr hid hv, fun h' r₀ hr₀ hne ↦ ?_, fun h' r₀ hr₀ hz ↦ ?_,
    fun h' hh' ↦ ?_, hi.finished, fun h' r₀ hh hr₀ ↦ ?_⟩
  · obtain ⟨r₁, hr₁, hid₁, _⟩ := hread h' r₀ hr₀
    rw [hid₁] at hne ⊢
    exact hi.owned h' r₁ hr₁ hne
  · obtain ⟨r₁, hr₁, hid₁, _⟩ := hread h' r₀ hr₀
    exact hi.anonymous h' r₁ hr₁ (hid₁.symm.trans hz)
  · change h' < (p.receiver.objects.write h r').next
    rw [Heap.next_write]
    exact hi.allocated h' hh'
  · obtain ⟨r₁, hr₁, _, rfl | hs₀⟩ := hread h' r₀ hr₀
    · exact hi.started h' r₀ hh hr₁
    · exact hs₀

/-- The cleanup of a worker keeps every request accounted for. -/
theorem cleaned {worker h : Nat} {r : Request} (hi : AccountInv p)
    (hw : p.workOf worker = some h) (hr : p.receiver.objects.read h = some r) :
    AccountInv (p.cleaned worker h (if r.requestId ≠ 0 then
      p.receiver.table.remove r.requestId else p.receiver.table)) := by
  obtain ⟨_, hwork⟩ := dispatched_of_workOf hw
  have hread : ∀ h' r₀, (p.receiver.objects.free h).read h' = some r₀ →
      h' ≠ h ∧ p.receiver.objects.read h' = some r₀ := by
    intro h' r₀ hread
    rw [Heap.read_free] at hread
    split at hread
    · cases hread
    · next hh => exact ⟨hh, hread⟩
  refine ⟨hi.entry.cleaned hr worker, fun h' r₀ hr₀ hne ↦ ?_, fun h' r₀ hr₀ hz ↦ ?_,
    fun h' hh' ↦ ?_, fun worker' hf ↦ ?_, fun h' r₀ hh hr₀ ↦ ?_⟩
  · obtain ⟨hh, hr₀⟩ := hread h' r₀ hr₀
    have hget := hi.owned h' r₀ hr₀ hne
    change (if r.requestId ≠ 0 then p.receiver.table.remove r.requestId
      else p.receiver.table).get r₀.requestId = some h'
    split
    · next hid =>
      rw [OrderedMap.get_remove, if_neg, hget]
      intro he
      rw [he, hi.owned h r hr hid] at hget
      exact hh (Option.some.inj hget).symm
    · exact hget
  · obtain ⟨hh, hr₀⟩ := hread h' r₀ hr₀
    obtain ⟨worker', hw'⟩ := hi.anonymous h' r₀ hr₀ hz
    obtain ⟨hf', hwork'⟩ := dispatched_of_workOf hw'
    refine ⟨worker', ?_⟩
    rw [Proxy.workOf, if_neg]
    · exact hwork'
    · intro hf
      rcases List.mem_append.mp hf with hf | hf
      · exact hf' hf
      · rw [List.mem_singleton.mp hf, hwork] at hwork'
        exact hh (Option.some.inj hwork').symm
  · change h' < (p.receiver.objects.free h).next
    rw [Heap.next_free]
    exact hi.allocated h' hh'
  · change worker' < p.receiver.dispatched.length
    rcases List.mem_append.mp hf with hf | hf
    · exact hi.finished worker' hf
    · rw [List.mem_singleton.mp hf]
      exact (List.getElem?_eq_some_iff.mp hwork).1
  · obtain ⟨worker', hw'⟩ := hh
    obtain ⟨hf', hwork'⟩ := dispatched_of_workOf hw'
    refine hi.started h' r₀ ⟨worker', ?_⟩ (hread h' r₀ hr₀).2
    rw [Proxy.workOf, if_neg fun hf ↦ hf' (List.mem_append_left _ hf)]
    exact hwork'

/-- Every event of the receiver and the workers keeps every request accounted for, gives up no
address, and gives no request another id. -/
theorem step (hi : AccountInv p) {e : Event} (hstep : p.step mapTable config e = .ok p') :
    AccountInv p' ∧ p.receiver.objects.next ≤ p'.receiver.objects.next ∧
      ∀ h < p.receiver.objects.next, ∀ r', p'.receiver.objects.read h = some r' →
        ∃ r, p.receiver.objects.read h = some r ∧ r'.requestId = r.requestId := by
  cases e with
  | packet d =>
    rcases ffProxyProcessIncomingPacket_cases d hi.entry.live with hrun | ⟨s₁, k, h, r, hp⟩
    · simp only [Proxy.step, hrun] at hstep
      obtain rfl := Except.ok.inj hstep
      exact ⟨hi, Nat.le_refl _, fun h _ r' hr' ↦ ⟨r', hr', rfl⟩⟩
    · simp only [Proxy.step, hp.run] at hstep
      obtain rfl := Except.ok.inj hstep
      refine ⟨hi.packet hp, ?_, fun h' hold r' hr' ↦ hi.requestId_packet hp hold hr'⟩
      rw [MapReceiver.next_settled]
      exact hp.next_le
  | work worker env stage =>
    rcases step_work_cases hstep with rfl | ⟨h, r, r', hw, hr, hrun, rfl⟩
    · exact ⟨hi, Nat.le_refl _, fun h _ r' hr' ↦ ⟨r', hr', rfl⟩⟩
    · obtain ⟨hid, hv⟩ := workerStage_identity hrun
      have hs := workerStage_state hrun (hi.started h r ⟨worker, hw⟩ hr)
      refine ⟨hi.work hr hid hv hs, Nat.le_of_eq (Heap.next_write _ _ _).symm,
        fun h' _ r₀ hr₀ ↦ ?_⟩
      rw [Heap.read_write _ _ _ _ (Heap.lt_next_of_read hr)] at hr₀
      split at hr₀
      · next hh => exact ⟨r, hh ▸ hr, by rw [← Option.some.inj hr₀, hid]⟩
      · exact ⟨r₀, hr₀, rfl⟩
  | finish worker =>
    rcases step_finish_cases hstep with rfl | ⟨h, r, hw, hr, rfl⟩
    · exact ⟨hi, Nat.le_refl _, fun h _ r' hr' ↦ ⟨r', hr', rfl⟩⟩
    · refine ⟨hi.cleaned hw hr, Nat.le_of_eq (Heap.next_free _ _).symm, fun h' _ r₀ hr₀ ↦ ?_⟩
      change (p.receiver.objects.free h).read h' = some r₀ at hr₀
      rw [Heap.read_free] at hr₀
      split at hr₀
      · cases hr₀
      · exact ⟨r₀, hr₀, rfl⟩

end AccountInv

/-! ### Runs in which the sweep removes nothing -/

/-- The map operations with the values in their order. -/
def sweepMapTable : SweepTable (OrderedMap UInt64 Nat) where
  toRequestTable := mapTable
  items m := .ok m.values

/-- Every request is accounted for, and what is collected was in the table. -/
structure SweepInv (p : SweptMapProxy) : Prop where
  account : AccountInv p.proxy
  pending : ∀ h ∈ p.pending, h < p.proxy.receiver.objects.next ∧
    ∀ r, p.proxy.receiver.objects.read h = some r → r.requestId ≠ 0

/-- Live requests can be looked at; those that are collected are among them. -/
theorem collectExpired_of_live {objects : Heap Request} (now : Int) {hs : List Nat}
    (hlive : ∀ h ∈ hs, (objects.read h).isSome) :
    ∃ collected, collectExpired objects now hs = .ok collected ∧ collected ⊆ hs := by
  induction hs with
  | nil => exact ⟨[], rfl, List.Subset.refl _⟩
  | cons h hs ih =>
    obtain ⟨r, hr⟩ := Option.isSome_iff_exists.mp (hlive h List.mem_cons_self)
    obtain ⟨collected, hc, hsub⟩ := ih fun h' hh' ↦ hlive h' (List.mem_cons_of_mem h hh')
    refine ⟨if hasExpired now r then h :: collected else collected, ?_, ?_⟩
    · rw [collectExpired, hr, hc]
    · split
      · exact List.cons_subset_cons h hsub
      · exact List.subset_cons_of_subset h hsub

namespace SweepInv

variable {p p' : SweptMapProxy} {config : Config}

theorem initial : SweepInv (SweptProxy.initial OrderedMap.empty) :=
  ⟨.initial, fun h hh ↦ by cases hh⟩

/-- A step of the receiver or a worker keeps what is collected keyed. -/
theorem proxy (hi : SweepInv p) {e : Event}
    (hstep : p.step sweepMapTable config (.proxy e) = .ok p') : SweepInv p' := by
  simp only [SweptProxy.step] at hstep
  split at hstep
  · cases hstep
  next q hq =>
  obtain rfl := Except.ok.inj hstep
  obtain ⟨hacc, hnext, hids⟩ := hi.account.step hq
  refine ⟨hacc, fun h hh ↦ ?_⟩
  obtain ⟨hlt, hid⟩ := hi.pending h hh
  refine ⟨Nat.lt_of_lt_of_le hlt hnext, fun r' hr' ↦ ?_⟩
  obtain ⟨r, hr, he⟩ := hids h hlt r' hr'
  rw [he]
  exact hid r hr

/-- Collecting reads live requests only and leaves the proxy alone. -/
theorem collect (hi : SweepInv p) (now : Int) :
    ∃ p', p.collect sweepMapTable now = .ok p' ∧ p'.proxy = p.proxy ∧ SweepInv p' := by
  have hentry : ∀ h ∈ p.proxy.receiver.table.values,
      ∃ k, p.proxy.receiver.table.get k = some h := fun h hh ↦ by
    obtain ⟨⟨k, _⟩, hmem, rfl⟩ := List.mem_map.mp hh
    exact ⟨k, (OrderedMap.get_eq_some_iff _ _ _).mpr hmem⟩
  have hlive : ∀ h ∈ p.proxy.receiver.table.values,
      (p.proxy.receiver.objects.read h).isSome := fun h hh ↦ by
    obtain ⟨k, hk⟩ := hentry h hh
    exact hi.account.entry.live k h hk
  obtain ⟨collected, hc, hsub⟩ := collectExpired_of_live now hlive
  unfold SweptProxy.collect
  split
  · exact ⟨p, rfl, rfl, hi⟩
  · refine ⟨{ p with pending := collected }, ?_, rfl, hi.account, fun h hh ↦ ?_⟩
    · simp only [sweepMapTable, hc]
    · obtain ⟨k, hk⟩ := hentry h (hsub hh)
      obtain ⟨hk0, r, hr, hid, _⟩ := hi.account.entry k h hk
      refine ⟨Heap.lt_next_of_read hr, fun r' hr' ↦ ?_⟩
      rw [← Option.some.inj (hr.symm.trans hr'), hid]
      exact hk0

/-- Every request is accounted for. -/
theorem accountsFor (hi : SweepInv p) (h : Nat) : p.AccountsFor sweepMapTable h := by
  cases hr : p.proxy.receiver.objects.read h with
  | none => exact Or.inl hr
  | some r =>
    by_cases hid : r.requestId = 0
    · exact Or.inr (Or.inr (hi.account.anonymous h r hr hid))
    · exact Or.inr (Or.inl ⟨r.requestId, congrArg _ (hi.account.owned h r hr hid)⟩)

end SweepInv

section Runs

variable {config : Config} {es es₁ : List SweepEvent} {p p' : SweptMapProxy}

/-- Removing does nothing when nothing is collected. -/
theorem step_remove_of_nil {T : Type} {ops : SweepTable T} {p : SweptProxy T}
    (h : p.pending = []) (now : Int) : p.step ops config (.remove now) = .ok p := by
  rw [SweptProxy.step, SweptProxy.remove, h]

/-- A removal that succeeds reads the id of the request and takes its entry out. -/
theorem step_remove_of_cons {now : Int} {h : Nat} {rest : List Nat} (hpend : p.pending = h :: rest)
    (hstep : p.step sweepMapTable config (.remove now) = .ok p') :
    ∃ r, p.proxy.receiver.objects.read h = some r ∧
      p'.proxy = { p.proxy with receiver := { p.proxy.receiver with
        table := p.proxy.receiver.table.remove r.requestId } } := by
  rw [SweptProxy.step, SweptProxy.remove, hpend] at hstep
  dsimp only at hstep
  split at hstep
  · cases hstep
  · next r hr =>
    refine ⟨r, hr, ?_⟩
    rw [← Except.ok.inj hstep]

/-- The invariant holds along a run as long as it implies that nothing is there to remove. -/
theorem SweepInv.run
    (hquiet : ∀ es₁ now p, es₁ ++ [.remove now] <+: es →
      (SweptProxy.initial OrderedMap.empty).run sweepMapTable config es₁ = .ok p →
      SweepInv p → p.pending = [])
    (hpre : es₁ <+: es)
    (hrun : (SweptProxy.initial OrderedMap.empty).run sweepMapTable config es₁ = .ok p) :
    SweepInv p := by
  induction es₁ using List.reverseRecOn generalizing p with
  | nil =>
    rw [← Except.ok.inj hrun]
    exact .initial
  | append_singleton es₁ e ih =>
    obtain ⟨q, hq, hstep⟩ := foldlM_concat_eq_ok.mp hrun
    have hi := ih ((List.prefix_append es₁ [e]).trans hpre) hq
    cases e with
    | proxy e => exact hi.proxy hstep
    | collect now =>
      obtain ⟨p', hstep', _, hi'⟩ := hi.collect now
      rw [← Except.ok.inj (hstep'.symm.trans hstep)]
      exact hi'
    | remove now =>
      rw [step_remove_of_nil (hquiet es₁ now q hpre hq hi)] at hstep
      rw [← Except.ok.inj hstep]
      exact hi

/-- A removal breaks one of the guarantees. The request is released already, or a worker has
it, or it is in no one's hands afterwards. -/
theorem pending_eq_nil_of_sweepSafe {now : Int}
    (hsafe : SweepSafe sweepMapTable OrderedMap.empty config es)
    (hpre : es₁ ++ [.remove now] <+: es)
    (hrun : (SweptProxy.initial OrderedMap.empty).run sweepMapTable config es₁ = .ok p)
    (hi : SweepInv p) : p.pending = [] := by
  cases hpend : p.pending with
  | nil => rfl
  | cons h rest =>
    exfalso
    obtain ⟨hlt, hkeyed⟩ := hi.pending h (hpend ▸ List.mem_cons_self)
    obtain ⟨p', hstep⟩ := hsafe.readsLive es₁ _ now p rfl hpre hrun
    obtain ⟨r, hr, hp'⟩ := step_remove_of_cons hpend hstep
    have hget := hi.account.owned h r hr (hkeyed r hr)
    have hgone : ∀ k, p'.proxy.receiver.table.get k ≠ some h := by
      intro k hk
      rw [hp', OrderedMap.get_remove] at hk
      split at hk
      · cases hk
      · next hne => exact hne (hi.account.entry.injective k r.requestId h hk hget)
    have hnone : p'.proxy.receiver.table.get r.requestId = none := by
      rw [hp', OrderedMap.get_remove, if_pos rfl]
    obtain ⟨r', hr', hexp⟩ := hsafe.expiredOnly es₁ _ now p p' rfl hpre hrun hstep r.requestId h
      (congrArg _ hget) (congrArg _ hnone)
    obtain rfl := Option.some.inj (hr.symm.trans hr')
    have hlt' : h < p'.proxy.receiver.objects.next := by
      rw [hp']
      exact hlt
    rcases hsafe.accounted _ p' hpre (foldlM_concat_eq_ok.mpr ⟨p, hrun, hstep⟩) h hlt' with
      hread | ⟨k, hk⟩ | hh
    · rw [hp', show _ = some r from hr] at hread
      cases hread
    · exact hgone k (Except.ok.inj hk)
    · rw [hp'] at hh
      simp only [hasExpired, Bool.and_eq_true, decide_eq_true_eq] at hexp
      exact hi.account.started h r hh hr hexp.1

/-- Over a map the sweep is safe in exactly the runs in which it removes nothing. -/
theorem sweepSafe_mapTable_iff (config : Config) (es : List SweepEvent) :
    SweepSafe sweepMapTable OrderedMap.empty config es ↔
      NothingCollected sweepMapTable OrderedMap.empty config es := by
  constructor
  · intro hsafe es₁ now p hpre hrun
    have hi : SweepInv p := by
      apply SweepInv.run _ ((List.prefix_append _ _).trans hpre) hrun
      intro es₁ now p hpre hrun hi
      exact pending_eq_nil_of_sweepSafe hsafe hpre hrun hi
    exact pending_eq_nil_of_sweepSafe hsafe hpre hrun hi
  · intro hnone
    have hinv : ∀ es₁ p, es₁ <+: es →
        (SweptProxy.initial OrderedMap.empty).run sweepMapTable config es₁ = .ok p → SweepInv p :=
      fun es₁ p hpre hrun ↦ SweepInv.run (fun es₁ now p hpre hrun _ ↦ hnone es₁ now p hpre hrun)
        hpre hrun
    -- A step of the sweep succeeds and changes nothing but the list of collected requests.
    have hsweep : ∀ es₁ e now p, e.sweptAt = some now → es₁ ++ [e] <+: es →
        (SweptProxy.initial OrderedMap.empty).run sweepMapTable config es₁ = .ok p →
        ∃ p', p.step sweepMapTable config e = .ok p' ∧ p'.proxy = p.proxy := by
      intro es₁ e now p he hpre hrun
      have hi := hinv es₁ p ((List.prefix_append _ _).trans hpre) hrun
      cases e with
      | proxy e => cases he
      | collect now =>
        obtain ⟨p', hstep, hsame, _⟩ := hi.collect now
        exact ⟨p', hstep, hsame⟩
      | remove now => exact ⟨p, step_remove_of_nil (hnone es₁ now p hpre hrun) now, rfl⟩
    constructor
    · intro es₁ p hpre hrun h _
      exact (hinv es₁ p hpre hrun).accountsFor h
    · intro es₁ e now p p' he hpre hrun hstep k h hget hgone
      obtain ⟨q, hq, hsame⟩ := hsweep es₁ e now p he hpre hrun
      obtain rfl := Except.ok.inj (hq.symm.trans hstep)
      rw [hsame, hget] at hgone
      cases Except.ok.inj hgone
    · intro es₁ e now p he hpre hrun
      obtain ⟨p', hstep, _⟩ := hsweep es₁ e now p he hpre hrun
      exact ⟨p', hstep⟩

end Runs

/-! ### Over the hash table -/

section Iterator

variable {α : Type}

/-- The values that `while ((value = ff_hash_table_iterator_next(iterator)) != NULL)` runs
through. The fuel is for a list that does not end. -/
def iteratorLoop (t : HashTable α) : Nat → TableIterator → Except Fault (List α)
  | 0, _ => .error .divergence
  | fuel + 1, it => do
    let (it, value) ← ffHashTableIteratorNext t it
    match value with
    | none => return []
    | some v =>
      let values ← iteratorLoop t fuel it
      return v :: values

/-- A loop over an iterator runs through the values that are left. -/
theorem Represents.iteratorLoop_eq {t : HashTable α} {is : List (Item α)} (h : Represents t is)
    {n fuel : Nat} {it : TableIterator} (hit : IteratorAt is n it) (hfuel : is.length < n + fuel)
    (hn : n ≤ is.length) :
    iteratorLoop t fuel it = .ok ((is.map Item.value).drop n) := by
  induction fuel generalizing n it with
  | zero => omega
  | succ fuel ih =>
    by_cases hlt : n < (is.map Item.value).length
    · have hnext : IteratorAt is (n + 1) ⟨(addresses is)[n]?, true⟩ := rfl
      have hrest := ih hnext (by omega) (by rwa [List.length_map] at hlt)
      have hvalue := List.getElem?_eq_getElem hlt
      rw [List.drop_eq_getElem_cons hlt]
      simp only [iteratorLoop, h.iteratorNext hit, bind, Except.bind, hvalue, hrest]
      rfl
    · have hend := List.getElem?_eq_none (Nat.not_lt.mp hlt)
      rw [List.drop_eq_nil_of_le (Nat.not_lt.mp hlt)]
      simp only [iteratorLoop, h.iteratorNext hit, bind, Except.bind, hend]
      rfl

end Iterator

/-- The operations of the hash table. -/
def sweepHashTable : SweepTable (HashTable Nat) where
  toRequestTable := hashTable
  items t := iteratorLoop t (t.nodes.next + 1) ffHashTableIteratorInit

/-- The sweep runs through the same requests over both tables. -/
theorem items_sweepHashTable {t : HashTable Nat} {m : OrderedMap UInt64 Nat} (hR : Refines t m) :
    sweepHashTable.items t = sweepMapTable.items m := by
  obtain ⟨is, h, hm⟩ := hR
  have hlen : is.length ≤ t.nodes.next := h.held.length_le h.list.nodup
  refine (h.iteratorLoop_eq (n := 0) rfl (by omega) (Nat.zero_le _)).trans (congrArg _ ?_)
  rw [List.drop_zero, OrderedMap.values, hm, List.map_map]
  rfl

/-- Proxies that differ in their tables only. -/
structure SweptProxy.Related {T T' : Type} (R : T → T' → Prop) (p : SweptProxy T)
    (p' : SweptProxy T') : Prop where
  proxy : p.proxy.Related R p'.proxy
  pending : p.pending = p'.pending

section Simulation

variable {T T' : Type} {ops : SweepTable T} {ops' : SweepTable T'} {R : T → T' → Prop}
  {p : SweptProxy T} {p' : SweptProxy T'} {config : Config}

private theorem sweptStep_related
    (hsim : TableSimulation ops.toRequestTable ops'.toRequestTable R)
    (hitems : ∀ {t t'}, R t t' → ops.items t = ops'.items t') (hp : p.Related R p')
    (e : SweepEvent) :
    ExceptRel (SweptProxy.Related R) (p.step ops config e) (p'.step ops' config e) := by
  cases e with
  | proxy e =>
    unfold SweptProxy.step
    dsimp only
    obtain ⟨q, q', hq, hq', hR⟩ | ⟨e, hq, hq'⟩ := (step_related hsim hp.proxy e).outcome
    · rw [hq, hq']
      exact .ok ⟨hR, hp.pending⟩
    · rw [hq, hq']
      exact .error e
  | collect now =>
    unfold SweptProxy.step SweptProxy.collect
    dsimp only
    rw [hp.pending, hitems hp.proxy.receiver.table, hp.proxy.receiver.objects]
    split
    · exact .ok hp
    · split
      · exact .error _
      · split
        · exact .error _
        · exact .ok ⟨hp.proxy, rfl⟩
  | remove now =>
    unfold SweptProxy.step SweptProxy.remove
    dsimp only
    rw [hp.pending, hp.proxy.receiver.objects]
    split
    · exact .ok hp
    · split
      · exact .error _
      · next r _ =>
        obtain ⟨t, t', ht, ht', hR⟩ | ⟨e, ht, ht'⟩ :=
          (hsim.removeItem r.requestId hp.proxy.receiver.table).outcome
        · rw [ht, ht']
          exact .ok ⟨⟨⟨rfl, hp.proxy.receiver.dispatched, hR⟩, hp.proxy.finished⟩, rfl⟩
        · rw [ht, ht']
          exact .error e

variable (hsim : TableSimulation ops.toRequestTable ops'.toRequestTable R)
  (hitems : ∀ {t t'}, R t t' → ops.items t = ops'.items t')
include hsim hitems

private theorem sweptRun_related {t : T} {t' : T'} (hR : R t t') (es : List SweepEvent) :
    ExceptRel (SweptProxy.Related R) ((SweptProxy.initial t).run ops config es)
      ((SweptProxy.initial t').run ops' config es) :=
  ExceptRel.foldlM (fun _ _ e hp ↦ sweptStep_related hsim hitems hp e)
    ⟨initial_related hR, rfl⟩ es

/-- What the sweep has collected does not depend on the table. -/
theorem NothingCollected.transfer {t : T} {t' : T'} (hR : R t t') {es : List SweepEvent}
    (h : NothingCollected ops t config es) : NothingCollected ops' t' config es := by
  intro es₁ now p' hpre hrun'
  obtain ⟨p, hrun, hp⟩ := (sweptRun_related hsim hitems hR es₁).of_ok_right hrun'
  rw [← hp.pending]
  exact h es₁ now p hpre hrun

/-- What the sweep guarantees does not depend on the table. -/
theorem SweepSafe.transfer {t : T} {t' : T'} (hR : R t t') {es : List SweepEvent}
    (h : SweepSafe ops t config es) : SweepSafe ops' t' config es := by
  refine ⟨fun es₁ p' hpre hrun' j hj ↦ ?_, fun es₁ e now p' q' he hpre hrun' hstep' k j ↦ ?_,
    fun es₁ e now p' he hpre hrun' ↦ ?_⟩
  all_goals obtain ⟨p, hrun, hp⟩ := (sweptRun_related hsim hitems hR es₁).of_ok_right hrun'
  · rw [← hp.proxy.receiver.objects] at hj
    refine (h.accounted es₁ p hpre hrun j hj).imp (fun hn ↦ ?_)
      (Or.imp (Exists.imp fun k hk ↦ ?_) (handedOver_related hp.proxy j).mp)
    · rw [← hp.proxy.receiver.objects, hn]
    · rw [← hsim.getItem k hp.proxy.receiver.table, hk]
  · obtain ⟨q, hstep, hq⟩ := (sweptStep_related hsim hitems hp e).of_ok_right hstep'
    rw [← hsim.getItem k hp.proxy.receiver.table, ← hsim.getItem k hq.proxy.receiver.table,
      ← hp.proxy.receiver.objects]
    exact h.expiredOnly es₁ e now p q he hpre hrun hstep k j
  · obtain ⟨q, hstep⟩ := h.readsLive es₁ e now p he hpre hrun
    obtain ⟨q', hstep', _⟩ := (sweptStep_related hsim hitems hp e).of_ok_left hstep
    exact ⟨q', hstep'⟩

end Simulation

/-! ### A request that never gets its second packet -/

/-- The first packet of a request arrives at time 0, and the sweep runs once. -/
def sampleSweep (now : Int) : List SweepEvent :=
  [.proxy (.packet (sampleDatagram 9 0 [] (by decide))), .collect now, .remove now]

private theorem sampleSweep_remove {now now' : Int} {es₁ : List SweepEvent}
    (hpre : es₁ ++ [.remove now'] <+: sampleSweep now) : es₁ = (sampleSweep now).take 2 := by
  rcases es₁ with _ | ⟨e, _ | ⟨e', _ | ⟨e'', es₁⟩⟩⟩
  · cases (List.cons_prefix_cons.mp hpre).1
  · cases (List.cons_prefix_cons.mp (List.cons_prefix_cons.mp hpre).2).1
  · obtain ⟨rfl, hrest⟩ := List.cons_prefix_cons.mp hpre
    obtain ⟨rfl, _⟩ := List.cons_prefix_cons.mp hrest
    rfl
  · have hlen := hpre.length_le
    simp only [sampleSweep, List.length_append, List.length_cons, List.length_nil] at hlen
    omega

private theorem nothingCollected_young :
    NothingCollected sweepMapTable OrderedMap.empty ⟨0, none⟩ (sampleSweep 59) := by
  intro es₁ now p hpre hrun
  rw [sampleSweep_remove hpre] at hrun
  have hpending : ((SweptProxy.initial OrderedMap.empty).run sweepMapTable ⟨0, none⟩
      ((sampleSweep 59).take 2)).toOption.map (fun p ↦ p.pending) = some [] := by decide
  exact eq_of_map_toOption hpending hrun

private theorem not_sweepSafe_old :
    ¬ SweepSafe sweepMapTable OrderedMap.empty ⟨0, none⟩ (sampleSweep 60) := by
  intro h
  have hend : ((SweptProxy.initial OrderedMap.empty).run sweepMapTable ⟨0, none⟩
      (sampleSweep 60)).toOption.map (fun p ↦ ((p.proxy.receiver.objects.read 0).isSome,
        p.proxy.receiver.table.entries, p.proxy.receiver.dispatched)) =
      some (true, [], []) := by decide
  obtain ⟨p, hrun, hseen⟩ := exists_ok_of_map hend
  obtain ⟨hlive, hrest⟩ := Prod.mk.inj hseen
  obtain ⟨hentries, hdispatched⟩ := Prod.mk.inj hrest
  obtain ⟨r, hr⟩ := Option.isSome_iff_exists.mp hlive
  -- The request is in memory, the table is empty and there are no workers.
  rcases h.accounted _ p (List.prefix_refl _) hrun 0 (Heap.lt_next_of_read hr) with
    hread | ⟨k, hk⟩ | ⟨worker, hw⟩
  · rw [hr] at hread
    cases hread
  · have hmem := (OrderedMap.get_eq_some_iff _ _ _).mp (Except.ok.inj hk)
    rw [hentries] at hmem
    cases hmem
  · have hmem := List.mem_of_getElem? (dispatched_of_workOf hw).2
    rw [hdispatched] at hmem
    cases hmem

/-! ### The sweep of the proxy -/

/-- The sweep keeps every request accounted for, removes entries of expired requests only and
reads no released request, in exactly the runs in which it never removes an entry. -/
theorem sweepSafe_iff {table : HashTable Nat} (hinit : ffHashTableInit 16 = .ok table)
    (config : Config) (es : List SweepEvent) :
    SweepSafe sweepHashTable table config es ↔
      NothingCollected sweepHashTable table config es := by
  have hR := refines_empty hinit
  have hsim := hashTable_simulates_mapTable
  have hitems {t m} (hR : Refines t m) : sweepMapTable.items m = sweepHashTable.items t :=
    (items_sweepHashTable hR).symm
  constructor
  · intro h
    have hmap := (sweepSafe_mapTable_iff config es).mp (h.transfer hsim items_sweepHashTable hR)
    exact hmap.transfer hsim.symm hitems hR
  · intro h
    have hmap := (sweepSafe_mapTable_iff config es).mpr (h.transfer hsim items_sweepHashTable hR)
    exact hmap.transfer hsim.symm hitems hR

/-- A sweep at an age of 59 seconds leaves the request alone. -/
theorem sweepSafe_young : ∃ table : HashTable Nat, ffHashTableInit 16 = .ok table ∧
    SweepSafe sweepHashTable table ⟨0, none⟩ (sampleSweep 59) := by
  obtain ⟨table, hinit⟩ := exists_table
  refine ⟨table, hinit, (sweepSafe_iff hinit ⟨0, none⟩ (sampleSweep 59)).mpr ?_⟩
  exact nothingCollected_young.transfer hashTable_simulates_mapTable.symm
    (fun hR ↦ (items_sweepHashTable hR).symm) (refines_empty hinit)

/-- A sweep at an age of 60 seconds takes the request out of the table and leaves it in memory,
where nothing refers to it any more. -/
theorem not_sweepSafe_expired : ∃ table : HashTable Nat, ffHashTableInit 16 = .ok table ∧
    ¬ SweepSafe sweepHashTable table ⟨0, none⟩ (sampleSweep 60) := by
  obtain ⟨table, hinit⟩ := exists_table
  refine ⟨table, hinit, fun h ↦ not_sweepSafe_old ?_⟩
  exact h.transfer hashTable_simulates_mapTable items_sweepHashTable (refines_empty hinit)

end FfProxy
