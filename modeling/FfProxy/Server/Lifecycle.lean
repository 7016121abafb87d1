import FfProxy.Base.Projection
import FfProxy.Server.Sweep

/-!
# The life of a request

The proxy seen from one request id. Under its id a request is made by the first packet, takes up
packets of its source, is handed to a worker when it is complete, and goes when its worker is done.
Nothing else moves it: not the packets of other ids, not the workers of other requests, in whatever
order things happen. The source does not stop packets that come behind the handover. They reach the
request under its worker: one that is refused takes it away, and one after which it is complete
again starts another worker on it.
-/

namespace FfProxy
open Base

/-! ### Slots -/

/-- What is found under an id: nothing, or a request and the workers that have it. A request that
is being received has none. -/
inductive Slot
  | idle
  | held (workers : List Nat) (r : Request)

namespace Slot

/-- What a parsed request becomes, `src/server.c:170–201`; `worker` is the number of the next
worker. -/
def settled (worker : Nat) (workers : List Nat) (r : Request) : Slot :=
  if r.state = .receivingFail then .idle
  else .held (workers ++ if r.state = .received then [worker] else []) r

/-- A packet with the id. -/
def packet (worker : Nat) (d : Datagram) : Slot → Slot
  | .idle => settled worker [] (ffRequestParseChunk (newRequest d) d.buffer)
  | .held workers r =>
    if r.source ≠ d.source.val then .held workers r
    else settled worker workers (ffRequestParseChunk r d.buffer)

/-- A stage of a worker. -/
def work (config : Config) (worker : Nat) (env : Environment) (stage : WorkerStage) :
    Slot → Except Fault Slot
  | .idle => return .idle
  | .held workers r =>
    if worker ∈ workers then do
      let r ← workerStage env config stage r
      return .held workers r
    else return .held workers r

/-- The cleanup of a worker. -/
def finish (worker : Nat) : Slot → Slot
  | .idle => .idle
  | .held workers r => if worker ∈ workers then .idle else .held workers r

end Slot

/-- The datagram is a packet with the id. -/
def Datagram.carries (d : Datagram) (k : UInt64) : Bool :=
  !ffRequestIsRawHttp d.buffer && ffRequestParseId d.buffer == k && k != 0

/-- What an event does to the slot of an id. -/
def Slot.next (config : Config) (k : UInt64) (worker : Nat) (slot : Slot) :
    Event → Except Fault Slot
  | .packet d => return if d.carries k then slot.packet worker d else slot
  | .work w env stage => slot.work config w env stage
  | .finish w => return slot.finish w

/-- A move of a slot. Which number the next worker has is not up to the slot. -/
def Slot.Move (config : Config) (k : UInt64) (slot : Slot) (e : Event) (slot' : Slot) : Prop :=
  ∃ worker, slot.next config k worker e = .ok slot'

/-! ### Slots of a proxy -/

/-- Workers have a request, no other worker has or had it, and it has these contents. -/
structure Proxy.Holds {T : Type} (p : Proxy T) (workers : List Nat) (h : Nat) (r : Request) :
    Prop where
  running : ∀ w ∈ workers, p.workOf w = some h
  alone : ∀ w, p.receiver.dispatched[w]? = some h → w ∈ workers
  read : p.receiver.objects.read h = some r

/-- What the proxy has under an id. -/
def Proxy.InSlot {T : Type} (ops : RequestTable T) (p : Proxy T) (k : UInt64) : Slot → Prop
  | .idle => ops.getItem p.receiver.table k = .ok none
  | .held workers r => ∃ h, ops.getItem p.receiver.table k = .ok (some h) ∧ p.Holds workers h r

section Carries

variable {d : Datagram} {k : UInt64}

theorem carries_iff : d.carries k = true ↔
    ffRequestIsRawHttp d.buffer = false ∧ ffRequestParseId d.buffer = k ∧ k ≠ 0 := by
  simp [Datagram.carries, and_assoc]

/-- The request that a datagram is parsed into is under another id, or under none. -/
theorem Prepared.key_ne {s s₁ : MapReceiver} {j : UInt64} {h : Nat} {r : Request}
    (hp : Prepared s d s₁ j h r) (hk : d.carries k = false) : k ≠ j ∨ j = 0 := by
  by_contra hc
  obtain ⟨rfl, hj⟩ : k = j ∧ j ≠ 0 := by
    constructor
    · by_contra hne
      exact hc (Or.inl hne)
    · exact fun h0 ↦ hc (Or.inr h0)
  have hcarries : d.carries k = true := by
    rw [carries_iff]
    cases hp with
    | raw => exact absurd rfl hj
    | fresh hraw hid => exact ⟨hraw, rfl, hid⟩
    | known hraw hid => exact ⟨hraw, rfl, hid⟩
  rw [hk] at hcarries
  cases hcarries

end Carries

/-! ### Workers and their request -/

section Holds

variable {p p' : MapProxy} {config : Config} {workers : List Nat} {h : Nat} {r : Request}

/-- Who is started with a request when a datagram is settled: those who were, and the next worker if
the datagram is parsed into the request and completes it. -/
theorem dispatched_getElem?_settled {d : Datagram} {s₁ : MapReceiver} {k : UInt64} {h' : Nat}
    {r₀ : Request} (hp : Prepared p.receiver d s₁ k h' r₀) {r' : Request} {w : Nat}
    (hw : (s₁.settled k h' r').dispatched[w]? = some h) :
    p.receiver.dispatched[w]? = some h ∨
      r'.state = .received ∧ w = p.receiver.dispatched.length ∧ h = h' := by
  rw [MapReceiver.dispatched_settled, hp.dispatched_eq] at hw
  by_cases hlt : w < p.receiver.dispatched.length
  · rw [List.getElem?_append_left hlt] at hw
    exact Or.inl hw
  · right
    rw [List.getElem?_append_right (Nat.not_lt.mp hlt)] at hw
    split at hw
    · next hs =>
      rw [List.getElem?_singleton, Option.ite_none_right_eq_some] at hw
      exact ⟨hs, by omega, (Option.some.inj hw.2).symm⟩
    · cases hw

/-- A datagram that is parsed into another request leaves workers with what they have. -/
theorem Proxy.Holds.packet (hh : p.Holds workers h r) {d : Datagram} {s₁ : MapReceiver}
    {k : UInt64} {h' : Nat} {r₀ : Request} (hp : Prepared p.receiver d s₁ k h' r₀) (hne : h ≠ h')
    (r' : Request) :
    Proxy.Holds { p with receiver := s₁.settled k h' r' } workers h r where
  running w hw := (workOf_settled hp r').mpr (Or.inl (hh.running w hw))
  alone w hw := by
    rcases dispatched_getElem?_settled hp hw with hw | ⟨_, _, he⟩
    · exact hh.alone w hw
    · exact absurd he hne
  read := by
    change (s₁.settled k h' r').objects.read h = some r
    rw [MapReceiver.read_settled_of_ne _ _ _ _ hp.lt_next hne, hp.read_of_ne hne, hh.read]

/-- Other workers have other requests. -/
theorem Proxy.Holds.ne_of_workOf {T : Type} {p : Proxy T} (hh : p.Holds workers h r) {w h' : Nat}
    (hw : p.workOf w = some h') (hne : w ∉ workers) : h' ≠ h := by
  rintro rfl
  exact hne (hh.alone w (dispatched_of_workOf hw).2)

/-- A stage of a worker does to its request what the stage does. -/
theorem Proxy.Holds.work_self (hh : p.Holds workers h r) {w : Nat} (hw : w ∈ workers)
    {env : Environment} {stage : WorkerStage}
    (hstep : p.step mapTable config (.work w env stage) = .ok p') :
    ∃ r', workerStage env config stage r = .ok r' ∧ p'.Holds workers h r' := by
  simp only [Proxy.step, hh.running w hw, hh.read] at hstep
  split at hstep
  · cases hstep
  · next r' hrun =>
    obtain rfl := Except.ok.inj hstep
    refine ⟨r', hrun, hh.running, hh.alone, ?_⟩
    change (p.receiver.objects.write h r').read h = some r'
    rw [Heap.read_write _ _ _ _ (Heap.lt_next_of_read hh.read), if_pos rfl]

/-- A stage of another worker leaves workers with what they have. -/
theorem Proxy.Holds.work_other (hh : p.Holds workers h r) {w : Nat} (hne : w ∉ workers)
    {env : Environment} {stage : WorkerStage}
    (hstep : p.step mapTable config (.work w env stage) = .ok p') : p'.Holds workers h r := by
  rcases step_work_cases hstep with rfl | ⟨h', r₀, r', hw, hr, _, rfl⟩
  · exact hh
  · refine ⟨hh.running, hh.alone, ?_⟩
    change (p.receiver.objects.write h' r').read h = some r
    rw [Heap.read_write _ _ _ _ (Heap.lt_next_of_read hr),
      if_neg (Ne.symm (hh.ne_of_workOf hw hne)), hh.read]

/-- The cleanup of another worker leaves workers with what they have. -/
theorem Proxy.Holds.finish_other (hh : p.Holds workers h r) {w : Nat} (hne : w ∉ workers)
    (hstep : p.step mapTable config (.finish w) = .ok p') : p'.Holds workers h r := by
  rcases step_finish_cases hstep with rfl | ⟨h', r', hw, hr, rfl⟩
  · exact hh
  · refine ⟨fun w' hw' ↦ ?_, hh.alone, ?_⟩
    · obtain ⟨hfinished, hdispatched⟩ := dispatched_of_workOf (hh.running w' hw')
      rw [Proxy.workOf, if_neg]
      · exact hdispatched
      · simp only [Proxy.cleaned, List.mem_append, List.mem_singleton, not_or]
        exact ⟨hfinished, fun he ↦ hne (he ▸ hw')⟩
    · change (p.receiver.objects.free h').read h = some r
      rw [Heap.read_free, if_neg (Ne.symm (hh.ne_of_workOf hw hne)), hh.read]

end Holds

/-! ### Moves -/

section Moves

variable {p p' : MapProxy} {config : Config} {k : UInt64} {slot : Slot}

/-- The number that the next worker gets. -/
def Proxy.nextWorker {T : Type} (p : Proxy T) : Nat := p.receiver.dispatched.length

theorem get_of_inSlot_idle : p.InSlot mapTable k .idle ↔ p.receiver.table.get k = none :=
  Except.ok.injEq _ _ ▸ Iff.rfl

section Packet

variable {d : Datagram} {s₁ : MapReceiver} {j : UInt64} {h : Nat} {r : Request}

/-- A datagram without the id moves nothing under the id. -/
theorem InSlot.packet_other (hi : AccountInv p) (hslot : p.InSlot mapTable k slot)
    (hp : Prepared p.receiver d s₁ j h r) (hk : d.carries k = false) (r' : Request) :
    Proxy.InSlot mapTable { p with receiver := s₁.settled j h r' } k slot := by
  have hne := hp.key_ne hk
  have hget : (s₁.settled j h r').table.get k = p.receiver.table.get k := by
    rw [MapReceiver.get_settled, if_neg, hp.get_of_key_ne hne]
    rintro ⟨_, hj, rfl⟩
    exact hne.elim (fun h ↦ h rfl) hj
  cases slot with
  | idle => exact (congrArg Except.ok hget).trans hslot
  | held workers r₀ =>
    obtain ⟨h', hh', hholds⟩ := hslot
    -- What is under the id is another request.
    have hother : h' ≠ h := by
      rintro rfl
      have hh := Except.ok.inj hh'
      rw [← hp.get_of_key_ne hne] at hh
      obtain ⟨rfl, hj⟩ := hp.key_eq hi.entry.live hi.entry.injective hh
      exact hne.elim (fun h ↦ h rfl) hj
    exact ⟨h', (congrArg Except.ok hget).trans hh', hholds.packet hp hother r'⟩

/-- A parsed request is settled under its id, with the workers that have it. -/
theorem inSlot_settled (hi : AccountInv p) (hp : Prepared p.receiver d s₁ k h r) (hk : k ≠ 0)
    {workers : List Nat} (hrunning : ∀ w ∈ workers, p.workOf w = some h)
    (halone : ∀ w, p.receiver.dispatched[w]? = some h → w ∈ workers) (r' : Request) :
    Proxy.InSlot mapTable { p with receiver := s₁.settled k h r' } k
      (Slot.settled p.nextWorker workers r') := by
  have hget : (s₁.settled k h r').table.get k =
      if r'.state = .receivingFail then none else some h := by
    rw [MapReceiver.get_settled, hp.get_key hk]
    simp [hk]
  unfold Slot.settled
  split
  · next hf => exact congrArg Except.ok (hget.trans (if_pos hf))
  · next hf =>
    rw [if_neg hf] at hget
    refine ⟨h, congrArg Except.ok hget, fun w hw ↦ ?_, fun w hw ↦ List.mem_append.mpr ?_,
      MapReceiver.read_settled_self s₁ k h r' hp.lt_next hf⟩
    · apply (workOf_settled hp r').mpr
      rcases List.mem_append.mp hw with hw | hw
      · exact Or.inl (hrunning w hw)
      · split at hw
        · next hs =>
          obtain rfl := List.mem_singleton.mp hw
          exact Or.inr ⟨hs, rfl, fun hf ↦ Nat.lt_irrefl _ (hi.finished _ hf), rfl⟩
        · cases hw
    · rcases dispatched_getElem?_settled hp hw with hw | ⟨hs, rfl, _⟩
      · exact Or.inl (halone w hw)
      · rw [if_pos hs]
        exact Or.inr (List.mem_singleton.mpr rfl)

/-- A packet with the id. -/
theorem InSlot.packet (config : Config) (hi : AccountInv p) (hslot : p.InSlot mapTable k slot)
    (hk : d.carries k = true) :
    ∃ p', p.step mapTable config (.packet d) = .ok p' ∧
      p'.InSlot mapTable k (slot.packet p.nextWorker d) := by
  obtain ⟨hraw, rfl, hid⟩ := carries_iff.mp hk
  have hstep : ∀ {s₁ h r}, Prepared p.receiver d s₁ (ffRequestParseId d.buffer) h r →
      p.step mapTable config (.packet d) = .ok { p with
        receiver := s₁.settled (ffRequestParseId d.buffer) h (ffRequestParseChunk r d.buffer) } :=
    fun hp ↦ by rw [Proxy.step, hp.run]
  cases slot with
  | idle =>
    have hp := Prepared.fresh hraw hid (get_of_inSlot_idle.mp hslot)
    refine ⟨_, hstep hp, inSlot_settled hi hp hid (fun w hw ↦ by cases hw) (fun w hw ↦ ?_) _⟩
    exact absurd (hi.allocated _ (List.mem_of_getElem? hw)) (Nat.lt_irrefl _)
  | held workers r =>
    obtain ⟨h, hget, hholds⟩ := hslot
    rw [Slot.packet]
    split
    · next hsource =>
      refine ⟨p, ?_, h, hget, hholds⟩
      rw [Proxy.step, ignored_of_source hraw hget hholds.read hsource]
    · next hsource =>
      have hp := Prepared.known hraw hid (Except.ok.inj hget) hholds.read (not_not.mp hsource)
      exact ⟨_, hstep hp, inSlot_settled hi hp hid hholds.running hholds.alone _⟩

end Packet

/-- A stage of a worker. -/
theorem InSlot.work (hslot : p.InSlot mapTable k slot) {worker : Nat} {env : Environment}
    {stage : WorkerStage} (hstep : p.step mapTable config (.work worker env stage) = .ok p') :
    ∃ slot', slot.work config worker env stage = .ok slot' ∧ p'.InSlot mapTable k slot' := by
  have hframe : p'.receiver.table = p.receiver.table := by
    rcases step_work_cases hstep with rfl | ⟨_, _, _, _, _, _, rfl⟩ <;> rfl
  cases slot with
  | idle => exact ⟨.idle, rfl, by rw [Proxy.InSlot, hframe]; exact hslot⟩
  | held workers r =>
    obtain ⟨h, hget, hholds⟩ := hslot
    rw [← hframe] at hget
    by_cases hw : worker ∈ workers
    · obtain ⟨r', hrun, hholds'⟩ := hholds.work_self hw hstep
      refine ⟨.held workers r', ?_, h, hget, hholds'⟩
      rw [Slot.work, if_pos hw]
      exact bind_of_ok hrun _
    · refine ⟨.held workers r, ?_, h, hget, hholds.work_other hw hstep⟩
      rw [Slot.work, if_neg hw]
      rfl

/-- A cleanup takes no entry of another request. -/
theorem get_cleaned_of_ne (hi : AccountInv p) {h h' : Nat} {r' : Request}
    (hr' : p.receiver.objects.read h' = some r') (hget : p.receiver.table.get k = some h)
    (hne : h ≠ h') :
    (if r'.requestId ≠ 0 then p.receiver.table.remove r'.requestId
      else p.receiver.table).get k = some h := by
  split
  · next hid =>
    rw [OrderedMap.get_remove, if_neg, hget]
    rintro rfl
    exact hne (Option.some.inj (hget.symm.trans (hi.owned h' r' hr' hid)))
  · exact hget

/-- The cleanup of a worker. -/
theorem InSlot.finish (hi : AccountInv p) (hslot : p.InSlot mapTable k slot) {worker : Nat}
    (hstep : p.step mapTable config (.finish worker) = .ok p') :
    p'.InSlot mapTable k (slot.finish worker) := by
  cases slot with
  | idle =>
    have hnone := get_of_inSlot_idle.mp hslot
    apply get_of_inSlot_idle.mpr
    rcases step_finish_cases hstep with rfl | ⟨h, r, _, _, rfl⟩
    · exact hnone
    · change (if r.requestId ≠ 0 then p.receiver.table.remove r.requestId
        else p.receiver.table).get k = none
      split
      · rw [OrderedMap.get_remove, hnone, ite_self]
      · exact hnone
  | held workers r =>
    obtain ⟨h, hget, hholds⟩ := hslot
    by_cases hw : worker ∈ workers
    · -- The request goes, also when other workers still have it.
      obtain ⟨hk, r₀, hr₀, hid, _⟩ := hi.entry k h (Except.ok.inj hget)
      obtain rfl := Option.some.inj (hr₀.symm.trans hholds.read)
      have hnone : p'.receiver.table.get k = none := by
        simp only [Proxy.step, hholds.running worker hw, hholds.read, cleanup_mapTable] at hstep
        obtain rfl := Except.ok.inj hstep
        simp only [Proxy.cleaned, hid, if_pos hk, OrderedMap.get_remove, ↓reduceIte]
      rw [Slot.finish, if_pos hw]
      exact get_of_inSlot_idle.mpr hnone
    · rw [Slot.finish, if_neg hw]
      refine ⟨h, ?_, hholds.finish_other hw hstep⟩
      rcases step_finish_cases hstep with rfl | ⟨h', r', hw', hr', rfl⟩
      · exact hget
      · have hne := hholds.ne_of_workOf hw' hw
        exact congrArg Except.ok (get_cleaned_of_ne hi hr' (Except.ok.inj hget) (Ne.symm hne))

/-- Every event moves the slot of every id. -/
theorem InSlot.step (hi : AccountInv p) (hslot : p.InSlot mapTable k slot) {e : Event}
    (hstep : p.step mapTable config e = .ok p') :
    ∃ slot', slot.Move config k e slot' ∧ p'.InSlot mapTable k slot' := by
  cases e with
  | packet d =>
    cases hk : d.carries k with
    | true =>
      obtain ⟨q, hq, hslot'⟩ := InSlot.packet config hi hslot hk
      obtain rfl := Except.ok.inj (hq.symm.trans hstep)
      refine ⟨_, ⟨p.nextWorker, ?_⟩, hslot'⟩
      rw [Slot.next, hk]
      rfl
    | false =>
      refine ⟨slot, ⟨0, by rw [Slot.next, hk]; rfl⟩, ?_⟩
      rcases ffProxyProcessIncomingPacket_cases d hi.entry.live with hrun | ⟨s₁, j, h, r, hp⟩
      · rw [Proxy.step, hrun] at hstep
        obtain rfl := Except.ok.inj hstep
        exact hslot
      · rw [Proxy.step, hp.run] at hstep
        obtain rfl := Except.ok.inj hstep
        exact InSlot.packet_other hi hslot hp hk _
  | work worker env stage =>
    obtain ⟨slot', hwork, hslot'⟩ := InSlot.work hslot hstep
    exact ⟨slot', ⟨0, hwork⟩, hslot'⟩
  | finish worker => exact ⟨_, ⟨0, rfl⟩, InSlot.finish hi hslot hstep⟩

end Moves

/-! ### Runs -/

/-- A run moves the slot of every id. -/
theorem run_inSlot {p p' : MapProxy} {config : Config} {k : UInt64} {slot : Slot} {es : List Event}
    (hi : AccountInv p) (hslot : p.InSlot mapTable k slot)
    (hrun : p.run mapTable config es = .ok p') :
    AccountInv p' ∧ ∃ slot', Moves (Slot.Move config k) slot es slot' ∧
      p'.InSlot mapTable k slot' := by
  have hstep : ∀ e ∈ es, ∀ (q q' : MapProxy) (slot : Slot), AccountInv q →
      q.InSlot mapTable k slot → q.step mapTable config e = .ok q' →
      AccountInv q' ∧ ∃ slot', slot.Move config k e slot' ∧ q'.InSlot mapTable k slot' :=
    fun _ _ _ _ _ hi hslot hstep ↦ ⟨(hi.step hstep).1, InSlot.step hi hslot hstep⟩
  exact Moves.of_foldlM hstep hi hslot hrun

section Transfer

variable {T T' : Type} {ops : RequestTable T} {ops' : RequestTable T'} {R : T → T' → Prop}
  {p : Proxy T} {p' : Proxy T'}

/-- What workers have does not depend on the table. -/
theorem Proxy.Holds.transfer (hp : p.Related R p') {workers : List Nat} {h : Nat} {r : Request}
    (hh : p'.Holds workers h r) : p.Holds workers h r where
  running w hw := by
    rw [Proxy.workOf, hp.finished, hp.receiver.dispatched]
    exact hh.running w hw
  alone := by
    rw [hp.receiver.dispatched]
    exact hh.alone
  read := by rw [hp.receiver.objects, hh.read]

/-- What is under an id does not depend on the table. -/
theorem Proxy.InSlot.transfer (hsim : TableSimulation ops ops' R) (hp : p.Related R p')
    {k : UInt64} {slot : Slot} (h : p'.InSlot ops' k slot) : p.InSlot ops k slot := by
  have hget := hsim.getItem k hp.receiver.table
  cases slot with
  | idle => exact hget.trans h
  | held workers r =>
    obtain ⟨h, hh, hholds⟩ := h
    exact ⟨h, hget.trans hh, hholds.transfer hp⟩

end Transfer

/-- In every run of the proxy, every id goes through the life of a request: what the proxy has
under the id is where the moves of its slot lead. -/
theorem proxy_refines_slots {table : HashTable Nat} (hinit : ffHashTableInit 16 = .ok table)
    {config : Config} {es : List Event} {p : Proxy (HashTable Nat)}
    (hrun : (Proxy.initial table).run hashTable config es = .ok p) (k : UInt64) :
    ∃ slot, Moves (Slot.Move config k) .idle es slot ∧ p.InSlot hashTable k slot := by
  obtain ⟨p', hrun', hp⟩ := (run_related hashTable_simulates_mapTable
    (initial_related (refines_empty hinit)) es).of_ok_left hrun
  have hidle : (Proxy.initial OrderedMap.empty).InSlot mapTable k .idle := rfl
  obtain ⟨_, slot, hmoves, hslot⟩ := run_inSlot .initial hidle hrun'
  exact ⟨slot, hmoves, hslot.transfer hashTable_simulates_mapTable hp⟩

theorem length_samplePacketBytes_le (k : UInt64) (data : Option UInt8) :
    (samplePacketBytes k 0 data.toList).length ≤ ffProxyBuffSize := by
  rw [samplePacketBytes, List.length_append, length_writeHeader]
  cases data <;> simp [requestHeaderSize, ffProxyBuffSize]

/-- A packet with the byte of a request, or with none. -/
def shortDatagram (k : UInt64) (data : Option UInt8) : Datagram :=
  sampleDatagram k 0 data.toList (length_samplePacketBytes_le k data)

/-- A packet without data that fits behind the one byte of a request. -/
def sampleLate : Datagram := sampleDatagram 9 1 [] (by decide)

/-- A request that comes in two packets. After a stage of its worker the first packet of another
request arrives, and a late one of its own that starts a second worker on it. The first worker
cleans up. -/
def sampleLife : List Event :=
  [.packet (shortDatagram 9 none), .packet (shortDatagram 9 (some 65)),
    .work 0 sampleEnvironment .vectorise, .packet (shortDatagram 10 none), .packet sampleLate,
    .work 1 sampleEnvironment .vectorise, .finish 0]

theorem proxy_refines_slots_sample : ∃ (table : HashTable Nat) (p : Proxy (HashTable Nat)),
    ffHashTableInit 16 = .ok table ∧
      (Proxy.initial table).run hashTable ⟨0, none⟩ sampleLife = .ok p ∧
      ∃ slot, Moves (Slot.Move ⟨0, none⟩ 9) .idle sampleLife slot ∧ p.InSlot hashTable 9 slot := by
  obtain ⟨table, hinit⟩ := exists_table
  obtain ⟨p', hrun'⟩ : ∃ p', (Proxy.initial OrderedMap.empty).run mapTable ⟨0, none⟩
      sampleLife = .ok p' := exists_ok_of_isSome (by decide +kernel)
  obtain ⟨p, hrun, _⟩ := (run_related hashTable_simulates_mapTable
    (initial_related (refines_empty hinit)) sampleLife).of_ok_right hrun'
  exact ⟨table, p, hinit, hrun, proxy_refines_slots hinit hrun 9⟩

end FfProxy
