import FfProxy.Server.ShortPackets
import FfProxy.Server.Source

/-!
# The receive loop

The loop of `ff_proxy_start`, `src/server.c:100–118`. All datagrams go through one buffer, and
an empty datagram ends the loop. What a datagram does to the requests by their ids is a small
machine of its own; the receiver refines it. In that machine a datagram touches the request
of one id only, so senders whose packets carry different ids do not see each other.
-/

namespace FfProxy
open Base

/-! ### Requests by id -/

/-- What the receiver knows, by request id. -/
abbrev Requests := UInt64 → Option Request

/-- What becomes of a request: it is dropped if it failed. -/
def kept (r : Request) : Option Request := if r.state = .receivingFail then none else some r

/-- The requests that are handed over: the parsed one if it is complete. -/
def handed (r : Request) : List Request := if r.state = .received then [r] else []

/-- What a datagram does to the requests, and which ones it hands over. -/
def deliver (v : Requests) (d : Datagram) : Requests × List Request :=
  if ffRequestIsRawHttp d.buffer then (v, handed (ffRequestParseChunk ffRequestAlloc d.buffer))
  else if ffRequestParseId d.buffer = 0 then (v, [])
  else
    let r := (v (ffRequestParseId d.buffer)).getD (newRequest d)
    if r.source ≠ d.source.val then (v, [])
    else (Function.update v (ffRequestParseId d.buffer) (kept (ffRequestParseChunk r d.buffer)),
      handed (ffRequestParseChunk r d.buffer))

/-- The requests in the table by their keys. -/
def MapReceiver.view (s : MapReceiver) : Requests := fun k ↦ (s.table.get k).bind s.objects.read

/-- The requests that were handed over on the way to a state, as they are in that state. -/
def handedOver {T : Type} (s s' : Receiver T) : List Request :=
  (s'.dispatched.drop s.dispatched.length).filterMap s'.objects.read

section Refinement

variable {s s₁ : MapReceiver} {d : Datagram} {k : UInt64} {h : Nat} {r : Request}

/-- Settling the parsed request changes what is known under its key. -/
private theorem view_settled (hi : TableInv s) (hp : Prepared s d s₁ k h r) (r' : Request) :
    (s₁.settled k h r').view = if k = 0 then s.view else Function.update s.view k (kept r') := by
  have hother (j : UInt64) (hj : k = 0 ∨ j ≠ k) : (s₁.settled k h r').view j = s.view j := by
    unfold MapReceiver.view
    rw [MapReceiver.get_settled, if_neg, hp.get_of_key_ne hj.symm]
    · cases hget : s.table.get j with
      | none => rfl
      | some h' =>
        have hne : h' ≠ h := by
          rintro rfl
          rw [← hp.get_of_key_ne hj.symm] at hget
          obtain ⟨rfl, hk⟩ := hp.key_eq hi.live (fun _ _ _ ↦ hi.injective) hget
          exact hj.elim hk fun hne ↦ hne rfl
        exact (MapReceiver.read_settled_of_ne _ _ _ _ hp.lt_next hne).trans (hp.read_of_ne hne)
    · rintro ⟨_, hk, rfl⟩
      exact hj.elim hk fun hne ↦ hne rfl
  funext j
  by_cases hk : k = 0
  · rw [if_pos hk, hother j (Or.inl hk)]
  rw [if_neg hk]
  by_cases hj : j = k
  · subst hj
    rw [Function.update_self, kept, MapReceiver.view, MapReceiver.get_settled]
    by_cases hf : r'.state = .receivingFail
    · rw [if_pos ⟨hf, hk, rfl⟩, if_pos hf]
      rfl
    · rw [if_neg fun hc ↦ hf hc.1, if_neg hf, hp.get_key hk, Option.bind_some]
      exact MapReceiver.read_settled_self _ _ _ _ hp.lt_next hf
  · rw [Function.update_of_ne hj, hother j (Or.inr hj)]

/-- The parsed request is handed over if it is complete. -/
private theorem handedOver_settled (hp : Prepared s d s₁ k h r) (r' : Request) :
    handedOver s (s₁.settled k h r') = handed r' := by
  rw [handedOver, MapReceiver.dispatched_settled, hp.dispatched_eq, List.drop_left, handed]
  split
  · next hs =>
    have hread := MapReceiver.read_settled_self s₁ k h r' hp.lt_next (by rw [hs]; simp)
    rw [List.filterMap_cons, hread]
    rfl
  · rfl

private theorem handedOver_self (s : MapReceiver) : handedOver s s = [] := by
  rw [handedOver, List.drop_length]
  rfl

/-- The receiver does to the requests by id what `deliver` says. -/
theorem deliver_refined (hi : TableInv s) (d : Datagram) :
    ∃ s' : MapReceiver, ffProxyProcessIncomingPacket mapTable s d = .ok s' ∧ TableInv s' ∧
      s'.view = (deliver s.view d).1 ∧ handedOver s s' = (deliver s.view d).2 := by
  obtain ⟨s', hrun, hi'⟩ := hi.step d
  refine ⟨s', hrun, hi', ?_⟩
  -- Ignored datagrams leave everything alone, parsed ones settle one request.
  have hignored (h : ffProxyProcessIncomingPacket mapTable s d = .ok s) :
      MapReceiver.view s' = s.view ∧ handedOver s s' = [] := by
    obtain rfl := Except.ok.inj (h.symm.trans hrun)
    exact ⟨rfl, handedOver_self s⟩
  have hparsed {s₁ k h r} (hp : Prepared s d s₁ k h r) :
      (MapReceiver.view s' = if k = 0 then s.view
        else Function.update s.view k (kept (ffRequestParseChunk r d.buffer))) ∧
      handedOver s s' = handed (ffRequestParseChunk r d.buffer) := by
    obtain rfl := Except.ok.inj (hp.run.symm.trans hrun)
    exact ⟨view_settled hi hp _, handedOver_settled hp _⟩
  unfold deliver
  cases hraw : ffRequestIsRawHttp d.buffer with
  | true => exact hparsed (.raw hraw)
  | false =>
    rw [if_neg Bool.false_ne_true]
    by_cases hid : ffRequestParseId d.buffer = 0
    · rw [if_pos hid]
      exact hignored (ignored_of_zero hraw hid)
    rw [if_neg hid]
    cases hget : s.table.get (ffRequestParseId d.buffer) with
    | none =>
      have hview : s.view (ffRequestParseId d.buffer) = none := by
        rw [MapReceiver.view, hget]
        rfl
      have hsource : ¬ (newRequest d).source ≠ d.source.val := not_not.mpr rfl
      obtain ⟨hv, hh⟩ := hparsed (.fresh hraw hid hget)
      rw [if_neg hid] at hv
      simp only [hview, Option.getD_none, if_neg hsource]
      exact ⟨hv, hh⟩
    | some h =>
      obtain ⟨r, hr, _⟩ := hi _ h hget
      have hview : s.view (ffRequestParseId d.buffer) = some r := by
        rw [MapReceiver.view, hget]
        exact hr
      simp only [hview, Option.getD_some]
      by_cases hsource : r.source = d.source.val
      · obtain ⟨hv, hh⟩ := hparsed (.known hraw hid hget hr hsource)
        rw [if_neg hid] at hv
        rw [if_neg (not_not.mpr hsource)]
        exact ⟨hv, hh⟩
      · rw [if_pos hsource]
        exact hignored (ignored_of_source hraw (congrArg _ hget) hr hsource)

end Refinement

/-! ### The loop -/

/-- A datagram on its way to the proxy. -/
structure Arrival where
  sender : SocketAddress
  data : List UInt8
  time : Int
  length_le : data.length ≤ ffProxyBuffSize

namespace Arrival

/-- `recvfrom` writes over the front of the buffer; `src/server.c:101`. -/
def fill (x : Arrival) (mem : Block ffProxyBuffSize) : Block ffProxyBuffSize :=
  ⟨x.data ++ mem.val.drop x.data.length, by
    rw [List.length_append, List.length_drop, mem.property]
    have := x.length_le
    omega⟩

/-- What `ff_proxy_process_incoming_packet` is called with. -/
def datagram (x : Arrival) (mem : Block ffProxyBuffSize) (h : 0 < x.data.length) : Datagram where
  source := x.sender.sockaddr
  buffer := ⟨(x.fill mem).val, x.data.length, by rw [(x.fill mem).property]; exact x.length_le⟩
  time := x.time
  block := (x.fill mem).property
  nonempty := h

/-- The bytes of the datagram alone. -/
def buffer (x : Arrival) : Buffer := Buffer.ofBytes x.data

/-- The bytes of the datagram are those that arrived, whatever the buffer held. -/
theorem bytes_datagram (x : Arrival) (mem : Block ffProxyBuffSize) (h : 0 < x.data.length) :
    (x.datagram mem h).buffer.bytes = x.buffer.bytes := by
  rw [buffer, Buffer.bytes_ofBytes]
  exact List.take_left

/-- Raw HTTP needs no id. -/
def IsRaw (x : Arrival) : Prop := ffRequestIsRawHttp x.buffer = true

/-- The datagram is long enough for the id of the packet it holds. -/
def CarriesId (x : Arrival) : Prop := ¬ x.IsRaw ∧ requestIdEnd ≤ x.data.length

instance (x : Arrival) : Decidable x.IsRaw := inferInstanceAs (Decidable (_ = true))

instance (x : Arrival) : Decidable x.CarriesId := inferInstanceAs (Decidable (_ ∧ _))

/-- The id in the datagram. -/
def requestId (x : Arrival) : UInt64 := ffRequestParseId x.buffer

theorem isRawHttp_datagram (x : Arrival) (mem : Block ffProxyBuffSize) (h : 0 < x.data.length) :
    ffRequestIsRawHttp (x.datagram mem h).buffer = true ↔ x.IsRaw := by
  rw [ffRequestIsRawHttp_of_bytes (x.bytes_datagram mem h), IsRaw]

theorem parseId_datagram {x : Arrival} (hx : x.CarriesId) (mem : Block ffProxyBuffSize)
    (h : 0 < x.data.length) : ffRequestParseId (x.datagram mem h).buffer = x.requestId :=
  parseId_of_bytes (x.bytes_datagram mem h) (Or.inr hx.2)

end Arrival

/-- The loop of `ff_proxy_start`, `src/server.c:100–118`: the requests that are handed over,
each with the sender of the datagram that completed it. An empty datagram ends the loop. -/
def receiveLoop {T : Type} (ops : RequestTable T) :
    Block ffProxyBuffSize → Receiver T → List Arrival →
      Except Fault (List (SocketAddress × Request))
  | _, _, [] => .ok []
  | mem, s, x :: rest =>
    if h : 0 < x.data.length then
      match ffProxyProcessIncomingPacket ops s (x.datagram mem h) with
      | .error fault => .error fault
      | .ok s' =>
        match receiveLoop ops (x.fill mem) s' rest with
        | .error fault => .error fault
        | .ok log => .ok ((handedOver s s').map (Prod.mk x.sender) ++ log)
    else .ok []

/-- The loop over requests by id. -/
def deliverLoop : Block ffProxyBuffSize → Requests → List Arrival → List (SocketAddress × Request)
  | _, _, [] => []
  | mem, v, x :: rest =>
    if h : 0 < x.data.length then
      (deliver v (x.datagram mem h)).2.map (Prod.mk x.sender) ++
        deliverLoop (x.fill mem) (deliver v (x.datagram mem h)).1 rest
    else []

/-- The receive loop does to the requests by id what the loop of `deliver` does. -/
theorem receiveLoop_mapTable {s : MapReceiver} (hi : TableInv s) (mem : Block ffProxyBuffSize)
    (arrivals : List Arrival) :
    receiveLoop mapTable mem s arrivals = .ok (deliverLoop mem s.view arrivals) := by
  induction arrivals generalizing mem s with
  | nil => rfl
  | cons x rest ih =>
    rw [receiveLoop, deliverLoop]
    split
    · next h =>
      obtain ⟨s', hrun, hi', hview, hhanded⟩ := deliver_refined hi (x.datagram mem h)
      rw [hrun]
      simp only [ih hi', hview, hhanded]
    · rfl

/-- The loop does the same over tables that behave alike. -/
theorem receiveLoop_related {T T' : Type} {ops : RequestTable T} {ops' : RequestTable T'}
    {R : T → T' → Prop} (hsim : TableSimulation ops ops' R) {s : Receiver T} {s' : Receiver T'}
    (hs : s.Related R s') (mem : Block ffProxyBuffSize) (arrivals : List Arrival) :
    receiveLoop ops mem s arrivals = receiveLoop ops' mem s' arrivals := by
  induction arrivals generalizing mem s s' with
  | nil => rfl
  | cons x rest ih =>
    rw [receiveLoop, receiveLoop]
    split
    · next h =>
      obtain ⟨u, u', hu, hu', hR⟩ | ⟨e, hu, hu'⟩ :=
        (ffProxyProcessIncomingPacket_related hsim hs (x.datagram mem h)).outcome
      · have hhanded : handedOver s u = handedOver s' u' := by
          rw [handedOver, handedOver, hs.dispatched, hR.dispatched, hR.objects]
        simp only [hu, hu', ih hR, hhanded]
      · simp only [hu, hu']
    · rfl

/-! ### Isolation -/

section Deliver

variable {v v' : Requests} {d d' : Datagram}

/-- A datagram touches the request of its id only. -/
theorem deliver_of_ne {j : UInt64} (hj : ffRequestIsRawHttp d.buffer = true ∨
    j ≠ ffRequestParseId d.buffer) : (deliver v d).1 j = v j := by
  unfold deliver
  split
  · rfl
  · next hraw =>
    split
    · rfl
    · dsimp only
      split
      · rfl
      · exact Function.update_of_ne (hj.resolve_left hraw) _ _

/-- What a datagram does depends on the request of its id only. -/
theorem deliver_congr (hv : ffRequestIsRawHttp d.buffer = false →
      v (ffRequestParseId d.buffer) = v' (ffRequestParseId d.buffer)) :
    (deliver v d).2 = (deliver v' d).2 ∧
      ∀ j, v j = v' j → (deliver v d).1 j = (deliver v' d).1 j := by
  unfold deliver
  cases hraw : ffRequestIsRawHttp d.buffer with
  | true => exact ⟨rfl, fun _ h ↦ h⟩
  | false =>
    rw [if_neg Bool.false_ne_true, if_neg Bool.false_ne_true, hv hraw]
    split
    · exact ⟨rfl, fun _ h ↦ h⟩
    · dsimp only
      split
      · exact ⟨rfl, fun _ h ↦ h⟩
      · refine ⟨rfl, fun j hj ↦ ?_⟩
        dsimp only
        by_cases hk : j = ffRequestParseId d.buffer
        · rw [hk, Function.update_self, Function.update_self]
        · rw [Function.update_of_ne hk, Function.update_of_ne hk, hj]

/-- Datagrams of the same sender, time and bytes do the same, if they are raw HTTP or long
enough for an id. -/
theorem deliver_of_bytes (hsource : d.source = d'.source) (htime : d.time = d'.time)
    (hbytes : d.buffer.bytes = d'.buffer.bytes)
    (h : ffRequestIsRawHttp d.buffer = true ∨ requestIdEnd ≤ d.buffer.size) :
    deliver v d = deliver v d' := by
  have hraw := ffRequestIsRawHttp_of_bytes hbytes
  have hid := parseId_of_bytes hbytes h
  have hnew : newRequest d = newRequest d' := by rw [newRequest, newRequest, hsource, htime]
  unfold deliver
  simp only [hraw, hid, hnew, hsource, ffRequestParseChunk_of_bytes _ hbytes]

/-- A request keeps the source of the datagram that made it. -/
theorem source_deliver {source : List UInt8} (hd : d.source.val = source) {j : UInt64}
    (hv : ∀ r, v j = some r → r.source = source) {r : Request}
    (hr : (deliver v d).1 j = some r) : r.source = source := by
  unfold deliver at hr
  split at hr
  · exact hv r hr
  · split at hr
    · exact hv r hr
    · dsimp only at hr
      split at hr
      · exact hv r hr
      · next hsource =>
        dsimp only at hr
        by_cases hj : j = ffRequestParseId d.buffer
        · rw [hj, Function.update_self, kept] at hr
          split at hr
          · cases hr
          · rw [← Option.some.inj hr, ffRequestParseChunk_source, not_not.mp hsource, hd]
        · rw [Function.update_of_ne hj] at hr
          exact hv r hr

/-- A short datagram changes nothing unless its id names a request of its source. -/
theorem deliver_of_short (hraw : ffRequestIsRawHttp d.buffer = false)
    (hshort : d.buffer.size < requestHeaderSize)
    (hv : ∀ r, v (ffRequestParseId d.buffer) = some r → r.source ≠ d.source.val) :
    (deliver v d).1 = v := by
  unfold deliver
  rw [hraw, if_neg Bool.false_ne_true]
  split
  · rfl
  · dsimp only
    cases hk : v (ffRequestParseId d.buffer) with
    | none =>
      split
      · rfl
      · rw [kept, if_pos (ffRequestParseChunk_of_short _ hraw hshort), ← hk,
          Function.update_eq_self]
    | some r => rw [Option.getD_some, if_pos (hv r hk)]

end Deliver

/-- Two views agree on the requests of the ids in `K`, and these have the given source. -/
def Agree (K : UInt64 → Prop) (source : List UInt8) (v v' : Requests) : Prop :=
  ∀ k, K k → v k = v' k ∧ ∀ r, v k = some r → r.source = source

section Loop

variable {K : UInt64 → Prop} {a b : SocketAddress} {v v' : Requests} {x : Arrival}

/-- A datagram of the sender does the same in both runs. -/
private theorem deliver_agree (hv : Agree K a.sockaddr.val v v') (hx : x.sender = a)
    (hown : x.IsRaw ∨ x.CarriesId ∧ K x.requestId) (mem mem' : Block ffProxyBuffSize)
    (h : 0 < x.data.length) :
    (deliver v (x.datagram mem h)).2 = (deliver v' (x.datagram mem' h)).2 ∧
      Agree K a.sockaddr.val (deliver v (x.datagram mem h)).1
        (deliver v' (x.datagram mem' h)).1 := by
  have hlong : ffRequestIsRawHttp (x.datagram mem' h).buffer = true ∨
      requestIdEnd ≤ (x.datagram mem' h).buffer.size :=
    hown.imp (x.isRawHttp_datagram mem' h).mpr fun hc ↦ hc.1.2
  have hsame : deliver v' (x.datagram mem' h) = deliver v' (x.datagram mem h) :=
    deliver_of_bytes rfl rfl ((x.bytes_datagram mem' h).trans (x.bytes_datagram mem h).symm) hlong
  have hkey : ffRequestIsRawHttp (x.datagram mem h).buffer = false →
      v (ffRequestParseId (x.datagram mem h).buffer) =
        v' (ffRequestParseId (x.datagram mem h).buffer) := by
    intro hraw
    rcases hown with hr | ⟨hc, hK⟩
    · rw [(x.isRawHttp_datagram mem h).mpr hr] at hraw
      cases hraw
    · rw [Arrival.parseId_datagram hc]
      exact (hv _ hK).1
  obtain ⟨hlog, hview⟩ := deliver_congr hkey
  rw [hsame]
  refine ⟨hlog, fun k hK ↦ ⟨hview k (hv k hK).1, fun r hr ↦ ?_⟩⟩
  exact source_deliver (congrArg (fun s : SocketAddress ↦ s.sockaddr.val) hx) (hv k hK).2 hr

/-- A datagram of the other sender does nothing to the requests of `K`. -/
private theorem agree_of_other (hv : Agree K a.sockaddr.val v v') (hx : x.sender = b)
    (hother : x.IsRaw ∨ (x.CarriesId ∧ ¬ K x.requestId) ∨
      (¬ x.CarriesId ∧ a.sockaddr ≠ b.sockaddr))
    (mem : Block ffProxyBuffSize) (h : 0 < x.data.length) :
    Agree K a.sockaddr.val (deliver v (x.datagram mem h)).1 v' := by
  have hkeep : (∀ k, K k → (deliver v (x.datagram mem h)).1 k = v k) →
      Agree K a.sockaddr.val (deliver v (x.datagram mem h)).1 v' := by
    intro hk k hK
    rw [hk k hK]
    exact hv k hK
  apply hkeep
  intro k hK
  by_cases hraw : x.IsRaw
  · exact deliver_of_ne (Or.inl ((x.isRawHttp_datagram mem h).mpr hraw))
  rcases hother.resolve_left hraw with ⟨hc, hid⟩ | ⟨hc, hne⟩
  · apply deliver_of_ne
    right
    rw [Arrival.parseId_datagram hc]
    rintro rfl
    exact hid hK
  · have hshort : x.data.length < requestIdEnd := by
      by_contra hlong
      exact hc ⟨hraw, Nat.not_lt.mp hlong⟩
    by_cases hkey : k = ffRequestParseId (x.datagram mem h).buffer
    · rw [deliver_of_short]
      · rw [← Bool.not_eq_true, x.isRawHttp_datagram mem h]
        exact hraw
      · exact Nat.lt_trans hshort (by decide)
      · intro r hr
        rw [(hv k hK).2 r (by rw [hkey]; exact hr)]
        intro heq
        apply hne
        rw [← hx]
        exact Subtype.ext heq
    · exact deliver_of_ne (Or.inr hkey)

/-- The loop hands over the same requests of one sender with and without the datagrams of the
other. -/
private theorem deliverLoop_filter (hne : a ≠ b) (arrivals : List Arrival)
    (hsenders : ∀ x ∈ arrivals, x.sender = a ∨ x.sender = b)
    (hown : ∀ x ∈ arrivals, x.sender = a → x.data = [] ∨ x.IsRaw ∨ x.CarriesId ∧ K x.requestId)
    (hother : ∀ x ∈ arrivals, x.sender = b → x.data ≠ [] ∧
      (x.IsRaw ∨ (x.CarriesId ∧ ¬ K x.requestId) ∨ (¬ x.CarriesId ∧ a.sockaddr ≠ b.sockaddr)))
    (hv : Agree K a.sockaddr.val v v') (mem mem' : Block ffProxyBuffSize) :
    (deliverLoop mem v arrivals).filter (fun e ↦ e.1 = a) =
      (deliverLoop mem' v' (arrivals.filter fun x ↦ x.sender ≠ b)).filter (fun e ↦ e.1 = a) := by
  induction arrivals generalizing v v' mem mem' with
  | nil => rfl
  | cons x rest ih =>
    have ih' {v v' : Requests} (hv : Agree K a.sockaddr.val v v') (mem mem') :=
      ih (fun y hy ↦ hsenders y (by simp [hy])) (fun y hy ↦ hown y (by simp [hy]))
        (fun y hy ↦ hother y (by simp [hy])) hv mem mem'
    rcases hsenders x (by simp) with hx | hx
    · have hxb : decide (x.sender ≠ b) = true := decide_eq_true (by rw [hx]; exact hne)
      rw [List.filter_cons, if_pos hxb, deliverLoop, deliverLoop]
      by_cases h : 0 < x.data.length
      · have hdata : x.data ≠ [] := List.ne_nil_of_length_pos h
        obtain ⟨hlog, hagree⟩ :=
          deliver_agree hv hx ((hown x (by simp) hx).resolve_left hdata) mem mem' h
        rw [dif_pos h, dif_pos h, List.filter_append, List.filter_append, hlog, ih' hagree]
      · rw [dif_neg h, dif_neg h]
    · have hxb : ¬ decide (x.sender ≠ b) = true := by simp [hx]
      obtain ⟨hdata, hcases⟩ := hother x (by simp) hx
      have h : 0 < x.data.length := List.length_pos_iff.mpr hdata
      have hnone : ((deliver v (x.datagram mem h)).2.map (Prod.mk x.sender)).filter
          (fun e ↦ e.1 = a) = [] := by
        rw [List.filter_eq_nil_iff]
        intro e he
        obtain ⟨r, _, rfl⟩ := List.mem_map.mp he
        simp [hx, hne.symm]
      rw [List.filter_cons, if_neg hxb, deliverLoop, dif_pos h, List.filter_append, hnone,
        List.nil_append]
      exact ih' (agree_of_other hv hx hcases mem h) _ mem'

end Loop

/-- The datagrams of two senders in any order. Where a packet of one and a packet of the other
carry ids, these differ. -/
structure Interleaving (a b : SocketAddress) (arrivals : List Arrival) : Prop where
  senders : ∀ x ∈ arrivals, x.sender = a ∨ x.sender = b
  ids : ∀ x ∈ arrivals, ∀ y ∈ arrivals, x.sender = a → y.sender = b →
    x.CarriesId → y.CarriesId → x.requestId ≠ y.requestId

/-- The loop hands over the same requests for `a`, in the same order, whether or not the
datagrams of `b` arrive. -/
def Isolated {T : Type} (ops : RequestTable T) (table : T) (mem : Block ffProxyBuffSize)
    (a b : SocketAddress) (arrivals : List Arrival) : Prop :=
  ∃ log log', receiveLoop ops mem (Receiver.initial table) arrivals = .ok log ∧
    receiveLoop ops mem (Receiver.initial table) (arrivals.filter fun x ↦ x.sender ≠ b) =
      .ok log' ∧
    log.filter (fun e ↦ e.1 = a) = log'.filter (fun e ↦ e.1 = a)

/-- No datagram of `b` is empty. Apart from raw HTTP, all datagrams of `a` that are not empty
are long enough for an id, and so are those of `b` if the proxy takes `b` for `a`. -/
structure Undisturbed (a b : SocketAddress) (arrivals : List Arrival) : Prop where
  nonempty : ∀ y ∈ arrivals, y.sender = b → y.data ≠ []
  own : ∀ x ∈ arrivals, x.sender = a → x.data = [] ∨ x.IsRaw ∨ requestIdEnd ≤ x.data.length
  other : a.sockaddr ≠ b.sockaddr ∨
    ∀ y ∈ arrivals, y.sender = b → y.IsRaw ∨ requestIdEnd ≤ y.data.length

/-- The loop of the proxy, from its empty table on. -/
private theorem receiveLoop_hashTable {table : HashTable Nat}
    (hinit : ffHashTableInit 16 = .ok table) (mem : Block ffProxyBuffSize) (xs : List Arrival) :
    receiveLoop hashTable mem (Receiver.initial table) xs =
      .ok (deliverLoop mem (fun _ ↦ none) xs) := by
  rw [receiveLoop_related hashTable_simulates_mapTable (receiver_initial (refines_empty hinit)),
    receiveLoop_mapTable .initial]
  rfl

/-- Under these conditions the requests of a sender do not depend on another sender. -/
theorem isolated_of_undisturbed {table : HashTable Nat} (hinit : ffHashTableInit 16 = .ok table)
    (mem : Block ffProxyBuffSize) {a b : SocketAddress} (hne : a ≠ b) {arrivals : List Arrival}
    (hi : Interleaving a b arrivals) (hu : Undisturbed a b arrivals) :
    Isolated hashTable table mem a b arrivals := by
  let K : UInt64 → Prop := fun k ↦
    ∃ x ∈ arrivals, x.sender = a ∧ x.CarriesId ∧ x.requestId = k
  refine ⟨_, _, receiveLoop_hashTable hinit mem _, receiveLoop_hashTable hinit mem _, ?_⟩
  apply deliverLoop_filter (K := K) hne arrivals hi.senders
  · intro x hx hsender
    rcases hu.own x hx hsender with h | h | h
    · exact Or.inl h
    · exact Or.inr (Or.inl h)
    · by_cases hraw : x.IsRaw
      · exact Or.inr (Or.inl hraw)
      · exact Or.inr (Or.inr ⟨⟨hraw, h⟩, x, hx, hsender, ⟨hraw, h⟩, rfl⟩)
  · intro y hy hsender
    refine ⟨hu.nonempty y hy hsender, ?_⟩
    by_cases hraw : y.IsRaw
    · exact Or.inl hraw
    by_cases hc : y.CarriesId
    · refine Or.inr (Or.inl ⟨hc, ?_⟩)
      rintro ⟨x, hx, hxs, hxc, hid⟩
      exact hi.ids x hx y hy hxs hsender hxc hc hid
    · refine Or.inr (Or.inr ⟨hc, hu.other.resolve_right fun h ↦ ?_⟩)
      exact hc ⟨hraw, (h y hy hsender).resolve_left hraw⟩
  · intro k _
    exact ⟨rfl, fun r hr ↦ by cases hr⟩

/-- A sender on the local host. -/
def sampleSender (port : UInt16) : SocketAddress := .inet port ⟨[127, 0, 0, 1], rfl⟩

/-- A receive buffer of zeros. -/
def zeroMemory : Block ffProxyBuffSize := ⟨List.replicate ffProxyBuffSize 0, List.length_replicate⟩

/-- Two senders with a request each. -/
theorem isolated_two_senders : ∃ table : HashTable Nat, ffHashTableInit 16 = .ok table ∧
    Isolated hashTable table zeroMemory (sampleSender 5000) (sampleSender 5001)
      [⟨sampleSender 5001, samplePacketBytes 10 0 [66], 0, by decide⟩,
        ⟨sampleSender 5000, samplePacketBytes 9 0 [65], 0, by decide⟩] := by
  obtain ⟨table, hinit⟩ := exists_table
  refine ⟨table, hinit, isolated_of_undisturbed hinit _ (by decide) ?_ ?_⟩
  · exact ⟨by decide, by decide⟩
  · exact ⟨by decide, by decide, Or.inl (by decide)⟩

/-- An empty datagram of one sender ends the loop, and the other sender is not served. -/
theorem not_isolated_empty_datagram : ∃ table : HashTable Nat, ffHashTableInit 16 = .ok table ∧
    Interleaving (sampleSender 5000) (sampleSender 5001)
      [⟨sampleSender 5001, [], 0, by decide⟩,
        ⟨sampleSender 5000, ascii ['G', 'E', 'T'], 0, by decide⟩] ∧
    ¬ Isolated hashTable table zeroMemory (sampleSender 5000) (sampleSender 5001)
      [⟨sampleSender 5001, [], 0, by decide⟩,
        ⟨sampleSender 5000, ascii ['G', 'E', 'T'], 0, by decide⟩] := by
  obtain ⟨table, hinit⟩ := exists_table
  refine ⟨table, hinit, ⟨by decide, by decide⟩, ?_⟩
  rintro ⟨log, log', hrun, hrun', heq⟩
  rw [receiveLoop_hashTable hinit] at hrun hrun'
  rw [← Except.ok.inj hrun, ← Except.ok.inj hrun'] at heq
  exact absurd (congrArg List.length heq) (by decide)

end FfProxy
