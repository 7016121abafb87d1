import FfProxy.Base.Heap
import FfProxy.Base.OrderedMap
import FfProxy.Parser.Reassembly

/-!
# The receiver

`ff_proxy_process_incoming_packet`, `src/server.c:125–205`. Request objects live in memory
and the table maps request ids to their addresses. The receiver is written over any
implementation of the table; its invariants are proved over insertion-ordered maps, and
two implementations that behave alike make receivers that behave alike.
-/

namespace FfProxy
open Base

/-- `FF_PROXY_BUFF_SIZE`, `src/server.c:21`. -/
def ffProxyBuffSize : Nat := 2000

/-- A datagram as the receiver is handed it: the sender's address, the receive buffer with
what earlier datagrams left behind it, and the time. -/
structure Datagram where
  source : Block sockaddrSize
  buffer : Buffer
  time : Int
  block : buffer.mem.length = ffProxyBuffSize
  nonempty : 0 < buffer.size

/-- The table operations that the receiver uses, `src/hash_table.h`; values are addresses of
requests. -/
structure RequestTable (T : Type) where
  getItem : T → UInt64 → Except Fault (Option Nat)
  putItem : T → UInt64 → Nat → Except Fault T
  removeItem : T → UInt64 → Except Fault T

/-- The state of the proxy that packets change: the requests in memory, the table, and the
requests handed to a worker so far. -/
structure Receiver (T : Type) where
  objects : Heap Request
  table : T
  dispatched : List Nat

/-- The receiver before the first packet. -/
def Receiver.initial {T : Type} (table : T) : Receiver T := ⟨Heap.empty, table, []⟩

section Model

variable {T : Type} (ops : RequestTable T)

/-- What the receiver does with a request after parsing, `src/server.c:170–201`. -/
def settle (s : Receiver T) (requestId : UInt64) (h : Nat) (r : Request) :
    Except Fault (Receiver T) :=
  match r.state with
  | .receiving => .ok { s with objects := s.objects.write h r }
  | .receivingFail =>
    if requestId ≠ 0 then
      match ops.removeItem s.table requestId with
      | .error fault => .error fault
      | .ok table => .ok { s with table := table, objects := s.objects.free h }
    else .ok { s with objects := s.objects.free h }
  | .received => .ok { s with
      objects := s.objects.write h r
      dispatched := s.dispatched ++ [h] }
  | _ => .ok { s with objects := s.objects.write h r }

/-- The source check and the parser call, `src/server.c:161–167`. -/
def receiveChunk (s : Receiver T) (requestId : UInt64) (h : Nat) (d : Datagram) :
    Except Fault (Receiver T) :=
  match s.objects.read h with
  | none => .error .useAfterFree
  | some r =>
    if r.source ≠ d.source.val then .ok s
    else settle ops s requestId h (ffRequestParseChunk r d.buffer)

/-- The request that a first packet makes, `src/server.c:155–157`. -/
def newRequest (d : Datagram) : Request :=
  { ffRequestAlloc with receivedAt := d.time, source := d.source.val }

/-- `ff_proxy_process_incoming_packet`, `src/server.c:125–205`. -/
def ffProxyProcessIncomingPacket (s : Receiver T) (d : Datagram) : Except Fault (Receiver T) :=
  if ffRequestIsRawHttp d.buffer then
    settle ops { s with objects := s.objects.alloc ffRequestAlloc } 0 s.objects.next
      (ffRequestParseChunk ffRequestAlloc d.buffer)
  else
    let requestId := ffRequestParseId d.buffer
    if requestId = 0 then .ok s
    else
      match ops.getItem s.table requestId with
      | .error fault => .error fault
      | .ok (some h) => receiveChunk ops s requestId h d
      | .ok none =>
        match ops.putItem s.table requestId s.objects.next with
        | .error fault => .error fault
        | .ok table =>
          receiveChunk ops { s with
            table := table
            objects := s.objects.alloc (newRequest d) } requestId s.objects.next d

/-- A sequence of datagrams. -/
def processIncomingPackets (s : Receiver T) : List Datagram → Except Fault (Receiver T)
  | [] => .ok s
  | d :: ds =>
    match ffProxyProcessIncomingPacket ops s d with
    | .error fault => .error fault
    | .ok s => processIncomingPackets s ds

variable {ops} in
/-- A run can be cut anywhere. -/
theorem processIncomingPackets_append {s s₁ : Receiver T} {ds : List Datagram}
    (hrun : processIncomingPackets ops s ds = .ok s₁) (ds' : List Datagram) :
    processIncomingPackets ops s (ds ++ ds') = processIncomingPackets ops s₁ ds' := by
  induction ds generalizing s with
  | nil => rw [← Except.ok.inj (hrun : Except.ok s = Except.ok s₁), List.nil_append]
  | cons d ds ih =>
    rw [processIncomingPackets] at hrun
    rw [List.cons_append, processIncomingPackets]
    split at hrun
    · cases hrun
    · exact ih hrun

end Model

section Ignored

variable {T : Type} {ops : RequestTable T} {s : Receiver T} {d : Datagram}

/-- A datagram with id 0 is ignored. -/
theorem ignored_of_zero (hraw : ffRequestIsRawHttp d.buffer = false)
    (hid : ffRequestParseId d.buffer = 0) : ffProxyProcessIncomingPacket ops s d = .ok s := by
  rw [ffProxyProcessIncomingPacket, hraw]
  exact if_pos hid

/-- A datagram for a request of another source is ignored. -/
theorem ignored_of_source (hraw : ffRequestIsRawHttp d.buffer = false) {h : Nat} {r : Request}
    (hget : ops.getItem s.table (ffRequestParseId d.buffer) = .ok (some h))
    (hread : s.objects.read h = some r) (hsource : r.source ≠ d.source.val) :
    ffProxyProcessIncomingPacket ops s d = .ok s := by
  unfold ffProxyProcessIncomingPacket
  simp only [hraw, Bool.false_eq_true, ↓reduceIte, hget, receiveChunk, hread, if_pos hsource]
  exact ite_self _

end Ignored

/-! ### Over any table -/

section AnyTable

variable {T : Type}

/-- What becomes of a parsed request. -/
inductive SettledAs (s : Receiver T) (h : Nat) (r : Request) : Receiver T → Prop
  | kept : SettledAs s h r { s with objects := s.objects.write h r }
  | released (table : T) : SettledAs s h r { s with table := table, objects := s.objects.free h }
  | handedOver (hs : r.state = .received) :
      SettledAs s h r { s with
        objects := s.objects.write h r
        dispatched := s.dispatched ++ [h] }

/-- The request that a datagram is parsed into, and the receiver just before the parser call. -/
inductive Fetched (s : Receiver T) (d : Datagram) : Receiver T → Nat → Request → Prop
  | made (table : T) {r : Request}
      (hsource : ffRequestIsRawHttp d.buffer = false → r.source = d.source.val) :
      Fetched s d { s with table := table, objects := s.objects.alloc r } s.objects.next r
  | found {h : Nat} {r : Request} (hread : s.objects.read h = some r) : Fetched s d s h r

variable {ops : RequestTable T} {s s₁ s' : Receiver T} {d : Datagram} {h : Nat} {r : Request}

theorem settles_of_settle {requestId : UInt64} (hrun : settle ops s requestId h r = .ok s') :
    SettledAs s h r s' := by
  unfold settle at hrun
  split at hrun
  · cases hrun
    exact .kept
  · split at hrun
    · split at hrun
      · cases hrun
      · cases hrun
        exact .released _
    · cases hrun
      exact .released _
  · next hs =>
    cases hrun
    exact .handedOver hs
  · cases hrun
    exact .kept

/-- A datagram of another source changes nothing. -/
private theorem settles_of_receiveChunk {requestId : UInt64}
    (hrun : receiveChunk ops s requestId h d = .ok s') :
    ∃ r, s.objects.read h = some r ∧
      (r.source ≠ d.source.val ∧ s' = s ∨ SettledAs s h (ffRequestParseChunk r d.buffer) s') := by
  unfold receiveChunk at hrun
  split at hrun
  · cases hrun
  · next r hread =>
    refine ⟨r, hread, ?_⟩
    split at hrun
    · next hsource => exact .inl ⟨hsource, (Except.ok.inj hrun).symm⟩
    · exact .inr (settles_of_settle hrun)

/-- Everything a datagram can do: it is ignored, or parsed into one request that is then
settled. -/
theorem fetched_of_packet (hrun : ffProxyProcessIncomingPacket ops s d = .ok s') :
    s' = s ∨ ∃ s₁ h r, Fetched s d s₁ h r ∧ SettledAs s₁ h (ffRequestParseChunk r d.buffer) s' := by
  unfold ffProxyProcessIncomingPacket at hrun
  dsimp only at hrun
  split at hrun
  · next hraw =>
    have hsource : ffRequestIsRawHttp d.buffer = false →
        ffRequestAlloc.source = d.source.val := fun hnot ↦ by
      rw [hraw] at hnot
      cases hnot
    exact .inr ⟨_, _, _, .made s.table hsource, settles_of_settle hrun⟩
  · split at hrun
    · exact .inl (Except.ok.inj hrun).symm
    · split at hrun
      · cases hrun
      · obtain ⟨r, hread, ⟨_, rfl⟩ | hsettles⟩ := settles_of_receiveChunk hrun
        · exact .inl rfl
        · exact .inr ⟨_, _, r, .found hread, hsettles⟩
      · split at hrun
        · cases hrun
        · next table _ =>
          obtain ⟨r, hread, hrest⟩ := settles_of_receiveChunk hrun
          rw [Heap.read_alloc, if_pos rfl] at hread
          cases hread
          rcases hrest with ⟨hsource, _⟩ | hsettles
          · exact absurd rfl hsource
          · exact .inr ⟨_, _, _, .made table fun _ ↦ rfl, hsettles⟩

/-- The request is in memory. -/
theorem Fetched.read (hf : Fetched s d s₁ h r) : s₁.objects.read h = some r := by
  cases hf with
  | made table _ => rw [Heap.read_alloc, if_pos rfl]
  | found hread => exact hread

/-- Nothing is handed over yet. -/
theorem Fetched.dispatched_eq (hf : Fetched s d s₁ h r) : s₁.dispatched = s.dispatched := by
  cases hf with
  | made table _ => rfl
  | found _ => rfl

/-- Settling a request makes no other. -/
theorem SettledAs.next_eq (hsettles : SettledAs s h r s') : s'.objects.next = s.objects.next := by
  cases hsettles with
  | kept => simp
  | released table => simp
  | handedOver _ => simp

end AnyTable

/-! ### Over ordered maps -/

/-- The table as an insertion-ordered map. -/
def mapTable : RequestTable (OrderedMap UInt64 Nat) where
  getItem t k := .ok (t.get k)
  putItem t k h := .ok (t.put k h)
  removeItem t k := .ok (t.remove k)

/-- A receiver whose table is a map. -/
abbrev MapReceiver := Receiver (OrderedMap UInt64 Nat)

/-- The outcome of `settle` on a map. -/
def MapReceiver.settled (s : MapReceiver) (k : UInt64) (h : Nat) (r : Request) : MapReceiver where
  objects := if r.state = .receivingFail then s.objects.free h else s.objects.write h r
  table := if r.state = .receivingFail ∧ k ≠ 0 then s.table.remove k else s.table
  dispatched := if r.state = .received then s.dispatched ++ [h] else s.dispatched

theorem settle_mapTable (s : MapReceiver) (k : UInt64) (h : Nat) (r : Request) :
    settle mapTable s k h r = .ok (s.settled k h r) := by
  unfold settle MapReceiver.settled
  cases hs : r.state
  case receivingFail => by_cases hk : k = 0 <;> simp [mapTable, hk]
  all_goals simp

/-- The request that a datagram is parsed into: its key, its address, its contents, and the
receiver just before the parser call. -/
inductive Prepared (s : MapReceiver) (d : Datagram) :
    MapReceiver → UInt64 → Nat → Request → Prop
  | raw : ffRequestIsRawHttp d.buffer = true →
      Prepared s d { s with objects := s.objects.alloc ffRequestAlloc } 0 s.objects.next
        ffRequestAlloc
  | fresh : ffRequestIsRawHttp d.buffer = false → ffRequestParseId d.buffer ≠ 0 →
      s.table.get (ffRequestParseId d.buffer) = none →
      Prepared s d { s with
          table := s.table.put (ffRequestParseId d.buffer) s.objects.next
          objects := s.objects.alloc (newRequest d) }
        (ffRequestParseId d.buffer) s.objects.next (newRequest d)
  | known {h : Nat} {r : Request} : ffRequestIsRawHttp d.buffer = false →
      ffRequestParseId d.buffer ≠ 0 → s.table.get (ffRequestParseId d.buffer) = some h →
      s.objects.read h = some r → r.source = d.source.val →
      Prepared s d s (ffRequestParseId d.buffer) h r

/-- The datagram is parsed into that request, which is then settled. -/
theorem Prepared.run {s s₁ : MapReceiver} {d : Datagram} {k : UInt64} {h : Nat} {r : Request}
    (hp : Prepared s d s₁ k h r) :
    ffProxyProcessIncomingPacket mapTable s d =
      .ok (s₁.settled k h (ffRequestParseChunk r d.buffer)) := by
  unfold ffProxyProcessIncomingPacket
  cases hp with
  | raw hraw => rw [if_pos hraw, settle_mapTable]
  | fresh hraw hid hget =>
    have hread : (s.objects.alloc (newRequest d)).read s.objects.next = some (newRequest d) := by
      rw [Heap.read_alloc, if_pos rfl]
    have hsource : (newRequest d).source = d.source.val := rfl
    simp only [hraw, Bool.false_eq_true, ↓reduceIte, if_neg hid, mapTable, hget, receiveChunk,
      hread, hsource, ne_eq, not_true_eq_false]
    exact settle_mapTable _ _ _ _
  | known hraw hid hget hread hsource =>
    simp only [hraw, Bool.false_eq_true, ↓reduceIte, if_neg hid, mapTable, hget, receiveChunk,
      hread, hsource, ne_eq, not_true_eq_false]
    exact settle_mapTable _ _ _ _

/-- Everything a datagram can do while all requests in the table are live: it is ignored, or
parsed into one request that is then settled. -/
theorem ffProxyProcessIncomingPacket_cases {s : MapReceiver} (d : Datagram)
    (hlive : ∀ k h, s.table.get k = some h → (s.objects.read h).isSome) :
    ffProxyProcessIncomingPacket mapTable s d = .ok s ∨
      ∃ s₁ k h r, Prepared s d s₁ k h r := by
  cases hraw : ffRequestIsRawHttp d.buffer with
  | true => exact Or.inr ⟨_, _, _, _, .raw hraw⟩
  | false =>
    by_cases hid : ffRequestParseId d.buffer = 0
    · exact Or.inl (ignored_of_zero hraw hid)
    · cases hget : s.table.get (ffRequestParseId d.buffer) with
      | none => exact Or.inr ⟨_, _, _, _, .fresh hraw hid hget⟩
      | some h =>
        obtain ⟨r, hr⟩ := Option.isSome_iff_exists.mp (hlive _ _ hget)
        by_cases hsource : r.source = d.source.val
        · exact Or.inr ⟨_, _, _, _, .known hraw hid hget hr hsource⟩
        · exact Or.inl (ignored_of_source hraw (congrArg _ hget) hr hsource)

namespace Prepared

variable {s s₁ : MapReceiver} {d : Datagram} {k : UInt64} {h : Nat} {r : Request}

/-- The request is in memory. -/
theorem lt_next (hp : Prepared s d s₁ k h r) : h < s₁.objects.next := by
  cases hp with
  | raw => simp
  | fresh => simp
  | known _ _ _ hread => exact Heap.lt_next_of_read hread

/-- No address is given up. -/
theorem next_le (hp : Prepared s d s₁ k h r) : s.objects.next ≤ s₁.objects.next := by
  cases hp with
  | raw => simp
  | fresh => simp
  | known => exact Nat.le_refl _

/-- Nothing is handed over yet. -/
theorem dispatched_eq (hp : Prepared s d s₁ k h r) : s₁.dispatched = s.dispatched := by
  cases hp <;> rfl

/-- Other requests are untouched. -/
theorem read_of_ne (hp : Prepared s d s₁ k h r) {h' : Nat} (hne : h' ≠ h) :
    s₁.objects.read h' = s.objects.read h' := by
  cases hp with
  | raw => rw [Heap.read_alloc, if_neg hne]
  | fresh => rw [Heap.read_alloc, if_neg hne]
  | known => rfl

/-- Entries of other requests are old. -/
theorem get_of_ne (hp : Prepared s d s₁ k h r) {j : UInt64} {h' : Nat} (hne : h' ≠ h)
    (hget : s₁.table.get j = some h') : s.table.get j = some h' := by
  cases hp with
  | raw => exact hget
  | fresh =>
    rw [OrderedMap.get_put] at hget
    split at hget
    · exact absurd (Option.some.inj hget).symm hne
    · exact hget
  | known => exact hget

/-- The entries that are there stay. -/
theorem get_of_get (hp : Prepared s d s₁ k h r) {j : UInt64} {h' : Nat}
    (hget : s.table.get j = some h') : s₁.table.get j = some h' := by
  cases hp with
  | raw => exact hget
  | fresh _ _ hnone =>
    rw [OrderedMap.get_put, if_neg, hget]
    rintro rfl
    rw [hget] at hnone
    cases hnone
  | known => exact hget

/-- A request with a key has an entry. -/
theorem get_key (hp : Prepared s d s₁ k h r) (hk : k ≠ 0) : s₁.table.get k = some h := by
  cases hp with
  | raw => exact absurd rfl hk
  | fresh => rw [OrderedMap.get_put, if_pos rfl]
  | known _ _ hget => exact hget

/-- Entries under other keys stay. -/
theorem get_of_key_ne (hp : Prepared s d s₁ k h r) {j : UInt64} (hj : j ≠ k ∨ k = 0) :
    s₁.table.get j = s.table.get j := by
  cases hp with
  | raw => rfl
  | fresh _ hid => rw [OrderedMap.get_put, if_neg (hj.resolve_right hid)]
  | known => rfl

/-- An entry of the request has its key, if entries are live and no request has two. -/
theorem key_eq (hp : Prepared s d s₁ k h r)
    (hlive : ∀ j h', s.table.get j = some h' → (s.objects.read h').isSome)
    (hinj : ∀ i j h', s.table.get i = some h' → s.table.get j = some h' → i = j) {j : UInt64}
    (hget : s₁.table.get j = some h) : j = k ∧ k ≠ 0 := by
  have hnext : s.table.get j ≠ some s.objects.next := fun hj ↦ by
    have := hlive j _ hj
    rw [s.objects.read_next] at this
    cases this
  cases hp with
  | raw => exact absurd hget hnext
  | fresh _ hid =>
    rw [OrderedMap.get_put] at hget
    split at hget
    · next hjk => exact ⟨hjk, hid⟩
    · exact absurd hget hnext
  | known _ hid hk => exact ⟨hinj j _ _ hget hk, hid⟩

end Prepared

namespace MapReceiver

variable (s : MapReceiver) (k : UInt64) (h : Nat) (r : Request)

/-- Settling a request leaves every other request alone. -/
theorem read_settled_of_ne (hlt : h < s.objects.next) {h' : Nat} (hne : h' ≠ h) :
    (s.settled k h r).objects.read h' = s.objects.read h' := by
  unfold settled
  dsimp only
  split
  · rw [Heap.read_free, if_neg hne]
  · rw [Heap.read_write _ _ _ _ hlt, if_neg hne]

/-- A request that has not failed stays, as the parser left it. -/
theorem read_settled_self (hlt : h < s.objects.next) (hs : r.state ≠ .receivingFail) :
    (s.settled k h r).objects.read h = some r := by
  unfold settled
  dsimp only
  rw [if_neg hs, Heap.read_write _ _ _ _ hlt, if_pos rfl]

/-- A request that has failed is released. -/
theorem read_settled_failed (hs : r.state = .receivingFail) :
    (s.settled k h r).objects.read h = none := by
  unfold settled
  dsimp only
  rw [if_pos hs, Heap.read_free, if_pos rfl]

/-- Settling a request drops at most its own entry, and keeps that unless the request failed. -/
theorem get_settled (j : UInt64) :
    (s.settled k h r).table.get j =
      if r.state = .receivingFail ∧ k ≠ 0 ∧ j = k then none else s.table.get j := by
  unfold settled
  dsimp only
  by_cases hf : r.state = .receivingFail ∧ k ≠ 0
  · rw [if_pos hf, OrderedMap.get_remove]
    simp only [hf, true_and, ne_eq, not_false_eq_true]
  · rw [if_neg hf, if_neg fun hc ↦ hf ⟨hc.1, hc.2.1⟩]

/-- Settling allocates nothing. -/
@[simp] theorem next_settled : (s.settled k h r).objects.next = s.objects.next := by
  unfold settled
  dsimp only
  split <;> simp

/-- A request is handed over exactly when it is complete. -/
theorem dispatched_settled :
    (s.settled k h r).dispatched = s.dispatched ++ if r.state = .received then [h] else [] := by
  unfold settled
  dsimp only
  split <;> simp

end MapReceiver

/-- A first packet that is not refused puts its request into memory and into the table. -/
theorem created_of_fresh {s : MapReceiver} {d : Datagram}
    (hraw : ffRequestIsRawHttp d.buffer = false) (hid : ffRequestParseId d.buffer ≠ 0)
    (hget : s.table.get (ffRequestParseId d.buffer) = none)
    (hok : (ffRequestParseChunk (newRequest d) d.buffer).state ≠ .receivingFail) :
    ∃ s', ffProxyProcessIncomingPacket mapTable s d = .ok s' ∧
      s.objects.next < s'.objects.next ∧
      s'.objects.read s.objects.next = some (ffRequestParseChunk (newRequest d) d.buffer) ∧
      s'.table.get (ffRequestParseId d.buffer) = some s.objects.next ∧
      s'.dispatched = s.dispatched ++
        if (ffRequestParseChunk (newRequest d) d.buffer).state = .received then [s.objects.next]
        else [] := by
  have hp := Prepared.fresh hraw hid hget
  refine ⟨_, hp.run, ?_, MapReceiver.read_settled_self _ _ _ _ hp.lt_next hok, ?_, ?_⟩
  · rw [MapReceiver.next_settled]
    exact hp.lt_next
  · rw [MapReceiver.get_settled, if_neg fun hc ↦ hok hc.1, OrderedMap.get_put, if_pos rfl]
  · exact MapReceiver.dispatched_settled _ _ _ _

/-! ### The table invariant -/

/-- What every request in the table satisfies. -/
structure TableEntry (k : UInt64) (r : Request) : Prop where
  requestId : r.requestId = k
  version : r.version = ffVersion1
  state : r.state = .receiving ∨ r.state = .received
  counted : Receiving r
  incomplete : r.state = .receiving → r.receivedLength ≠ r.payloadLength

/-- A data chunk makes a version-1 request fail or leaves it fit for the table. -/
theorem tableEntry_dataChunk {k : UInt64} {r : Request} (hid : r.requestId = k)
    (hv : r.version = ffVersion1) (hs : r.state = .receiving ∨ r.state = .received)
    (hr : Receiving r) (b : Buffer) :
    (ffRequestParseDataChunk r b).state = .receivingFail ∨
      TableEntry k (ffRequestParseDataChunk r b) := by
  have hi := ffRequestParseDataChunk_sameIdentity r b
  rcases ffRequestParseDataChunk_cases r b hr.receivedLength_of_nil with
    ⟨r', _, he⟩ | ⟨r', node, ht, _, _, hn, he⟩
  · exact Or.inl (by rw [he])
  · obtain ⟨_, hp, _, hst⟩ := TookOptions.sameIdentity (Or.inr ht)
    have hstate : (r'.acceptNode node).state = if (r'.acceptNode node).receivedLength =
        (r'.acceptNode node).payloadLength then .received else r'.state := rfl
    rw [he] at hi ⊢
    refine Or.inr ⟨hi.requestId.trans hid, hi.version.trans hv, ?_,
      (hr.of_tookOptions (Or.inr ht)).acceptNode (by rw [hp]; exact hn), fun hrec hall ↦ ?_⟩
    · rw [hstate, hst]
      split
      · exact Or.inr rfl
      · exact hs
    · rw [hstate, if_pos hall] at hrec
      cases hrec

/-- A packet for a request in the table makes it fail or leaves it fit for the table. -/
theorem TableEntry.parseChunk {k : UInt64} {r : Request} (h : TableEntry k r) (b : Buffer) :
    (ffRequestParseChunk r b).state = .receivingFail ∨ TableEntry k (ffRequestParseChunk r b) := by
  have hne : ¬ r.version = 0 := by rw [h.version]; decide
  rw [ffRequestParseChunk, if_neg hne]
  exact tableEntry_dataChunk h.requestId h.version h.state h.counted b

/-- The first packet makes a new request fail or fit for the table under the id of the
packet. -/
theorem tableEntry_newRequest (d : Datagram) (hraw : ffRequestIsRawHttp d.buffer = false) :
    (ffRequestParseChunk (newRequest d) d.buffer).state = .receivingFail ∨
      TableEntry (ffRequestParseId d.buffer) (ffRequestParseChunk (newRequest d) d.buffer) := by
  have hfresh : (newRequest d).version = 0 := rfl
  have hraw' : ¬ ffRequestIsRawHttp d.buffer = true := by rw [hraw]; simp
  rw [ffRequestParseChunk, if_pos hfresh, ffRequestParseFirstChunk, if_neg hraw', ffRequestParseId,
    if_neg hraw']
  split
  · exact Or.inl rfl
  · by_cases hv : ((readHeader d.buffer.mem).version.toNat : Int) = ffVersion1
    · apply tableEntry_dataChunk
      · rfl
      · exact hv
      · exact Or.inl rfl
      · exact receiving_alloc.congr rfl rfl rfl
    · exact Or.inl (by rw [ffRequestParseDataChunk_of_version hv])

/-- Every entry of the table refers to a live request that fits its key. -/
def TableInv (s : MapReceiver) : Prop :=
  ∀ k h, s.table.get k = some h → ∃ r, s.objects.read h = some r ∧ TableEntry k r

namespace TableInv

variable {s : MapReceiver}

theorem live (hi : TableInv s) (k : UInt64) (h : Nat) (hg : s.table.get k = some h) :
    (s.objects.read h).isSome := by
  obtain ⟨r, hr, _⟩ := hi k h hg
  rw [hr]
  rfl

/-- Different keys refer to different requests. -/
theorem injective (hi : TableInv s) {j k : UInt64} {h : Nat} (hj : s.table.get j = some h)
    (hk : s.table.get k = some h) : j = k := by
  obtain ⟨r, hr, he⟩ := hi j h hj
  obtain ⟨r', hr', he'⟩ := hi k h hk
  obtain rfl := Option.some.inj (hr.symm.trans hr')
  exact he.requestId.symm.trans he'.requestId

/-- Settling a request keeps the invariant, if all other requests satisfy it and the request is
its key's or nobody's. -/
theorem of_settled {k : UInt64} {h : Nat} {r : Request}
    (hi : ∀ j h', s.table.get j = some h' → h' ≠ h →
      ∃ r', s.objects.read h' = some r' ∧ TableEntry j r')
    (hlt : h < s.objects.next) (hown : ∀ j, s.table.get j = some h → j = k ∧ k ≠ 0)
    (hr : s.table.get k = some h → r.state = .receivingFail ∨ TableEntry k r) :
    TableInv (s.settled k h r) := by
  intro j h' hget
  rw [s.get_settled] at hget
  split at hget
  · cases hget
  next hkeep =>
  by_cases hh : h' = h
  · obtain ⟨rfl, hk⟩ := hown j (hh ▸ hget)
    have hs : r.state ≠ .receivingFail := fun hf ↦ hkeep ⟨hf, hk, rfl⟩
    rw [hh] at hget ⊢
    exact ⟨r, s.read_settled_self j h r hlt hs, (hr hget).resolve_left hs⟩
  · obtain ⟨r', hr', he⟩ := hi j h' hget hh
    exact ⟨r', by rw [s.read_settled_of_ne k h r hlt hh, hr'], he⟩

/-- One datagram keeps the invariant. -/
theorem step (hi : TableInv s) (d : Datagram) :
    ∃ s', ffProxyProcessIncomingPacket mapTable s d = .ok s' ∧ TableInv s' := by
  rcases ffProxyProcessIncomingPacket_cases d hi.live with hrun | ⟨s₁, k, h, r, hp⟩
  · exact ⟨s, hrun, hi⟩
  refine ⟨_, hp.run, of_settled (fun j h' hj hne ↦ ?_) hp.lt_next
    (fun j hj ↦ hp.key_eq hi.live (fun _ _ _ ↦ hi.injective) hj) fun hk ↦ ?_⟩
  · rw [hp.read_of_ne hne]
    exact hi j h' (hp.get_of_ne hne hj)
  · have hk0 := (hp.key_eq hi.live (fun _ _ _ ↦ hi.injective) hk).2
    cases hp with
    | raw => exact absurd rfl hk0
    | fresh hraw => exact tableEntry_newRequest d hraw
    | known _ _ hget hread =>
      obtain ⟨r', hr', he⟩ := hi _ h hget
      obtain rfl := Option.some.inj (hread.symm.trans hr')
      exact he.parseChunk d.buffer

/-- Every sequence of datagrams keeps the invariant. -/
theorem run (hi : TableInv s) (ds : List Datagram) :
    ∃ s', processIncomingPackets mapTable s ds = .ok s' ∧ TableInv s' := by
  induction ds generalizing s with
  | nil => exact ⟨s, rfl, hi⟩
  | cons d ds ih =>
    obtain ⟨s₁, hrun, hi₁⟩ := hi.step d
    obtain ⟨s', hrest, hi'⟩ := ih hi₁
    exact ⟨s', by rw [processIncomingPackets, hrun]; exact hrest, hi'⟩

/-- The table starts without entries. -/
theorem initial : TableInv (Receiver.initial OrderedMap.empty) := by
  intro k h hget
  cases hget

end TableInv

end FfProxy
