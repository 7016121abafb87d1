import FfProxy.Server.OverHashTable

/-!
# Packets shorter than a request id

The receive buffer keeps what earlier datagrams left behind the current one. Every check of
the parser counts bytes, only `ff_request_parse_id` does not: the id of a datagram of fewer
than ten bytes ends in bytes of another datagram. The parser then refuses the datagram, and
with it goes the request that the id happens to name, if it came from the same source.
-/

namespace FfProxy
open Base

/-- The datagram brings the bytes, whatever stands behind them in the receive buffer. -/
structure Datagram.Brings (d : Datagram) (source : Block sockaddrSize) (time : Int)
    (data : List UInt8) : Prop where
  source : d.source = source
  time : d.time = time
  bytes : d.buffer.bytes = data

/-- The number of bytes up to the end of the request id. -/
def requestIdEnd : Nat := 10

/-- Packets with the same bytes have the same id, if they are raw HTTP or long enough for one. -/
theorem parseId_of_bytes {b b' : Buffer} (hbytes : b.bytes = b'.bytes)
    (h : ffRequestIsRawHttp b = true ∨ requestIdEnd ≤ b.size) :
    ffRequestParseId b = ffRequestParseId b' := by
  rw [ffRequestParseId, ffRequestParseId, ← ffRequestIsRawHttp_of_bytes hbytes]
  rcases h with h | h
  · rw [if_pos h, if_pos h]
  · rw [requestId_of_bytes hbytes h]

section Effect

variable {T : Type} {ops : RequestTable T} {s : Receiver T}

/-- Datagrams of the same sender, time and bytes do the same, if they are raw HTTP or long
enough for an id. -/
theorem packet_of_bytes {d d' : Datagram} (hsource : d.source = d'.source)
    (htime : d.time = d'.time) (hbytes : d.buffer.bytes = d'.buffer.bytes)
    (h : ffRequestIsRawHttp d.buffer = true ∨ requestIdEnd ≤ d.buffer.size) :
    ffProxyProcessIncomingPacket ops s d = ffProxyProcessIncomingPacket ops s d' := by
  have hraw := ffRequestIsRawHttp_of_bytes hbytes
  have hid := parseId_of_bytes hbytes h
  have hnew : newRequest d = newRequest d' := by rw [newRequest, newRequest, hsource, htime]
  have hchunk (s : Receiver T) (k : UInt64) (h : Nat) :
      receiveChunk ops s k h d = receiveChunk ops s k h d' := by
    unfold receiveChunk
    simp only [hsource, ffRequestParseChunk_of_bytes _ hbytes]
  unfold ffProxyProcessIncomingPacket
  simp only [hraw, hid, hnew, hchunk, ffRequestParseChunk_of_bytes _ hbytes]

end Effect

/-! ### What a short packet does -/

/-- Receivers with the same requests in memory, the same handovers and tables that are the
same by the given measure. -/
structure Receiver.Alike {T : Type} (same : T → T → Prop) (s s' : Receiver T) : Prop where
  table : same s.table s'.table
  requests : ∀ h, s.objects.read h = s'.objects.read h
  dispatched : s.dispatched = s'.dispatched

/-- The table has a request under the id of the datagram, from the same source. -/
def Hits (s : MapReceiver) (d : Datagram) : Prop :=
  ffRequestParseId d.buffer ≠ 0 ∧ ∃ h r, s.table.get (ffRequestParseId d.buffer) = some h ∧
    s.objects.read h = some r ∧ r.source = d.source.val

section Short

variable {s : MapReceiver} {d : Datagram}
  (hlive : ∀ k h, s.table.get k = some h → (s.objects.read h).isSome)
  (hraw : ffRequestIsRawHttp d.buffer = false) (hshort : d.buffer.size < requestHeaderSize)
include hraw hshort

/-- A short packet with the id of a request of its source removes that request. -/
theorem removed_of_short (hhit : Hits s d) :
    ∃ s', ffProxyProcessIncomingPacket mapTable s d = .ok s' ∧
      s'.table = s.table.remove (ffRequestParseId d.buffer) := by
  obtain ⟨hid, h, r, hget, hread, hsource⟩ := hhit
  have hp := Prepared.known hraw hid hget hread hsource
  exact ⟨_, hp.run, if_pos ⟨ffRequestParseChunk_of_short r hraw hshort, hid⟩⟩

include hlive

/-- Any other short packet leaves the table, the requests and the handovers as they are. -/
theorem alike_of_short (hno : ¬ Hits s d) :
    ∃ s', ffProxyProcessIncomingPacket mapTable s d = .ok s' ∧ s'.Alike Eq s := by
  rcases ffProxyProcessIncomingPacket_cases d hlive with hrun | ⟨s₁, k, h, r, hp⟩
  · exact ⟨s, hrun, rfl, fun _ ↦ rfl, rfl⟩
  refine ⟨_, hp.run, ?_⟩
  have hfail := ffRequestParseChunk_of_short r hraw hshort
  cases hp with
  | raw h => rw [hraw] at h; cases h
  | known _ hid hget hread hsource => exact absurd ⟨hid, _, _, hget, hread, hsource⟩ hno
  | fresh _ hid hget =>
    refine ⟨?_, fun h' ↦ ?_, ?_⟩
    · exact (if_pos ⟨hfail, hid⟩).trans (OrderedMap.remove_put_of_get hget _)
    · unfold MapReceiver.settled
      dsimp only
      rw [if_pos hfail, Heap.read_free, Heap.read_alloc]
      split
      · next heq => rw [heq, Heap.read_next]
      · rfl
    · rw [MapReceiver.dispatched_settled, hfail]
      exact List.append_nil _

end Short

/-! ### The bytes behind a short packet -/

/-- The bytes of a datagram that belong to the id start the id that is read for it. -/
theorem drop_prefix_requestId {d : Datagram} (hraw : ffRequestIsRawHttp d.buffer = false)
    (hshort : d.buffer.size < requestIdEnd) :
    d.buffer.bytes.drop 2 <+: beBytes 8 (ffRequestParseId d.buffer).toNat := by
  have hmem : 10 ≤ d.buffer.mem.length := by
    rw [d.block]
    decide
  rw [ffRequestParseId, hraw, if_neg Bool.false_ne_true, beBytes_requestId _ hmem, Buffer.bytes,
    slice, List.drop_take]
  apply List.take_prefix_take_left
  unfold requestIdEnd at hshort
  omega

/-- A block of the size of the receive buffer that starts with a header of the given id. -/
private def idBlock (requestId : UInt64) : List UInt8 :=
  [0, 0] ++ (beBytes 8 requestId.toNat ++ List.replicate (ffProxyBuffSize - 10) 0)

private theorem length_idBlock (requestId : UInt64) :
    (idBlock requestId).length = ffProxyBuffSize := by
  rw [idBlock, List.length_append, List.length_append, length_beBytes, List.length_replicate]
  rfl

private theorem drop_idBlock (requestId : UInt64) : (idBlock requestId).drop 2 =
    beBytes 8 requestId.toNat ++ List.replicate (ffProxyBuffSize - 10) 0 := rfl

-- Short data in front of such a block does not disturb the id, as long as it agrees with it.
private theorem drop_append_idBlock {requestId : UInt64} {data : List UInt8}
    (hpos : 0 < data.length) (hshort : data.length < requestIdEnd)
    (hp : data.drop 2 <+: beBytes 8 requestId.toNat) :
    (data ++ (idBlock requestId).drop data.length).drop 2 = (idBlock requestId).drop 2 := by
  unfold requestIdEnd at hshort
  rw [List.drop_append, List.drop_drop]
  by_cases hone : data.length = 1
  · rw [hone, List.drop_of_length_le (by omega), List.nil_append]
  · have htake : data.drop 2 = ((idBlock requestId).drop 2).take (data.length - 2) := by
      have hlen : (data.drop 2).length = data.length - 2 := List.length_drop
      have h8 : data.length - 2 ≤ (beBytes 8 requestId.toNat).length := by
        rw [length_beBytes]
        omega
      rw [drop_idBlock, List.take_append_of_le_length h8, ← hlen]
      exact List.prefix_iff_eq_take.mp hp
    have hdrop : data.length + (2 - data.length) = 2 + (data.length - 2) := by omega
    rw [hdrop, ← List.drop_drop, htake]
    exact List.take_append_drop _ _

/-- A datagram with the given bytes, behind which the receive buffer holds the rest of an id. -/
private def withStaleId (source : Block sockaddrSize) (time : Int) (data : List UInt8)
    (requestId : UInt64) (hpos : 0 < data.length) (hle : data.length ≤ ffProxyBuffSize) :
    Datagram where
  source := source
  buffer := {
    mem := data ++ (idBlock requestId).drop data.length
    size := data.length
    size_le := by rw [List.length_append]; exact Nat.le_add_right _ _ }
  time := time
  block := by rw [List.length_append, List.length_drop, length_idBlock]; omega
  nonempty := hpos

private theorem withStaleId_brings (source : Block sockaddrSize) (time : Int) (data : List UInt8)
    (requestId : UInt64) (hpos : 0 < data.length) (hle : data.length ≤ ffProxyBuffSize) :
    (withStaleId source time data requestId hpos hle).Brings source time data :=
  ⟨rfl, rfl, List.take_left⟩

private theorem parseId_withStaleId (source : Block sockaddrSize) (time : Int) {data : List UInt8}
    {requestId : UInt64} (hpos : 0 < data.length) (hle : data.length ≤ ffProxyBuffSize)
    (hraw : ffRequestIsRawHttp (withStaleId source time data requestId hpos hle).buffer = false)
    (hshort : data.length < requestIdEnd) (hp : data.drop 2 <+: beBytes 8 requestId.toNat) :
    ffRequestParseId (withStaleId source time data requestId hpos hle).buffer = requestId := by
  have hmem : 10 ≤ (data ++ (idBlock requestId).drop data.length).length := by
    rw [List.length_append, List.length_drop, length_idBlock, ffProxyBuffSize]
    omega
  have hbytes := beBytes_requestId _ hmem
  rw [slice, drop_append_idBlock hpos hshort hp, drop_idBlock,
    List.take_left' (length_beBytes _ _)] at hbytes
  rw [ffRequestParseId, hraw, if_neg Bool.false_ne_true]
  exact UInt64.toNat_inj.mp (beBytes_inj (UInt64.toNat_lt _) requestId.toNat_lt hbytes)

/-- Ids that agree in their first seven bytes need not be the same. -/
private theorem exists_other_id {requestId : UInt64} {front : List UInt8}
    (hp : front <+: beBytes 8 requestId.toNat) (hlen : front.length ≤ 7) :
    ∃ other : UInt64, other ≠ requestId ∧ front <+: beBytes 8 other.toNat := by
  obtain ⟨last, hlast⟩ : ∃ last, beBytes 8 requestId.toNat =
      (beBytes 8 requestId.toNat).take 7 ++ [last] := by
    have hdrop : ((beBytes 8 requestId.toNat).drop 7).length = 1 := by simp
    obtain ⟨last, hlast⟩ := List.length_eq_one_iff.mp hdrop
    exact ⟨last, by rw [← hlast, List.take_append_drop]⟩
  let bytes := (beBytes 8 requestId.toNat).take 7 ++ [last + 1]
  have hl : bytes.length = 8 := by simp [bytes]
  have hv : beValue bytes < 2 ^ 64 := by
    have := beValue_lt bytes
    rwa [hl] at this
  have hb : beBytes 8 (UInt64.ofNat (beValue bytes)).toNat = bytes := by
    rw [UInt64.toNat_ofNat', Nat.mod_eq_of_lt hv]
    have := beBytes_beValue bytes
    rwa [hl] at this
  refine ⟨UInt64.ofNat (beValue bytes), ?_, ?_⟩
  · intro heq
    rw [heq, hlast, List.append_cancel_left_eq] at hb
    simp at hb
  · rw [hb]
    exact (List.prefix_take_iff.mpr ⟨hp, hlen⟩).trans (List.prefix_append _ _)

/-! ### Over the hash table -/

/-- A state of the table: a hash table whose values are addresses of requests in memory. -/
structure TableState (s : Receiver (HashTable Nat)) : Prop where
  refines : ∃ m, Refines s.table m
  live : ∀ k h, hashTable.getItem s.table k = .ok (some h) → ∃ r, s.objects.read h = some r

/-- Every state that packets lead to is one. -/
theorem tableState_of_run {table : HashTable Nat} (hinit : ffHashTableInit 16 = .ok table)
    {ds : List Datagram} {s : Receiver (HashTable Nat)}
    (hrun : processIncomingPackets hashTable (Receiver.initial table) ds = .ok s) :
    TableState s := by
  obtain ⟨s', hs, hi⟩ := exists_mapReceiver hinit hrun
  refine ⟨⟨_, hs.table⟩, fun k h hget ↦ ?_⟩
  rw [hashTable_simulates_mapTable.getItem k hs.table] at hget
  obtain ⟨r, hr, _⟩ := hi k h (Except.ok.inj hget)
  exact ⟨r, by rw [hs.objects, hr]⟩

/-- Tables with the same entries in the same order. -/
def SameContents (t t' : HashTable Nat) : Prop := ∃ m, Refines t m ∧ Refines t' m

/-- Whatever stands behind the bytes in the receive buffer, the table, the requests and the
handovers are the same afterwards. -/
def Insensitive (s : Receiver (HashTable Nat)) (source : Block sockaddrSize) (time : Int)
    (data : List UInt8) : Prop :=
  ∀ d d' : Datagram, d.Brings source time data → d'.Brings source time data →
    ∃ t t', ffProxyProcessIncomingPacket hashTable s d = .ok t ∧
      ffProxyProcessIncomingPacket hashTable s d' = .ok t' ∧ t.Alike SameContents t'

/-- The table has a request of the source whose id starts with the bytes that the datagram
brings of an id. -/
def MayName (s : Receiver (HashTable Nat)) (source : Block sockaddrSize) (data : List UInt8) :
    Prop :=
  ∃ k h r, k ≠ 0 ∧ hashTable.getItem s.table k = .ok (some h) ∧ s.objects.read h = some r ∧
    r.source = source.val ∧ data.drop 2 <+: beBytes 8 k.toNat

/-- The same receiver with a map for its table. -/
private def overMap (s : Receiver (HashTable Nat)) (m : OrderedMap UInt64 Nat) : MapReceiver :=
  ⟨s.objects, m, s.dispatched⟩

private theorem overMap_related {s : Receiver (HashTable Nat)} {m : OrderedMap UInt64 Nat}
    (hm : Refines s.table m) : s.Related Refines (overMap s m) := ⟨rfl, rfl, hm⟩

section OverHashTable

variable {s : Receiver (HashTable Nat)} {m : OrderedMap UInt64 Nat}

private theorem live_overMap (hs : TableState s) (hm : Refines s.table m) (k : UInt64) (h : Nat)
    (hget : (overMap s m).table.get k = some h) : ((overMap s m).objects.read h).isSome := by
  obtain ⟨r, hr⟩ := hs.live k h
    (by rw [hashTable_simulates_mapTable.getItem k hm]; exact congrArg _ hget)
  exact Option.isSome_iff_exists.mpr ⟨r, hr⟩

/-- A packet does over the hash table what it does over the map. -/
private theorem packet_overMap (hm : Refines s.table m) {d : Datagram} {t' : MapReceiver}
    (hrun : ffProxyProcessIncomingPacket mapTable (overMap s m) d = .ok t') :
    ∃ t, ffProxyProcessIncomingPacket hashTable s d = .ok t ∧ t.Related Refines t' :=
  (ffProxyProcessIncomingPacket_related hashTable_simulates_mapTable (overMap_related hm)
    d).of_ok_right hrun

private theorem packet_ok (hs : TableState s) (d : Datagram) :
    ∃ t m', ffProxyProcessIncomingPacket hashTable s d = .ok t ∧ Refines t.table m' := by
  obtain ⟨m, hm⟩ := hs.refines
  rcases ffProxyProcessIncomingPacket_cases d (live_overMap hs hm) with hrun | ⟨_, _, _, _, hp⟩
  · obtain ⟨t, ht, hR⟩ := packet_overMap hm hrun
    exact ⟨t, _, ht, hR.table⟩
  · obtain ⟨t, ht, hR⟩ := packet_overMap hm hp.run
    exact ⟨t, _, ht, hR.table⟩

/-- A short packet that may name no request of its source changes nothing. -/
private theorem alike_of_not_mayName (hs : TableState s) (hm : Refines s.table m)
    {source : Block sockaddrSize} {time : Int} {data : List UInt8}
    (hraw : ffRequestIsRawHttp (Buffer.ofBytes data) = false)
    (hshort : data.length < requestIdEnd) (hno : ¬ MayName s source data) {d : Datagram}
    (hd : d.Brings source time data) :
    ∃ t, ffProxyProcessIncomingPacket hashTable s d = .ok t ∧ Refines t.table m ∧
      (∀ h, t.objects.read h = s.objects.read h) ∧ t.dispatched = s.dispatched := by
  have hrawd : ffRequestIsRawHttp d.buffer = false := by
    rw [← hraw]
    exact ffRequestIsRawHttp_of_bytes (by rw [hd.bytes, Buffer.bytes_ofBytes])
  have hsize : d.buffer.size < requestIdEnd := by
    rw [← d.buffer.length_bytes, hd.bytes]
    exact hshort
  have hnohit : ¬ Hits (overMap s m) d := by
    rintro ⟨hid, h, r, hget, hread, hsource⟩
    have hpre := drop_prefix_requestId hrawd hsize
    rw [hd.bytes] at hpre
    refine hno ⟨_, h, r, hid, ?_, hread, by rw [hsource, hd.source], hpre⟩
    rw [hashTable_simulates_mapTable.getItem _ hm]
    exact congrArg _ hget
  obtain ⟨t', hrun, halike⟩ := alike_of_short (live_overMap hs hm) hrawd
    (Nat.lt_trans hsize (by decide)) hnohit
  obtain ⟨t, ht, hR⟩ := packet_overMap hm hrun
  refine ⟨t, ht, ?_, fun h ↦ ?_, ?_⟩
  · rw [← show t'.table = m from halike.table]
    exact hR.table
  · rw [hR.objects]
    exact halike.requests h
  · rw [hR.dispatched]
    exact halike.dispatched

/-- A short packet that may name a request of its source removes it or not, depending on the
bytes behind the packet. -/
private theorem not_insensitive_of_mayName (hs : TableState s) (hm : Refines s.table m)
    {source : Block sockaddrSize} (time : Int) {data : List UInt8}
    (hpos : 0 < data.length) (hle : data.length ≤ ffProxyBuffSize)
    (hraw : ffRequestIsRawHttp (Buffer.ofBytes data) = false)
    (hshort : data.length < requestIdEnd) (hname : MayName s source data) :
    ¬ Insensitive s source time data := by
  obtain ⟨k, h, r, hk, hget, hread, hsource, hpre⟩ := hname
  have hfront : (data.drop 2).length ≤ 7 := by
    rw [List.length_drop]
    unfold requestIdEnd at hshort
    omega
  obtain ⟨k', hne, hpre'⟩ := exists_other_id hpre hfront
  have hrawd (j : UInt64) :
      ffRequestIsRawHttp (withStaleId source time data j hpos hle).buffer = false := by
    rw [← hraw]
    exact ffRequestIsRawHttp_of_bytes
      (by rw [(withStaleId_brings source time data j hpos hle).bytes, Buffer.bytes_ofBytes])
  have hheader : data.length < requestHeaderSize := Nat.lt_trans hshort (by decide)
  have hid := parseId_withStaleId source time hpos hle (hrawd k) hshort hpre
  have hid' := parseId_withStaleId source time hpos hle (hrawd k') hshort hpre'
  have hmget : m.get k = some h := by
    rw [hashTable_simulates_mapTable.getItem k hm] at hget
    exact Except.ok.inj hget
  -- With the id of the request behind it, the packet removes the request.
  have hhit : Hits (overMap s m) (withStaleId source time data k hpos hle) := by
    rw [Hits, hid]
    exact ⟨hk, h, r, hmget, hread, hsource⟩
  obtain ⟨u, hu, hutable⟩ := removed_of_short (hrawd k) hheader hhit
  have huget : u.table.get k = none := by
    rw [hutable, hid, OrderedMap.get_remove, if_pos rfl]
  -- With another id behind it, the packet leaves that request alone.
  obtain ⟨u', hu', huget'⟩ : ∃ u', ffProxyProcessIncomingPacket mapTable (overMap s m)
      (withStaleId source time data k' hpos hle) = .ok u' ∧ u'.table.get k = some h := by
    by_cases hhit' : Hits (overMap s m) (withStaleId source time data k' hpos hle)
    · obtain ⟨u', hu', htable⟩ := removed_of_short (hrawd k') hheader hhit'
      refine ⟨u', hu', ?_⟩
      rw [htable, hid', OrderedMap.get_remove, if_neg hne.symm]
      exact hmget
    · obtain ⟨u', hu', halike⟩ := alike_of_short (live_overMap hs hm) (hrawd k') hheader hhit'
      exact ⟨u', hu', by rw [halike.table]; exact hmget⟩
  intro hins
  obtain ⟨t, t', ht, ht', halike⟩ := hins _ _ (withStaleId_brings source time data k hpos hle)
    (withStaleId_brings source time data k' hpos hle)
  obtain ⟨m₀, hm₀, hm₀'⟩ := halike.table
  obtain ⟨v, hv, hR⟩ := packet_overMap hm hu
  obtain ⟨v', hv', hR'⟩ := packet_overMap hm hu'
  obtain rfl := Except.ok.inj (ht.symm.trans hv)
  obtain rfl := Except.ok.inj (ht'.symm.trans hv')
  have hnone := (hm₀.getItem k).symm.trans (hR.table.getItem k)
  have hsome := (hm₀'.getItem k).symm.trans (hR'.table.getItem k)
  rw [huget] at hnone
  rw [hnone, huget'] at hsome
  cases hsome

end OverHashTable

/-- Bytes behind a datagram of 1 to 2000 bytes matter in one case only: the datagram is no raw
HTTP, is shorter than an id, and may name a request of its source in the table. -/
theorem insensitive_iff {s : Receiver (HashTable Nat)} (hs : TableState s)
    (source : Block sockaddrSize) (time : Int) (data : List UInt8) (hpos : 0 < data.length)
    (hle : data.length ≤ ffProxyBuffSize) :
    Insensitive s source time data ↔
      ffRequestIsRawHttp (Buffer.ofBytes data) = true ∨ requestIdEnd ≤ data.length ∨
        ¬ MayName s source data := by
  obtain ⟨m, hm⟩ := hs.refines
  constructor
  · intro hins
    by_contra hcond
    simp only [not_or, not_not, Bool.not_eq_true, Nat.not_le] at hcond
    exact not_insensitive_of_mayName hs hm time hpos hle hcond.1 hcond.2.1 hcond.2.2 hins
  · intro hcond d d' hd hd'
    by_cases hlong : ffRequestIsRawHttp (Buffer.ofBytes data) = true ∨ requestIdEnd ≤ data.length
    · have hbytes : d.buffer.bytes = d'.buffer.bytes := by rw [hd.bytes, hd'.bytes]
      have hlong' : ffRequestIsRawHttp d.buffer = true ∨ requestIdEnd ≤ d.buffer.size := by
        have hdata : d.buffer.bytes = (Buffer.ofBytes data).bytes := by
          rw [hd.bytes, Buffer.bytes_ofBytes]
        rw [← d.buffer.length_bytes, ffRequestIsRawHttp_of_bytes hdata, hd.bytes]
        exact hlong
      obtain ⟨t, m', ht, hm'⟩ := packet_ok hs d
      refine ⟨t, t, ht, ?_, ⟨m', hm', hm'⟩, fun _ ↦ rfl, rfl⟩
      rw [← packet_of_bytes (hd.source.trans hd'.source.symm) (hd.time.trans hd'.time.symm) hbytes
        hlong', ht]
    · simp only [not_or, Bool.not_eq_true, Nat.not_le] at hlong
      have hno : ¬ MayName s source data := by
        rcases hcond with h | h | h
        · rw [hlong.1] at h
          cases h
        · exact absurd h (Nat.not_le.mpr hlong.2)
        · exact h
      obtain ⟨t, ht, hmt, hread, hdisp⟩ := alike_of_not_mayName hs hm hlong.1 hlong.2 hno hd
      obtain ⟨t', ht', hmt', hread', hdisp'⟩ := alike_of_not_mayName hs hm hlong.1 hlong.2 hno hd'
      exact ⟨t, t', ht, ht', ⟨m, hmt, hmt'⟩, fun h ↦ (hread h).trans (hread' h).symm,
        hdisp.trans hdisp'.symm⟩

/-- The table after the first packet of request 9. -/
private theorem sample_mayName : ∃ table s, ffHashTableInit 16 = .ok table ∧
    processIncomingPackets hashTable (Receiver.initial table)
      [sampleDatagram 9 0 [] (by decide)] = .ok s ∧
    MayName s (sampleDatagram 9 0 [] (by decide)).source [1] := by
  obtain ⟨table, hinit⟩ := exists_table
  let d := sampleDatagram 9 0 [] (by decide)
  have hid : ffRequestParseId d.buffer = 9 := by decide
  obtain ⟨s', hrun, _, hread, hget, _⟩ := created_of_fresh
    (s := Receiver.initial OrderedMap.empty) (d := d) (by decide) (by rw [hid]; decide) rfl
    (by decide)
  have hruns : processIncomingPackets mapTable (Receiver.initial OrderedMap.empty) [d] =
      .ok s' := by
    rw [processIncomingPackets, hrun]
    rfl
  obtain ⟨s, hs, hR⟩ := (processIncomingPackets_related hashTable_simulates_mapTable
    (receiver_initial (refines_empty hinit)) [d]).of_ok_right hruns
  refine ⟨table, s, hinit, hs, 9, _, _, by decide, ?_, by rw [hR.objects]; exact hread,
    ffRequestParseChunk_source _ _, List.nil_prefix⟩
  rw [hashTable_simulates_mapTable.getItem 9 hR.table, ← hid]
  exact congrArg _ hget

/-- Bytes behind a packet with a whole id do not matter. -/
theorem insensitive_sample : ∃ table s, ffHashTableInit 16 = .ok table ∧
    processIncomingPackets hashTable (Receiver.initial table)
      [sampleDatagram 9 0 [] (by decide)] = .ok s ∧
    Insensitive s (sampleDatagram 9 0 [] (by decide)).source 0 (samplePacketBytes 9 0 [65]) := by
  obtain ⟨table, s, hinit, hrun, _⟩ := sample_mayName
  refine ⟨table, s, hinit, hrun, ?_⟩
  apply (insensitive_iff (tableState_of_run hinit hrun) _ _ _ (by decide) (by decide)).mpr
  exact Or.inr (Or.inl (by decide))

/-- What one byte does depends on the bytes behind it. -/
theorem not_insensitive_one_byte : ∃ table s, ffHashTableInit 16 = .ok table ∧
    processIncomingPackets hashTable (Receiver.initial table)
      [sampleDatagram 9 0 [] (by decide)] = .ok s ∧
    ¬ Insensitive s (sampleDatagram 9 0 [] (by decide)).source 0 [1] := by
  obtain ⟨table, s, hinit, hrun, hname⟩ := sample_mayName
  have hs := tableState_of_run hinit hrun
  obtain ⟨m, hm⟩ := hs.refines
  refine ⟨table, s, hinit, hrun, ?_⟩
  exact not_insensitive_of_mayName hs hm 0 (by decide) (by decide) (by decide) (by decide) hname

end FfProxy
