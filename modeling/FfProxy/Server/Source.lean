import FfProxy.Server.OverHashTable

/-!
# Sources of requests

A request keeps `sizeof(struct sockaddr)` bytes of the address of the sender that created it,
and packets from a sender with other bytes are discarded; `src/server.c:157–165`. These 16
bytes are a whole IPv4 socket address. Of an IPv6 one they hold the port, the flow
information and the first half of the address, so senders in one 64-bit network that use
the same port are taken for each other.
-/

namespace FfProxy
open Base

/-- A sender as `recvfrom` reports it: `struct sockaddr_in` or `struct sockaddr_in6` inside a
`struct sockaddr_storage`. -/
inductive SocketAddress
  | inet (port : UInt16) (address : Block 4)
  | inet6 (port : UInt16) (flowInfo : UInt32) (address : Block 16) (scopeId : UInt32)
  deriving DecidableEq

namespace SocketAddress

/-- `AF_INET` and `AF_INET6`. -/
def family : SocketAddress → Nat
  | inet .. => 2
  | inet6 .. => 10

/-- The UDP port. -/
def port : SocketAddress → UInt16
  | inet port _ => port
  | inet6 port .. => port

/-- The bytes of the IP address. -/
def ipAddress : SocketAddress → List UInt8
  | inet _ address => address.val
  | inet6 _ _ address _ => address.val

/-- The members in memory order. The family and the scope are in host order, the port and the
flow information in network order, and `sin_zero` is cleared. -/
def bytes : SocketAddress → List UInt8
  | inet port address =>
    leBytes 2 2 ++ (beBytes 2 port.toNat ++ (address.val ++ List.replicate 8 0))
  | inet6 port flowInfo address scopeId =>
    leBytes 2 10 ++ (beBytes 2 port.toNat ++ (beBytes 4 flowInfo.toNat ++
      (address.val ++ leBytes 4 scopeId.toNat)))

/-- There are always as many bytes as the proxy looks at. -/
theorem sockaddrSize_le_length_bytes (a : SocketAddress) : sockaddrSize ≤ a.bytes.length := by
  cases a with
  | inet port address => simp [bytes, address.property, sockaddrSize]
  | inet6 port flowInfo address scopeId => simp [bytes, address.property, sockaddrSize]

/-- What the proxy copies and compares, `src/server.c:157,161`. -/
def sockaddr (a : SocketAddress) : Block sockaddrSize :=
  ⟨a.bytes.take sockaddrSize,
    by rw [List.length_take, Nat.min_eq_left a.sockaddrSize_le_length_bytes]⟩

/-- The senders differ in family, IP address or port. -/
def Differs (a a' : SocketAddress) : Prop :=
  a.family ≠ a'.family ∨ a.ipAddress ≠ a'.ipAddress ∨ a.port ≠ a'.port

/-- Both senders are IPv6 and share port, flow information and the first half of the address. -/
def SharesNetwork : SocketAddress → SocketAddress → Prop
  | inet6 port flowInfo address _, inet6 port' flowInfo' address' _ =>
    port = port' ∧ flowInfo = flowInfo' ∧ address.val.take 8 = address'.val.take 8
  | _, _ => False

private theorem port_inj {p p' : UInt16} (h : beBytes 2 p.toNat = beBytes 2 p'.toNat) :
    p = p' :=
  UInt16.toNat_inj.mp (beBytes_inj p.toNat_lt p'.toNat_lt h)

private theorem take_inet (p : UInt16) (a : Block 4) :
    (inet p a).bytes.take sockaddrSize =
      leBytes 2 2 ++ (beBytes 2 p.toNat ++ (a.val ++ List.replicate 8 0)) := by
  apply List.take_of_length_le
  simp [bytes, a.property, sockaddrSize]

private theorem take_inet6 (p : UInt16) (f : UInt32) (a : Block 16) (s : UInt32) :
    (inet6 p f a s).bytes.take sockaddrSize =
      leBytes 2 10 ++ (beBytes 2 p.toNat ++ (beBytes 4 f.toNat ++ a.val.take 8)) := by
  have h2 : (leBytes 2 10).take 16 = leBytes 2 10 := List.take_of_length_le (by simp)
  have hp : (beBytes 2 p.toNat).take 14 = beBytes 2 p.toNat := List.take_of_length_le (by simp)
  have hf : (beBytes 4 f.toNat).take 12 = beBytes 4 f.toNat := List.take_of_length_le (by simp)
  simp [bytes, List.take_append, a.property, sockaddrSize, h2, hp, hf]

/-- The proxy tells two senders apart unless they share a network in this sense. -/
theorem sockaddr_eq_iff {a a' : SocketAddress} (hne : a.Differs a') :
    a.sockaddr = a'.sockaddr ↔ a.SharesNetwork a' := by
  rw [← Subtype.val_inj, sockaddr, sockaddr]
  dsimp only
  have hfamily : leBytes 2 2 ≠ leBytes 2 10 := by decide
  cases a with
  | inet p x =>
    cases a' with
    | inet p' x' =>
      refine iff_of_false (fun h ↦ ?_) id
      rw [take_inet, take_inet, List.append_cancel_left_eq] at h
      obtain ⟨hp, h⟩ := List.append_inj h (by simp)
      obtain ⟨hx, _⟩ := List.append_inj h (by rw [x.property, x'.property])
      rcases hne with h | h | h
      · exact h rfl
      · exact h hx
      · exact h (port_inj hp)
    | inet6 p' f' x' s' =>
      refine iff_of_false (fun h ↦ ?_) id
      rw [take_inet, take_inet6] at h
      exact hfamily (List.append_inj h (by simp)).1
  | inet6 p f x s =>
    cases a' with
    | inet p' x' =>
      refine iff_of_false (fun h ↦ ?_) id
      rw [take_inet, take_inet6] at h
      exact hfamily.symm (List.append_inj h (by simp)).1
    | inet6 p' f' x' s' =>
      rw [take_inet6, take_inet6, List.append_cancel_left_eq]
      constructor
      · intro h
        obtain ⟨hp, h⟩ := List.append_inj h (by simp)
        obtain ⟨hf, hx⟩ := List.append_inj h (by simp)
        exact ⟨port_inj hp, UInt32.toNat_inj.mp (beBytes_inj f.toNat_lt f'.toNat_lt hf), hx⟩
      · rintro ⟨rfl, rfl, hx⟩
        rw [hx]

end SocketAddress

/-! ### Requests keep their source -/

/-- Requests that were there before are there with their source, or gone. -/
structure SourcesKept (o o' : Heap Request) : Prop where
  next_le : o.next ≤ o'.next
  source : ∀ h r', h < o.next → o'.read h = some r' →
    ∃ r, o.read h = some r ∧ r'.source = r.source

namespace SourcesKept

variable {o o' o'' : Heap Request}

theorem refl (o : Heap Request) : SourcesKept o o := ⟨Nat.le_refl _, fun _ r' _ hr ↦ ⟨r', hr, rfl⟩⟩

theorem trans (h : SourcesKept o o') (h' : SourcesKept o' o'') : SourcesKept o o'' where
  next_le := Nat.le_trans h.next_le h'.next_le
  source a r'' ha hr := by
    obtain ⟨r', hr', hs'⟩ := h'.source a r'' (Nat.lt_of_lt_of_le ha h.next_le) hr
    obtain ⟨r, hr, hs⟩ := h.source a r' ha hr'
    exact ⟨r, hr, hs'.trans hs⟩

/-- Allocation touches no request. -/
theorem alloc (o : Heap Request) (r : Request) : SourcesKept o (o.alloc r) where
  next_le := by simp
  source a r' ha hr := by
    rw [Heap.read_alloc, if_neg (Nat.ne_of_lt ha)] at hr
    exact ⟨r', hr, rfl⟩

/-- Releasing a request touches no other. -/
theorem free (o : Heap Request) (h : Nat) : SourcesKept o (o.free h) where
  next_le := by simp
  source a r' ha hr := by
    rw [Heap.read_free] at hr
    split at hr
    · cases hr
    · exact ⟨r', hr, rfl⟩

/-- A request may be replaced by one with the same source. -/
theorem write {h : Nat} {r r' : Request} (hread : o.read h = some r)
    (hsource : r'.source = r.source) : SourcesKept o (o.write h r') where
  next_le := by simp
  source a r'' ha hr := by
    rw [Heap.read_write _ _ _ _ (Heap.lt_next_of_read hread)] at hr
    split at hr
    · next hah =>
      rw [← Option.some.inj hr, hah]
      exact ⟨r, hread, hsource⟩
    · exact ⟨r'', hr, rfl⟩

end SourcesKept

section Receiver

variable {T : Type} {ops : RequestTable T} {s s' : Receiver T}

private theorem Fetched.sourcesKept {s₁ : Receiver T} {d : Datagram} {h : Nat} {r : Request}
    (hf : Fetched s d s₁ h r) : SourcesKept s.objects s₁.objects := by
  cases hf with
  | made table _ => exact .alloc _ r
  | found _ => exact .refl _

private theorem SettledAs.sourcesKept {h : Nat} {r r' : Request}
    (hsettles : SettledAs s h r' s') (hread : s.objects.read h = some r)
    (hsource : r'.source = r.source) : SourcesKept s.objects s'.objects := by
  cases hsettles with
  | kept => exact .write hread hsource
  | released table => exact .free _ h
  | handedOver _ => exact .write hread hsource

/-- A packet keeps the sources of all requests, and a request that it puts into the table has
the source of the packet. -/
theorem packet_sourcesKept {d : Datagram} (hrun : ffProxyProcessIncomingPacket ops s d = .ok s') :
    SourcesKept s.objects s'.objects ∧
      (ffRequestIsRawHttp d.buffer = false → ∀ r, s'.objects.read s.objects.next = some r →
        r.source = d.source.val) := by
  have hnone : s'.objects.next = s.objects.next → ∀ r,
      s'.objects.read s.objects.next = some r → r.source = d.source.val := by
    intro hnext r hr
    rw [← hnext, Heap.read_next] at hr
    cases hr
  rcases fetched_of_packet hrun with rfl | ⟨s₁, h, r, hf, hsettles⟩
  · exact ⟨.refl _, fun _ ↦ hnone rfl⟩
  · have hkept := hsettles.sourcesKept hf.read (ffRequestParseChunk_source r d.buffer)
    refine ⟨hf.sourcesKept.trans hkept, fun hraw ↦ ?_⟩
    cases hf with
    | found _ => exact hnone hsettles.next_eq
    | made table hsource =>
      intro r' hr'
      obtain ⟨r₀, hr₀, hs⟩ := hkept.source s.objects.next r' (by simp) hr'
      rw [Heap.read_alloc, if_pos rfl] at hr₀
      rw [hs, ← Option.some.inj hr₀]
      exact hsource hraw

/-- A run keeps the sources of all requests. -/
theorem packets_sourcesKept {ds : List Datagram}
    (hrun : processIncomingPackets ops s ds = .ok s') : SourcesKept s.objects s'.objects := by
  induction ds generalizing s with
  | nil =>
    rw [← Except.ok.inj (hrun : Except.ok s = Except.ok s')]
    exact .refl _
  | cons d ds ih =>
    rw [processIncomingPackets] at hrun
    split at hrun
    · cases hrun
    · next s₁ hstep => exact (packet_sourcesKept hstep).1.trans (ih hrun)

end Receiver

/-! ### Source binding -/

section Binding

variable {T : Type} (ops : RequestTable T)

/-- On the way from the first packet to the state `s`, a packet from `a` with a request id
created the request at address `h`. -/
def CreatedBy (table : T) (a : SocketAddress) (h : Nat) (s : Receiver T) : Prop :=
  ∃ before d after s₁ s₂, d.source = a.sockaddr ∧ ffRequestIsRawHttp d.buffer = false ∧
    processIncomingPackets ops (Receiver.initial table) before = .ok s₁ ∧ s₁.objects.next = h ∧
    ffProxyProcessIncomingPacket ops s₁ d = .ok s₂ ∧ h < s₂.objects.next ∧
    processIncomingPackets ops s₂ after = .ok s

/-- Whenever a request that a packet from `a` created is in the table, a packet from `a'` with
its id leaves the request and the table as they are. -/
def SourceBound (table : T) (a a' : SocketAddress) : Prop :=
  ∀ h s d, CreatedBy ops table a h s →
    ops.getItem s.table (ffRequestParseId d.buffer) = .ok (some h) →
    d.source = a'.sockaddr → ffRequestIsRawHttp d.buffer = false →
    ffProxyProcessIncomingPacket ops s d = .ok s

variable {ops} {table : T} {a a' : SocketAddress}

/-- A request has the source of the packet that created it, as long as it is there. -/
theorem CreatedBy.source {h : Nat} {s : Receiver T} {r : Request}
    (hc : CreatedBy ops table a h s) (hr : s.objects.read h = some r) :
    r.source = a.sockaddr.val := by
  obtain ⟨_, d, _, s₁, s₂, hd, hraw, _, rfl, hstep, hlt, hrest⟩ := hc
  obtain ⟨r₂, hr₂, hs⟩ := (packets_sourcesKept hrest).source _ r hlt hr
  rw [hs, (packet_sourcesKept hstep).2 hraw r₂ hr₂, hd]

theorem CreatedBy.exists_run {h : Nat} {s : Receiver T} (hc : CreatedBy ops table a h s) :
    ∃ ds, processIncomingPackets ops (Receiver.initial table) ds = .ok s := by
  obtain ⟨before, d, after, s₁, s₂, _, _, hbefore, _, hstep, _, hafter⟩ := hc
  refine ⟨before ++ d :: after, ?_⟩
  rw [processIncomingPackets_append hbefore, processIncomingPackets, hstep]
  exact hafter

end Binding

/-- The requests in the table of the proxy are in memory. -/
private theorem read_of_getItem {table : HashTable Nat} (hinit : ffHashTableInit 16 = .ok table)
    {ds : List Datagram} {s : Receiver (HashTable Nat)} {k : UInt64} {h : Nat}
    (hrun : processIncomingPackets hashTable (Receiver.initial table) ds = .ok s)
    (hget : hashTable.getItem s.table k = .ok (some h)) : ∃ r, s.objects.read h = some r := by
  obtain ⟨s', hs, hi⟩ := exists_mapReceiver hinit hrun
  rw [hashTable_simulates_mapTable.getItem k hs.table] at hget
  obtain ⟨r, hr, _⟩ := hi k h (Except.ok.inj hget)
  exact ⟨r, by rw [hs.objects, hr]⟩

/-! ### Senders that are taken for each other -/

/-- A datagram of the sample request 9, which is one byte long, from a given source. -/
def sampleFrom (source : Block sockaddrSize) (data : List UInt8)
    (h : (samplePacketBytes 9 0 data).length ≤ ffProxyBuffSize) : Datagram :=
  { sampleDatagram 9 0 data h with source := source }

private theorem sample_receiving : (ffRequestParseChunk ffRequestAlloc
    (sampleDatagram 9 0 [] (by decide)).buffer).state = .receiving := by decide

private theorem sample_received : (ffRequestParseChunk (ffRequestParseChunk ffRequestAlloc
    (sampleDatagram 9 0 [] (by decide)).buffer)
    (sampleDatagram 9 0 [65] (by decide)).buffer).state = .received := by decide

private theorem sample_protocol :
    ffRequestIsRawHttp (sampleDatagram 9 0 [] (by decide)).buffer = false ∧
    ffRequestIsRawHttp (sampleDatagram 9 0 [65] (by decide)).buffer = false ∧
    ffRequestParseId (sampleDatagram 9 0 [] (by decide)).buffer = 9 ∧
    ffRequestParseId (sampleDatagram 9 0 [65] (by decide)).buffer = 9 := by decide

-- The first packet brings the options only, the second one the byte that completes the request.
private theorem completed_by_second (source : Block sockaddrSize) :
    ∃ s s' : MapReceiver,
      ffProxyProcessIncomingPacket mapTable (Receiver.initial OrderedMap.empty)
        (sampleFrom source [] (by decide)) = .ok s ∧
      0 < s.objects.next ∧ s.table.get 9 = some 0 ∧ s.dispatched = [] ∧
      ffProxyProcessIncomingPacket mapTable s (sampleFrom source [65] (by decide)) = .ok s' ∧
      s'.dispatched = [0] := by
  obtain ⟨hraw, hraw', hid, hid'⟩ := sample_protocol
  let d := sampleFrom source [] (by decide)
  let d' := sampleFrom source [65] (by decide)
  have hb : d'.buffer = (sampleDatagram 9 0 [65] (by decide)).buffer := rfl
  let r := ffRequestParseChunk (newRequest d) d.buffer
  have hr : r = (ffRequestParseChunk ffRequestAlloc
      (sampleDatagram 9 0 [] (by decide)).buffer).stamped source.val 0 :=
    ffRequestParseChunk_stamped _ _ _ _
  have hstate : r.state = .receiving := by
    rw [hr, Request.state_stamped]
    exact sample_receiving
  have hstate' : (ffRequestParseChunk r d'.buffer).state = .received := by
    rw [hr, ffRequestParseChunk_stamped, Request.state_stamped, hb]
    exact sample_received
  have hne : (9 : UInt64) ≠ 0 := by decide
  obtain ⟨s, hrun, hnext, hread, hget, hdisp⟩ :=
    created_of_fresh (s := Receiver.initial OrderedMap.empty) (d := d) hraw
      (by rw [show ffRequestParseId d.buffer = 9 from hid]; exact hne) rfl
      (by rw [hstate]; simp)
  rw [show ffRequestParseId d.buffer = 9 from hid] at hget
  rw [show (ffRequestParseChunk (newRequest d) d.buffer).state = .receiving from hstate] at hdisp
  have hknown : Prepared s d' s (ffRequestParseId d'.buffer) 0 r := by
    apply Prepared.known (d := d') hraw'
    · rw [hb, hid']
      exact hne
    · rw [hb, hid']
      exact hget
    · exact hread
    · exact ffRequestParseChunk_source _ _
  refine ⟨s, _, hrun, hnext, hget, hdisp, hknown.run, ?_⟩
  rw [MapReceiver.dispatched_settled, hstate', if_pos rfl, hdisp]
  rfl

/-- A sender that the proxy takes for the creator of a request completes the request. -/
private theorem not_sourceBound_of_eq {table : HashTable Nat}
    (hinit : ffHashTableInit 16 = .ok table) {a a' : SocketAddress}
    (heq : a.sockaddr = a'.sockaddr) : ¬ SourceBound hashTable table a a' := by
  intro h
  obtain ⟨hraw, hraw', _, hid'⟩ := sample_protocol
  obtain ⟨m, m', hrun, hnext, hget, hdisp, hrun', hdisp'⟩ := completed_by_second a.sockaddr
  obtain ⟨s, hs, hsm⟩ := (ffProxyProcessIncomingPacket_related hashTable_simulates_mapTable
    (receiver_initial (refines_empty hinit)) _).of_ok_right hrun
  obtain ⟨s', hs', hsm'⟩ := (ffProxyProcessIncomingPacket_related hashTable_simulates_mapTable
    hsm (sampleFrom a.sockaddr [65] (by decide))).of_ok_right hrun'
  have hcreated : CreatedBy hashTable table a 0 s :=
    ⟨[], sampleFrom a.sockaddr [] (by decide), [], _, s, rfl, hraw, rfl, rfl, hs,
      by rw [hsm.objects]; exact hnext, rfl⟩
  have hget' : hashTable.getItem s.table 9 = .ok (some 0) := by
    rw [hashTable_simulates_mapTable.getItem 9 hsm.table]
    exact congrArg Except.ok hget
  have hsame := h 0 s (sampleFrom a.sockaddr [65] (by decide)) hcreated
    (by rw [show ffRequestParseId (sampleFrom a.sockaddr [65] _).buffer = 9 from hid']; exact hget')
    heq hraw'
  obtain rfl := Except.ok.inj (hsame.symm.trans hs')
  have := hsm'.dispatched.symm.trans hsm.dispatched
  rw [hdisp, hdisp'] at this
  cases this

/-- A request is bound to its source exactly when the proxy can tell the senders apart: unless
both are IPv6 and share port, flow information and the first half of the address. -/
theorem sourceBound_iff {table : HashTable Nat} (hinit : ffHashTableInit 16 = .ok table)
    (a a' : SocketAddress) (hne : a.Differs a') :
    SourceBound hashTable table a a' ↔ ¬ a.SharesNetwork a' := by
  rw [← SocketAddress.sockaddr_eq_iff hne]
  constructor
  · intro h heq
    exact not_sourceBound_of_eq hinit heq h
  · intro hdiff h s d hcreated hget hsource hraw
    obtain ⟨ds, hrun⟩ := hcreated.exists_run
    obtain ⟨r, hr⟩ := read_of_getItem hinit hrun hget
    apply ignored_of_source hraw hget hr
    rw [hcreated.source hr, hsource]
    exact fun hv ↦ hdiff (Subtype.ext hv)

/-- Two IPv4 senders on one host are told apart by their ports. -/
theorem sourceBound_ports : ∃ table : HashTable Nat, ffHashTableInit 16 = .ok table ∧
    SourceBound hashTable table (.inet 5000 ⟨[127, 0, 0, 1], rfl⟩)
      (.inet 5001 ⟨[127, 0, 0, 1], rfl⟩) := by
  obtain ⟨table, hinit⟩ := exists_table
  refine ⟨table, hinit, (sourceBound_iff hinit _ _ ?_).mpr id⟩
  exact Or.inr (Or.inr (by decide))

/-- The IPv6 address with the given last byte in the network `2001:db8::/64`. -/
def sampleHost (last : UInt8) : SocketAddress :=
  .inet6 5000 0 ⟨[32, 1, 13, 184, 0, 0, 0, 0, 0, 0, 0, 0, 0, 0, 0, last], rfl⟩ 0

/-- Two IPv6 hosts in one network that use the same port are not told apart. -/
theorem not_sourceBound_hosts : (sampleHost 1).Differs (sampleHost 2) ∧
    ∃ table : HashTable Nat, ffHashTableInit 16 = .ok table ∧
      ¬ SourceBound hashTable table (sampleHost 1) (sampleHost 2) := by
  refine ⟨Or.inr (Or.inl (by decide)), ?_⟩
  obtain ⟨table, hinit⟩ := exists_table
  exact ⟨table, hinit, not_sourceBound_of_eq hinit (by decide)⟩

end FfProxy
