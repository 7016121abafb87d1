import FfProxy.Server.Threads

/-!
# From packets to a thread

The packets of one request among everything else that happens: they are put together under their
id, the last one starts one thread, and this thread does with the request what
`ff_proxy_process_request` does when it runs alone.
-/

namespace FfProxy
open Base

/-! ### Requests that are put together -/

/-- The request that packets of one id are parsed into. -/
def assembled (ds : List Datagram) : Option Request :=
  ds.foldl (fun r d ↦ some (ffRequestParseChunk (r.getD (newRequest d)) d.buffer)) none

theorem assembled_concat (ds : List Datagram) (d : Datagram) :
    assembled (ds ++ [d]) =
      some (ffRequestParseChunk ((assembled ds).getD (newRequest d)) d.buffer) := by
  rw [assembled, List.foldl_append]
  rfl

/-- A request has the source of its packets. -/
theorem source_of_assembled {ds : List Datagram} {a : Block sockaddrSize}
    (ha : ∀ d ∈ ds, d.source = a) {r : Request} (hr : assembled ds = some r) :
    r.source = a.val := by
  induction ds using List.reverseRecOn generalizing r with
  | nil => cases hr
  | append_singleton ds d ih =>
    rw [assembled_concat] at hr
    rw [← Option.some.inj hr, ffRequestParseChunk_source]
    cases hds : assembled ds with
    | none => exact congrArg Subtype.val (ha d (by simp))
    | some r' => exact ih (fun d' hd' ↦ ha d' (by simp [hd'])) hds

/-- Packets of one source after which a request is still being received. -/
structure Partial (a : Block sockaddrSize) (ds : List Datagram) : Prop where
  source : ∀ d ∈ ds, d.source = a
  receiving : ∀ r, assembled ds = some r → r.state = .receiving

/-- The packets of a whole request, in an order in which none of them is refused. -/
structure Completes (ds : List Datagram) (r : Request) : Prop where
  source : ∀ d ∈ ds, ∀ d' ∈ ds, d.source = d'.source
  receiving : ∀ front, front <+: ds → front ≠ ds → ∀ r', assembled front = some r' →
    r'.state = .receiving
  assembled : assembled ds = some r
  received : r.state = .received

/-- Where the packets of an id have led its slot. -/
def Slot.ofAssembled : Option Request → Slot
  | none => .idle
  | some r => .held [] r

/-- The next packet. -/
theorem Slot.packet_ofAssembled {ds : List Datagram} {a : Block sockaddrSize}
    (ha : ∀ d ∈ ds, d.source = a) (n : Nat) {d : Datagram} (hd : d.source = a) :
    (Slot.ofAssembled (FfProxy.assembled ds)).packet n d =
      Slot.settled n []
        (ffRequestParseChunk ((FfProxy.assembled ds).getD (newRequest d)) d.buffer) := by
  cases hds : FfProxy.assembled ds with
  | none => rfl
  | some r =>
    have hsource : ¬ r.source ≠ d.source.val := by
      rw [source_of_assembled ha hds, hd]
      exact not_not.mpr rfl
    exact if_neg hsource

/-- What was forwarded of requests with an id. -/
def ThreadedProxy.sentFor {T : Type} (s : ThreadedProxy T) (k : UInt64) : List Request :=
  (s.sent.map Prod.snd).filter fun r ↦ r.requestId = k

section Packets

variable {k : UInt64} {d : Datagram} {w : Nat} {env : Environment} {es es' : List ThreadEvent}

theorem packetsOf_cons_carries (hd : d.carries k = true) :
    packetsOf k (.packet d :: es) = d :: packetsOf k es := by
  simp [packetsOf, hd]

theorem packetsOf_cons_other (hd : d.carries k = false) :
    packetsOf k (.packet d :: es) = packetsOf k es := by
  simp [packetsOf, hd]

end Packets

/-! ### Putting together -/

section Assembling

variable {s s' : ThreadedMapProxy} {config : Config} {k : UInt64} {a : Block sockaddrSize}

/-- The slot of an id whose packets so far have been put together, with nothing forwarded. -/
structure Assembling (s : ThreadedMapProxy) (k : UInt64) (ds : List Datagram) : Prop where
  inv : ThreadInv s
  slot : s.proxy.InSlot mapTable k (Slot.ofAssembled (assembled ds))
  unsent : ∀ e ∈ s.sent, e.2.requestId ≠ k

theorem Assembling.initial (k : UInt64) :
    Assembling (ThreadedProxy.initial OrderedMap.empty) k [] :=
  ⟨.initial, rfl, fun e he ↦ by cases he⟩

/-- A request that is put together is in no thread. -/
theorem Assembling.requestId_ne {ds : List Datagram} (h : Assembling s k ds) (hk : k ≠ 0)
    {w h' : Nat}
    {r : Request} (hw : s.proxy.workOf w = some h')
    (hr : s.proxy.receiver.objects.read h' = some r) : r.requestId ≠ k := by
  rintro rfl
  have howned := h.inv.account.owned h' r hr hk
  have hslot := h.slot
  cases hds : assembled ds with
  | none =>
    rw [hds] at hslot
    have hnone := get_of_inSlot_idle.mp hslot
    rw [howned] at hnone
    cases hnone
  | some r' =>
    rw [hds] at hslot
    obtain ⟨h₁, hget, hholds⟩ := hslot
    exact hholds.ne_of_workOf hw List.not_mem_nil
      (Option.some.inj (howned.symm.trans (Except.ok.inj hget)))

/-- Events other than packets with the id leave a request that is put together alone. -/
theorem Assembling.quiet {ds : List Datagram} (h : Assembling s k ds) (hk : k ≠ 0)
    {e : ThreadEvent} (he : packetsOf k [e] = []) (hstep : s.step mapTable config e = .ok s') :
    Assembling s' k ds where
  inv := h.inv.step hstep
  slot := by
    refine InSlot.quiet h.inv h.slot (fun ws r he ↦ ?_) ?_ hstep
    · cases hds : assembled ds <;> rw [hds] at he <;> cases he
      rfl
    · rintro d rfl
      by_contra hd
      rw [Bool.not_eq_false] at hd
      rw [packetsOf_cons_carries hd] at he
      cases he
  unsent e' he' := by
    cases e with
    | packet d =>
      obtain ⟨proxy, _, hend⟩ := bind_eq_ok hstep
      cases hend
      exact h.unsent e' he'
    | schedule w env =>
      rcases sent_of_schedule hstep he' with he' | ⟨_, h', hw, hr⟩
      · exact h.unsent e' he'
      · exact h.requestId_ne hk hw hr

/-- The next packet with the id moves the slot on. -/
theorem Assembling.packet {ds : List Datagram} (h : Assembling s k ds)
    (ha : ∀ d ∈ ds, d.source = a) {d : Datagram} (hd : d.source = a) (hc : d.carries k = true)
    (hstep : s.step mapTable config (.packet d) = .ok s') :
    ThreadInv s' ∧ s'.sent = s.sent ∧ s'.point = s.point ∧
      s'.proxy.InSlot mapTable k (Slot.settled s.proxy.nextWorker []
        (ffRequestParseChunk ((assembled ds).getD (newRequest d)) d.buffer)) := by
  refine ⟨h.inv.step hstep, ?_⟩
  obtain ⟨proxy, hp, hend⟩ := bind_eq_ok hstep
  cases hend
  obtain ⟨p', hp', hslot⟩ := InSlot.packet config h.inv.account h.slot hc
  obtain rfl := Except.ok.inj (hp'.symm.trans hp)
  rw [Slot.packet_ofAssembled ha _ hd] at hslot
  exact ⟨rfl, rfl, hslot⟩

/-- Packets are put together through any run. -/
theorem Assembling.run {ds : List Datagram} (h : Assembling s k ds) (hk : k ≠ 0)
    {es : List ThreadEvent} (hfronts : ∀ front, front <+: packetsOf k es → Partial a (ds ++ front))
    (hrun : s.run mapTable config es = .ok s') : Assembling s' k (ds ++ packetsOf k es) := by
  induction es generalizing s ds with
  | nil =>
    cases hrun
    rwa [show packetsOf k [] = [] from rfl, List.append_nil]
  | cons e es ih =>
    obtain ⟨s₁, hfirst, hrest⟩ := bind_eq_ok hrun
    by_cases he : packetsOf k [e] = []
    · have hskip : packetsOf k (e :: es) = packetsOf k es := by
        rw [← List.singleton_append, packetsOf, List.filterMap_append, ← packetsOf, he]
        rfl
      rw [hskip] at hfronts ⊢
      exact ih (h.quiet hk he hfirst) hfronts hrest
    · obtain ⟨d, rfl, hd⟩ : ∃ d, e = .packet d ∧ d.carries k = true := by
        cases e with
        | schedule w env => exact absurd rfl he
        | packet d =>
          refine ⟨d, rfl, ?_⟩
          by_contra hc
          rw [Bool.not_eq_true] at hc
          exact he (packetsOf_cons_other hc)
      rw [packetsOf_cons_carries hd] at hfronts ⊢
      have hnext := hfronts [d] (List.cons_prefix_cons.mpr ⟨rfl, List.nil_prefix⟩)
      have hds : ∀ d ∈ ds, d.source = a := fun d' hd' ↦ hnext.source d' (by simp [hd'])
      obtain ⟨hinv, hsent, _, hslot⟩ := h.packet hds (hnext.source d (by simp)) hd hfirst
      have hstate := hnext.receiving _ (assembled_concat ds d)
      have hwaiting : Assembling s₁ k (ds ++ [d]) := by
        refine ⟨hinv, ?_, by rw [hsent]; exact h.unsent⟩
        rw [assembled_concat, Slot.ofAssembled]
        rwa [Slot.settled, if_neg (by rw [hstate]; exact RequestState.noConfusion),
          if_neg (by rw [hstate]; exact RequestState.noConfusion)] at hslot
      rw [List.append_cons]
      refine ih hwaiting (fun front hfront ↦ ?_) hrest
      rw [← List.append_cons]
      exact hfronts (d :: front) (List.cons_prefix_cons.mpr ⟨rfl, hfront⟩)

/-- The last packet starts a thread. -/
theorem Assembling.handover {ds : List Datagram} (h : Assembling s k ds)
    (ha : ∀ d ∈ ds, d.source = a) {d : Datagram} (hd : d.source = a) (hc : d.carries k = true)
    (hstep : s.step mapTable config (.packet d) = .ok s') {r : Request}
    (hr : assembled (ds ++ [d]) = some r) (hs : r.state = .received) :
    ThreadInv s' ∧ r.requestId = k ∧ ∃ h, s'.Runs mapTable s.proxy.nextWorker h (.start r) := by
  obtain ⟨hinv, hsent, hpoint, hslot⟩ := h.packet ha hd hc hstep
  rw [assembled_concat] at hr
  rw [Option.some.inj hr, Slot.settled, if_neg (by rw [hs]; exact RequestState.noConfusion),
    if_pos hs] at hslot
  obtain ⟨h', hget, hholds⟩ := hslot
  obtain ⟨_, r', hr', hid, _⟩ := hinv.account.entry k h' (Except.ok.inj hget)
  obtain rfl := Option.some.inj (hr'.symm.trans hholds.read)
  obtain ⟨hfresh, hnothing⟩ := h.inv.fresh s.proxy.nextWorker (Nat.le_refl _)
  refine ⟨hinv, hid, h', fun _ ↦ ⟨hholds, by rw [hpoint, hfresh]; rfl⟩, Point.noConfusion,
    Point.noConfusion, ?_, fun _ e he hke ↦ ?_, fun _ ↦ rfl⟩
  · rw [ThreadedProxy.sentBy, hsent]
    exact hnothing
  · rw [hsent] at he
    exact absurd (hke.trans hid) (h.unsent e he)

end Assembling

/-! ### The thread of a request -/

/-- What a thread has forwarded has the id of its request. -/
theorem Thread.sent_requestId {config : Config} {r q : Request} {envs : List Environment}
    {t : Thread} (hrun : (Thread.start r).run config envs = .ok t) :
    t.request.requestId = r.requestId ∧ (t.sent = some q → q.requestId = r.requestId) := by
  refine foldlM_keeps (P := fun t : Thread ↦ t.request.requestId = r.requestId ∧
    (t.sent = some q → q.requestId = r.requestId)) ?_ ⟨rfl, fun h ↦ by cases h⟩ hrun
  rintro t t' env ⟨hid, hq⟩ hstep
  have hsteps := Thread.steps_of_step hstep
  refine ⟨hsteps.requestId.trans hid, fun hsent ↦ ?_⟩
  rcases hsteps.sent with he | he
  · exact hq (he.symm.trans hsent)
  · rw [he] at hsent
    rw [← Option.some.inj hsent, hid]

/-- What was forwarded under the id of a request is what its thread has forwarded. -/
theorem ThreadedProxy.Runs.sentFor {T : Type} {ops : RequestTable T} {s : ThreadedProxy T}
    {worker h : Nat} {t : Thread} (hruns : s.Runs ops worker h t)
    (hid : t.request.requestId ≠ 0)
    (hsent : ∀ q, t.sent = some q → q.requestId = t.request.requestId) :
    s.sentFor t.request.requestId = t.sent.toList := by
  rw [← hruns.sent, ThreadedProxy.sentFor, ThreadedProxy.sentBy, List.filter_map]
  congr 1
  apply List.filter_congr
  intro e he
  rw [Function.comp_apply, decide_eq_decide]
  constructor
  · exact hruns.only hid e he
  · intro hw
    have hmem : e.2 ∈ s.sentBy worker :=
      List.mem_map.mpr ⟨e, List.mem_filter.mpr ⟨he, decide_eq_true hw⟩, rfl⟩
    rw [hruns.sent, Option.mem_toList] at hmem
    exact hsent e.2 hmem

theorem Thread.run_done {config : Config} {t : Thread} (h : t.point = .done)
    (envs : List Environment) : t.run config envs = .ok t := by
  induction envs with
  | nil => rfl
  | cons env envs ih =>
    have hstep : t.step config env = .ok t := by
      rw [Thread.step, h]
      rfl
    rw [Thread.run_cons hstep, ih]

/-- A thread that has had its five steps is done, and has done what `ff_proxy_process_request`
does. -/
theorem Thread.process_of_run {config : Config} {r : Request} {t : Thread}
    {env₀ env₁ env₂ env₃ env₄ : Environment} {rest : List Environment}
    (h : (Thread.start r).run config (env₀ :: env₁ :: env₂ :: env₃ :: env₄ :: rest) = .ok t) :
    t.point = .done ∧
      ffProxyProcessRequest (combined env₀ env₁ env₃) config r = .ok ⟨t.request, t.sent⟩ := by
  have hsplit : env₀ :: env₁ :: env₂ :: env₃ :: env₄ :: rest =
      [env₀, env₁, env₂, env₃, env₄] ++ rest := rfl
  rw [hsplit, Thread.run, List.foldlM_append] at h
  obtain ⟨t₁, hfirst, hrest⟩ := bind_eq_ok h
  have hprocess := (Thread.run_eq_process config r env₀ env₁ env₂ env₃ env₄).symm.trans hfirst
  rcases error_or_ok (ffProxyProcessRequest (combined env₀ env₁ env₃) config r) with
    ⟨fault, hp⟩ | ⟨p, hp⟩
  · rw [hp] at hprocess
    cases hprocess
  · rw [hp] at hprocess
    obtain rfl := Except.ok.inj hprocess
    obtain rfl := Except.ok.inj ((Thread.run_done rfl rest).symm.trans hrest)
    exact ⟨rfl, hp⟩

/-- The packets of a request cut a run in front of the last of them. -/
theorem exists_last_packet {k : UInt64} {es : List ThreadEvent} {ds : List Datagram} {d : Datagram}
    (h : packetsOf k es = ds ++ [d]) :
    ∃ es₁ es₂, es = es₁ ++ .packet d :: es₂ ∧ packetsOf k es₁ = ds ∧ d.carries k = true ∧
      packetsOf k es₂ = [] := by
  rw [packetsOf, List.filterMap_eq_append_iff] at h
  obtain ⟨es₁, es', rfl, hfront, hback⟩ := h
  rw [List.filterMap_eq_cons_iff] at hback
  obtain ⟨es₂, e, es₃, rfl, hnone, he, hrest⟩ := hback
  cases e with
  | schedule w env => cases he
  | packet d' =>
    dsimp only at he
    split at he
    · next hc =>
      cases he
      refine ⟨es₁ ++ es₂, es₃, (List.append_assoc _ _ _).symm, ?_, hc, hrest⟩
      rw [packetsOf, List.filterMap_append, hfront, List.filterMap_eq_nil_iff.mpr hnone,
        List.append_nil]
    · cases he

section Served

variable {T : Type} (ops : RequestTable T)

/-- How a request fares in a run `es` that ends in `s`. Its last packet `d` starts the thread
`worker`. Before that nothing was forwarded under its id. From then on the thread is where its own
steps lead it, and what was forwarded under the id is what the thread has forwarded: at most one
request, and what `ff_proxy_process_request` forwards once the thread has come to its end. The
thread can always go on if it could alone. -/
structure ServedBy (table : T) (config : Config) (es : List ThreadEvent) (s : ThreadedProxy T)
    (k : UInt64) (r : Request) (es₁ : List ThreadEvent) (d : Datagram) (es₂ : List ThreadEvent)
    (worker h : Nat) (t : Thread) : Prop where
  split : es = es₁ ++ .packet d :: es₂
  last : packetsOf k es₂ = []
  before : ∀ front s₁, front <+: es₁ →
    (ThreadedProxy.initial table).run ops config front = .ok s₁ → s₁.sentFor k = []
  thread : (Thread.start r).run config (stepsOf worker es₂) = .ok t
  runs : s.Runs ops worker h t
  sent : s.sentFor k = t.sent.toList
  process : ∀ env₀ env₁ env₂ env₃ env₄ rest,
    stepsOf worker es₂ = env₀ :: env₁ :: env₂ :: env₃ :: env₄ :: rest → t.point = .done ∧
      ffProxyProcessRequest (combined env₀ env₁ env₃) config r = .ok ⟨t.request, t.sent⟩
  goesOn : ∀ env t', t.step config env = .ok t' →
    ∃ s', s.step ops config (.schedule worker env) = .ok s'

end Served

/-- A thread can go on if it could alone. -/
theorem ThreadedProxy.Runs.exists_step {s : ThreadedMapProxy} {config : Config} {worker h : Nat}
    {t t' : Thread} (hruns : s.Runs mapTable worker h t) {env : Environment}
    (ht : t.step config env = .ok t') :
    ∃ s', s.step mapTable config (.schedule worker env) = .ok s' := by
  by_cases hdone : t.point = .done
  · have hnone : s.proxy.workOf worker = none := if_pos (hruns.done hdone).1
    exact ⟨s, by rw [ThreadedProxy.step, hnone]⟩
  obtain ⟨hholds, hat⟩ := hruns.running hdone
  by_cases hcleanup : t.point = .cleanup
  · simp only [ThreadedProxy.step, hholds.running worker List.mem_cons_self, hholds.read,
      ThreadedProxy.advance, if_pos (hat.trans hcleanup), cleanup_mapTable]
    exact ⟨_, rfl⟩
  · have hstart : (⟨s.point worker, t.request, none⟩ : Thread) = t := by
      rw [hat, ← hruns.early ⟨hcleanup, hdone⟩]
    have hpoint : s.point worker ≠ .cleanup := by rwa [hat]
    simp only [ThreadedProxy.step, hholds.running worker List.mem_cons_self, hholds.read,
      ThreadedProxy.advance, if_neg hpoint, hstart, ht]
    exact ⟨_, rfl⟩

/-- Over a map, every request whose packets arrive is served by one thread. -/
theorem exists_servedBy_mapTable {config : Config} {es : List ThreadEvent} {s : ThreadedMapProxy}
    (hrun : (ThreadedProxy.initial OrderedMap.empty).run mapTable config es = .ok s) {k : UInt64}
    (hk : k ≠ 0) {r : Request} (hc : Completes (packetsOf k es) r) :
    ∃ es₁ d es₂ worker h t,
      ServedBy mapTable OrderedMap.empty config es s k r es₁ d es₂ worker h t := by
  have hne : packetsOf k es ≠ [] := by
    intro hnil
    have := hc.assembled
    rw [hnil] at this
    cases this
  obtain ⟨ds, d, hds⟩ := (List.eq_nil_or_concat' (packetsOf k es)).resolve_left hne
  obtain ⟨es₁, es₂, rfl, hfront, hd, hlast⟩ := exists_last_packet hds
  rw [hds] at hc
  -- Up to the last packet the request is being received.
  have hfronts : ∀ front, front <+: ds → Partial d.source front := by
    intro front hpre
    refine ⟨fun d' hd' ↦ hc.source d' ?_ d (by simp), hc.receiving front ?_ ?_⟩
    · exact List.mem_append_left _ (hpre.subset hd')
    · exact hpre.trans (List.prefix_append _ _)
    · rintro rfl
      have := hpre.length_le
      rw [List.length_append, List.length_singleton] at this
      omega
  have hassembling : ∀ front s₁, front <+: es₁ →
      (ThreadedProxy.initial OrderedMap.empty).run mapTable config front = .ok s₁ →
      Assembling s₁ k (packetsOf k front) := by
    rintro front s₁ ⟨rest, rfl⟩ hfrontRun
    refine (Assembling.initial k).run hk (fun pre hpre ↦ hfronts pre ?_) hfrontRun
    rw [← hfront, packetsOf, List.filterMap_append]
    exact hpre.trans (List.prefix_append _ _)
  rw [ThreadedProxy.run, List.foldlM_append] at hrun
  obtain ⟨s₁, hrun₁, hrun⟩ := bind_eq_ok hrun
  obtain ⟨s₂, hstep, hrun₂⟩ := bind_eq_ok hrun
  have hready := hassembling es₁ s₁ (List.prefix_refl _) hrun₁
  rw [hfront] at hready
  obtain ⟨hinv, hid, h, hstart⟩ := hready.handover (hfronts ds (List.prefix_refl _)).source rfl hd
    hstep hc.assembled hc.received
  obtain ⟨t, ht, hruns⟩ := hstart.run hinv (by rw [← hid] at hlast; exact hlast) hrun₂
  refine ⟨es₁, d, es₂, _, h, t, rfl, hlast, fun front s₃ hpre hfrontRun ↦ ?_, ht, hruns, ?_, ?_,
    fun env t' ht' ↦ hruns.exists_step ht'⟩
  · rw [ThreadedProxy.sentFor, List.filter_eq_nil_iff]
    intro q hq
    obtain ⟨e, he, rfl⟩ := List.mem_map.mp hq
    simpa using (hassembling front s₃ hpre hfrontRun).unsent e he
  · have hsame := fun q ↦ Thread.sent_requestId (q := q) ht
    have hidt : t.request.requestId = k := (hsame r).1.trans hid
    have := hruns.sentFor (by rw [hidt]; exact hk) fun q hq ↦ by
      rw [hidt, (hsame q).2 hq, hid]
    rwa [hidt] at this
  · intro env₀ env₁ env₂ env₃ env₄ rest hsteps
    rw [hsteps] at ht
    exact Thread.process_of_run ht

/-- Over the hash table a request fares as it does over a map. -/
theorem ServedBy.transfer {table : HashTable Nat} (hinit : ffHashTableInit 16 = .ok table)
    {config : Config} {es es₁ es₂ : List ThreadEvent} {s : ThreadedProxy (HashTable Nat)}
    {s' : ThreadedMapProxy} (hs : s.Related Refines s') {k : UInt64} {r : Request} {d : Datagram}
    {worker h : Nat} {t : Thread}
    (hserved : ServedBy mapTable OrderedMap.empty config es s' k r es₁ d es₂ worker h t) :
    ServedBy hashTable table config es s k r es₁ d es₂ worker h t := by
  have hsim := hashTable_simulates_mapTable
  have hsent : ∀ {q : ThreadedProxy (HashTable Nat)} {q' : ThreadedMapProxy},
      q.Related Refines q' → q.sentFor k = q'.sentFor k := fun hq ↦ by
    rw [ThreadedProxy.sentFor, ThreadedProxy.sentFor, hq.sent]
  refine ⟨hserved.split, hserved.last, fun front s₁ hpre hfront ↦ ?_, hserved.thread,
    hserved.runs.transfer hsim hs, (hsent hs).trans hserved.sent, hserved.process,
    fun env t' ht' ↦ ?_⟩
  · obtain ⟨s₁', hfront', hs₁⟩ :=
      (threadedRun_related hsim (refines_empty hinit) front).of_ok_left hfront
    rw [hsent hs₁]
    exact hserved.before front s₁' hpre hfront'
  · obtain ⟨s₁', hstep'⟩ := hserved.goesOn env t' ht'
    obtain ⟨s₁, hstep, _⟩ := (threadedStep_related hsim hs _).of_ok_right hstep'
    exact ⟨s₁, hstep⟩

/-- In every run of the proxy, and whatever else happens in it, a request whose packets arrive in
order is handed to exactly one thread, which does with it what `ff_proxy_process_request` does
alone. -/
theorem request_served_once {table : HashTable Nat} (hinit : ffHashTableInit 16 = .ok table)
    {config : Config} {es : List ThreadEvent} {s : ThreadedProxy (HashTable Nat)}
    (hrun : (ThreadedProxy.initial table).run hashTable config es = .ok s) {k : UInt64}
    (hk : k ≠ 0) {r : Request} (hc : Completes (packetsOf k es) r) :
    ∃ es₁ d es₂ worker h t,
      ServedBy hashTable table config es s k r es₁ d es₂ worker h t := by
  obtain ⟨s', hrun', hs⟩ := (threadedRun_related hashTable_simulates_mapTable (refines_empty hinit)
    es).of_ok_left hrun
  obtain ⟨es₁, d, es₂, worker, h, t, hserved⟩ := exists_servedBy_mapTable hrun' hk hc
  exact ⟨es₁, d, es₂, worker, h, t, hserved.transfer hinit hs⟩

/-- Two requests; the thread of the first runs to its end while the second arrives. -/
def sampleSchedule : List ThreadEvent :=
  [.packet (shortDatagram 9 (some 65)), .schedule 0 sampleEnvironment,
    .packet (shortDatagram 10 (some 66)), .schedule 0 sampleEnvironment,
    .schedule 1 sampleEnvironment, .schedule 0 sampleEnvironment, .schedule 0 sampleEnvironment,
    .schedule 0 sampleEnvironment]

theorem request_served_once_sample : ∃ (table : HashTable Nat) (s : ThreadedProxy (HashTable Nat))
    (r : Request), ffHashTableInit 16 = .ok table ∧
      (ThreadedProxy.initial table).run hashTable ⟨0, none⟩ sampleSchedule = .ok s ∧
      (9 : UInt64) ≠ 0 ∧ Completes (packetsOf 9 sampleSchedule) r ∧
      ∃ es₁ d es₂ worker h t,
        ServedBy hashTable table ⟨0, none⟩ sampleSchedule s 9 r es₁ d es₂ worker h t := by
  obtain ⟨table, hinit⟩ := exists_table
  obtain ⟨s', hrun'⟩ : ∃ s', (ThreadedProxy.initial OrderedMap.empty).run mapTable ⟨0, none⟩
      sampleSchedule = .ok s' := exists_ok_of_isSome (by decide +kernel)
  obtain ⟨s, hrun, _⟩ := (threadedRun_related hashTable_simulates_mapTable (refines_empty hinit)
    sampleSchedule).of_ok_right hrun'
  have hpackets : packetsOf 9 sampleSchedule = [shortDatagram 9 (some 65)] := rfl
  have hc : Completes (packetsOf 9 sampleSchedule) (ffRequestParseChunk
      (newRequest (shortDatagram 9 (some 65)))
      (shortDatagram 9 (some 65)).buffer) := by
    rw [hpackets]
    refine ⟨fun d hd d' hd' ↦ ?_, fun front hpre hne r' hr' ↦ ?_, rfl, by decide +kernel⟩
    · rw [List.mem_singleton.mp hd, List.mem_singleton.mp hd']
    · rcases front with _ | ⟨d, front⟩
      · cases hr'
      · obtain ⟨rfl, hrest⟩ := List.cons_prefix_cons.mp hpre
        rw [List.prefix_nil.mp hrest] at hne
        exact absurd rfl hne
  exact ⟨table, s, _, hinit, hrun, by decide, hc, request_served_once hinit hrun (by decide) hc⟩

end FfProxy
