import FfProxy.Server.Lifecycle
import FfProxy.Server.WorkerAssertions

/-!
# Threads

`ff_proxy_process_request`, `src/server.c:207–260`, as a thread next to the receiver and to other
threads. A scheduler picks the thread that takes the next step. What a thread does to its request
and what it forwards depend on its request and on its own steps only, as long as no packet with the
id of the request arrives; so a thread that has run to its end has done what the function does when
it runs alone.
-/

namespace FfProxy
open Base

/-! ### Model -/

/-- Where a thread is in `ff_proxy_process_request`. -/
inductive Point
  | vectorise
  | decrypt
  | parseOptions
  | forward
  | cleanup
  | done
  deriving DecidableEq, Repr

/-- A thread on its own: where it is, its request, and the request that it has handed to
`ff_http_send_request`. -/
structure Thread where
  point : Point
  request : Request
  sent : Option Request

namespace Thread

/-- A thread that is about to run. -/
def start (r : Request) : Thread := ⟨.vectorise, r, none⟩

/-- The next step of a thread, `src/server.c:213–258`. The state of the request is looked at in
front of the stage that needs it. -/
def step (config : Config) (t : Thread) (env : Environment) : Except Fault Thread :=
  match t.point with
  | .vectorise => do
    let r ← ffRequestVectorisePayload (env.garbage 0) t.request
    return { t with point := .decrypt, request := r }
  | .decrypt => do
    let r ← ffDecryptRequest env.ssl (env.garbage 1) config.encryption t.request
    return { t with point := .parseOptions, request := r }
  | .parseOptions =>
    if t.request.state ≠ .decrypted then return { t with point := .cleanup }
    else do
      let r ← ffRequestParseOptionsFromPayload t.request
      return { t with point := .forward, request := r }
  | .forward =>
    if t.request.state ≠ .parsedOptions then return { t with point := .cleanup }
    else if ffProxyValidateRequestTimestamp config env.now t.request then
      return ⟨.cleanup, ffHttpSendRequest env.upstream t.request, some t.request⟩
    else return { t with point := .cleanup }
  | .cleanup => return { t with point := .done }
  | .done => return t

/-- A thread that runs alone. -/
def run (config : Config) (t : Thread) (envs : List Environment) : Except Fault Thread :=
  envs.foldlM (step config) t

end Thread

/-- The receiver and the threads, with what the threads have forwarded, in its order. -/
structure ThreadedProxy (T : Type) where
  proxy : Proxy T
  point : Nat → Point
  sent : List (Nat × Request)

/-- What can happen: a datagram arrives, or the scheduler picks a thread. -/
inductive ThreadEvent
  | packet (d : Datagram)
  | schedule (worker : Nat) (env : Environment)

section Model

variable {T : Type} (ops : RequestTable T)

/-- The proxy before the first packet. -/
def ThreadedProxy.initial (table : T) : ThreadedProxy T :=
  ⟨Proxy.initial table, fun _ ↦ .vectorise, []⟩

/-- A thread takes its next step on the request in memory. -/
def ThreadedProxy.advance (config : Config) (s : ThreadedProxy T) (worker h : Nat) (r : Request)
    (env : Environment) : Except Fault (ThreadedProxy T) :=
  if s.point worker = .cleanup then do
    let proxy ← s.proxy.cleanup ops worker h r
    return { s with proxy := proxy, point := Function.update s.point worker .done }
  else do
    let t ← Thread.step config ⟨s.point worker, r, none⟩ env
    return {
      proxy := { s.proxy with receiver := { s.proxy.receiver with
        objects := s.proxy.receiver.objects.write h t.request } }
      point := Function.update s.point worker t.point
      sent := s.sent ++ (t.sent.map (Prod.mk worker)).toList }

/-- One event. Threads that were not started or are done do nothing. -/
def ThreadedProxy.step (config : Config) (s : ThreadedProxy T) :
    ThreadEvent → Except Fault (ThreadedProxy T)
  | .packet d => do
    let proxy ← s.proxy.step ops config (.packet d)
    return { s with proxy := proxy }
  | .schedule worker env =>
    match s.proxy.workOf worker with
    | none => .ok s
    | some h =>
      match s.proxy.receiver.objects.read h with
      | none => .error .useAfterFree
      | some r => s.advance ops config worker h r env

/-- A sequence of events. -/
def ThreadedProxy.run (config : Config) (s : ThreadedProxy T) (es : List ThreadEvent) :
    Except Fault (ThreadedProxy T) :=
  es.foldlM (ThreadedProxy.step ops config) s

end Model

/-- The steps of a thread in a sequence of events. -/
def stepsOf (worker : Nat) (es : List ThreadEvent) : List Environment :=
  es.filterMap fun
    | .schedule w env => if w = worker then some env else none
    | .packet _ => none

/-- The packets with an id in a sequence of events. -/
def packetsOf (k : UInt64) (es : List ThreadEvent) : List Datagram :=
  es.filterMap fun
    | .packet d => if d.carries k then some d else none
    | .schedule _ _ => none

/-- What a thread has forwarded. -/
def ThreadedProxy.sentBy {T : Type} (s : ThreadedProxy T) (worker : Nat) : List Request :=
  (s.sent.filter fun e ↦ e.1 = worker).map Prod.snd

/-! ### One thread alone -/

/-- The environment of a thread whose steps were taken in four environments. -/
def combined (env₀ env₁ env₃ : Environment) : Environment where
  ssl := env₁.ssl
  upstream := env₃.upstream
  now := env₃.now
  garbage
    | 0 => env₀.garbage 0
    | n => env₁.garbage n

section Alone

variable {config : Config} {t t₁ : Thread} {env : Environment} {envs : List Environment}

theorem Thread.run_cons (h : t.step config env = .ok t₁) :
    t.run config (env :: envs) = t₁.run config envs := by
  rw [Thread.run, List.foldlM_cons]
  exact bind_of_ok h _

/-- The last two steps of a thread. -/
private theorem Thread.run_forward (config : Config) (r : Request) (env₃ env₄ : Environment) :
    Thread.run config ⟨.forward, r, none⟩ [env₃, env₄] =
      .ok (if r.state ≠ .parsedOptions then ⟨.done, r, none⟩
        else if ffProxyValidateRequestTimestamp config env₃.now r then
          ⟨.done, ffHttpSendRequest env₃.upstream r, some r⟩
        else ⟨.done, r, none⟩) := by
  simp only [Thread.run, List.foldlM_cons, List.foldlM_nil, Thread.step]
  split
  · rfl
  · split <;> rfl

/-- A thread that has run alone to its end has done what `ff_proxy_process_request` does. -/
theorem Thread.run_eq_process (config : Config) (r : Request)
    (env₀ env₁ env₂ env₃ env₄ : Environment) :
    Thread.run config (.start r) [env₀, env₁, env₂, env₃, env₄] =
      (ffProxyProcessRequest (combined env₀ env₁ env₃) config r).map fun p ↦
        ⟨.done, p.request, p.forwarded⟩ := by
  rw [ffProxyProcessRequest]
  have hfail : ∀ {t : Thread} {env : Environment} {envs : List Environment} {fault : Fault},
      t.step config env = .error fault → t.run config (env :: envs) = .error fault := by
    intro t env envs fault h
    rw [Thread.run, List.foldlM_cons, bind_of_error h]
  rcases error_or_ok (ffRequestVectorisePayload ((combined env₀ env₁ env₃).garbage 0) r) with
    ⟨fault, hv⟩ | ⟨r₁, hv⟩
  · rw [hfail (bind_of_error hv _), bind_of_error hv]
    rfl
  rw [Thread.run_cons (bind_of_ok hv _), bind_of_ok hv]
  rcases error_or_ok (ffDecryptRequest (combined env₀ env₁ env₃).ssl
    ((combined env₀ env₁ env₃).garbage 1) config.encryption r₁) with ⟨fault, hd⟩ | ⟨r₂, hd⟩
  · rw [hfail (bind_of_error hd _), bind_of_error hd]
    rfl
  rw [Thread.run_cons (bind_of_ok hd _), bind_of_ok hd]
  by_cases hs : r₂.state ≠ .decrypted
  · have hstep : Thread.step config ⟨.parseOptions, r₂, none⟩ env₂ = .ok ⟨.cleanup, r₂, none⟩ :=
      if_pos hs
    rw [if_pos hs]
    exact Thread.run_cons hstep
  rw [if_neg hs]
  have hstep : Thread.step config ⟨.parseOptions, r₂, none⟩ env₂ =
      ffRequestParseOptionsFromPayload r₂ >>= fun r ↦ pure ⟨.forward, r, none⟩ := if_neg hs
  rcases error_or_ok (ffRequestParseOptionsFromPayload r₂) with ⟨fault, hp⟩ | ⟨r₃, hp⟩
  · rw [bind_of_error hp]
    exact hfail (hstep.trans (bind_of_error hp _))
  rw [bind_of_ok hp]
  refine (Thread.run_cons (hstep.trans (bind_of_ok hp _))).trans ?_
  rw [Thread.run_forward, show (combined env₀ env₁ env₃).now = env₃.now from rfl]
  split
  · rfl
  · split <;> rfl

/-- The thread has not come to its cleanup. -/
def Point.IsWork (point : Point) : Prop := point ≠ .cleanup ∧ point ≠ .done

/-- Everything a step of a thread can do. -/
inductive Thread.Steps (config : Config) (env : Environment) : Thread → Thread → Prop
  | stage (stage : WorkerStage) {point point' : Point} {r r' : Request} {sent : Option Request}
      (hpoint : point.IsWork) (hpoint' : point'.IsWork)
      (hstage : workerStage env config stage r = .ok r') :
      Steps config env ⟨point, r, sent⟩ ⟨point', r', sent⟩
  | refused {point : Point} {r : Request} {sent : Option Request} (hpoint : point.IsWork) :
      Steps config env ⟨point, r, sent⟩ ⟨.cleanup, r, sent⟩
  | forwarded {r : Request} {sent : Option Request} :
      Steps config env ⟨.forward, r, sent⟩ ⟨.cleanup, ffHttpSendRequest env.upstream r, some r⟩
  | cleaned {r : Request} {sent : Option Request} :
      Steps config env ⟨.cleanup, r, sent⟩ ⟨.done, r, sent⟩
  | rest {r : Request} {sent : Option Request} :
      Steps config env ⟨.done, r, sent⟩ ⟨.done, r, sent⟩

theorem Thread.steps_of_step {t' : Thread} (h : t.step config env = .ok t') :
    t.Steps config env t' := by
  obtain ⟨point, r, sent⟩ := t
  cases point with
  | vectorise =>
    obtain ⟨r', hr, h⟩ := bind_eq_ok h
    cases h
    exact .stage .vectorise (by simp [Point.IsWork]) (by simp [Point.IsWork]) hr
  | decrypt =>
    obtain ⟨r', hr, h⟩ := bind_eq_ok h
    cases h
    exact .stage .decrypt (by simp [Point.IsWork]) (by simp [Point.IsWork]) hr
  | parseOptions =>
    simp only [Thread.step] at h
    split at h
    · cases h
      exact .refused (by simp [Point.IsWork])
    · obtain ⟨r', hr, h⟩ := bind_eq_ok h
      cases h
      exact .stage .parseOptions (by simp [Point.IsWork]) (by simp [Point.IsWork]) hr
  | forward =>
    simp only [Thread.step] at h
    split at h
    · cases h
      exact .refused (by simp [Point.IsWork])
    · split at h
      · cases h
        exact .forwarded
      · cases h
        exact .refused (by simp [Point.IsWork])
  | cleanup =>
    cases h
    exact .cleaned
  | done =>
    cases h
    exact .rest

/-- A step of a thread is a stage on its request, or leaves the request alone. -/
theorem Thread.Steps.request {t' : Thread} (h : t.Steps config env t') :
    t'.request = t.request ∨ ∃ stage, workerStage env config stage t.request = .ok t'.request := by
  cases h with
  | stage stage _ _ hstage => exact Or.inr ⟨stage, hstage⟩
  | refused => exact Or.inl rfl
  | forwarded => exact Or.inr ⟨.send, rfl⟩
  | cleaned => exact Or.inl rfl
  | rest => exact Or.inl rfl

/-- No step of a thread gives its request another id. -/
theorem Thread.Steps.requestId {t' : Thread} (h : t.Steps config env t') :
    t'.request.requestId = t.request.requestId := by
  rcases h.request with he | ⟨stage, hstage⟩
  · rw [he]
  · exact (workerStage_identity hstage).1

/-- A thread forwards its request or nothing. -/
theorem Thread.Steps.sent {t' : Thread} (h : t.Steps config env t') :
    t'.sent = t.sent ∨ t'.sent = some t.request := by
  cases h with
  | forwarded => exact Or.inr rfl
  | _ => exact Or.inl rfl

/-- A thread has forwarded nothing before it comes to its cleanup. -/
def Thread.Early (t : Thread) : Prop := t.point.IsWork → t.sent = none

theorem Thread.Early.step {t' : Thread} (ht : t.Early) (h : t.Steps config env t') : t'.Early := by
  intro hwork
  cases h with
  | stage _ hpoint => exact ht hpoint
  | refused => exact absurd rfl hwork.1
  | forwarded => exact absurd rfl hwork.1
  | cleaned => exact absurd rfl hwork.2
  | rest => exact absurd rfl hwork.2

/-- A thread is done only after its cleanup. -/
theorem Thread.Steps.not_done {t' : Thread} (hwork : t.point.IsWork) (h : t.Steps config env t') :
    t'.point ≠ .done := by
  cases h with
  | stage _ _ hpoint' => exact hpoint'.2
  | refused => exact Point.noConfusion
  | forwarded => exact Point.noConfusion
  | cleaned => exact absurd rfl hwork.1
  | rest => exact absurd rfl hwork.2

end Alone

/-! ### Steps of the whole -/

section Steps

variable {T : Type} {ops : RequestTable T} {s s' : ThreadedProxy T} {config : Config}
  {worker : Nat} {env : Environment}

/-- A thread that is picked is not running, cleans up, or takes a step on its request. -/
theorem step_schedule_cases (hstep : s.step ops config (.schedule worker env) = .ok s') :
    (s.proxy.workOf worker = none ∧ s' = s) ∨ ∃ h r, s.proxy.workOf worker = some h ∧
      s.proxy.receiver.objects.read h = some r ∧
      ((s.point worker = .cleanup ∧ ∃ proxy, s.proxy.cleanup ops worker h r = .ok proxy ∧
          s' = { s with proxy := proxy, point := Function.update s.point worker .done }) ∨
        (s.point worker ≠ .cleanup ∧ ∃ t,
          Thread.step config ⟨s.point worker, r, none⟩ env = .ok t ∧ s' = {
            proxy := { s.proxy with receiver := { s.proxy.receiver with
              objects := s.proxy.receiver.objects.write h t.request } }
            point := Function.update s.point worker t.point
            sent := s.sent ++ (t.sent.map (Prod.mk worker)).toList })) := by
  simp only [ThreadedProxy.step] at hstep
  split at hstep
  · next hw => exact Or.inl ⟨hw, (Except.ok.inj hstep).symm⟩
  next h hw =>
  split at hstep
  · cases hstep
  next r hr =>
  refine Or.inr ⟨h, r, hw, hr, ?_⟩
  unfold ThreadedProxy.advance at hstep
  split at hstep
  · next hpoint =>
    obtain ⟨proxy, hcleanup, hend⟩ := bind_eq_ok hstep
    cases hend
    exact Or.inl ⟨hpoint, proxy, hcleanup, rfl⟩
  · next hpoint =>
    obtain ⟨t, ht, hend⟩ := bind_eq_ok hstep
    cases hend
    exact Or.inr ⟨hpoint, t, ht, rfl⟩

/-- To the receiver, a thread that is picked is a worker that does nothing, runs a stage or
cleans up. -/
theorem proxy_of_schedule (hstep : s.step ops config (.schedule worker env) = .ok s') :
    s'.proxy = s.proxy ∨ ∃ e, (e = .finish worker ∨ ∃ stage, e = .work worker env stage) ∧
      s.proxy.step ops config e = .ok s'.proxy := by
  rcases step_schedule_cases hstep with ⟨_, rfl⟩ | ⟨h, r, hw, hr, ⟨_, proxy, hcleanup, rfl⟩ |
    ⟨_, t, ht, rfl⟩⟩
  · exact Or.inl rfl
  · refine Or.inr ⟨.finish worker, Or.inl rfl, ?_⟩
    simp only [Proxy.step, hw, hr, hcleanup]
  · rcases (Thread.steps_of_step ht).request with hsame | ⟨stage, hstage⟩
    · left
      have hobjects := Heap.write_self hr
      dsimp only at hsame ⊢
      rw [hsame, hobjects]
    · refine Or.inr ⟨.work worker env stage, Or.inr ⟨stage, rfl⟩, ?_⟩
      simp only [Proxy.step, hw, hr, hstage]

/-- A thread that is picked does not move the other threads. -/
theorem schedule_frame (hstep : s.step ops config (.schedule worker env) = .ok s') {w : Nat}
    (hne : w ≠ worker) : s'.point w = s.point w ∧ s'.sentBy w = s.sentBy w := by
  rcases step_schedule_cases hstep with ⟨_, rfl⟩ | ⟨h, r, _, _, ⟨_, proxy, _, rfl⟩ | ⟨_, t, _, rfl⟩⟩
  · exact ⟨rfl, rfl⟩
  · exact ⟨Function.update_of_ne hne _ _, rfl⟩
  · refine ⟨Function.update_of_ne hne _ _, ?_⟩
    rw [ThreadedProxy.sentBy, List.filter_append, List.map_append, ThreadedProxy.sentBy]
    cases t.sent with
    | none => exact List.append_nil _
    | some r => simp [Ne.symm hne]

/-- What is forwarded is the request of the thread that is picked. -/
theorem sent_of_schedule (hstep : s.step ops config (.schedule worker env) = .ok s')
    {e : Nat × Request} (he : e ∈ s'.sent) :
    e ∈ s.sent ∨ e.1 = worker ∧ ∃ h, s.proxy.workOf worker = some h ∧
      s.proxy.receiver.objects.read h = some e.2 := by
  rcases step_schedule_cases hstep with ⟨_, rfl⟩ | ⟨h, r, hw, hr, ⟨_, proxy, _, rfl⟩ |
    ⟨_, t, ht, rfl⟩⟩
  · exact Or.inl he
  · exact Or.inl he
  · refine (List.mem_append.mp he).imp_right fun he ↦ ?_
    rcases (Thread.steps_of_step ht).sent with hsent | hsent
    · rw [hsent] at he
      cases he
    · rw [hsent] at he
      obtain rfl := List.mem_singleton.mp he
      exact ⟨rfl, h, hw, hr⟩

/-- Workers are only added. -/
theorem nextWorker_le_of_step {p p' : Proxy T} {e : Event} (hstep : p.step ops config e = .ok p') :
    p.nextWorker ≤ p'.nextWorker := by
  rcases step_handsOver hstep with he | ⟨h, r, he, _⟩
  · rw [Proxy.nextWorker, Proxy.nextWorker, he]
  · rw [Proxy.nextWorker, Proxy.nextWorker, he, List.length_append]
    exact Nat.le_add_right _ _

/-- Only a worker that was started is picked. -/
theorem lt_nextWorker_of_workOf {p : Proxy T} {h : Nat} (hw : p.workOf worker = some h) :
    worker < p.nextWorker :=
  (List.getElem?_eq_some_iff.mp (dispatched_of_workOf hw).2).1

end Steps

/-! ### Invariant -/

/-- A threaded proxy whose table is a map. -/
abbrev ThreadedMapProxy := ThreadedProxy (OrderedMap UInt64 Nat)

/-- The requests are accounted for, and threads that were not started have done nothing. -/
structure ThreadInv (s : ThreadedMapProxy) : Prop where
  account : AccountInv s.proxy
  fresh : ∀ w, s.proxy.nextWorker ≤ w → s.point w = .vectorise ∧ s.sentBy w = []

namespace ThreadInv

variable {s s' : ThreadedMapProxy} {config : Config}

theorem initial : ThreadInv (ThreadedProxy.initial OrderedMap.empty) :=
  ⟨.initial, fun _ _ ↦ ⟨rfl, rfl⟩⟩

private theorem fresh_of_schedule (hi : ThreadInv s) {worker : Nat} {env : Environment}
    (hstep : s.step mapTable config (.schedule worker env) = .ok s') {w : Nat}
    (hw : s.proxy.nextWorker ≤ w) : s'.point w = .vectorise ∧ s'.sentBy w = [] := by
  by_cases hne : w = worker
  · subst hne
    rcases step_schedule_cases hstep with ⟨_, rfl⟩ | ⟨h, r, hrunning, _⟩
    · exact hi.fresh w hw
    · exact absurd (lt_nextWorker_of_workOf hrunning) (Nat.not_lt.mpr hw)
  · obtain ⟨hpoint, hsent⟩ := schedule_frame hstep hne
    rw [hpoint, hsent]
    exact hi.fresh w hw

/-- Every event keeps the invariant. -/
theorem step (hi : ThreadInv s) {e : ThreadEvent} (hstep : s.step mapTable config e = .ok s') :
    ThreadInv s' := by
  cases e with
  | packet d =>
    obtain ⟨proxy, hpacket, hend⟩ := bind_eq_ok hstep
    cases hend
    exact ⟨(hi.account.step hpacket).1, fun w hw ↦
      hi.fresh w (Nat.le_trans (nextWorker_le_of_step hpacket) hw)⟩
  | schedule worker env =>
    rcases proxy_of_schedule hstep with hsame | ⟨e, _, he⟩
    · refine ⟨by rw [hsame]; exact hi.account, fun w hw ↦ ?_⟩
      rw [hsame] at hw
      exact hi.fresh_of_schedule hstep hw
    · exact ⟨(hi.account.step he).1, fun w hw ↦
        hi.fresh_of_schedule hstep (Nat.le_trans (nextWorker_le_of_step he) hw)⟩

end ThreadInv

/-! ### A thread among others -/

/-- A move of a thread: its own steps are its steps alone, and nothing else moves it. -/
def Thread.Move (config : Config) (worker : Nat) (t : Thread) (e : ThreadEvent) (t' : Thread) :
    Prop :=
  match e with
  | .packet _ => t' = t
  | .schedule w env => if w = worker then t.step config env = .ok t' else t' = t

/-- The moves of a thread are its steps alone. -/
theorem moves_iff_run {config : Config} {worker : Nat} {t t' : Thread} {es : List ThreadEvent} :
    Moves (Thread.Move config worker) t es t' ↔ t.run config (stepsOf worker es) = .ok t' := by
  induction es generalizing t with
  | nil =>
    constructor
    · rintro ⟨⟩
      rfl
    · intro h
      cases h
      exact .nil _
  | cons e es ih =>
    -- An event that is not a step of the thread leaves it where it is.
    have hskip : stepsOf worker (e :: es) = stepsOf worker es →
        (∀ t₁, Thread.Move config worker t e t₁ ↔ t₁ = t) →
        (Moves (Thread.Move config worker) t (e :: es) t' ↔
          t.run config (stepsOf worker (e :: es)) = .ok t') := by
      intro hsteps hmove
      rw [hsteps, ← ih]
      constructor
      · rintro (_ | ⟨h, hrest⟩)
        rwa [(hmove _).mp h] at hrest
      · exact .cons ((hmove t).mpr rfl)
    cases e with
    | packet d => exact hskip rfl fun _ ↦ Iff.rfl
    | schedule w env =>
      by_cases hw : w = worker
      · have hsteps : stepsOf worker (.schedule w env :: es) = env :: stepsOf worker es := by
          simp [stepsOf, hw]
        have hmove : ∀ t₁, Thread.Move config worker t (.schedule w env) t₁ ↔
            t.step config env = .ok t₁ := fun t₁ ↦ by rw [Thread.Move, if_pos hw]
        rw [hsteps]
        constructor
        · rintro (_ | ⟨h, hrest⟩)
          rw [Thread.run_cons ((hmove _).mp h)]
          exact ih.mp hrest
        · intro h
          obtain ⟨t₁, hfirst, hrest⟩ := bind_eq_ok h
          exact .cons ((hmove t₁).mpr hfirst) (ih.mpr hrest)
      · exact hskip (by simp [stepsOf, hw]) fun t₁ ↦ by rw [Thread.Move, if_neg hw]

/-- A thread of the proxy. While it runs it has its request in memory; when it is done the request
is released, and nothing is under the id of the request. A request with this id was forwarded by
no other thread. -/
structure ThreadedProxy.Runs {T : Type} (ops : RequestTable T) (s : ThreadedProxy T)
    (worker h : Nat) (t : Thread) : Prop where
  running : t.point ≠ .done → s.proxy.Holds [worker] h t.request ∧ s.point worker = t.point
  done : t.point = .done → worker ∈ s.proxy.finished ∧ s.proxy.receiver.objects.read h = none ∧
    h < s.proxy.receiver.objects.next
  gone : t.point = .done → t.request.requestId ≠ 0 →
    ops.getItem s.proxy.receiver.table t.request.requestId = .ok none
  sent : s.sentBy worker = t.sent.toList
  only : t.request.requestId ≠ 0 → ∀ e ∈ s.sent, e.2.requestId = t.request.requestId →
    e.1 = worker
  early : t.Early

section Runs

variable {s s' : ThreadedMapProxy} {config : Config} {worker h : Nat} {t : Thread}

/-- Workers that are done stay done. -/
theorem finished_subset_of_step {T : Type} {ops : RequestTable T} {p p' : Proxy T} {e : Event}
    (hstep : p.step ops config e = .ok p') : p.finished ⊆ p'.finished := by
  obtain ⟨d, s, hrun, rfl⟩ | rfl | ⟨_, _, _, _, _, _, _, rfl⟩ | ⟨_, _, _, rfl⟩ := step_cases hstep
  · exact List.Subset.refl _
  · exact List.Subset.refl _
  · exact List.Subset.refl _
  · exact List.subset_append_left _ _

/-- A released request stays released. -/
theorem AccountInv.released {p p' : MapProxy} (hi : AccountInv p) {e : Event}
    (hstep : p.step mapTable config e = .ok p') (hlt : h < p.receiver.objects.next)
    (hnone : p.receiver.objects.read h = none) :
    p'.receiver.objects.read h = none ∧ h < p'.receiver.objects.next := by
  obtain ⟨_, hnext, hids⟩ := hi.step hstep
  refine ⟨?_, Nat.lt_of_lt_of_le hlt hnext⟩
  by_contra hsome
  obtain ⟨r', hr'⟩ := Option.ne_none_iff_exists'.mp hsome
  obtain ⟨r, hr, _⟩ := hids h hlt r' hr'
  rw [hnone] at hr
  cases hr

/-- A packet that has not the id of a request does not reach its workers. -/
theorem Proxy.Holds.packet_other {p p' : MapProxy} {workers : List Nat} {r : Request}
    {d : Datagram} (hi : AccountInv p) (hh : p.Holds workers h r)
    (hd : d.carries r.requestId = false)
    (hstep : p.step mapTable config (.packet d) = .ok p') : p'.Holds workers h r := by
  rcases ffProxyProcessIncomingPacket_cases d hi.entry.live with hrun | ⟨s₁, j, h', r', hp⟩
  · rw [Proxy.step, hrun] at hstep
    obtain rfl := Except.ok.inj hstep
    exact hh
  · rw [Proxy.step, hp.run] at hstep
    obtain rfl := Except.ok.inj hstep
    refine hh.packet hp ?_ _
    rintro rfl
    have hread := hh.read
    cases hp with
    | raw => rw [Heap.read_next] at hread; cases hread
    | fresh => rw [Heap.read_next] at hread; cases hread
    | known hraw hid hget =>
      obtain ⟨_, r₀, hr₀, hid₀, _⟩ := hi.entry _ _ hget
      obtain rfl := Option.some.inj (hr₀.symm.trans hread)
      rw [hid₀, carries_iff.mpr ⟨hraw, rfl, hid⟩] at hd
      cases hd

/-- What is under an id without workers is changed by packets with the id only. -/
theorem InSlot.quiet (hi : ThreadInv s) {k : UInt64} {slot : Slot}
    (hslot : s.proxy.InSlot mapTable k slot) (hidle : ∀ ws r, slot = .held ws r → ws = [])
    {e : ThreadEvent}
    (hpacket : ∀ d, e = .packet d → d.carries k = false)
    (hstep : s.step mapTable config e = .ok s') : s'.proxy.InSlot mapTable k slot := by
  -- A move that is not a packet with the id leaves such a slot as it is.
  have hstay : ∀ {e : Event} {p : MapProxy}, (∀ d, e = .packet d → d.carries k = false) →
      s.proxy.step mapTable config e = .ok p → p.InSlot mapTable k slot := by
    intro e p he hstep
    obtain ⟨slot', ⟨n, hmove⟩, hslot'⟩ := InSlot.step hi.account hslot hstep
    have hsame : slot' = slot := by
      cases e with
      | packet d =>
        rw [Slot.next, he d rfl] at hmove
        exact (Except.ok.inj hmove).symm
      | work w env stage =>
        cases slot with
        | idle => exact (Except.ok.inj hmove).symm
        | held ws r =>
          cases hidle ws r rfl
          exact (Except.ok.inj hmove).symm
      | finish w =>
        cases slot with
        | idle => exact (Except.ok.inj hmove).symm
        | held ws r =>
          cases hidle ws r rfl
          exact (Except.ok.inj hmove).symm
    rwa [hsame] at hslot'
  cases e with
  | packet d =>
    obtain ⟨proxy, hp, hend⟩ := bind_eq_ok hstep
    cases hend
    refine hstay ?_ hp
    rintro d' hd'
    cases hd'
    exact hpacket d rfl
  | schedule w env =>
    rcases proxy_of_schedule hstep with hsame | ⟨e, rfl | ⟨stage, rfl⟩, he⟩
    · rwa [hsame]
    · exact hstay (fun _ h ↦ by cases h) he
    · exact hstay (fun _ h ↦ by cases h) he

namespace ThreadedProxy.Runs

/-- Another thread has no request with the id of the request of a thread. -/
theorem requestId_ne (hi : ThreadInv s) (hruns : s.Runs mapTable worker h t)
    (hid : t.request.requestId ≠ 0) {w h' : Nat} {r : Request} (hne : w ≠ worker)
    (hw : s.proxy.workOf w = some h') (hr : s.proxy.receiver.objects.read h' = some r) :
    r.requestId ≠ t.request.requestId := by
  intro he
  have howned := hi.account.owned h' r hr (by rwa [he])
  rw [he] at howned
  by_cases hpoint : t.point = .done
  · have hnone := Except.ok.inj (hruns.gone hpoint hid)
    rw [howned] at hnone
    cases hnone
  · obtain ⟨hholds, _⟩ := hruns.running hpoint
    have hsame := hi.account.owned h t.request hholds.read hid
    exact hholds.ne_of_workOf hw (List.mem_singleton.not.mpr hne)
      (Option.some.inj (howned.symm.trans hsame))

/-- An event that is not a step of the thread and not a packet with the id of its request leaves
the thread where it is. -/
theorem frame (hi : ThreadInv s) (hruns : s.Runs mapTable worker h t) {e : ThreadEvent}
    (hpacket : ∀ d, e = .packet d → d.carries t.request.requestId = false)
    (hother : ∀ w env, e = .schedule w env → w ≠ worker)
    (hstep : s.step mapTable config e = .ok s') : s'.Runs mapTable worker h t := by
  have hgone : t.point = .done → t.request.requestId ≠ 0 →
      mapTable.getItem s'.proxy.receiver.table t.request.requestId = .ok none := by
    intro hpoint hid
    have hidle : s.proxy.InSlot mapTable t.request.requestId .idle := hruns.gone hpoint hid
    exact InSlot.quiet hi hidle (fun _ _ he ↦ by cases he) hpacket hstep
  cases e with
  | packet d =>
    obtain ⟨proxy, hp, hend⟩ := bind_eq_ok hstep
    cases hend
    refine ⟨fun hpoint ↦ ?_, fun hpoint ↦ ?_, hgone, hruns.sent, hruns.only, hruns.early⟩
    · obtain ⟨hholds, hat⟩ := hruns.running hpoint
      exact ⟨hholds.packet_other hi.account (hpacket d rfl) hp, hat⟩
    · obtain ⟨hfinished, hnone, hlt⟩ := hruns.done hpoint
      exact ⟨finished_subset_of_step hp hfinished, hi.account.released hp hlt hnone⟩
  | schedule w env =>
    have hne := hother w env rfl
    have hmem : w ∉ [worker] := List.mem_singleton.not.mpr hne
    obtain ⟨hat, hsent⟩ := schedule_frame hstep (Ne.symm hne)
    have hproxy := proxy_of_schedule hstep
    refine ⟨fun hpoint ↦ ?_, fun hpoint ↦ ?_, hgone, hsent.trans hruns.sent, fun hid e he hke ↦ ?_,
      hruns.early⟩
    · obtain ⟨hholds, hpoint'⟩ := hruns.running hpoint
      refine ⟨?_, hat.trans hpoint'⟩
      rcases hproxy with hsame | ⟨e, rfl | ⟨stage, rfl⟩, he⟩
      · rwa [hsame]
      · exact hholds.finish_other hmem he
      · exact hholds.work_other hmem he
    · obtain ⟨hfinished, hnone, hlt⟩ := hruns.done hpoint
      rcases hproxy with hsame | ⟨e, _, he⟩
      · rw [hsame]
        exact ⟨hfinished, hnone, hlt⟩
      · exact ⟨finished_subset_of_step he hfinished, hi.account.released he hlt hnone⟩
    · rcases sent_of_schedule hstep he with he | ⟨_, h', hw, hr⟩
      · exact hruns.only hid e he hke
      · exact absurd hke (hruns.requestId_ne hi hid hne hw hr)

/-- A thread that cleans up releases its request. -/
private theorem cleanup (hruns : s.Runs mapTable worker h t) (hpoint : t.point = .cleanup)
    {env : Environment} (hstep : s.step mapTable config (.schedule worker env) = .ok s') :
    s'.Runs mapTable worker h { t with point := .done } := by
  obtain ⟨hholds, hat⟩ := hruns.running (by rw [hpoint]; exact Point.noConfusion)
  have hcleanup : s.point worker = .cleanup := hat.trans hpoint
  simp only [ThreadedProxy.step, hholds.running worker List.mem_cons_self, hholds.read,
    ThreadedProxy.advance, if_pos hcleanup, cleanup_mapTable] at hstep
  obtain rfl := Except.ok.inj hstep
  refine ⟨fun hdone ↦ absurd rfl hdone, fun _ ↦ ⟨?_, ?_, ?_⟩, fun _ hid ↦ ?_, hruns.sent,
    hruns.only, fun hwork ↦ absurd rfl hwork.2⟩
  · exact List.mem_append_right _ List.mem_cons_self
  · change (s.proxy.receiver.objects.free h).read h = none
    rw [Heap.read_free, if_pos rfl]
  · change h < (s.proxy.receiver.objects.free h).next
    rw [Heap.next_free]
    exact Heap.lt_next_of_read hholds.read
  · refine congrArg Except.ok ?_
    simp only [Proxy.cleaned, if_pos hid, OrderedMap.get_remove, ↓reduceIte]

/-- A step of the thread is the step that it takes alone. -/
theorem schedule (hruns : s.Runs mapTable worker h t) {env : Environment}
    (hstep : s.step mapTable config (.schedule worker env) = .ok s') :
    ∃ t', t.step config env = .ok t' ∧ s'.Runs mapTable worker h t' := by
  by_cases hdone : t.point = .done
  · obtain ⟨hfinished, _⟩ := hruns.done hdone
    have hnone : s.proxy.workOf worker = none := if_pos hfinished
    simp only [ThreadedProxy.step, hnone] at hstep
    obtain rfl := Except.ok.inj hstep
    exact ⟨t, by rw [Thread.step, hdone]; rfl, hruns⟩
  by_cases hcleanup : t.point = .cleanup
  · exact ⟨_, by rw [Thread.step, hcleanup]; rfl, hruns.cleanup hcleanup hstep⟩
  obtain ⟨hholds, hat⟩ := hruns.running hdone
  have hnothing := hruns.early ⟨hcleanup, hdone⟩
  have ht : (⟨s.point worker, t.request, none⟩ : Thread) = t := by rw [hat, ← hnothing]
  have hpoint : s.point worker ≠ .cleanup := by rwa [hat]
  have honly : t.request.requestId ≠ 0 → ∀ e ∈ s'.sent, e.2.requestId = t.request.requestId →
      e.1 = worker := by
    intro hid e he hke
    rcases sent_of_schedule hstep he with he | ⟨he, _⟩
    · exact hruns.only hid e he hke
    · exact he
  simp only [ThreadedProxy.step, hholds.running worker List.mem_cons_self, hholds.read,
    ThreadedProxy.advance, if_neg hpoint, ht] at hstep
  obtain ⟨t', hrun, hend⟩ := bind_eq_ok hstep
  have hsteps := Thread.steps_of_step hrun
  have hend' := hsteps.not_done ⟨hcleanup, hdone⟩
  rw [← hsteps.requestId] at honly
  cases hend
  refine ⟨t', hrun, fun _ ↦ ⟨⟨hholds.running, hholds.alone, ?_⟩, Function.update_self _ _ _⟩,
    fun hend ↦ absurd hend hend', fun hend ↦ absurd hend hend', ?_, honly,
    hruns.early.step hsteps⟩
  · change (s.proxy.receiver.objects.write h t'.request).read h = some t'.request
    rw [Heap.read_write _ _ _ _ (Heap.lt_next_of_read hholds.read), if_pos rfl]
  · have hbefore := hruns.sent
    rw [hnothing] at hbefore
    rw [ThreadedProxy.sentBy, List.filter_append, List.map_append, ← ThreadedProxy.sentBy, hbefore]
    cases t'.sent with
    | none => rfl
    | some r => simp

end ThreadedProxy.Runs

end Runs

/-- A run in which no packet has the id of the request of a thread is, for the thread, its own steps
and nothing else. -/
theorem ThreadedProxy.Runs.run {s s' : ThreadedMapProxy} {config : Config} {worker h : Nat}
    {t : Thread} {es : List ThreadEvent} (hi : ThreadInv s) (hruns : s.Runs mapTable worker h t)
    (hquiet : packetsOf t.request.requestId es = [])
    (hrun : s.run mapTable config es = .ok s') :
    ∃ t', t.run config (stepsOf worker es) = .ok t' ∧ s'.Runs mapTable worker h t' := by
  have hnone : ∀ d, ThreadEvent.packet d ∈ es → d.carries t.request.requestId = false := by
    intro d hd
    have := List.filterMap_eq_nil_iff.mp hquiet _ hd
    simpa using this
  have hstep : ∀ e ∈ es, ∀ (q q' : ThreadedMapProxy) (u : Thread), ThreadInv q →
      q.Runs mapTable worker h u ∧ u.request.requestId = t.request.requestId →
      q.step mapTable config e = .ok q' → ThreadInv q' ∧ ∃ u', Thread.Move config worker u e u' ∧
        q'.Runs mapTable worker h u' ∧ u'.request.requestId = t.request.requestId := by
    rintro e he q q' u hi ⟨hruns, hid⟩ hstep
    refine ⟨hi.step hstep, ?_⟩
    cases e with
    | packet d =>
      refine ⟨u, rfl, hruns.frame hi ?_ (fun _ _ h ↦ by cases h) hstep, hid⟩
      rintro d' hd'
      cases hd'
      rw [hid]
      exact hnone d he
    | schedule w env =>
      by_cases hw : w = worker
      · subst hw
        obtain ⟨u', hu', hruns'⟩ := hruns.schedule hstep
        refine ⟨u', ?_, hruns', (Thread.steps_of_step hu').requestId.trans hid⟩
        rw [Thread.Move, if_pos rfl, hu']
      · refine ⟨u, by rw [Thread.Move, if_neg hw],
          hruns.frame hi (fun _ h ↦ by cases h) ?_ hstep, hid⟩
        rintro w' env' hw'
        cases hw'
        exact hw
  obtain ⟨_, t', hmoves, hruns', _⟩ := Moves.of_foldlM hstep hi ⟨hruns, rfl⟩ hrun
  exact ⟨t', moves_iff_run.mp hmoves, hruns'⟩

/-! ### Tables that behave alike -/

/-- Threaded proxies that differ in their tables only. -/
structure ThreadedProxy.Related {T T' : Type} (R : T → T' → Prop) (s : ThreadedProxy T)
    (s' : ThreadedProxy T') : Prop where
  proxy : s.proxy.Related R s'.proxy
  point : s.point = s'.point
  sent : s.sent = s'.sent

section Simulation

variable {T T' : Type} {ops : RequestTable T} {ops' : RequestTable T'} {R : T → T' → Prop}
  {s : ThreadedProxy T} {s' : ThreadedProxy T'} {config : Config}

/-- The next step of a thread does the same. -/
private theorem advance_related (hsim : TableSimulation ops ops' R) (hs : s.Related R s')
    {worker h : Nat} {r : Request} (hw : s'.proxy.workOf worker = some h)
    (hr : s'.proxy.receiver.objects.read h = some r) (env : Environment) :
    ExceptRel (ThreadedProxy.Related R) (s.advance ops config worker h r env)
      (s'.advance ops' config worker h r env) := by
  have hworkOf : s.proxy.workOf worker = some h := by
    rw [Proxy.workOf, hs.proxy.finished, hs.proxy.receiver.dispatched]
    exact hw
  have hread : s.proxy.receiver.objects.read h = some r := by
    rw [hs.proxy.receiver.objects]
    exact hr
  unfold ThreadedProxy.advance
  rw [hs.point]
  split
  · have hfinish : ExceptRel (Proxy.Related R) (s.proxy.step ops config (.finish worker))
        (s'.proxy.step ops' config (.finish worker)) := step_related hsim hs.proxy _
    simp only [Proxy.step, hworkOf, hread, hw, hr] at hfinish
    obtain ⟨q, q', hq, hq', hR⟩ | ⟨e, hq, hq'⟩ := hfinish.outcome
    · rw [bind_of_ok hq, bind_of_ok hq']
      exact .ok ⟨hR, rfl, hs.sent⟩
    · rw [bind_of_error hq, bind_of_error hq']
      exact .error e
  · rcases error_or_ok (Thread.step config ⟨s'.point worker, r, none⟩ env) with
      ⟨fault, ht⟩ | ⟨t, ht⟩
    · rw [bind_of_error ht, bind_of_error ht]
      exact .error fault
    · rw [bind_of_ok ht, bind_of_ok ht, hs.sent, hs.proxy.receiver.objects]
      exact .ok ⟨⟨⟨rfl, hs.proxy.receiver.dispatched, hs.proxy.receiver.table⟩,
        hs.proxy.finished⟩, rfl, rfl⟩

/-- An event does the same. -/
theorem threadedStep_related (hsim : TableSimulation ops ops' R) (hs : s.Related R s')
    (e : ThreadEvent) :
    ExceptRel (ThreadedProxy.Related R) (s.step ops config e) (s'.step ops' config e) := by
  cases e with
  | packet d =>
    unfold ThreadedProxy.step
    dsimp only
    obtain ⟨q, q', hq, hq', hR⟩ | ⟨e, hq, hq'⟩ := (step_related hsim hs.proxy (.packet d)).outcome
    · rw [bind_of_ok hq, bind_of_ok hq']
      exact .ok ⟨hR, hs.point, hs.sent⟩
    · rw [bind_of_error hq, bind_of_error hq']
      exact .error e
  | schedule worker env =>
    have hworkOf : s.proxy.workOf worker = s'.proxy.workOf worker := by
      rw [Proxy.workOf, Proxy.workOf, hs.proxy.finished, hs.proxy.receiver.dispatched]
    unfold ThreadedProxy.step
    dsimp only
    rw [hworkOf, hs.proxy.receiver.objects]
    split
    · exact .ok hs
    · next h hw =>
      split
      · exact .error _
      · next r hr => exact advance_related hsim hs hw hr env

/-- Events do the same. -/
theorem threadedRun_related (hsim : TableSimulation ops ops' R) {t : T} {t' : T'} (hR : R t t')
    (es : List ThreadEvent) :
    ExceptRel (ThreadedProxy.Related R) ((ThreadedProxy.initial t).run ops config es)
      ((ThreadedProxy.initial t').run ops' config es) :=
  ExceptRel.foldlM (fun _ _ e hs ↦ threadedStep_related hsim hs e)
    ⟨initial_related hR, rfl, rfl⟩ es

/-- Where a thread is does not depend on the table. -/
theorem ThreadedProxy.Runs.transfer (hsim : TableSimulation ops ops' R) (hs : s.Related R s')
    {worker h : Nat} {t : Thread} (hruns : s'.Runs ops' worker h t) : s.Runs ops worker h t where
  running hpoint := by
    obtain ⟨hholds, hat⟩ := hruns.running hpoint
    exact ⟨hholds.transfer hs.proxy, by rw [hs.point, hat]⟩
  done hpoint := by
    rw [hs.proxy.finished, hs.proxy.receiver.objects]
    exact hruns.done hpoint
  gone hpoint hid := (hsim.getItem _ hs.proxy.receiver.table).trans (hruns.gone hpoint hid)
  sent := by
    rw [ThreadedProxy.sentBy, hs.sent]
    exact hruns.sent
  only := by
    rw [hs.sent]
    exact hruns.only
  early := hruns.early

end Simulation

end FfProxy
