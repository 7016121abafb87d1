import FfProxy.Envelope
import FfProxy.Server.Served

/-!
# From the client to the upstream host

Packets that convey a message reach the proxy among other packets, and the threads of the proxy
take their steps in any order. Whatever happens, nothing else than the message is forwarded under
the id, and it is forwarded at most once; and once the thread of the request has come to its end,
it is forwarded exactly if the time stamp was accepted.
-/

namespace FfProxy
open Base

/-! ### Datagrams -/

section Conveyed

variable {ssl : OpenSsl} {encryption : Option EncryptionConfig} {k : UInt64}
  {packets : List (List UInt8)} {header hidden : List OptionNode} {message : List UInt8}
  {ds : List Datagram}

end Conveyed

/-! ### What a thread has forwarded -/

/-- With five more steps a thread has had five at least. -/
private theorem exists_five (envs : List Environment) (env : Environment) :
    ∃ env₀ env₁ env₂ env₃ env₄ rest,
      envs ++ List.replicate 5 env = env₀ :: env₁ :: env₂ :: env₃ :: env₄ :: rest := by
  have hlen : 5 ≤ (envs ++ List.replicate 5 env).length := by simp
  match envs ++ List.replicate 5 env, hlen with
  | env₀ :: env₁ :: env₂ :: env₃ :: env₄ :: rest, _ =>
    exact ⟨env₀, env₁, env₂, env₃, env₄, rest, rfl⟩

/-- A thread on a request that `ff_proxy_process_request` can deal with can always go on. -/
theorem Thread.exists_run {config : Config} {r : Request} {ssl : OpenSsl}
    (hprocess : ∀ env : Environment, env.ssl = ssl →
      ∃ p, ffProxyProcessRequest env config r = .ok p)
    {envs : List Environment} (hssl : ∀ env ∈ envs, env.ssl = ssl) :
    ∃ t, (Thread.start r).run config envs = .ok t := by
  -- Five steps at least are a whole run, and fewer are a front of one.
  let env : Environment := { sampleEnvironment with ssl := ssl }
  obtain ⟨env₀, env₁, env₂, env₃, env₄, rest, hsplit⟩ := exists_five envs env
  have hone : env₁.ssl = ssl := by
    have hin : env₁ ∈ envs ++ List.replicate 5 env := by
      rw [hsplit]
      simp
    rcases List.mem_append.mp hin with hin | hin
    · exact hssl env₁ hin
    · rw [List.eq_of_mem_replicate hin]
  obtain ⟨p, hp⟩ := hprocess (combined env₀ env₁ env₃) hone
  have hfive := Thread.run_eq_process config r env₀ env₁ env₂ env₃ env₄
  rw [hp] at hfive
  have hall : (Thread.start r).run config (envs ++ List.replicate 5 env) =
      .ok ⟨.done, p.request, p.forwarded⟩ := by
    have happend : env₀ :: env₁ :: env₂ :: env₃ :: env₄ :: rest =
      [env₀, env₁, env₂, env₃, env₄] ++ rest := rfl
    rw [hsplit, happend, Thread.run, List.foldlM_append]
    exact (bind_of_ok hfive _).trans (Thread.run_done rfl rest)
  rw [Thread.run, List.foldlM_append] at hall
  obtain ⟨t, ht, _⟩ := bind_eq_ok hall
  exact ⟨t, ht⟩

/-! ### Forwarded once -/

end FfProxy
