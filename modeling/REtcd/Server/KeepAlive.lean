import REtcd.Server.LeaseTime

/-!
# What a keep-alive reply says

`LeaseKeepAlive` looks the lease up with `GET` and gives it its time back with `EXPIRE`.  Between the
two the lease may end, each of them may fail, every failure of the first is told as a TTL of 0, and
what becomes of the second is not looked at.

A run is cut at the two commands: the request is scheduled first after `ms₀`, under the surroundings
`e₀`, and again after `ms₁`, under `e₁`; all the rest of the schedule belongs to other requests, the
passing of leases' TTLs among them.  `keepAlive_truthful_iff` says when the reply is `TruthfulReply`.
-/

namespace REtcd.Server

open Base Store

/-- A reply tells of no lease only if there was none at the lookup `w₀`, and of `t` seconds only if
the lease was there at the renewal `w₁`, which was carried out and has left `t` seconds in `w₁'`. -/
structure TruthfulReply (id : ℤ) (resp : LeaseKeepAliveResponse) (w₀ w₁ w₁' : World) (e₁ : Env) :
    Prop where
  gone : resp.ttl = 0 → w₀.redis.leaseData id = none
  renewed : 0 < resp.ttl → w₁.redis.leaseData id ≠ none ∧ carriedOut e₁ ∧
    (w₁'.redis.leaseData id).map LeaseData.expiry = some (resp.ttl * 10 ^ 9)

/-! ### The two commands -/

theorem exec_renewLease {env : Env} (h : carriedOut env) (id dur : ℤ) (w : World) :
    (exec env (.renewLease id dur) w).2.redis.leaseData id =
      (w.redis.leaseData id).bind (LeaseData.expire dur) := by
  have hw : (exec env (.renewLease id dur) w).2 = (Cmd.run env (.renewLease id dur) w).2 := by
    rw [exec]
    cases hf : env.fault with
    | none => rfl
    | some f => simp [Cmd.remote, h f hf]
  rw [hw]
  exact Function.update_self ..

/-- `EXPIRE` is never asked for more than `9223372036` seconds. -/
theorem formatSec_seconds_le (ttl : ℤ) : formatSec (RedisStore.seconds ttl) ≤ 9223372036 := by
  have hlt : RedisStore.seconds ttl < 2 ^ 63 := by
    have h1 : ttl * 10 ^ 9 % 2 ^ 64 < 2 ^ 64 := Int.emod_lt_of_pos _ (by decide)
    rw [RedisStore.seconds, toInt64]
    split_ifs <;> omega
  rw [formatSec]
  split_ifs with hshort
  · decide
  · rcases le_or_gt 0 (RedisStore.seconds ttl) with h | h
    · rw [Int.tdiv_eq_ediv_of_nonneg h]
      omega
    · rw [← neg_neg (RedisStore.seconds ttl), Int.neg_tdiv, Int.tdiv_eq_ediv_of_nonneg (by omega)]
      omega

/-- **A renewal gives a lease its TTL back if the TTL is at most `9223372036` seconds.** -/
theorem expire_seconds_iff {ttl : ℤ} (h : 0 < ttl) (d : LeaseData) :
    (d.expire (RedisStore.seconds ttl)).map LeaseData.expiry = some (ttl * 10 ^ 9) ↔
      ttl ≤ 9223372036 := by
  constructor
  · intro he
    rw [LeaseData.expire] at he
    split_ifs at he with hpos
    · have hsec : formatSec (RedisStore.seconds ttl) = ttl := by simpa using he
      exact hsec ▸ formatSec_seconds_le ttl
    · cases he
  · intro hle
    have hsec := ((seconds_exact_iff h).mpr hle).2
    have hformat : formatSec (RedisStore.seconds ttl) = ttl := by
      rw [hsec, formatSec, if_neg (by omega), Int.mul_tdiv_cancel _ (by decide)]
    rw [LeaseData.expire, hformat, if_pos h]
    rfl

theorem stored_ttl_pos (reqs : List Request) (ms : List (ℕ × Env)) {id : ℤ} {d : LeaseData}
    (h : (Pool.run exec (start reqs) ms).shared.redis.leaseData id = some d) : 0 < d.ttl := by
  refine (Pool.calls_keep (I := fun w : World => ∀ d, w.redis.leaseData id = some d → 0 < d.ttl)
    ?_ ?_).2 d h
  · intro d h
    cases h
  · rintro ⟨j, c, r, v, v'⟩ hx hv d hd
    obtain ⟨hc, _, env, he⟩ := call_exec hx
    have hd' : (exec env c v).2.redis.leaseData id = some d := by
      rw [he]
      exact hd
    rcases exec_ttl hc hd' with ⟨d₀, h₀, ht⟩ | ⟨expiry, rfl⟩
    · rw [← ht]
      exact hv d₀ h₀
    · rcases expiry_origin hx rfl with ⟨reqTTL, _, _, _, _, hcmd⟩ | ⟨_, _, _, _, hcmd⟩
      · rw [(Cmd.setLease.inj hcmd).2.1]
        exact grantedTTL_pos reqTTL
      · cases hcmd

/-! ### The reply -/

/-- The reply is settled by the lookup, or there is a renewal and the reply is the TTL that was read. -/
theorem leaseKeepAlive_serve (id : ℤ) :
    ∃ k, (Request.leaseKeepAlive id).serve = .call (.getLease id) k ∧
      (∀ err, k (.error err) = .ret (.leaseKeepAlive ⟨headerAt 0, id, 0⟩)) ∧
      k (.ok none) = .ret (.leaseKeepAlive ⟨headerAt 0, id, 0⟩) ∧
      ∀ ttl, 0 < ttl → k (.ok (some ttl)) =
        if ttl < 2 ^ 63 then .call (.renewLease id (RedisStore.seconds ttl)) fun _ =>
          .ret (.leaseKeepAlive ⟨headerAt 0, id, ttl⟩)
        else .ret (.leaseKeepAlive ⟨headerAt 0, id, 0⟩) := by
  refine ⟨_, rfl, fun err => rfl, rfl, fun ttl hpos => ?_⟩
  have hparse : parseInt (goDecimal ttl) = if ttl < 2 ^ 63 then some ttl else none := by
    have hlow : -2 ^ 63 ≤ ttl := by omega
    simp only [goDecimal, parseInt, hlow, true_and]
  simp only [Prog.bind, hparse]
  split_ifs <;> rfl

theorem truthful_zero_iff {id : ℤ} {w₀ w₁ w₁' : World} {e₁ : Env} :
    TruthfulReply id ⟨headerAt 0, id, 0⟩ w₀ w₁ w₁' e₁ ↔ w₀.redis.leaseData id = none := by
  constructor
  · intro h
    exact h.gone rfl
  · intro h
    exact ⟨fun _ => h, fun hpos => absurd hpos (lt_irrefl _)⟩

/-- A reply that gives the TTL is truthful if the renewal has found the lease and was carried out,
and the TTL is not too long for a duration. -/
theorem truthful_renewed_iff {id ttl : ℤ} (hpos : 0 < ttl) {w₀ w₁ : World} {e₁ : Env} :
    TruthfulReply id ⟨headerAt 0, id, ttl⟩ w₀ w₁
        (exec e₁ (.renewLease id (RedisStore.seconds ttl)) w₁).2 e₁ ↔
      ttl ≤ 9223372036 ∧ w₁.redis.leaseData id ≠ none ∧ carriedOut e₁ := by
  constructor
  · intro h
    obtain ⟨hne, hcarried, hexp⟩ := h.renewed hpos
    obtain ⟨d₁, hd₁⟩ := Option.ne_none_iff_exists'.mp hne
    rw [exec_renewLease hcarried, hd₁, Option.bind_some, expire_seconds_iff hpos] at hexp
    exact ⟨hexp, hne, hcarried⟩
  · rintro ⟨hle, hne, hcarried⟩
    obtain ⟨d₁, hd₁⟩ := Option.ne_none_iff_exists'.mp hne
    refine ⟨fun hz => absurd hz hpos.ne', fun _ => ⟨hne, hcarried, ?_⟩⟩
    rw [exec_renewLease hcarried, hd₁, Option.bind_some]
    exact (expire_seconds_iff hpos d₁).mpr hle

theorem leaseKeepAlive_lookup (id : ℤ) :
    ∃ k, (Request.leaseKeepAlive id).serve = .call (.getLease id) k ∧
      ∀ (w : World) (env : Env), (∀ d, w.redis.leaseData id = some d → 0 < d.ttl) →
        (k (exec env (.getLease id) w).1 = .ret (.leaseKeepAlive ⟨headerAt 0, id, 0⟩) ∧
          ∀ d, w.redis.leaseData id = some d → env.fault = none → ¬ d.ttl ≤ 9223372036) ∨
        ∃ d, w.redis.leaseData id = some d ∧ env.fault = none ∧
          k (exec env (.getLease id) w).1 = .call (.renewLease id (RedisStore.seconds d.ttl))
            fun _ => .ret (.leaseKeepAlive ⟨headerAt 0, id, d.ttl⟩) := by
  obtain ⟨k, hserve, herr, hnone, hsome⟩ := leaseKeepAlive_serve id
  refine ⟨k, hserve, fun w env hpos => ?_⟩
  rw [exec]
  cases hf : env.fault with
  | some f =>
    refine Or.inl ⟨herr f.msg, fun d _ h => ?_⟩
    cases h
  | none =>
    rw [Cmd.run]
    cases hd : w.redis.leaseData id with
    | none =>
      refine Or.inl ⟨hnone, fun d h => ?_⟩
      cases h
    | some d =>
      have hk := hsome d.ttl (hpos d hd)
      split_ifs at hk with hlong
      · exact Or.inr ⟨d, rfl, rfl, hk⟩
      · refine Or.inl ⟨hk, fun d' h _ => ?_⟩
        cases h
        omega

section Reply

variable {reqs : List Request} {ms₀ ms₁ : List (ℕ × Env)} {i : ℕ} {id : ℤ} {e₀ e₁ : Env}

/-- **When a keep-alive reply is truthful.**  The request always answers, and its reply is truthful if
and only if the lease did not exist when it was looked up, or else the lookup was answered, the
lease was still there at the renewal, the renewal was carried out, and the TTL is not too long for a
duration. -/
theorem keepAlive_truthful_iff (hreq : reqs[i]? = some (.leaseKeepAlive id))
    (h₀ : ∀ m ∈ ms₀, m.1 ≠ i) (h₁ : ∀ m ∈ ms₁, m.1 ≠ i) :
    ∃ resp, (Pool.run exec (start reqs) (ms₀ ++ (i, e₀) :: ms₁ ++ [(i, e₁)])).procs[i]? =
        some (.ret (.leaseKeepAlive resp)) ∧
      (TruthfulReply id resp (Pool.run exec (start reqs) ms₀).shared
          (Pool.run exec (start reqs) (ms₀ ++ (i, e₀) :: ms₁)).shared
          (Pool.run exec (start reqs) (ms₀ ++ (i, e₀) :: ms₁ ++ [(i, e₁)])).shared e₁ ↔
        ∀ d, (Pool.run exec (start reqs) ms₀).shared.redis.leaseData id = some d →
          e₀.fault = none ∧ d.ttl ≤ 9223372036 ∧
          (Pool.run exec (start reqs) (ms₀ ++ (i, e₀) :: ms₁)).shared.redis.leaseData id ≠ none ∧
          carriedOut e₁) := by
  obtain ⟨k, hserve, hlookup⟩ := leaseKeepAlive_lookup id
  have hpos : ∀ d, (Pool.run exec (start reqs) ms₀).shared.redis.leaseData id = some d →
      0 < d.ttl := fun d => stored_ttl_pos reqs ms₀
  have hp₀ : (Pool.run exec (start reqs) ms₀).procs[i]? = some (.call (.getLease id) k) := by
    rw [Pool.run_skip exec _ h₀, start, List.getElem?_map, hreq, Option.map_some, hserve]
  have hp₁ := Pool.run_call exec hp₀ e₀ h₁
  have hlast : Pool.run exec (start reqs) (ms₀ ++ (i, e₀) :: ms₁ ++ [(i, e₁)]) = Pool.step exec
      (Pool.run exec (start reqs) (ms₀ ++ (i, e₀) :: ms₁)) (i, e₁) := Pool.run_append exec ..
  rw [hlast, Pool.run_append]
  generalize Pool.run exec (start reqs) ms₀ = pool₀ at hp₁ hpos ⊢
  generalize Pool.run exec pool₀ ((i, e₀) :: ms₁) = pool₁ at hp₁ ⊢
  rcases hlookup pool₀.shared e₀ hpos with ⟨hk, hnot⟩ | ⟨d, hd, hf, hk⟩
  · -- the reply is 0
    rw [hk] at hp₁
    refine ⟨_, by rw [Pool.step_ret exec hp₁, hp₁], ?_⟩
    rw [truthful_zero_iff]
    constructor
    · intro hnone d hd
      rw [hnone] at hd
      cases hd
    · intro h
      by_contra hne
      obtain ⟨d, hd⟩ := Option.ne_none_iff_exists'.mp hne
      obtain ⟨hf, hle, _⟩ := h d hd
      exact hnot d hd hf hle
  · -- the lease is renewed
    rw [hk] at hp₁
    obtain ⟨hshared, hp₂⟩ := Pool.step_call exec hp₁ e₁
    refine ⟨_, hp₂, ?_⟩
    rw [hshared, truthful_renewed_iff (hpos d hd)]
    constructor
    · intro h d' hd'
      obtain rfl : d = d' := Option.some.inj (hd.symm.trans hd')
      exact ⟨hf, h⟩
    · intro h
      exact (h d hd).2

end Reply

def grantAndKeep (ttl : ℤ) : List Request := [.leaseGrant ttl, .leaseKeepAlive 1, .expire 1]

def granted : List (ℕ × Env) := [(0, .plain 1), (0, .plain 1), (0, .plain 1)]

/-- A keep-alive that nothing disturbs. -/
theorem keepAlive_undisturbed :
    ∃ resp, (Pool.run exec (start (grantAndKeep 5))
        (granted ++ (1, .plain 2) :: [] ++ [(1, .plain 2)])).procs[1]? =
        some (.ret (.leaseKeepAlive resp)) ∧
      TruthfulReply 1 resp (Pool.run exec (start (grantAndKeep 5)) granted).shared
        (Pool.run exec (start (grantAndKeep 5)) (granted ++ (1, .plain 2) :: [])).shared
        (Pool.run exec (start (grantAndKeep 5))
          (granted ++ (1, .plain 2) :: [] ++ [(1, .plain 2)])).shared (.plain 2) := by
  obtain ⟨resp, hresp, htruthful⟩ := @keepAlive_truthful_iff (grantAndKeep 5) granted [] 1 1
    (.plain 2) (.plain 2) rfl (by decide) (by decide)
  refine ⟨resp, hresp, htruthful.mpr fun d hd => ⟨rfl, ?_, ?_, ?_⟩⟩
  · cases hd
    decide
  · intro h
    cases h
  · decide

/-- The keep-alive for a lease of `ttl` seconds answers `t` seconds, and that is not truthful. -/
def Misleads (ttl : ℤ) (e₀ : Env) (ms₁ : List (ℕ × Env)) (e₁ : Env) (t : ℤ) : Prop :=
  ∃ resp, (Pool.run exec (start (grantAndKeep ttl))
      (granted ++ (1, e₀) :: ms₁ ++ [(1, e₁)])).procs[1]? = some (.ret (.leaseKeepAlive resp)) ∧
    resp.ttl = t ∧
    ¬ TruthfulReply 1 resp (Pool.run exec (start (grantAndKeep ttl)) granted).shared
      (Pool.run exec (start (grantAndKeep ttl)) (granted ++ (1, e₀) :: ms₁)).shared
      (Pool.run exec (start (grantAndKeep ttl)) (granted ++ (1, e₀) :: ms₁ ++ [(1, e₁)])).shared e₁

/-- **Four replies that are not truthful**: the lookup is refused, and the client is told that there
is no lease; the lease ends before the renewal, the renewal is refused, or it ends the lease because
the duration has wrapped, and the client is told that it has its time back. -/
theorem keepAlive_misleads :
    Misleads 5 { Env.plain 2 with fault := some ⟨"timeout", false⟩ } [] (.plain 2) 0 ∧
    Misleads 5 (.plain 2) [(2, .plain 2)] (.plain 2) 5 ∧
    Misleads 5 (.plain 2) [] { Env.plain 2 with fault := some ⟨"timeout", false⟩ } 5 ∧
    Misleads (10 ^ 10) (.plain 2) [] (.plain 2) (10 ^ 10) := by
  refine ⟨⟨_, rfl, rfl, fun h => ?_⟩, ⟨_, rfl, rfl, fun h => ?_⟩, ⟨_, rfl, rfl, fun h => ?_⟩,
    ⟨_, rfl, rfl, fun h => ?_⟩⟩
  · cases h.gone rfl
  · exact (h.renewed (by decide)).1 rfl
  · cases (h.renewed (by decide)).2.1 _ rfl
  · cases (h.renewed (by decide)).2.2

end REtcd.Server
