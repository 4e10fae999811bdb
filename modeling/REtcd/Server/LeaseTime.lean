import REtcd.Base.Ascending
import REtcd.Server.System

/-!
# How long a lease lives

A lease is granted with a TTL in seconds.  `LeaseGrant` hands the client library a duration for
the `SET` of `lease:<id>`, and every `LeaseRenew` hands it one for the `EXPIRE`; both are
`seconds ttl`, the TTL times `10 ^ 9` in 64-bit arithmetic.

* `seconds_exact_iff`: the product is the duration that is meant up to `9223372036` seconds.
* `expiry_origin`: who gives a lease an expiry.  The grant has been told the ID by `INCR`, which
  tells no ID twice (`incr_unique`), and a renewal has read the TTL from `lease:<id>`.
* `stored_ttl`: what `lease:<id>` holds is the TTL of its grant, in every state of the run.

`durations_exact_iff` puts them together.
-/

namespace REtcd.Server

open Base Store

/-- **A duration is exact up to `9223372036` seconds.** -/
theorem seconds_exact_iff {ttl : ℤ} (h : 0 < ttl) :
    (0 < RedisStore.seconds ttl ∧ RedisStore.seconds ttl = ttl * 10 ^ 9) ↔ ttl ≤ 9223372036 := by
  rw [RedisStore.seconds, toInt64]
  constructor
  · rintro ⟨-, he⟩
    have h0 : 0 ≤ ttl * 10 ^ 9 % 2 ^ 64 := Int.emod_nonneg _ (by decide)
    have h1 : ttl * 10 ^ 9 % 2 ^ 64 < 2 ^ 64 := Int.emod_lt_of_pos _ (by decide)
    split_ifs at he with hlt <;> omega
  · intro hle
    have he : ttl * 10 ^ 9 % 2 ^ 64 = ttl * 10 ^ 9 := Int.emod_eq_of_lt (by omega) (by omega)
    rw [he, if_pos (by omega)]
    exact ⟨by omega, rfl⟩

/-- The lease that a command gives an expiry, and the duration that it is handed. -/
def expiryOf : Cmd → Option (ℤ × ℤ)
  | .setLease id _ expiry => some (id, expiry)
  | .renewLease id expiry => some (id, expiry)
  | _ => none

/-! ### What the commands do to the leases -/

theorem writeLua_leases (now : ℕ) (a : WriteArgs) (s : Redis) :
    (writeLua now a s).2.leaseIDCounter = s.leaseIDCounter ∧
      (writeLua now a s).2.leaseData = s.leaseData := by
  unfold writeLua
  split
  · exact ⟨rfl, rfl⟩
  · rw [writeDelete]
    cases hi : s.incr with
    | none => exact ⟨rfl, rfl⟩
    | some p =>
      obtain ⟨rev, t⟩ := p
      obtain ⟨_, rfl, rfl⟩ := incr_some hi
      dsimp only
      split_ifs <;> exact ⟨rfl, rfl⟩
  · rw [writePut]
    cases hi : s.incr with
    | none => exact ⟨rfl, rfl⟩
    | some p =>
      obtain ⟨rev, t⟩ := p
      obtain ⟨_, rfl, rfl⟩ := incr_some hi
      dsimp only
      split_ifs <;> exact ⟨rfl, rfl⟩

theorem txnLua_leases (now : ℕ) {a : TxnArgs} (hop : a.op = .put) (s : Redis) :
    (txnLua now a s).2.leaseIDCounter = s.leaseIDCounter ∧
      (txnLua now a s).2.leaseData = s.leaseData := by
  cases hc : txnCompare a.expected (s.kv a.key) with
  | false =>
    rw [txnLua_of_fails now hc]
    exact ⟨rfl, rfl⟩
  | true =>
    rw [txnLua_of_holds now hop hc, txnPut]
    cases hi : s.incr with
    | none => exact ⟨rfl, rfl⟩
    | some p =>
      obtain ⟨rev, t⟩ := p
      obtain ⟨_, rfl, rfl⟩ := incr_some hi
      dsimp only
      exact ⟨rfl, rfl⟩

theorem exec_leaseIDCounter_le (env : Env) (c : Cmd) (w : World) (hc : c.Issued) :
    w.redis.leaseIDCounter ≤ (exec env c w).2.redis.leaseIDCounter := by
  rcases exec_world env c w with h | h
  · rw [h]
  · rw [h]
    cases c with
    | evalWrite a => exact (writeLua_leases env.now a w.redis).1.ge
    | evalTxn a => exact (txnLua_leases env.now hc w.redis).1.ge
    | incrLeaseID =>
      simp only [Cmd.run]
      split_ifs
      · exact Int.le_add_one le_rfl
      · exact le_rfl
    | _ => exact le_rfl

theorem exec_ttl {env : Env} {c : Cmd} {w : World} (hc : c.Issued) {id : ℤ} {d : LeaseData}
    (h : (exec env c w).2.redis.leaseData id = some d) :
    (∃ d₀, w.redis.leaseData id = some d₀ ∧ d₀.ttl = d.ttl) ∨
      ∃ expiry, c = .setLease id d.ttl expiry := by
  rcases exec_world env c w with hw | hw
  · rw [hw] at h
    exact Or.inl ⟨d, h, rfl⟩
  rw [hw] at h
  -- a command that leaves lease `id` alone leaves its TTL
  have hsame : (c.run env w).2.redis.leaseData id = w.redis.leaseData id →
      ∃ d₀, w.redis.leaseData id = some d₀ ∧ d₀.ttl = d.ttl := fun hs => ⟨d, hs ▸ h, rfl⟩
  -- one that ends the lease leaves none
  have hgone : ∀ id', (c.run env w).2.redis.leaseData =
      Function.update w.redis.leaseData id' none →
      ∃ d₀, w.redis.leaseData id = some d₀ ∧ d₀.ttl = d.ttl := by
    intro id' hs
    rw [hs, Function.update_apply] at h
    split_ifs at h with hid
    exact ⟨d, h, rfl⟩
  cases c with
  | evalWrite a => exact Or.inl (hsame (congrFun (writeLua_leases env.now a w.redis).2 id))
  | evalTxn a => exact Or.inl (hsame (congrFun (txnLua_leases env.now hc w.redis).2 id))
  | incrLeaseID =>
    refine Or.inl (hsame ?_)
    simp only [Cmd.run]
    split_ifs <;> rfl
  | setLease id' ttl expiry =>
    simp only [Cmd.run, World.modify, Function.update_apply] at h
    split_ifs at h with hid
    · cases h
      subst hid
      exact Or.inr ⟨expiry, rfl⟩
    · exact Or.inl ⟨d, h, rfl⟩
  | renewLease id' expiry =>
    simp only [Cmd.run, Function.update_apply] at h
    split_ifs at h with hid
    · subst hid
      obtain ⟨d₀, h₀, hd⟩ := Option.bind_eq_some_iff.mp h
      rw [LeaseData.expire] at hd
      split_ifs at hd
      cases hd
      exact Or.inl ⟨d₀, h₀, rfl⟩
    · exact Or.inl ⟨d, h, rfl⟩
  | delLease id' => exact Or.inl (hgone id' rfl)
  | expireLease id' => exact Or.inl (hgone id' rfl)
  | _ => exact Or.inl (hsame rfl)

/-! ### Who gives a lease an expiry -/

/-- The TTL that a grant reports: one that is not positive becomes 30 seconds. -/
def grantedTTL (reqTTL : ℤ) : ℤ := if reqTTL ≤ 0 then 30 else reqTTL

theorem grantedTTL_pos (reqTTL : ℤ) : 0 < grantedTTL reqTTL := by
  rw [grantedTTL]
  split_ifs <;> omega

/-- A grant asks for an ID, sets the lease of that ID and reports the ID with the TTL. -/
theorem leaseGrant_first (reqTTL : ℤ) :
    (Request.leaseGrant reqTTL).serve.First .incrLeaseID fun r p =>
      (∀ err, r = .error err →
        p.Uses (fun _ => False) ∧ p.Returns fun a => ∀ resp, a ≠ .leaseGrant (.ok resp)) ∧
      ∀ id, r = .ok id → p.First
        (.setLease id (grantedTTL reqTTL) (RedisStore.seconds (grantedTTL reqTTL))) fun _ q =>
          q.Uses (fun c => expiryOf c = none) ∧ q.Returns fun a => ∀ resp,
            a = .leaseGrant (.ok resp) → resp = ⟨headerAt 0, id, grantedTTL reqTTL⟩ := by
  refine ⟨_, rfl, fun r => ⟨?_, ?_⟩⟩
  · rintro err rfl
    refine ⟨trivial, ?_⟩
    intro resp h
    cases h
  · rintro id rfl
    refine ⟨_, rfl, fun r₁ => ⟨⟨rfl, fun r₂ => ?_⟩, fun r₂ => ?_⟩⟩
    · cases r₁ <;> cases r₂ <;> trivial
    · -- the pipeline answers if both of its commands do
      cases r₁ <;> cases r₂ <;> intro resp h <;> cases h
      rfl

theorem leaseKeepAlive_first (id : ℤ) :
    (Request.leaseKeepAlive id).serve.First (.getLease id) fun r p =>
      p.Uses fun c => ∃ ttl, r = .ok (some ttl) ∧ c = .renewLease id (RedisStore.seconds ttl) := by
  have hrenew : (RedisStore.leaseRenew id).First (.getLease id) fun r p =>
      p.Uses fun c => ∃ ttl, r = .ok (some ttl) ∧ c = .renewLease id (RedisStore.seconds ttl) := by
    refine Prog.first_cmd fun r => ?_
    rcases r with err | _ | ttl
    · trivial
    · trivial
    · dsimp only
      cases hp : parseInt (goDecimal ttl) with
      | none => trivial
      | some n =>
        rw [goDecimal, parseInt] at hp
        split_ifs at hp
        cases hp
        exact Prog.uses_cmd ⟨ttl, rfl, rfl⟩ fun _ => trivial
  refine (hrenew.bind fun r p hp => ?_).bind fun r p hp => Prog.uses_bind hp fun _ => trivial
  refine Prog.uses_bind hp fun y => ?_
  cases y <;> trivial

theorem expiryOf_quiet {c : Cmd} (h : c.Quiet) : expiryOf c = none := by
  cases c with
  | setLease | renewLease => exact h.elim
  | _ => rfl

theorem serve_expiryOf {req : Request} (hg : ∀ ttl, req ≠ .leaseGrant ttl)
    (hk : ∀ id, req ≠ .leaseKeepAlive id) : req.serve.Uses fun c => expiryOf c = none := by
  have hq : ∀ c : Cmd, c.Quiet → expiryOf c = none := fun _ => expiryOf_quiet
  have hd : ∀ key, expiryOf (.evalWrite ⟨key, .delete, [], 0⟩) = none := fun _ => rfl
  cases req with
  | put req => exact Prog.uses_bind (KVServer.put_uses hq rfl) fun _ => trivial
  | range req => exact Prog.uses_bind (KVServer.range_uses hq req) fun _ => trivial
  | deleteRange req => exact Prog.uses_bind (KVServer.deleteRange_uses hq hd req) fun _ => trivial
  | txn req =>
    exact Prog.uses_bind (KVServer.txn_uses hq hd (fun _ _ => rfl) (fun _ _ => rfl) req)
      fun _ => trivial
  | leaseGrant ttl => exact absurd rfl (hg ttl)
  | leaseRevoke id =>
    refine Prog.uses_bind (Prog.uses_bind (RedisStore.leaseRevoke_uses hq hd _ ?_) fun r => ?_)
      fun _ => trivial
    · exact ⟨rfl, rfl, rfl⟩
    · cases r <;> trivial
  | leaseKeepAlive id => exact absurd rfl (hk id)
  | reap =>
    refine Prog.uses_bind (RedisStore.reapExpiredLeases_uses hq hd fun _ => ?_) fun _ => trivial
    exact ⟨rfl, rfl⟩
  | expire id => exact ⟨rfl, fun _ => trivial⟩

section Runs

variable {reqs : List Request} {ms : List (ℕ × Env)}

/-- **Who gives lease `id` an expiry**: the grant that was told the ID, or a renewal that has read a
TTL from `lease:<id>`. -/
theorem expiry_origin {x : Call Cmd Reply World} (hx : x ∈ Pool.calls exec (start reqs) ms)
    {id dur : ℤ} (he : expiryOf x.cmd = some (id, dur)) :
    (∃ reqTTL w w', reqs[x.proc]? = some (.leaseGrant reqTTL) ∧
      ⟨x.proc, .incrLeaseID, .ok id, w, w'⟩ ∈ Pool.calls exec (start reqs) ms ∧
      x.cmd = .setLease id (grantedTTL reqTTL) (RedisStore.seconds (grantedTTL reqTTL))) ∨
    ∃ ttl w w', ⟨x.proc, .getLease id, .ok (some ttl), w, w'⟩ ∈ Pool.calls exec (start reqs) ms ∧
      x.cmd = .renewLease id (RedisStore.seconds ttl) := by
  obtain ⟨req, q, hreq, hmem, hpath⟩ := issued_by hx
  -- the first command of the request's own history
  have hhead : ∀ {j c r w w' l}, (Pool.calls exec (start reqs) ms).filter
      (fun y => y.proc = x.proc) = ⟨j, c, r, w, w'⟩ :: l →
      ⟨x.proc, c, r, w, w'⟩ ∈ Pool.calls exec (start reqs) ms := by
    intro j c r w w' l hl
    obtain ⟨hy, hj⟩ := List.mem_filter.mp (hl ▸ List.mem_cons_self)
    have hj : j = x.proc := by simpa using hj
    exact hj ▸ hy
  by_cases hg : ∃ ttl, req = .leaseGrant ttl
  · obtain ⟨reqTTL, rfl⟩ := hg
    left
    rcases hpath.begun (leaseGrant_first reqTTL) with hl | ⟨j, r, w, w', l, p, hl, ⟨herr, hok⟩, hrest⟩
    · rw [hl] at hmem
      exact absurd hmem List.not_mem_nil
    rw [hl] at hmem
    rcases List.mem_cons.mp hmem with rfl | hrest'
    · cases he
    cases r with
    | error err => exact (hrest.uses (herr err rfl).1 x hrest').elim
    | ok id' =>
      rcases hrest.begun (hok id' rfl) with rfl | ⟨_, r₁, v, v', l₁, p₁, rfl, ⟨huses, _⟩, hend⟩
      · exact absurd hrest' List.not_mem_nil
      rcases List.mem_cons.mp hrest' with rfl | hlast
      · cases he
        exact ⟨reqTTL, w, w', hreq, hhead hl, rfl⟩
      · rw [hend.uses huses x hlast] at he
        cases he
  by_cases hk : ∃ id, req = .leaseKeepAlive id
  · obtain ⟨id', rfl⟩ := hk
    right
    rcases hpath.begun (leaseKeepAlive_first id') with hl | ⟨j, r, w, w', l, p, hl, huses, hrest⟩
    · rw [hl] at hmem
      exact absurd hmem List.not_mem_nil
    rw [hl] at hmem
    rcases List.mem_cons.mp hmem with rfl | hmem
    · cases he
    obtain ⟨ttl, rfl, hc⟩ := hrest.uses huses x hmem
    rw [hc] at he
    cases he
    exact ⟨ttl, w, w', hhead hl, hc⟩
  · have := hpath.uses (serve_expiryOf (fun ttl h => hg ⟨ttl, h⟩) fun id h => hk ⟨id, h⟩) x hmem
    rw [this] at he
    cases he

/-- **No ID is given out twice.** -/
theorem incr_unique {i j : ℕ} {id : ℤ} {w w' v v' : World}
    (hx : ⟨i, .incrLeaseID, .ok id, w, w'⟩ ∈ Pool.calls exec (start reqs) ms)
    (hy : ⟨j, .incrLeaseID, .ok id, v, v'⟩ ∈ Pool.calls exec (start reqs) ms) : i = j := by
  have hcounter : ∀ {i w w'}, ⟨i, .incrLeaseID, .ok id, w, w'⟩ ∈ Pool.calls exec (start reqs) ms →
      w.redis.leaseIDCounter < id ∧ id = w'.redis.leaseIDCounter := by
    intro i w w' h
    obtain ⟨_, _, env, he⟩ := call_exec h
    have hrun := run_of_exec_ok he
    simp only [Cmd.run] at hrun
    split_ifs at hrun
    · cases hrun
      exact ⟨Int.lt_succ _, rfl⟩
    · cases hrun
  have hord := Pool.calls_pairwise (fun w w' : World =>
    w.redis.leaseIDCounter ≤ w'.redis.leaseIDCounter) (fun _ => le_rfl) (fun _ _ _ => le_trans)
    exec_leaseIDCounter_le (start_issued reqs) ms
  by_contra hij
  have hne : (⟨i, .incrLeaseID, .ok id, w, w'⟩ : Call Cmd Reply World) ≠
      ⟨j, .incrLeaseID, .ok id, v, v'⟩ := fun h => hij (congrArg Call.proc h)
  obtain ⟨hw, hw'⟩ := hcounter hx
  obtain ⟨hv, hv'⟩ := hcounter hy
  rcases pairwise_or hord hx hy hne with h | h
  · dsimp only at h
    omega
  · dsimp only at h
    omega

variable {i : ℕ} {reqTTL : ℤ}

/-- What lease `id` holds, for an ID that the grant `i` was told, is the TTL of that grant. -/
theorem stored_ttl {id : ℤ} {w w' : World} (hreq : reqs[i]? = some (.leaseGrant reqTTL))
    (hid : ⟨i, .incrLeaseID, .ok id, w, w'⟩ ∈ Pool.calls exec (start reqs) ms) :
    ∀ x ∈ Pool.calls exec (start reqs) ms, ∀ d, x.before.redis.leaseData id = some d →
      d.ttl = grantedTTL reqTTL := by
  refine (Pool.calls_keep (I := fun v : World => ∀ d, v.redis.leaseData id = some d →
    d.ttl = grantedTTL reqTTL) ?_ ?_).1
  · intro d h
    cases h
  · rintro ⟨j, c, r, v, v'⟩ hx hv d hd
    obtain ⟨hc, _, env, he⟩ := call_exec hx
    have hd' : (exec env c v).2.redis.leaseData id = some d := by
      rw [he]
      exact hd
    rcases exec_ttl hc hd' with ⟨d₀, h₀, ht⟩ | ⟨expiry, rfl⟩
    · rw [← ht]
      exact hv d₀ h₀
    · rcases expiry_origin hx rfl with ⟨reqTTL', u, u', hreq', hid', hcmd⟩ | ⟨_, _, _, _, hcmd⟩
      · -- the ID was told once, so this is the grant `i`
        have hij : i = j := incr_unique hid hid'
        subst hij
        rw [hreq] at hreq'
        cases hreq'
        exact (Cmd.setLease.inj hcmd).2.1
      · cases hcmd

theorem leaseGrant_answered {resp : LeaseGrantResponse}
    (hreq : reqs[i]? = some (.leaseGrant reqTTL))
    (ha : (Pool.run exec (start reqs) ms).procs[i]? = some (.ret (.leaseGrant (.ok resp)))) :
    resp.ttl = grantedTTL reqTTL ∧
    (∃ w w', ⟨i, .incrLeaseID, .ok resp.id, w, w'⟩ ∈ Pool.calls exec (start reqs) ms) ∧
    ∃ r w w', ⟨i, .setLease resp.id resp.ttl (RedisStore.seconds resp.ttl), r, w, w'⟩ ∈
      Pool.calls exec (start reqs) ms := by
  have hmem : ∀ {y : Call Cmd Reply World},
      y ∈ (Pool.calls exec (start reqs) ms).filter (fun x => x.proc = i) →
      y ∈ Pool.calls exec (start reqs) ms ∧ y.proc = i := by
    intro y hy
    simpa using List.mem_filter.mp hy
  have hpath := answered hreq ha
  obtain ⟨j, r, w, w', l, p, hl, ⟨herr, hok⟩, hrest⟩ := hpath.first (leaseGrant_first reqTTL)
  rw [hl] at hmem
  cases r with
  | error err => exact absurd rfl (hrest.returns (herr err rfl).2 resp)
  | ok id =>
    obtain ⟨j₁, r₁, v, v', l₁, q, rfl, ⟨_, hret⟩, hrest⟩ := hrest.first (hok id rfl)
    obtain rfl := hrest.returns hret resp rfl
    obtain ⟨h₀, rfl⟩ := hmem List.mem_cons_self
    obtain ⟨h₁, hj⟩ := hmem (List.mem_cons_of_mem _ List.mem_cons_self)
    dsimp only at hj
    subst hj
    exact ⟨rfl, ⟨w, w', h₀⟩, r₁, v, v', h₁⟩

/-- **Lease durations are exact up to `9223372036` seconds.**  The lease that a grant reports is set
in the run, and the durations that its `SET` and all its renewals are handed are the reported TTL in
nanoseconds if and only if the TTL is at most that long. -/
theorem durations_exact_iff {resp : LeaseGrantResponse}
    (hreq : reqs[i]? = some (.leaseGrant reqTTL))
    (ha : (Pool.run exec (start reqs) ms).procs[i]? = some (.ret (.leaseGrant (.ok resp)))) :
    resp.ttl = (if reqTTL ≤ 0 then 30 else reqTTL) ∧
    (∃ r w w', ⟨i, .setLease resp.id resp.ttl (RedisStore.seconds resp.ttl), r, w, w'⟩ ∈
      Pool.calls exec (start reqs) ms) ∧
    ((∀ x ∈ Pool.calls exec (start reqs) ms, ∀ dur, expiryOf x.cmd = some (resp.id, dur) →
        0 < dur ∧ dur = resp.ttl * 10 ^ 9) ↔ resp.ttl ≤ 9223372036) := by
  obtain ⟨httl, ⟨w, w', hid⟩, r, v, v', hset⟩ := leaseGrant_answered hreq ha
  have hpos : 0 < resp.ttl := httl ▸ grantedTTL_pos reqTTL
  refine ⟨httl, ⟨r, v, v', hset⟩, fun h => ?_, fun hle x hx dur he => ?_⟩
  · exact (seconds_exact_iff hpos).mp (h _ hset _ rfl)
  · -- whoever gives the lease an expiry goes by the TTL of the grant
    have hdur : dur = RedisStore.seconds resp.ttl := by
      rcases expiry_origin hx he with ⟨reqTTL', u, u', hreq', hid', hc⟩ | ⟨ttl, u, u', hget, hc⟩
      · rw [← incr_unique hid hid', hreq] at hreq'
        cases hreq'
        rw [hc] at he
        cases he
        rw [httl]
      · rw [hc] at he
        cases he
        obtain ⟨_, _, env, hexec⟩ := call_exec hget
        have hrun := run_of_exec_ok hexec
        simp only [Cmd.run, Prod.mk.injEq, Except.ok.injEq, Option.map_eq_some_iff] at hrun
        obtain ⟨⟨d, hd, rfl⟩, _⟩ := hrun
        rw [httl, stored_ttl hreq hid _ hget d hd]
    rw [hdur]
    exact (seconds_exact_iff hpos).mpr hle

end Runs

def grantThenRenew (ttl : ℤ) : List Request := [.leaseGrant ttl, .leaseKeepAlive 1]

def oneAfterTheOther : List (ℕ × Env) :=
  [(0, .plain 1), (0, .plain 1), (0, .plain 1), (1, .plain 2), (1, .plain 2)]

/-- The durations of a lease of five seconds. -/
theorem fiveSeconds_exact :
    (∃ x ∈ Pool.calls exec (start (grantThenRenew 5)) oneAfterTheOther,
      expiryOf x.cmd = some (1, RedisStore.seconds 5)) ∧
    ∀ x ∈ Pool.calls exec (start (grantThenRenew 5)) oneAfterTheOther, ∀ dur,
      expiryOf x.cmd = some (1, dur) → 0 < dur ∧ dur = 5 * 10 ^ 9 := by
  obtain ⟨_, ⟨r, w, w', hset⟩, hexact⟩ := @durations_exact_iff (grantThenRenew 5) oneAfterTheOther
    0 5 ⟨headerAt 0, 1, 5⟩ rfl rfl
  exact ⟨⟨_, hset, rfl⟩, hexact.mpr (by decide)⟩

/-- **A lease of `10 ^ 10` seconds is set and renewed with a negative duration**, and the renewal ends
it; one of `18446744074` seconds is given less than a second. -/
theorem duration_wraps :
    (Pool.run exec (start (grantThenRenew (10 ^ 10))) oneAfterTheOther).procs =
      [.ret (.leaseGrant (.ok ⟨headerAt 0, 1, 10 ^ 10⟩)),
        .ret (.leaseKeepAlive ⟨headerAt 0, 1, 10 ^ 10⟩)] ∧
    (Pool.calls exec (start (grantThenRenew (10 ^ 10))) oneAfterTheOther).filterMap
      (fun x => expiryOf x.cmd) = [(1, -8446744073709551616), (1, -8446744073709551616)] ∧
    (Pool.run exec (start (grantThenRenew (10 ^ 10))) oneAfterTheOther).shared.redis.leaseData 1 =
      none ∧
    (Pool.calls exec (start (grantThenRenew 18446744074)) oneAfterTheOther).filterMap
      (fun x => expiryOf x.cmd) = [(1, 290448384), (1, 290448384)] :=
  ⟨rfl, rfl, rfl, rfl⟩

end REtcd.Server
