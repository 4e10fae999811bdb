import REtcd.Server.ListWatch
import REtcd.Store.LeaseRoutine

/-!
# Leases

`Served w`: the store `w` is reached from an empty one by complete requests, one after the other,
in which every create or update keeps the lease that its key has (`KeepsLease`).  In every such
store the set of a lease lists exactly the keys stored with it, and the next request keeps this iff
it keeps its key's lease (`lease_index_exact`).  So the condition is needed: a create with a lease
attaches the key in its blob only, and an update without a lease leaves the key in the old lease's
set (`txn_breaks_lease_index`).
-/

namespace REtcd.Server

open Base Store

/-- The lease IDs that a request brings along are below `10 ^ 14`; a transaction is a create or an
update. -/
def Request.LeaseSmall : Request → Prop
  | put req => 0 ≤ req.lease ∧ req.lease < 10 ^ 14
  | txn req => ∃ a, KVServer.swapArgs req = some a ∧ 0 ≤ a.lease ∧ a.lease < 10 ^ 14
  | leaseRevoke id => 0 ≤ id ∧ id < 10 ^ 14
  | _ => True

/-- A create or update whose compare holds writes the lease that its key has already. -/
def KeepsLease (r : Request) (s : Redis) : Prop :=
  ∀ req a, r = .txn req → KVServer.swapArgs req = some a →
    txnCompare a.expected (s.kv a.key) = true → a.lease = leaseOf s a.key

/-! ### One request -/

theorem serve_keepsLeases {r : Request} (hr : r.LeaseSmall) (htxn : ∀ req, r ≠ .txn req)
    (hrevoke : ∀ id, r ≠ .leaseRevoke id) (hreap : r ≠ .reap) :
    r.serve.Uses Cmd.KeepsLeases := by
  have hq : ∀ c : Cmd, c.Quiet → c.KeepsLeases := Cmd.Quiet.keepsLeases
  have hd : ∀ key, Cmd.KeepsLeases (.evalWrite ⟨key, .delete, [], 0⟩) := fun _ =>
    (by decide : (0 : ℤ) ≤ 0 ∧ (0 : ℤ) < 10 ^ 14)
  cases r with
  | put req => exact Prog.uses_bind (KVServer.put_uses hq hr) fun _ => trivial
  | range req => exact Prog.uses_bind (KVServer.range_uses hq req) fun _ => trivial
  | deleteRange req => exact Prog.uses_bind (KVServer.deleteRange_uses hq hd req) fun _ => trivial
  | txn req => exact absurd rfl (htxn req)
  | leaseGrant ttl =>
    refine Prog.uses_bind (Prog.uses_bind (RedisStore.leaseGrant_uses _ ?_) fun r => ?_)
      fun _ => trivial
    · exact ⟨trivial, fun _ => trivial, fun _ => trivial⟩
    · cases r <;> trivial
  | leaseRevoke id => exact absurd rfl (hrevoke id)
  | leaseKeepAlive id =>
    refine Prog.uses_bind (Prog.uses_bind (RedisStore.leaseRenew_uses hq id fun _ => ?_) fun r => ?_)
      fun _ => trivial
    · trivial
    · cases r <;> trivial
  | reap => exact absurd rfl hreap
  | expire id => exact ⟨trivial, fun _ => trivial⟩

theorem serve_leaseRevoke {id : ℤ} {w w' : World} {a : Answer} (hi : LeaseIndex w.redis)
    (h : Prog.Exec step (Request.serve (.leaseRevoke id)) w a w')
    (hb : w'.redis.counter < 2 ^ 63 - 1) :
    LeaseIndex w'.redis ∧ ∀ k, w'.redis.kv k =
      if id ≠ 0 ∧ leaseOf w.redis k = id then none else w.redis.kv k := by
  obtain ⟨x, w₁, h, hret⟩ := Prog.exec_bind.mp h
  obtain ⟨y, w₂, h, hret'⟩ := Prog.exec_bind.mp h
  obtain ⟨_, rfl⟩ := Prog.exec_ret.mp hret
  have hw : w' = w₂ := by
    cases y with
    | error err => exact (Prog.exec_ret.mp hret').2
    | ok u => exact (Prog.exec_ret.mp hret').2
  subst hw
  exact RedisStore.leaseRevoke_exec hi h hb

/-- A pass of the reaper deletes exactly the keys of the expired leases. -/
theorem serve_reap {w w' : World} {a : Answer} (hi : LeaseIndex w.redis)
    (h : Prog.Exec step (Request.serve .reap) w a w') (hb : w'.redis.counter < 2 ^ 63 - 1) :
    LeaseIndex w'.redis ∧ ∀ k, w'.redis.kv k =
      if RedisStore.Expired w.redis.leases.toList w.redis k then none else w.redis.kv k := by
  obtain ⟨x, w₁, h, hret⟩ := Prog.exec_bind.mp h
  obtain ⟨_, rfl⟩ := Prog.exec_ret.mp hret
  exact RedisStore.reapExpiredLeases_exec hi h hb

/-- A create or update leaves the database as it is, or its compare held and it has put its key. -/
theorem serve_swap {req : TxnRequest} {a : TxnArgs} (hs : KVServer.swapArgs req = some a)
    {w w' : World} {x : Answer} (h : Prog.Exec step (Request.serve (.txn req)) w x w')
    (hb : w'.redis.counter < 2 ^ 63 - 1) :
    (txnCompare a.expected (w.redis.kv a.key) = false ∧ w'.redis = w.redis) ∨
    (txnCompare a.expected (w.redis.kv a.key) = true ∧ w.redis.counter < 2 ^ 63 - 1 ∧
      ∃ now, w'.redis = (txnPut now a (w.redis.kv a.key) w.redis).2) := by
  obtain ⟨y, w₁, h, hret⟩ := Prog.exec_bind.mp h
  obtain ⟨_, rfl⟩ := Prog.exec_ret.mp hret
  obtain ⟨r, w₁, q, hstep, ⟨hq, _⟩, hrest⟩ := Prog.exec_first (KVServer.txn_first hs) h
  obtain ⟨env, _, he⟩ := step_iff.mp hstep
  rw [Cmd.run, Prod.mk.injEq] at he
  obtain ⟨rfl, rfl⟩ := he
  rw [exec_quiet hq hrest] at hb ⊢
  have hop := KVServer.swapArgs_op hs
  cases hc : txnCompare a.expected (w.redis.kv a.key) with
  | false =>
    left
    rw [txnLua_of_fails env.now hc]
    exact ⟨rfl, rfl⟩
  | true =>
    right
    dsimp only at hb ⊢
    rw [txnLua_of_holds env.now hop hc] at hb ⊢
    refine ⟨rfl, ?_, env.now, rfl⟩
    rcases txnPut_cases env.now a w.redis with ⟨hmax, hl⟩ | ⟨e, hcom, _⟩
    · rw [hl] at hb
      exact absurd hb hmax
    · exact hcom.room

/-- **A complete request keeps the sets right iff it keeps its key's lease.** -/
theorem serve_leasesExact_iff {r : Request} (hr : r.LeaseSmall) {w w' : World} {a : Answer}
    (hi : LeaseIndex w.redis) (h : Prog.Exec step r.serve w a w')
    (hb : w'.redis.counter < 2 ^ 63 - 1) :
    (KeepsLease r w.redis → LeaseIndex w'.redis) ∧
      (LeasesExact w'.redis ↔ KeepsLease r w.redis) := by
  -- for everything but a transaction there is nothing to keep
  have hother : (∀ req, r ≠ .txn req) → LeaseIndex w'.redis →
      (KeepsLease r w.redis → LeaseIndex w'.redis) ∧
        (LeasesExact w'.redis ↔ KeepsLease r w.redis) := fun htxn hi' =>
    ⟨fun _ => hi', iff_of_true hi'.exact fun req _ he => absurd he (htxn req)⟩
  by_cases htxn : ∃ req, r = .txn req
  · obtain ⟨req, rfl⟩ := htxn
    obtain ⟨b, hs, hb0⟩ := hr
    have hkeeps : KeepsLease (.txn req) w.redis ↔
        (txnCompare b.expected (w.redis.kv b.key) = true → b.lease = leaseOf w.redis b.key) := by
      constructor
      · exact fun hk => hk req b rfl hs
      · rintro hk _ b' ⟨⟩ hs'
        rw [hs, Option.some.injEq] at hs'
        exact hs' ▸ hk
    rw [hkeeps]
    rcases serve_swap hs h hb with ⟨hc, hw⟩ | ⟨hc, hroom, now, hw⟩
    · rw [hw, hc]
      exact ⟨fun _ => hi, iff_of_true hi.exact fun hf => nomatch hf⟩
    · rw [hw]
      refine ⟨fun hk => txnPut_leaseIndex now hi hroom hb0 (hk hc), ?_⟩
      rw [txnPut_leasesExact_iff now hi hroom hb0]
      exact ⟨fun hl _ => hl, fun hk => hk hc⟩
  · have htxn : ∀ req, r ≠ .txn req := fun req he => htxn ⟨req, he⟩
    refine hother htxn ?_
    by_cases hrev : ∃ id, r = .leaseRevoke id
    · obtain ⟨id, rfl⟩ := hrev
      exact (serve_leaseRevoke hi h hb).1
    · by_cases hreap : r = .reap
      · subst hreap
        exact (serve_reap hi h hb).1
      · exact Prog.exec_inv (I := fun v : World => LeaseIndex v.redis) step_leaseIndex
          (serve_keepsLeases hr htxn (fun id he => hrev ⟨id, he⟩) hreap) h hi

/-! ### Runs of complete requests -/

/-- The stores that complete requests reach from an empty one, one after the other, while every
create and update keeps its key's lease and the counter stays below the end of its range. -/
inductive Served : World → Prop
  | empty : Served .empty
  | serve {w w' : World} {r : Request} {a : Answer} : Served w → r.LeaseSmall →
      KeepsLease r w.redis → Prog.Exec step r.serve w a w' → w'.redis.counter < 2 ^ 63 - 1 →
      Served w'

theorem Served.leaseIndex {w : World} (h : Served w) : LeaseIndex w.redis := by
  induction h with
  | empty => exact leaseIndex_empty
  | serve _ hr hk he hb ih => exact (serve_leasesExact_iff hr ih he hb).1 hk

/-- **The set of a lease lists exactly the keys stored with it, as long as every create and update
keeps its key's lease**, and the first one that does not breaks it.  While it holds, revoking a
lease deletes exactly its keys, and the reaper deletes exactly the keys of expired leases. -/
theorem lease_index_exact (w : World) (hw : Served w) :
    LeasesExact w.redis ∧
      (∀ r a w', r.LeaseSmall → Prog.Exec step r.serve w a w' → w'.redis.counter < 2 ^ 63 - 1 →
        (LeasesExact w'.redis ↔ KeepsLease r w.redis)) ∧
      (∀ L a w', 0 < L → Prog.Exec step (Request.serve (.leaseRevoke L)) w a w' →
        w'.redis.counter < 2 ^ 63 - 1 →
        ∀ k, w'.redis.kv k = if leaseOf w.redis k = L then none else w.redis.kv k) ∧
      (∀ a w', Prog.Exec step (Request.serve .reap) w a w' → w'.redis.counter < 2 ^ 63 - 1 →
        ∀ k, w'.redis.kv k =
          if RedisStore.Expired w.redis.leases.toList w.redis k then none else w.redis.kv k) := by
  have hi := hw.leaseIndex
  refine ⟨hi.exact, ?_, ?_, ?_⟩
  · intro r a w' hr he hb
    exact (serve_leasesExact_iff hr hi he hb).2
  · intro L a w' hL he hb k
    have := (serve_leaseRevoke hi he hb).2 k
    simpa [hL.ne'] using this
  · intro a w' he hb
    exact (serve_reap hi he hb).2

def serveAlone (r : Request) (w : World) : World := (Prog.among exec r.serve undisturbed w).2

theorem serveAlone_exec (r : Request) (w : World) :
    ∃ a, Prog.Exec step r.serve w a (serveAlone r w) :=
  ⟨_, exec_undisturbed r.serve w⟩

def putLeased : Request := .put ⟨[97], [1], 7, false⟩

def createLeased : Request :=
  .txn ⟨[⟨.equal, .mod, [97], .modRevision 0⟩], [.put ⟨[97], [1], 7, false⟩], []⟩

def updateUnleased : Request :=
  .txn ⟨[⟨.equal, .mod, [97], .modRevision 1⟩], [.put ⟨[97], [2], 0, false⟩],
    [.range ⟨[97], [], false⟩]⟩

theorem served_putLeased : Served (serveAlone putLeased .empty) := by
  obtain ⟨a, he⟩ := serveAlone_exec putLeased .empty
  refine Served.serve .empty ?_ (fun req _ h => by simp [putLeased] at h) he (by decide)
  exact (by decide : (0 : ℤ) ≤ 7 ∧ (7 : ℤ) < 10 ^ 14)

theorem putLeased_revoked :
    leaseOf (serveAlone putLeased .empty).redis [97] = 7 ∧
      [97] ∈ (serveAlone putLeased .empty).redis.leaseKeys (goDecimal 7) ∧
      (serveAlone (.leaseRevoke 7) (serveAlone putLeased .empty)).redis.kv [97] = none := by
  obtain ⟨hexact, _, hrevoke, _⟩ := lease_index_exact _ served_putLeased
  have hl : leaseOf (serveAlone putLeased .empty).redis [97] = 7 := by decide
  obtain ⟨a, he⟩ := serveAlone_exec (.leaseRevoke 7) (serveAlone putLeased .empty)
  refine ⟨hl, (hexact [97] 7 (by decide)).mpr hl, ?_⟩
  rw [hrevoke 7 a _ (by decide) he (by decide) [97], if_pos hl]

/-- **A create with a lease and an update without one break the index.**  The created key carries
lease 7 and is not in its set, so revoking lease 7 leaves it there.  The updated key, which was put
with lease 7, carries no lease and is still in its set, so revoking lease 7 deletes it. -/
theorem txn_breaks_lease_index :
    (∃ a w, Prog.Exec step createLeased.serve .empty a w ∧ leaseOf w.redis [97] = 7 ∧
      [97] ∉ w.redis.leaseKeys (goDecimal 7) ∧
      ∃ b w', Prog.Exec step (Request.serve (.leaseRevoke 7)) w b w' ∧
        (w'.redis.kv [97]).isSome) ∧
    (∃ v a w, Served v ∧ Prog.Exec step updateUnleased.serve v a w ∧ leaseOf w.redis [97] = 0 ∧
      (w.redis.kv [97]).isSome ∧ [97] ∈ w.redis.leaseKeys (goDecimal 7) ∧
      ∃ b w', Prog.Exec step (Request.serve (.leaseRevoke 7)) w b w' ∧
        w'.redis.kv [97] = none) := by
  constructor
  · obtain ⟨a, he⟩ := serveAlone_exec createLeased .empty
    obtain ⟨b, he'⟩ := serveAlone_exec (.leaseRevoke 7) (serveAlone createLeased .empty)
    exact ⟨a, _, he, by decide, by decide, b, _, he', by decide⟩
  · obtain ⟨a, he⟩ := serveAlone_exec updateUnleased (serveAlone putLeased .empty)
    obtain ⟨b, he'⟩ := serveAlone_exec (.leaseRevoke 7)
      (serveAlone updateUnleased (serveAlone putLeased .empty))
    exact ⟨_, a, _, served_putLeased, he, by decide, by decide, by decide, b, _, he', by decide⟩

end REtcd.Server
