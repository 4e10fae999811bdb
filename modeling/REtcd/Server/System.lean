import REtcd.Server.KV
import REtcd.Store.History
import REtcd.Store.Routine

/-!
# The server as a whole

`start reqs` is a server on an empty Redis with any requests, each a program of the pool, and
`Pool.run exec (start reqs) ms` is the server after the schedule `ms`, which picks a program, the
clock and a possible fault for every single command.

Every routine issues only commands that keep the history (`serve_issued`), so the history is kept
by all schedules (`consistent_run`) and every command of a schedule met a consistent database
(`calls_consistent`).
-/

namespace REtcd.Server

open Base Store

namespace KVServer

section Uses

variable {P : Cmd → Prop} (hq : ∀ c : Cmd, c.Quiet → P c)
  (hd : ∀ key, P (.evalWrite ⟨key, .delete, [], 0⟩))

include hq

theorem header_uses : header.Uses P := by
  refine Prog.uses_bind (RedisStore.currentRevision_uses hq) fun r => ?_
  cases r <;> trivial

theorem put_uses {req : PutRequest} (hw : P (.evalWrite ⟨req.key, .put, req.value, req.lease⟩)) :
    (put req).Uses P := by
  refine Prog.uses_bind (RedisStore.put_uses hq hw) fun r => ?_
  rcases r with err | ⟨rev, prev⟩ <;> trivial

theorem range_uses (req : RangeRequest) : (range req).Uses P := by
  unfold range
  split_ifs
  · refine Prog.uses_bind (RedisStore.get_uses hq _) fun r => ?_
    cases r with
    | error err => trivial
    | ok kv => exact Prog.uses_bind (RedisStore.currentRevision_uses hq) fun _ => trivial
  · refine Prog.uses_bind (RedisStore.range_uses hq _) fun r => ?_
    rcases r with err | ⟨rev, all⟩ <;> trivial

theorem evalCompares_uses (cs : List Compare) : (evalCompares cs).Uses P := by
  induction cs with
  | nil => trivial
  | cons c cs ih =>
    refine Prog.uses_bind (Prog.uses_bind (RedisStore.get_uses hq _) fun r => ?_) fun r => ?_
    · cases r <;> trivial
    · rcases r with err | _ | _
      · trivial
      · trivial
      · exact ih

include hd

theorem deleteLoop_uses (key rangeEnd : Key) (kvs : List KeyValue) (deleted : ℕ) :
    (deleteLoop key rangeEnd kvs deleted).Uses P := by
  induction kvs generalizing deleted with
  | nil => trivial
  | cons kv kvs ih =>
    unfold deleteLoop
    split_ifs
    · refine Prog.uses_bind (RedisStore.delete_uses hq (hd _)) fun r => ?_
      cases r with
      | error err => trivial
      | ok _ => exact ih _
    · exact ih _

theorem deleteRange_uses (req : DeleteRangeRequest) : (deleteRange req).Uses P := by
  refine Prog.uses_bind ?_ fun r => ?_
  · unfold deleteKeys
    split_ifs
    · refine Prog.uses_bind (RedisStore.delete_uses hq (hd _)) fun r => ?_
      rcases r with err | ⟨rev, prev⟩ <;> trivial
    · refine Prog.uses_bind (RedisStore.range_uses hq _) fun r => ?_
      rcases r with err | ⟨rev, kvs⟩
      · trivial
      · exact deleteLoop_uses hq hd _ _ _ _
  · cases r with
    | error err => trivial
    | ok deleted => exact Prog.uses_bind (header_uses hq) fun _ => trivial

variable (hw : ∀ a : WriteArgs, a.op = .put → P (.evalWrite a))

include hw

theorem executeOps_uses (ops : List RequestOp) : (executeOps ops).Uses P := by
  induction ops with
  | nil => trivial
  | cons op ops ih =>
    refine Prog.uses_bind ?_ fun r => ?_
    · cases op with
      | put p =>
        refine Prog.uses_bind (RedisStore.put_uses hq (hw _ rfl)) fun r => ?_
        rcases r with err | ⟨rev, prev⟩ <;> trivial
      | range r =>
        refine Prog.uses_bind (range_uses hq _) fun r => ?_
        cases r <;> trivial
      | deleteRange r =>
        refine Prog.uses_bind (deleteRange_uses hq hd _) fun r => ?_
        cases r <;> trivial
      | other => trivial
    · cases r with
      | error err => trivial
      | ok resp =>
        refine Prog.uses_bind ih fun r => ?_
        cases r <;> trivial

theorem genericTxn_uses (req : TxnRequest) : (genericTxn req).Uses P := by
  refine Prog.uses_bind (evalCompares_uses hq _) fun r => ?_
  cases r with
  | error err => trivial
  | ok succeeded =>
    refine Prog.uses_bind (executeOps_uses hq hd hw _) fun r => ?_
    cases r with
    | error err => trivial
    | ok results => exact Prog.uses_bind (header_uses hq) fun _ => trivial

end Uses

/-! ### The compare-and-swap requests -/

/-- The arguments with which `Txn` calls `txn.lua`, for a request of one of the two shapes. -/
def swapArgs (req : TxnRequest) : Option TxnArgs :=
  match isCreate req with
  | some p => some ⟨p.key, -1, p.value, .put, p.lease⟩
  | none =>
    match isUpdate req with
    | some (rev, key, value, lease) => some ⟨key, rev, value, .put, lease⟩
    | none => none

theorem swapArgs_op {req : TxnRequest} {a : TxnArgs} (h : swapArgs req = some a) :
    a.op = .put := by
  rw [swapArgs] at h
  split at h
  · cases h
    rfl
  · split at h
    · cases h
      rfl
    · cases h

/-- Such a request answers with the script's outcome, and with the revision in the script's
result unless that is 0. -/
theorem txn_first {req : TxnRequest} {a : TxnArgs} (h : swapArgs req = some a) :
    (txn req).First (.evalTxn a) (fun r q => q.Uses Cmd.Quiet ∧ q.Returns fun x =>
      ∀ resp, x = .ok resp → ∃ res, r = .ok res ∧ resp.succeeded = res.succeeded ∧
        (RedisStore.scriptRev res.rev ≠ 0 →
          resp.header.revision = RedisStore.scriptRev res.rev)) := by
  -- both shapes build their answer from the result of `RedisStore.Txn` in the same way
  have hbind : ∀ (key : Key) (expected : ℤ) (value : Bytes) (lease : ℤ)
      (f : RedisStore.TxnResult → List ResponseOp)
      (g : Result RedisStore.TxnResult → Routine (Result TxnResponse)),
      (∀ err, g (.error err) = .ret (.error err)) →
      (∀ res, g (.ok res) = .ret (.ok ⟨headerAt res.revision, res.succeeded, f res⟩)) →
      (RedisStore.txn key expected .put value lease >>= g).First
      (.evalTxn ⟨key, expected, value, .put, lease⟩) (fun r q => q.Uses Cmd.Quiet ∧
        q.Returns fun x => ∀ resp : TxnResponse, x = (.ok resp : Result TxnResponse) →
          ∃ res, r = .ok res ∧ resp.succeeded = res.succeeded ∧
            (RedisStore.scriptRev res.rev ≠ 0 →
              resp.header.revision = RedisStore.scriptRev res.rev)) := by
    intro key expected value lease f g herr hok
    refine (RedisStore.txn_first _ _ _ _ _).bind fun r q hq => ⟨?_, ?_⟩
    · refine Prog.uses_bind hq.1 fun x => ?_
      cases x with
      | error err =>
        rw [herr]
        trivial
      | ok out =>
        rw [hok]
        trivial
    · refine Prog.returns_bind hq.2 fun x hx => ?_
      cases x with
      | error err =>
        rw [herr]
        rintro resp ⟨⟩
      | ok out =>
        obtain ⟨res, hr, hs, _, hrev⟩ := hx out rfl
        rw [hok]
        rintro resp ⟨⟩
        exact ⟨res, hr, hs, hrev⟩
  rw [swapArgs] at h
  rw [txn]
  cases hc : isCreate req with
  | some p =>
    rw [hc] at h
    cases h
    exact hbind _ _ _ _ _ _ (fun _ => rfl) fun _ => rfl
  | none =>
    rw [hc] at h
    rcases hu : isUpdate req with _ | ⟨rev, key, value, lease⟩
    · rw [hu] at h
      cases h
    · rw [hu] at h
      cases h
      exact hbind _ _ _ _ _ _ (fun _ => rfl) fun _ => rfl

/-- Every other request goes to the generic path. -/
theorem txn_generic {req : TxnRequest} (h : swapArgs req = none) : txn req = genericTxn req := by
  rw [swapArgs] at h
  rw [txn]
  cases hc : isCreate req with
  | some p =>
    rw [hc] at h
    cases h
  | none =>
    rw [hc] at h
    rcases hu : isUpdate req with _ | ⟨rev, key, value, lease⟩
    · rfl
    · rw [hu] at h
      cases h

theorem txn_uses {P : Cmd → Prop} (hq : ∀ c : Cmd, c.Quiet → P c)
    (hd : ∀ key, P (.evalWrite ⟨key, .delete, [], 0⟩))
    (hw : ∀ a : WriteArgs, a.op = .put → P (.evalWrite a))
    (ht : ∀ a : TxnArgs, a.op = .put → P (.evalTxn a)) (req : TxnRequest) : (txn req).Uses P := by
  cases hs : swapArgs req with
  | some a =>
    have hfirst := (txn_first hs).mono fun r q h => Prog.uses_mono hq h.1
    exact hfirst.uses (ht a (swapArgs_op hs))
  | none =>
    rw [txn_generic hs]
    exact genericTxn_uses hq hd hw req

end KVServer

/-- **Every request issues only commands that keep the history.** -/
theorem serve_issued (r : Request) : r.serve.Uses Cmd.Issued := by
  have hq : ∀ c : Cmd, c.Quiet → c.Issued := fun _ => Cmd.Quiet.issued _
  have hd : ∀ key, Cmd.Issued (.evalWrite ⟨key, .delete, [], 0⟩) := fun _ => trivial
  cases r with
  | put req => exact Prog.uses_bind (KVServer.put_uses hq trivial) fun _ => trivial
  | range req => exact Prog.uses_bind (KVServer.range_uses hq req) fun _ => trivial
  | deleteRange req => exact Prog.uses_bind (KVServer.deleteRange_uses hq hd req) fun _ => trivial
  | txn req =>
    exact Prog.uses_bind (KVServer.txn_uses hq hd (fun _ _ => trivial) (fun _ h => h) req)
      fun _ => trivial
  | leaseGrant ttl =>
    refine Prog.uses_bind (Prog.uses_bind (RedisStore.leaseGrant_uses _ ?_) fun r => ?_)
      fun _ => trivial
    · exact ⟨trivial, fun _ => trivial, fun _ => trivial⟩
    · cases r <;> trivial
  | leaseRevoke id =>
    refine Prog.uses_bind (Prog.uses_bind (RedisStore.leaseRevoke_uses hq hd _ ?_) fun r => ?_)
      fun _ => trivial
    · exact ⟨trivial, trivial, trivial⟩
    · cases r <;> trivial
  | leaseKeepAlive id =>
    refine Prog.uses_bind (Prog.uses_bind (RedisStore.leaseRenew_uses hq id fun _ => ?_) fun r => ?_)
      fun _ => trivial
    · trivial
    · cases r <;> trivial
  | reap =>
    refine Prog.uses_bind (RedisStore.reapExpiredLeases_uses hq hd fun _ => ?_) fun _ => trivial
    exact ⟨trivial, trivial⟩
  | expire id => exact ⟨trivial, fun _ => trivial⟩

/-! ### Runs -/

def start (reqs : List Request) : Pool Cmd Reply Answer World := ⟨.empty, reqs.map Request.serve⟩

theorem start_issued (reqs : List Request) : (start reqs).Uses Cmd.Issued := by
  intro p hp
  obtain ⟨r, _, rfl⟩ := List.mem_map.mp hp
  exact serve_issued r

/-- **In every state of every run the history is kept.** -/
theorem consistent_run (reqs : List Request) (ms : List (ℕ × Env)) :
    Consistent (Pool.run exec (start reqs) ms).shared.redis :=
  Pool.run_inv (I := fun w => Consistent w.redis) exec_consistent (start_issued reqs)
    consistent_empty ms

theorem calls_consistent (reqs : List Request) (ms : List (ℕ × Env)) :
    ∀ x ∈ Pool.calls exec (start reqs) ms, x.cmd.Issued ∧ Consistent x.before.redis ∧
      ∃ env, exec env x.cmd x.before = (x.reply, x.after) :=
  Pool.calls_inv (I := fun w => Consistent w.redis) exec_consistent (start_issued reqs)
    consistent_empty ms

theorem call_exec {reqs : List Request} {ms : List (ℕ × Env)} {i : ℕ} {c : Cmd} {r : Reply c}
    {w w' : World} (hx : ⟨i, c, r, w, w'⟩ ∈ Pool.calls exec (start reqs) ms) :
    c.Issued ∧ Consistent w.redis ∧ ∃ env, exec env c w = (r, w') :=
  calls_consistent reqs ms _ hx

theorem calls_isPrefix (reqs : List Request) (ms : List (ℕ × Env)) :
    (Pool.calls exec (start reqs) ms).Pairwise
      (fun x y => x.after.redis.events <+: y.before.redis.events) :=
  Pool.calls_pairwise (fun w w' => w.redis.events <+: w'.redis.events)
    (fun _ => List.prefix_rfl) (fun _ _ _ => List.IsPrefix.trans) exec_isPrefix
    (start_issued reqs) ms

theorem call_isPrefix_run (reqs : List Request) (ms : List (ℕ × Env)) :
    ∀ x ∈ Pool.calls exec (start reqs) ms,
      x.after.redis.events <+: (Pool.run exec (start reqs) ms).shared.redis.events :=
  fun x hx => ((Pool.calls_le (fun w w' => w.redis.events <+: w'.redis.events)
    (fun _ => List.prefix_rfl) (fun _ _ _ => List.IsPrefix.trans) exec_isPrefix
    (start_issued reqs) ms).1 x hx).2

theorem issued_by {reqs : List Request} {ms : List (ℕ × Env)} {x : Call Cmd Reply World}
    (hx : x ∈ Pool.calls exec (start reqs) ms) :
    ∃ req q, reqs[x.proc]? = some req ∧
      x ∈ (Pool.calls exec (start reqs) ms).filter (fun y => y.proc = x.proc) ∧
      Pool.Path req.serve ((Pool.calls exec (start reqs) ms).filter (fun y => y.proc = x.proc))
        q := by
  obtain ⟨p, hp⟩ := Pool.calls_proc hx
  obtain ⟨q, _, hpath⟩ := Pool.run_path hp ms
  rw [start, List.getElem?_map, Option.map_eq_some_iff] at hp
  obtain ⟨req, hreq, rfl⟩ := hp
  exact ⟨req, q, hreq, List.mem_filter.mpr ⟨hx, by simp⟩, hpath⟩

/-- **A request that has been answered has run through its own commands of the history.** -/
theorem answered {reqs : List Request} {ms : List (ℕ × Env)} {i : ℕ} {req : Request} {a : Answer}
    (hreq : reqs[i]? = some req)
    (ha : (Pool.run exec (start reqs) ms).procs[i]? = some (.ret a)) :
    Pool.Path req.serve ((Pool.calls exec (start reqs) ms).filter (fun x => x.proc = i))
      (.ret a) := by
  have hp : (start reqs).procs[i]? = some req.serve := by
    rw [start, List.getElem?_map, hreq, Option.map_some]
  obtain ⟨q, hq, hpath⟩ := Pool.run_path hp ms
  rw [ha, Option.some.injEq] at hq
  exact hq ▸ hpath

/-- The first command of a request that has been answered is in the history, and the answer is one
that the rest of the routine returns after the reply. -/
theorem answered_first {reqs : List Request} {ms : List (ℕ × Env)} {i : ℕ} {req : Request}
    {a : Answer} {c : Cmd} {Q : Reply c → Answer → Prop} (hreq : reqs[i]? = some req)
    (hserve : req.serve.First c (fun r q => q.Returns (Q r)))
    (ha : (Pool.run exec (start reqs) ms).procs[i]? = some (.ret a)) :
    ∃ r w w', ⟨i, c, r, w, w'⟩ ∈ Pool.calls exec (start reqs) ms ∧ Q r a := by
  obtain ⟨j, r, w, w', l, q, hl, hQ, hrest⟩ := (answered hreq ha).first hserve
  have hmem : (⟨j, c, r, w, w'⟩ : Call Cmd Reply World) ∈
      (Pool.calls exec (start reqs) ms).filter (fun x => x.proc = i) := by
    rw [hl]
    exact List.mem_cons_self
  obtain ⟨hmem, hj⟩ := List.mem_filter.mp hmem
  have hj : j = i := by simpa using hj
  exact ⟨r, w, w', hj ▸ hmem, hrest.returns hQ⟩

end REtcd.Server
