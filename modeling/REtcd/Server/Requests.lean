import REtcd.Base.Protocol
import REtcd.Server.System

/-!
# Requests are made of store calls

The server reaches Redis only through the routines of the store.  So a predicate of routines that
passes from the parts of a sequence to the whole holds of every request once it holds of the
routines of the store and of the commands that the lease routines issue (`serve_composed`).

`Scope` narrows this to some of the requests: those that do without ranges, or without leases, or
attach keys to certain leases only.
-/

namespace REtcd.Server

open Base Store

def LeaseCmd : Cmd → Prop
  | .incrLeaseID | .setLease _ _ _ | .saddLease _ | .getLease _ | .renewLease _ _
  | .smembersLeaseKeys _ | .smembersLeases | .existsLease _ | .delLease _ | .delLeaseKeys _
  | .sremLease _ | .expireLease _ => True
  | _ => False

/-- What requests may do: ask for ranges, manage leases, and attach keys to the leases in `lease`. -/
structure Scope where
  ranged : Prop
  leased : Prop
  lease : ℤ → Prop

def Scope.all : Scope := ⟨True, True, fun _ => True⟩

def RequestOp.Within (sc : Scope) : RequestOp → Prop
  | .put p => sc.lease p.lease
  | .range r => r.rangeEnd = [] ∨ sc.ranged
  | .deleteRange r => r.rangeEnd = [] ∨ sc.ranged
  | .other => True

def Request.Within (sc : Scope) : Request → Prop
  | .put req => sc.lease req.lease
  | .range req => req.rangeEnd = [] ∨ sc.ranged
  | .deleteRange req => req.rangeEnd = [] ∨ sc.ranged
  | .txn req => ∀ op ∈ req.success ++ req.failure, op.Within sc
  | _ => sc.leased

theorem RequestOp.within_all (op : RequestOp) : op.Within .all := by
  cases op with
  | put p => trivial
  | range r | deleteRange r => exact Or.inr trivial
  | other => trivial

theorem Request.within_all (r : Request) : r.Within .all := by
  cases r with
  | range req | deleteRange req => exact Or.inr trivial
  | txn req => exact fun op _ => op.within_all
  | _ => trivial

theorem isCreate_mem {req : TxnRequest} {p : PutRequest} (h : KVServer.isCreate req = some p) :
    .put p ∈ req.success := by
  rw [KVServer.isCreate] at h
  split at h
  · rename_i hs _
    split_ifs at h
    cases h
    rw [hs]
    exact List.mem_singleton_self _
  · cases h

theorem isUpdate_mem {req : TxnRequest} {rev : ℤ} {key : Key} {value : Bytes} {lease : ℤ}
    (h : KVServer.isUpdate req = some (rev, key, value, lease)) :
    ∃ p, .put p ∈ req.success ∧ p.lease = lease := by
  rw [KVServer.isUpdate] at h
  split at h
  · rename_i p _ _ hs _
    split_ifs at h
    cases h
    rw [hs]
    exact ⟨p, List.mem_singleton_self _, rfl⟩
  · cases h

section Composed

variable {K : {α : Type} → Routine α → Prop} (hK : Composed K) {sc : Scope}

include hK

/-! ### The KV service -/

section Reads

variable (hrev : K RedisStore.currentRevision) (hget : ∀ key, K (RedisStore.get key))
  (hrange : sc.ranged → ∀ pre, K (RedisStore.range pre))

include hrev

theorem header_composed : K KVServer.header := by
  refine hK.bind hrev fun r => ?_
  cases r <;> exact hK.ret _

include hget hrange

theorem range_composed {req : RangeRequest} (h : req.rangeEnd = [] ∨ sc.ranged) :
    K (KVServer.range req) := by
  unfold KVServer.range
  split_ifs with hend
  · refine hK.bind (hget _) fun r => ?_
    cases r with
    | error err => exact hK.ret _
    | ok kv => exact hK.bind hrev fun cur => hK.ret _
  · refine hK.bind (hrange (h.resolve_left hend) _) fun r => ?_
    rcases r with err | ⟨rev, all⟩ <;> exact hK.ret _

omit hrev hrange in
theorem evalCompares_composed (cs : List Compare) : K (KVServer.evalCompares cs) := by
  induction cs with
  | nil => exact hK.ret _
  | cons c cs ih =>
    refine hK.bind (hK.bind (hget _) fun r => ?_) fun r => ?_
    · cases r <;> exact hK.ret _
    · rcases r with err | _ | _
      · exact hK.ret _
      · exact hK.ret _
      · exact ih

variable (hdelete : ∀ key, K (RedisStore.delete key))

include hdelete

omit hrev hget hrange in
theorem deleteLoop_composed (key rangeEnd : Key) (kvs : List KeyValue) (deleted : ℕ) :
    K (KVServer.deleteLoop key rangeEnd kvs deleted) := by
  induction kvs generalizing deleted with
  | nil => exact hK.ret _
  | cons kv kvs ih =>
    unfold KVServer.deleteLoop
    split_ifs
    · refine hK.bind (hdelete _) fun r => ?_
      cases r with
      | error err => exact hK.ret _
      | ok _ => exact ih _
    · exact ih _

omit hget in
theorem deleteRange_composed {req : DeleteRangeRequest} (h : req.rangeEnd = [] ∨ sc.ranged) :
    K (KVServer.deleteRange req) := by
  refine hK.bind ?_ fun r => ?_
  · unfold KVServer.deleteKeys
    split_ifs with hend
    · refine hK.bind (hdelete _) fun r => ?_
      rcases r with err | ⟨rev, prev⟩ <;> exact hK.ret _
    · refine hK.bind (hrange (h.resolve_left hend) _) fun r => ?_
      rcases r with err | ⟨rev, kvs⟩
      · exact hK.ret _
      · exact deleteLoop_composed hK hdelete _ _ _ _
  · cases r with
    | error err => exact hK.ret _
    | ok deleted => exact hK.bind (header_composed hK hrev) fun h => hK.ret _

variable (hput : ∀ key value lease, sc.lease lease → K (RedisStore.put key value lease))

include hput

theorem executeOp_composed {op : RequestOp} (h : op.Within sc) : K (KVServer.executeOp op) := by
  cases op with
  | put p =>
    refine hK.bind (hput _ _ _ h) fun r => ?_
    rcases r with err | ⟨rev, prev⟩ <;> exact hK.ret _
  | range r =>
    refine hK.bind (range_composed hK hrev hget hrange h) fun r => ?_
    cases r <;> exact hK.ret _
  | deleteRange r =>
    refine hK.bind (deleteRange_composed hK hrev hrange hdelete h) fun r => ?_
    cases r <;> exact hK.ret _
  | other => exact hK.ret _

theorem executeOps_composed {ops : List RequestOp} (h : ∀ op ∈ ops, op.Within sc) :
    K (KVServer.executeOps ops) := by
  induction ops with
  | nil => exact hK.ret _
  | cons op ops ih =>
    refine hK.bind (executeOp_composed hK hrev hget hrange hdelete hput
      (h op List.mem_cons_self)) fun r => ?_
    cases r with
    | error err => exact hK.ret _
    | ok resp =>
      refine hK.bind (ih fun op hop => h op (List.mem_cons_of_mem _ hop)) fun r => ?_
      cases r <;> exact hK.ret _

theorem genericTxn_composed {req : TxnRequest}
    (h : ∀ op ∈ req.success ++ req.failure, op.Within sc) : K (KVServer.genericTxn req) := by
  refine hK.bind (evalCompares_composed hK hget _) fun r => ?_
  cases r with
  | error err => exact hK.ret _
  | ok succeeded =>
    refine hK.bind (executeOps_composed hK hrev hget hrange hdelete hput fun op hop => ?_) fun r => ?_
    · refine h op (List.mem_append.mpr ?_)
      cases succeeded with
      | false => exact Or.inr hop
      | true => exact Or.inl hop
    · cases r with
      | error err => exact hK.ret _
      | ok results => exact hK.bind (header_composed hK hrev) fun h => hK.ret _

variable (htxn : ∀ key expected value lease, sc.lease lease →
  K (RedisStore.txn key expected .put value lease))

include htxn

theorem txn_composed {req : TxnRequest} (h : ∀ op ∈ req.success ++ req.failure, op.Within sc) :
    K (KVServer.txn req) := by
  unfold KVServer.txn
  cases hc : KVServer.isCreate req with
  | some p =>
    have hl : sc.lease p.lease := h _ (List.mem_append_left _ (isCreate_mem hc))
    refine hK.bind (htxn _ _ _ _ hl) fun r => ?_
    cases r <;> exact hK.ret _
  | none =>
    rcases hu : KVServer.isUpdate req with _ | ⟨rev, key, value, lease⟩
    · exact genericTxn_composed hK hrev hget hrange hdelete hput h
    · obtain ⟨p, hp, rfl⟩ := isUpdate_mem hu
      have hl : sc.lease p.lease := h _ (List.mem_append_left _ hp)
      refine hK.bind (htxn _ _ _ _ hl) fun r => ?_
      cases r <;> exact hK.ret _

end Reads

/-! ### Leases -/

section Leases

variable (hlease : ∀ c : Cmd, LeaseCmd c → K (issue c))

include hlease

theorem leaseGrant_composed (ttl : ℤ) : K (RedisStore.leaseGrant ttl) := by
  refine hK.bind (hlease .incrLeaseID trivial) fun r => ?_
  cases r with
  | error err => exact hK.ret _
  | ok id =>
    refine hK.bind (hlease (.setLease _ _ _) trivial) fun r₁ =>
      hK.bind (hlease (.saddLease _) trivial) fun r₂ => ?_
    cases RedisStore.pipeErr [r₁, r₂] <;> exact hK.ret _

theorem leaseRenew_composed (id : ℤ) : K (RedisStore.leaseRenew id) := by
  refine hK.bind (hlease (.getLease id) trivial) fun r => ?_
  rcases r with err | _ | text
  · exact hK.ret _
  · exact hK.ret _
  · dsimp only
    cases parseInt (goDecimal text) with
    | none => exact hK.ret _
    | some ttl => exact hK.bind (hlease (.renewLease _ _) trivial) fun _ => hK.ret _

variable (hdelete : ∀ key, K (RedisStore.delete key))

include hdelete

theorem leaseRevoke_composed (id : ℤ) : K (RedisStore.leaseRevoke id) := by
  have hkeys : ∀ keys, K (RedisStore.revokeKeys keys) := by
    intro keys
    induction keys with
    | nil => exact hK.ret _
    | cons key keys ih =>
      refine hK.bind (hdelete key) fun r => ?_
      cases r with
      | error err => exact hK.ret _
      | ok _ => exact ih
  refine hK.bind (hlease (.smembersLeaseKeys id) trivial) fun r => ?_
  cases r with
  | error err => exact hK.ret _
  | ok keys =>
    refine hK.bind (hkeys keys) fun r => ?_
    cases r with
    | error err => exact hK.ret _
    | ok _ =>
      refine hK.bind (hlease (.delLease id) trivial) fun r₁ =>
        hK.bind (hlease (.delLeaseKeys id) trivial) fun r₂ =>
        hK.bind (hlease (.sremLease id) trivial) fun r₃ => ?_
      cases RedisStore.pipeErr [r₁, r₂, r₃] <;> exact hK.ret _

omit hlease in
theorem reapKeys_composed (keys : List Key) : K (RedisStore.reapKeys keys) := by
  induction keys with
  | nil => exact hK.ret _
  | cons key keys ih => exact hK.bind (hdelete key) fun _ => ih

theorem reapLease_composed (id : ℤ) : K (RedisStore.reapLease id) := by
  refine hK.bind (hlease (.existsLease id) trivial) fun r => ?_
  rcases r with err | _ | _
  · exact hK.ret _
  · refine hK.bind (hlease (.smembersLeaseKeys id) trivial) fun keys =>
      hK.bind (reapKeys_composed hK hdelete _) fun _ => ?_
    exact hK.bind (hlease (.delLeaseKeys id) trivial) fun _ =>
      hK.bind (hlease (.sremLease id) trivial) fun _ => hK.ret _
  · exact hK.ret _

theorem reapExpiredLeases_composed : K RedisStore.reapExpiredLeases := by
  have hids : ∀ ids, K (RedisStore.reapLeases ids) := by
    intro ids
    induction ids with
    | nil => exact hK.ret _
    | cons id ids ih => exact hK.bind (reapLease_composed hK hlease hdelete id) fun _ => ih
  refine hK.bind (hlease .smembersLeases trivial) fun r => ?_
  cases r with
  | error err => exact hK.ret _
  | ok ids => exact hids ids

end Leases

/-- **What holds of the routines of the store holds of every request** that keeps to the scope. -/
theorem serve_composed (hrev : K RedisStore.currentRevision)
    (hget : ∀ key, K (RedisStore.get key)) (hrange : sc.ranged → ∀ pre, K (RedisStore.range pre))
    (hdelete : ∀ key, K (RedisStore.delete key))
    (hput : ∀ key value lease, sc.lease lease → K (RedisStore.put key value lease))
    (htxn : ∀ key expected value lease, sc.lease lease →
      K (RedisStore.txn key expected .put value lease))
    (hlease : sc.leased → ∀ c : Cmd, LeaseCmd c → K (issue c)) {r : Request} (h : r.Within sc) :
    K r.serve := by
  have hdone : ∀ {α : Type} (f : α → Answer) {p : Routine α}, K p → K (f <$> p) :=
    fun f p hp => hK.bind hp fun a => hK.ret _
  cases r with
  | put req =>
    refine hdone _ (hK.bind (hput _ _ _ h) fun r => ?_)
    rcases r with err | ⟨rev, prev⟩ <;> exact hK.ret _
  | range req => exact hdone _ (range_composed hK hrev hget hrange h)
  | deleteRange req => exact hdone _ (deleteRange_composed hK hrev hrange hdelete h)
  | txn req => exact hdone _ (txn_composed hK hrev hget hrange hdelete hput htxn h)
  | leaseGrant ttl =>
    refine hdone _ (hK.bind (leaseGrant_composed hK (hlease h) _) fun r => ?_)
    cases r <;> exact hK.ret _
  | leaseRevoke id =>
    refine hdone _ (hK.bind (leaseRevoke_composed hK (hlease h) hdelete id) fun r => ?_)
    cases r <;> exact hK.ret _
  | leaseKeepAlive id =>
    refine hdone _ (hK.bind (leaseRenew_composed hK (hlease h) id) fun r => ?_)
    cases r <;> exact hK.ret _
  | reap => exact hdone _ (reapExpiredLeases_composed hK (hlease h) hdelete)
  | expire id => exact hK.bind (hlease h (.expireLease id) trivial) fun _ => hK.ret _

end Composed

end REtcd.Server
