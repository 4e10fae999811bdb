import REtcd.Store.Commit
import REtcd.Store.RedisStore

/-!
# What the store's routines do

Each writing routine of the store issues one script and afterwards only commands that change
nothing; `put_first`, `delete_first` and `txn_first` say this together with what the routine
returns.  The `_uses` lemmas bound the commands of every routine: they hold for any property `P` of
commands that the quiet commands have and that the routine's own commands have.
-/

namespace REtcd.Store

open Base

theorem Cmd.Quiet.issued (c : Cmd) (h : c.Quiet) : c.Issued := by
  cases c with
  | evalTxn a => exact h.elim
  | _ => trivial

theorem attempt_quiet {α : Type} {p : Routine α} (hp : p.Uses Cmd.Quiet) {w w' : World} {a : α}
    (h : Prog.Exec attempt p w a w') : w'.redis = w.redis := by
  refine Prog.exec_inv (I := fun v : World => v.redis = w.redis) ?_ hp h rfl
  intro c v r v' hc hs hv
  rcases attempt_world hs with rfl | ⟨env, rfl⟩
  · exact hv
  · exact (Cmd.run_quiet env hc v).trans hv

theorem exec_quiet {α : Type} {p : Routine α} (hp : p.Uses Cmd.Quiet) {w w' : World} {a : α}
    (h : Prog.Exec step p w a w') : w'.redis = w.redis :=
  attempt_quiet hp (h.mono fun _ _ _ _ => attempt_of_step)

theorem exec_counter_le {α : Type} {p : Routine α} (hp : p.Uses Cmd.Issued) {w w' : World} {a : α}
    (h : Prog.Exec step p w a w') : w.redis.counter ≤ w'.redis.counter := by
  refine Prog.exec_inv (I := fun v : World => w.redis.counter ≤ v.redis.counter) ?_ hp h le_rfl
  intro c v r v' hc hs hv
  obtain ⟨env, _, he⟩ := hs
  have := (exec_effect env hc v).counter_le
  rw [he] at this
  exact hv.trans this

namespace RedisStore

section Uses

variable {P : Cmd → Prop} (hq : ∀ c : Cmd, c.Quiet → P c)

include hq

theorem emit_uses (type : EventType) (key : Key) (rev : ℤ) (newBlob prevBlob : Bytes)
    (sid : Option StreamID) : (emit type key rev newBlob prevBlob sid).Uses P := by
  unfold emit
  cases sid with
  | none => trivial
  | some sid =>
    dsimp only
    split_ifs
    · trivial
    · exact ⟨hq _ trivial, fun _ => trivial⟩

theorem currentRevision_uses : currentRevision.Uses P := by
  refine Prog.uses_cmd (hq _ trivial) fun r => ?_
  rcases r with err | _ | rev <;> trivial

theorem get_uses (key : Key) : (get key).Uses P := by
  refine Prog.uses_cmd (hq _ trivial) fun r => ?_
  rcases r with err | _ | data <;> trivial

theorem range_uses (pre : Key) : (range pre).Uses P := by
  refine Prog.uses_cmd (hq _ trivial) fun r => Prog.uses_cmd (hq _ trivial) fun r' => ?_
  cases r with
  | error err => trivial
  | ok matched =>
    dsimp only
    split_ifs
    · trivial
    · refine Prog.uses_cmd (hq _ trivial) fun r'' => ?_
      cases r'' <;> trivial

end Uses

/-! ### The script routines -/

/-- What `Put` and `Delete` return for the result of their script; `what` begins the error. -/
def writeResult (what : String) (key : Key) : Except GoError WriteReply → Result (ℤ × Option KeyValue)
  | .error err => .error (what ++ err)
  | .ok res => .ok (scriptRev res.rev, preImage key res.existing)

theorem put_first (key : Key) (value : Bytes) (leaseID : ℤ) :
    (put key value leaseID).First (.evalWrite ⟨key, .put, value, leaseID⟩)
      (fun r q => q.Uses Cmd.Quiet ∧ q.Returns fun x => x = writeResult "put script: " key r) := by
  refine Prog.first_cmd fun r => ?_
  cases r with
  | error err => exact ⟨trivial, rfl⟩
  | ok res =>
    exact ⟨Prog.uses_bind (emit_uses (fun _ h => h) _ _ _ _ _ _) fun _ => trivial,
      Prog.returns_after _ rfl⟩

theorem delete_first (key : Key) :
    (delete key).First (.evalWrite ⟨key, .delete, [], 0⟩)
      (fun r q => q.Uses Cmd.Quiet ∧
        q.Returns fun x => x = writeResult "delete script: " key r) := by
  refine Prog.first_cmd fun r => ?_
  cases r with
  | error err => exact ⟨trivial, rfl⟩
  | ok res =>
    exact ⟨Prog.uses_bind (emit_uses (fun _ h => h) _ _ _ _ _ _) fun _ => trivial,
      Prog.returns_after _ rfl⟩

/-- Run alone, a delete removes its key and nothing else, as long as the counter has room. -/
theorem delete_exec {key : Key} {w w' : World} {x : Result (ℤ × Option KeyValue)}
    (h : Prog.Exec step (delete key) w x w') (hb : w'.redis.counter < 2 ^ 63 - 1) :
    (∃ out, x = .ok out) ∧ w'.redis.kv = Function.update w.redis.kv key none ∧
      w'.redis.leases = w.redis.leases ∧ w'.redis.leaseData = w.redis.leaseData := by
  obtain ⟨r, w₁, q, hs, ⟨hq, hret⟩, hrest⟩ := Prog.exec_first (delete_first key) h
  rw [exec_quiet hq hrest] at hb ⊢
  rw [Prog.exec_returns hret hrest]
  obtain ⟨env, _, he⟩ := step_iff.mp hs
  rw [Cmd.run, Prod.mk.injEq] at he
  obtain ⟨rfl, rfl⟩ := he
  rcases writeLua_cases env.now ⟨key, .delete, [], 0⟩ w.redis with
    ⟨hmax, hl⟩ | ⟨_, hk, hl⟩ | ⟨e, hc, hek, het, hl⟩
  · rw [hl] at hb
    exact absurd hb hmax
  · rw [hl]
    refine ⟨⟨_, rfl⟩, ?_, rfl, rfl⟩
    rw [← hk, Function.update_eq_self]
  · rw [hl]
    refine ⟨⟨_, rfl⟩, ?_, hc.leases, hc.leaseData⟩
    rw [hc.kv, hek, (hc.delete het).1]

theorem txnRevision_uses (rev : NumText) : (txnRevision rev).Uses Cmd.Quiet := by
  unfold txnRevision
  split_ifs
  · refine Prog.uses_bind (currentRevision_uses fun _ h => h) fun v => ?_
    cases v <;> trivial
  · trivial

theorem txnRevision_returns (rev : NumText) :
    (txnRevision rev).Returns fun n => scriptRev rev ≠ 0 → n = scriptRev rev := by
  unfold txnRevision
  split_ifs with h
  · refine Prog.returns_bind (Prog.returns_of_forall (fun _ => trivial) _) fun x _ => ?_
    cases x <;> exact fun h' => absurd h h'
  · exact fun _ => rfl

/-- `Txn` reports the outcome, the value that a failed compare found, and the revision in the
script's result unless that is 0. -/
theorem txn_first (key : Key) (expected : ℤ) (op : EventType) (value : Bytes) (leaseID : ℤ) :
    (txn key expected op value leaseID).First (.evalTxn ⟨key, expected, value, op, leaseID⟩)
      (fun r q => q.Uses Cmd.Quiet ∧ q.Returns fun x => ∀ out, x = .ok out →
        ∃ res, r = .ok res ∧ out.succeeded = res.succeeded ∧
          (out.succeeded = false → out.current = decodeKV key res.blob) ∧
          (scriptRev res.rev ≠ 0 → out.revision = scriptRev res.rev)) := by
  refine Prog.first_cmd fun r => ?_
  cases r with
  | error err => exact ⟨trivial, fun out h => nomatch h⟩
  | ok res =>
    constructor
    · refine Prog.uses_bind (txnRevision_uses res.rev) fun rev => ?_
      split_ifs
      · exact Prog.uses_bind (emit_uses (fun _ h => h) _ _ _ _ _ _) fun _ => trivial
      · trivial
    · refine Prog.returns_bind (txnRevision_returns res.rev) fun rev hrev => ?_
      split_ifs with h
      · refine Prog.returns_after _ fun out h' => ?_
        cases h'
        exact ⟨res, rfl, h.symm, (nomatch ·), hrev⟩
      · rintro out ⟨⟩
        exact ⟨res, rfl, by simp [h], fun _ => rfl, hrev⟩

/-! ### Leases -/

section Uses

variable {P : Cmd → Prop} (hq : ∀ c : Cmd, c.Quiet → P c)
  (hd : ∀ key, P (.evalWrite ⟨key, .delete, [], 0⟩))

theorem leaseGrant_uses (ttl : ℤ) (h : P .incrLeaseID ∧
    (∀ id, P (.setLease id ttl (seconds ttl))) ∧ ∀ id, P (.saddLease id)) :
    (leaseGrant ttl).Uses P := by
  refine Prog.uses_cmd h.1 fun r => ?_
  cases r with
  | error err => trivial
  | ok id =>
    refine Prog.uses_cmd (h.2.1 id) fun r₁ => Prog.uses_cmd (h.2.2 id) fun r₂ => ?_
    cases pipeErr [r₁, r₂] <;> trivial

include hq

theorem leaseRenew_uses (id : ℤ) (h : ∀ ttl, P (.renewLease id (seconds ttl))) :
    (leaseRenew id).Uses P := by
  refine Prog.uses_cmd (hq _ trivial) fun r => ?_
  rcases r with err | _ | text
  · trivial
  · trivial
  · dsimp only
    cases parseInt (goDecimal text) with
    | none => trivial
    | some ttl => exact Prog.uses_cmd (h ttl) fun _ => trivial

theorem put_uses {key : Key} {value : Bytes} {leaseID : ℤ}
    (hw : P (.evalWrite ⟨key, .put, value, leaseID⟩)) : (put key value leaseID).Uses P :=
  ((put_first key value leaseID).mono fun _ _ h => Prog.uses_mono hq h.1).uses hw

theorem delete_uses {key : Key} (hd : P (.evalWrite ⟨key, .delete, [], 0⟩)) :
    (delete key).Uses P :=
  ((delete_first key).mono fun _ _ h => Prog.uses_mono hq h.1).uses hd

include hd

theorem revokeKeys_uses (keys : List Key) : (revokeKeys keys).Uses P := by
  induction keys with
  | nil => trivial
  | cons key keys ih =>
    refine Prog.uses_bind (delete_uses hq (hd key)) fun r => ?_
    cases r with
    | error err => trivial
    | ok _ => exact ih

theorem leaseRevoke_uses (id : ℤ) (h : P (.delLease id) ∧ P (.delLeaseKeys id) ∧ P (.sremLease id)) :
    (leaseRevoke id).Uses P := by
  refine Prog.uses_cmd (hq _ trivial) fun r => ?_
  cases r with
  | error err => trivial
  | ok keys =>
    refine Prog.uses_bind (revokeKeys_uses hq hd keys) fun r' => ?_
    cases r' with
    | error err => trivial
    | ok _ =>
      refine Prog.uses_cmd h.1 fun r₁ => Prog.uses_cmd h.2.1 fun r₂ =>
        Prog.uses_cmd h.2.2 fun r₃ => ?_
      cases pipeErr [r₁, r₂, r₃] <;> trivial

theorem reapKeys_uses (keys : List Key) : (reapKeys keys).Uses P := by
  induction keys with
  | nil => trivial
  | cons key keys ih => exact Prog.uses_bind (delete_uses hq (hd key)) fun _ => ih

theorem reapLease_uses (id : ℤ) (h : P (.delLeaseKeys id) ∧ P (.sremLease id)) :
    (reapLease id).Uses P := by
  refine Prog.uses_cmd (hq _ trivial) fun r => ?_
  rcases r with err | _ | _
  · trivial
  · refine Prog.uses_cmd (hq _ trivial) fun keys =>
      Prog.uses_bind (reapKeys_uses hq hd _) fun _ => ?_
    exact Prog.uses_cmd h.1 fun _ => Prog.uses_cmd h.2 fun _ => trivial
  · trivial

theorem reapLeases_uses (h : ∀ id, P (.delLeaseKeys id) ∧ P (.sremLease id)) (ids : List ℤ) :
    (reapLeases ids).Uses P := by
  induction ids with
  | nil => trivial
  | cons id ids ih => exact Prog.uses_bind (reapLease_uses hq hd id (h id)) fun _ => ih

theorem reapExpiredLeases_uses (h : ∀ id, P (.delLeaseKeys id) ∧ P (.sremLease id)) :
    reapExpiredLeases.Uses P := by
  refine Prog.uses_cmd (hq _ trivial) fun r => ?_
  cases r with
  | error err => trivial
  | ok ids => exact reapLeases_uses hq hd h ids

end Uses

end RedisStore

end REtcd.Store
