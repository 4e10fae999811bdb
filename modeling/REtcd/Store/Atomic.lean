import REtcd.Store.Sink

/-!
# Writes are all or nothing

A call of `Put`, `Delete` or `Txn` that fails should leave the database as it was, and one that
answers should have changed nothing or committed one write (`AllOrNothing`).  Redis does not roll a
script back, so this rests on no script failing after its `INCR`.

One does: `txn.lua` asked to delete a key that is absent, after a compare that holds of an absent
key (`Strands`).  The counter has moved by then, and `XADD` refuses the missing pre-image.
`write_atomic_iff` says that this is the only way: in every other state every call is all or
nothing, also when Redis refuses some of its commands.
-/

namespace REtcd.Store

open Base

/-- One command that runs, or that Redis refuses without effect. -/
def refusable (c : Cmd) (w : World) (r : Reply c) (w' : World) : Prop :=
  ∃ env : Env, (∀ f, env.fault = some f → f.applied = false) ∧ exec env c w = (r, w')

theorem refusable_of_step {c : Cmd} {w w' : World} {r : Reply c} (h : step c w r w') :
    refusable c w r w' := by
  obtain ⟨env, hf, he⟩ := h
  refine ⟨env, fun f h => ?_, he⟩
  rw [hf] at h
  cases h

theorem refusable_cases {c : Cmd} {w w' : World} {r : Reply c} (h : refusable c w r w') :
    (w' = w ∧ ∃ err, r = .error err) ∨ ∃ env : Env, c.run env w = (r, w') := by
  obtain ⟨env, hf, he⟩ := h
  rw [exec] at he
  cases hfault : env.fault with
  | none =>
    rw [hfault] at he
    exact Or.inr ⟨env, he⟩
  | some f =>
    rw [hfault] at he
    simp only [hf f hfault, Bool.false_eq_true, if_false] at he
    split_ifs at he
    · cases he
      exact Or.inl ⟨rfl, _, rfl⟩
    · exact Or.inr ⟨env, he⟩

theorem refusable_quiet {α : Type} {p : Routine α} (hp : p.Uses Cmd.Quiet) {w w' : World} {a : α}
    (h : Prog.Exec refusable p w a w') : w'.redis = w.redis := by
  refine attempt_quiet hp (h.mono fun c v r v' hs => ?_)
  obtain ⟨env, _, he⟩ := hs
  exact ⟨env, he⟩

/-! ### The scripts -/

/-- A call that fails changes nothing; one that answers changes nothing or commits one write. -/
def AllOrNothing {α : Type} (s : Redis) (x : Except GoError α) (s' : Redis) : Prop :=
  match x with
  | .error _ => s' = s
  | .ok _ => s' = s ∨ ∃ e, Committed s s' e

theorem AllOrNothing.congr {α β : Type} {s s' : Redis} {x : Except GoError α}
    {y : Except GoError β} (h : AllOrNothing s x s') (hxy : y.isOk = x.isOk) :
    AllOrNothing s y s' := by
  cases x with
  | error _ =>
    cases y with
    | error _ => exact h
    | ok _ => cases hxy
  | ok _ =>
    cases y with
    | error _ => cases hxy
    | ok _ => exact h

theorem writeLua_atomic (now : ℕ) (a : WriteArgs) (s : Redis) :
    AllOrNothing s (writeLua now a s).1 (writeLua now a s).2 := by
  rcases writeLua_cases now a s with ⟨_, h⟩ | ⟨_, _, h⟩ | ⟨e, he, _, _, h⟩
  · rw [h]
    rfl
  · rw [h]
    exact Or.inl rfl
  · rw [h]
    exact Or.inr ⟨e, he⟩

/-- `txn.lua` is all or nothing, unless it is asked to delete a key that is absent. -/
theorem txnLua_atomic (now : ℕ) {a : TxnArgs} {s : Redis}
    (h : a.op = .put ∨ (s.kv a.key).isSome ∨ txnCompare a.expected (s.kv a.key) = false ∨
      ¬ s.counter < 2 ^ 63 - 1) :
    AllOrNothing s (txnLua now a s).1 (txnLua now a s).2 := by
  cases hcmp : txnCompare a.expected (s.kv a.key) with
  | false =>
    rw [txnLua_of_fails now hcmp]
    exact Or.inl rfl
  | true =>
    cases hop : a.op with
    | put =>
      rw [txnLua_of_holds now hop hcmp]
      rcases txnPut_cases now a s with ⟨_, hl⟩ | ⟨e, he, _, _, hl⟩
      · rw [hl]
        rfl
      · rw [hl]
        exact Or.inr ⟨e, he⟩
    | delete =>
      have hlua : txnLua now a s = txnDelete now a (s.kv a.key) s := by simp [txnLua, hcmp, hop]
      rw [hlua]
      cases hraw : s.kv a.key with
      | some raw =>
        rcases txnDelete_cases now hraw with hl | ⟨e, he, _, _, hl⟩
        · rw [hl]
          rfl
        · rw [hl]
          exact Or.inr ⟨e, he⟩
      | none =>
        -- only the end of the counter's range is left, where `INCR` fails
        rw [hop, hcmp, hraw] at h
        have hfull : ¬ s.counter < 2 ^ 63 - 1 := by simpa using h
        rw [txnDelete, Redis.incr, if_neg hfull]
        rfl

theorem txnCompare_none (expected : ℤ) :
    txnCompare expected none = true ↔ expected = -1 ∨ expected = 0 := by
  rw [txnCompare, field]
  split_ifs with h
  · simp [h]
  · rw [decide_eq_true_eq]
    omega

/-- The delete of an absent key moves the counter and appends nothing. -/
theorem txnLua_strands (now : ℕ) {a : TxnArgs} {s : Redis} (hop : a.op = .delete)
    (hraw : s.kv a.key = none) (hcmp : txnCompare a.expected (s.kv a.key) = true)
    (hroom : s.counter < 2 ^ 63 - 1) :
    (txnLua now a s).1 = .error badArgument ∧ (txnLua now a s).2.counter = s.counter + 1 := by
  have hlua : txnLua now a s = txnDelete now a (s.kv a.key) s := by simp [txnLua, hcmp, hop]
  rw [hlua, hraw, txnDelete, Redis.incr, if_pos hroom]
  exact ⟨rfl, rfl⟩

/-! ### The writing operations -/

namespace WriteOp

/-- A transaction that asks for the delete of a key which is absent, and whose compare holds. -/
def Strands (op : WriteOp) (s : Redis) : Prop :=
  match op with
  | txn key expected .delete _ _ =>
    s.kv key = none ∧ (expected = -1 ∨ expected = 0) ∧ s.counter < 2 ^ 63 - 1
  | _ => False

theorem txn_first_isOk (key : Key) (expected : ℤ) (op : EventType) (value : Bytes) (leaseID : ℤ) :
    (RedisStore.txn key expected op value leaseID).First
      (.evalTxn ⟨key, expected, value, op, leaseID⟩)
      (fun r q => q.Uses Cmd.Quiet ∧ q.Returns fun x => x.isOk = r.isOk) := by
  refine Prog.first_cmd fun r => ?_
  cases r with
  | error err => exact ⟨trivial, rfl⟩
  | ok res =>
    constructor
    · refine Prog.uses_bind (RedisStore.txnRevision_uses res.rev) fun rev => ?_
      split_ifs
      · exact Prog.uses_bind (RedisStore.emit_uses (fun _ h => h) _ _ _ _ _ _) fun _ => trivial
      · trivial
    · refine Prog.returns_bind (RedisStore.txnRevision_returns res.rev) fun rev _ => ?_
      split_ifs
      · exact Prog.returns_after _ rfl
      · rfl

theorem writeResult_isOk (what : String) (key : Key) (r : Except GoError WriteReply) :
    (RedisStore.writeResult what key r).isOk = r.isOk := by
  cases r <;> rfl

theorem map_isOk {α β : Type} (f : α → β) (x : Result α) : (Except.map f x).isOk = x.isOk := by
  cases x <;> rfl

theorem routine_first (op : WriteOp) :
    op.routine.First op.script
      (fun r q => q.Uses Cmd.Quiet ∧ q.Returns fun x => x.isOk = r.isOk) := by
  cases op with
  | put key value leaseID =>
    refine (RedisStore.put_first key value leaseID).bind fun r q hq => ?_
    refine ⟨Prog.uses_bind hq.1 fun _ => trivial, Prog.returns_bind hq.2 ?_⟩
    rintro _ rfl
    exact (map_isOk _ _).trans (writeResult_isOk _ _ r)
  | delete key =>
    refine (RedisStore.delete_first key).bind fun r q hq => ?_
    refine ⟨Prog.uses_bind hq.1 fun _ => trivial, Prog.returns_bind hq.2 ?_⟩
    rintro _ rfl
    exact (map_isOk _ _).trans (writeResult_isOk _ _ r)
  | txn key expected successOp value leaseID =>
    refine (txn_first_isOk key expected successOp value leaseID).bind fun r q hq => ?_
    exact ⟨Prog.uses_bind hq.1 fun _ => trivial,
      Prog.returns_bind hq.2 fun x hx => (map_isOk _ x).trans hx⟩

theorem script_atomic {op : WriteOp} {w : World} (h : ¬ op.Strands w.redis) (env : Env) :
    AllOrNothing w.redis (op.script.run env w).1 (op.script.run env w).2.redis := by
  cases op with
  | put key value leaseID => exact writeLua_atomic env.now _ w.redis
  | delete key => exact writeLua_atomic env.now _ w.redis
  | txn key expected successOp value leaseID =>
    refine txnLua_atomic (a := ⟨key, expected, value, successOp, leaseID⟩) env.now ?_
    cases successOp with
    | put => exact Or.inl rfl
    | delete =>
      right
      cases hraw : w.redis.kv key with
      | some raw => exact Or.inl rfl
      | none =>
        right
        dsimp only
        by_cases hroom : w.redis.counter < 2 ^ 63 - 1
        · refine Or.inl (Bool.eq_false_iff.mpr fun hcmp => h ?_)
          exact ⟨hraw, (txnCompare_none expected).mp (hraw ▸ hcmp), hroom⟩
        · exact Or.inr hroom

theorem not_script_atomic {op : WriteOp} {w : World} (h : op.Strands w.redis) (env : Env) :
    ¬ AllOrNothing w.redis (op.script.run env w).1 (op.script.run env w).2.redis := by
  cases op with
  | put key value leaseID => exact h.elim
  | delete key => exact h.elim
  | txn key expected successOp value leaseID =>
    cases successOp with
    | put => exact h.elim
    | delete =>
      obtain ⟨hraw, hexp, hroom⟩ := h
      obtain ⟨herr, hcount⟩ := txnLua_strands (a := ⟨key, expected, value, .delete, leaseID⟩) env.now
        rfl hraw (by rw [hraw]; exact (txnCompare_none expected).mpr hexp) hroom
      intro hall
      simp only [script, Cmd.run, herr] at hall
      have hsame : (txnLua env.now ⟨key, expected, value, .delete, leaseID⟩ w.redis).2 = w.redis :=
        hall
      rw [hsame] at hcount
      omega

/-- **Store writes are all or nothing, except for a transaction that deletes an absent key**: every
`Put`, `Delete` and `Txn` that Redis runs or refuses either fails and changes nothing, or answers
and has changed nothing or committed one write, in exactly the states where it is not such a
transaction. -/
theorem write_atomic_iff (op : WriteOp) (w : World) :
    (∀ x w', Prog.Exec refusable op.routine w x w' → AllOrNothing w.redis x w'.redis) ↔
      ¬ op.Strands w.redis := by
  constructor
  · intro h hstr
    obtain ⟨x, w', hx⟩ := Prog.exists_exec step_total op.routine w
    have hall := h x w' (hx.mono fun _ _ _ _ => refusable_of_step)
    obtain ⟨r, w₁, q, hs, ⟨hq, hret⟩, hrest⟩ := Prog.exec_first op.routine_first hx
    have hok := Prog.exec_returns hret hrest
    rw [exec_quiet hq hrest] at hall
    obtain ⟨env, _, he⟩ := step_iff.mp hs
    have hscript := not_script_atomic hstr env
    rw [he] at hscript
    exact hscript (hall.congr hok.symm)
  · intro h x w' hx
    obtain ⟨r, w₁, q, hs, ⟨hq, hret⟩, hrest⟩ := Prog.exec_first op.routine_first hx
    have hok := Prog.exec_returns hret hrest
    rw [refusable_quiet hq hrest]
    refine AllOrNothing.congr ?_ hok
    rcases refusable_cases hs with ⟨rfl, err, rfl⟩ | ⟨env, he⟩
    · rfl
    · have hscript := script_atomic h env
      rw [he] at hscript
      exact hscript

def deleteAbsent : WriteOp := txn [97] (-1) .delete [] 0

/-- **A counter that moves without an event**: on an empty store the transaction fails, the counter
is at 1 and the stream is empty. -/
theorem deleteAbsent_strands :
    ∃ err w', Prog.Exec refusable deleteAbsent.routine .empty (.error err) w' ∧
      w'.redis.counter = 1 ∧ w'.redis.events = [] := by
  refine ⟨"txn script: " ++ badArgument, (deleteAbsent.script.run (.plain 5) .empty).2, ?_, rfl, rfl⟩
  exact .call (r := .error badArgument) (refusable_of_step ⟨.plain 5, rfl, rfl⟩) (.ret _ _)

end WriteOp

end REtcd.Store
