import REtcd.Base.Prog
import REtcd.Store.Event

/-!
# What the server asks of Redis

`Cmd` lists the Redis commands that the store issues, each of which Redis runs at once, and the
call of the event sink, which is not Redis' but another step of its own.  `Cmd.run` is what a
command does; `exec` adds the failures: a command may be refused, or it may be carried out and
its answer lost, and the caller sees an error either way.

A pipeline is a sequence of commands, since other clients' commands can come in between.
`order` is the order in which `SMEMBERS` happens to list a set.
-/

namespace REtcd.Store

open Base

/-- A bound of `ZRANGEBYLEX`: `-`, `+`, `[key` or `(key`. -/
inductive LexBound where
  | minusInf
  | plusInf
  | incl (key : Key)
  | excl (key : Key)
  deriving DecidableEq, Repr

def LexBound.below : LexBound → Key → Bool
  | minusInf, _ => true
  | plusInf, _ => false
  | incl b, k => decide (b ≤ k)
  | excl b, k => decide (b < k)

def LexBound.above : LexBound → Key → Bool
  | minusInf, _ => false
  | plusInf, _ => true
  | incl b, k => decide (k ≤ b)
  | excl b, k => decide (k < b)

inductive Cmd where
  | get (key : Key)
  | getRevision
  | zrangeByLex (min max : LexBound)
  | mget (keys : List Key)
  | evalWrite (a : WriteArgs)
  | evalTxn (a : TxnArgs)
  | incrLeaseID
  | setLease (id ttl expiry : ℤ)
  | saddLease (id : ℤ)
  | getLease (id : ℤ)
  /-- `EXPIRE lease:<id>`. -/
  | renewLease (id expiry : ℤ)
  | smembersLeaseKeys (id : ℤ)
  | smembersLeases
  | existsLease (id : ℤ)
  | delLease (id : ℤ)
  | delLeaseKeys (id : ℤ)
  | sremLease (id : ℤ)
  /-- Not a request: the TTL of `lease:<id>` runs out. -/
  | expireLease (id : ℤ)
  /-- Not a request either: the event sink is called. -/
  | emit (ev : Event)

@[reducible] def Cmd.Val : Cmd → Type
  | get _ => Option Blob
  | getRevision => Option ℤ
  | zrangeByLex _ _ => List Key
  | mget _ => List (Option Blob)
  | evalWrite _ => WriteReply
  | evalTxn _ => TxnReply
  | incrLeaseID => ℤ
  | getLease _ => Option ℤ
  | renewLease _ _ => Bool
  | smembersLeaseKeys _ => List Key
  | smembersLeases => List ℤ
  | existsLease _ => Bool
  | _ => Unit

abbrev Reply (c : Cmd) : Type := Except GoError c.Val

structure World where
  redis : Redis
  emitted : List Event

def World.empty : World := ⟨.empty, []⟩

/-- A command that fails: its error, and whether it was carried out all the same. -/
structure Fault where
  msg : GoError
  applied : Bool

/-- What the surroundings decide about one command. -/
structure Env where
  now : ℕ
  order : List Key → List Key
  order_perm : ∀ l, (order l).Perm l
  orderIDs : List ℤ → List ℤ
  orderIDs_perm : ∀ l, (orderIDs l).Perm l
  fault : Option Fault

/-- Surroundings without a fault, in which sets are listed in ascending order. -/
def Env.plain (now : ℕ) : Env := ⟨now, id, fun _ => .refl _, id, fun _ => .refl _, none⟩

def World.modify (w : World) (f : Redis → Redis) : Except GoError Unit × World :=
  (.ok (), { w with redis := f w.redis })

def Cmd.run (env : Env) : (c : Cmd) → World → Reply c × World
  | get key, w => (.ok (w.redis.kv key), w)
  | getRevision, w => (.ok w.redis.revision, w)
  | zrangeByLex min max, w =>
    (.ok (w.redis.keyindex.toList.filter (fun k => min.below k && max.above k)), w)
  | mget keys, w => (.ok (keys.map w.redis.kv), w)
  | evalWrite a, w =>
    let out := writeLua env.now a w.redis
    (out.1, { w with redis := out.2 })
  | evalTxn a, w =>
    let out := txnLua env.now a w.redis
    (out.1, { w with redis := out.2 })
  | incrLeaseID, w =>
    if w.redis.leaseIDCounter < 2 ^ 63 - 1 then
      (.ok (w.redis.leaseIDCounter + 1),
        { w with redis := { w.redis with leaseIDCounter := w.redis.leaseIDCounter + 1 } })
    else (.error incrOverflow, w)
  | setLease id ttl expiry, w =>
    w.modify fun s => { s with leaseData := Function.update s.leaseData id (some ⟨ttl, expiry⟩) }
  | saddLease id, w => w.modify fun s => { s with leases := s.leases.insert id }
  | getLease id, w => (.ok ((w.redis.leaseData id).map LeaseData.ttl), w)
  | renewLease id expiry, w =>
    (.ok (w.redis.leaseData id).isSome,
      { w with redis := { w.redis with
          leaseData := Function.update w.redis.leaseData id
            ((w.redis.leaseData id).bind (LeaseData.expire expiry)) } })
  | smembersLeaseKeys id, w => (.ok (env.order (w.redis.leaseKeys (goDecimal id)).toList), w)
  | smembersLeases, w => (.ok (env.orderIDs w.redis.leases.toList), w)
  | existsLease id, w => (.ok (w.redis.leaseData id).isSome, w)
  | delLease id, w =>
    w.modify fun s => { s with leaseData := Function.update s.leaseData id none }
  | delLeaseKeys id, w =>
    w.modify fun s => { s with leaseKeys := Function.update s.leaseKeys (goDecimal id) .empty }
  | sremLease id, w => w.modify fun s => { s with leases := s.leases.erase id }
  | expireLease id, w =>
    w.modify fun s => { s with leaseData := Function.update s.leaseData id none }
  | emit ev, w => (.ok (), { w with emitted := w.emitted ++ [ev] })

def Cmd.Quiet : Cmd → Prop
  | get _ => True
  | getRevision => True
  | zrangeByLex _ _ => True
  | mget _ => True
  | getLease _ => True
  | smembersLeaseKeys _ => True
  | smembersLeases => True
  | existsLease _ => True
  | emit _ => True
  | _ => False

theorem Cmd.run_quiet (env : Env) {c : Cmd} (h : c.Quiet) (w : World) :
    (c.run env w).2.redis = w.redis := by
  cases c with
  | get | getRevision | zrangeByLex | mget | getLease | smembersLeaseKeys | smembersLeases
  | existsLease | emit => rfl
  | _ => exact h.elim

/-- The commands that go to Redis, and so can fail. -/
def Cmd.remote : Cmd → Bool
  | emit _ => false
  | expireLease _ => false
  | _ => true

/-- A command under `env`.  A command that fails is not sent again: the attempts of the client
library after the first one are not modelled. -/
def exec (env : Env) (c : Cmd) (w : World) : Reply c × World :=
  match env.fault with
  | some f =>
    if c.remote then (.error f.msg, if f.applied then (c.run env w).2 else w) else c.run env w
  | none => c.run env w

/-- A command that is carried out under `env`, whether it is answered or not. -/
def carriedOut (env : Env) : Prop := ∀ f, env.fault = some f → f.applied = true

instance (env : Env) : Decidable (carriedOut env) :=
  match h : env.fault with
  | none => .isTrue fun f hf => by rw [h] at hf; cases hf
  | some f =>
    if hf : f.applied = true then .isTrue fun g hg => by rw [h] at hg; cases hg; exact hf
    else .isFalse fun hall => hf (hall f h)

def step (c : Cmd) (w : World) (r : Reply c) (w' : World) : Prop :=
  ∃ env : Env, env.fault = none ∧ exec env c w = (r, w')

/-- One command in any surroundings: it may be refused, or carried out and its answer lost. -/
def attempt (c : Cmd) (w : World) (r : Reply c) (w' : World) : Prop :=
  ∃ env : Env, exec env c w = (r, w')

abbrev Routine := Prog Cmd Reply

abbrev issue (c : Cmd) : Routine (Reply c) := .cmd c

abbrev Result (α : Type) := Except GoError α

theorem exec_of_faultless {env : Env} (h : env.fault = none) (c : Cmd) (w : World) :
    exec env c w = c.run env w := by
  rw [exec, h]

/-- A command leaves the world as it is, or does what it does when nothing fails. -/
theorem exec_world (env : Env) (c : Cmd) (w : World) :
    (exec env c w).2 = w ∨ (exec env c w).2 = (c.run env w).2 := by
  rw [exec]
  cases env.fault with
  | none => exact Or.inr rfl
  | some f =>
    dsimp only
    split_ifs
    · exact Or.inr rfl
    · exact Or.inl rfl
    · exact Or.inr rfl

theorem step_iff {c : Cmd} {w w' : World} {r : Reply c} :
    step c w r w' ↔ ∃ env : Env, env.fault = none ∧ c.run env w = (r, w') := by
  constructor
  · rintro ⟨env, hf, h⟩
    rw [exec, hf] at h
    exact ⟨env, hf, h⟩
  · rintro ⟨env, hf, h⟩
    refine ⟨env, hf, ?_⟩
    rw [exec, hf]
    exact h

theorem attempt_of_step {c : Cmd} {w w' : World} {r : Reply c} (h : step c w r w') :
    attempt c w r w' := by
  obtain ⟨env, _, he⟩ := h
  exact ⟨env, he⟩

/-- A command runs and is answered, or it fails: refused, or carried out and its answer lost. -/
theorem attempt_cases {c : Cmd} {w w' : World} {r : Reply c} (h : attempt c w r w') :
    ∃ env : Env, c.run env w = (r, w') ∨
      (∃ err, r = .error err) ∧ (w' = w ∨ w' = (c.run env w).2) := by
  obtain ⟨env, he⟩ := h
  refine ⟨env, ?_⟩
  rw [exec] at he
  cases hf : env.fault with
  | none =>
    rw [hf] at he
    exact Or.inl he
  | some f =>
    rw [hf] at he
    dsimp only at he
    split_ifs at he
    · cases he
      exact Or.inr ⟨⟨_, rfl⟩, Or.inr rfl⟩
    · cases he
      exact Or.inr ⟨⟨_, rfl⟩, Or.inl rfl⟩
    · exact Or.inl he

theorem attempt_world {c : Cmd} {w w' : World} {r : Reply c} (h : attempt c w r w') :
    w' = w ∨ ∃ env : Env, w' = (c.run env w).2 := by
  obtain ⟨env, he | ⟨_, he | he⟩⟩ := attempt_cases h
  · exact Or.inr ⟨env, by rw [he]⟩
  · exact Or.inl he
  · exact Or.inr ⟨env, he⟩

theorem step_total (c : Cmd) (w : World) : ∃ r w', step c w r w' :=
  ⟨_, _, Env.plain 0, rfl, rfl⟩

end REtcd.Store
