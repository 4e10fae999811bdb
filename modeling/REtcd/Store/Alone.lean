import REtcd.Store.Codec
import REtcd.Store.Metadata
import REtcd.Store.Sink

/-!
# Put and Txn run alone

What one `Put` or one `Txn` leaves behind when no other client writes in between: the value under
its key and nothing else changed, or the store as it was.  The revision that a read reports is the
counter, but never less than 1 (`reported`).
-/

namespace REtcd.Store

open Base

def reported (s : Redis) : ℤ := if s.counter < 1 then 1 else s.counter

/-- `value` is what `s'` holds under `key`; all other keys are as in `s`. -/
def Stores (key : Key) (value : Bytes) (s s' : Redis) : Prop :=
  (∃ raw kv, s'.kv key = some raw ∧ decodeKV key raw = some kv ∧ kv.value = value) ∧
    ∀ k, k ≠ key → s'.kv k = s.kv k

theorem decodeKV_blob (key : Key) (c m v l : ℤ) (value : Bytes) :
    ∃ kv, decodeKV key (blob c m v l value) = some kv ∧ kv.value = value := by
  have hlen := blob_length c m v l value
  rw [decodeKV, if_neg (by omega)]
  exact ⟨_, rfl, blob_drop c m v l value⟩

/-- `s'` is `s` after a put has committed. -/
def Written (key : Key) (value : Bytes) (lease : ℤ) (s s' : Redis) : Prop :=
  ∃ id, Committed s s' ⟨id, .put, key, s.counter + 1,
    some (stamped (s.kv key) (s.counter + 1) lease value), s.kv key⟩

theorem Written.stores {key : Key} {value : Bytes} {lease : ℤ} {s s' : Redis}
    (h : Written key value lease s s') : Stores key value s s' := by
  obtain ⟨id, hc⟩ := h
  have hkv := hc.kv
  constructor
  · obtain ⟨kv, hdec, hval⟩ := decodeKV_blob key (stamp (s.kv key) (s.counter + 1)).1
      (s.counter + 1) (stamp (s.kv key) (s.counter + 1)).2 lease value
    refine ⟨_, kv, ?_, hdec, hval⟩
    rw [hkv]
    exact Function.update_self _ _ _
  · intro k hk
    rw [hkv]
    exact Function.update_of_ne hk _ _

theorem Committed.kv_ne {s s' : Redis} {e : Entry} (h : Committed s s' e) (hs : Consistent s)
    (ht : e.type = .put) : s'.kv e.key ≠ s.kv e.key := by
  obtain ⟨c, v, l, value, hd⟩ := h.put ht
  intro heq
  rw [h.kv, Function.update_self, hd] at heq
  -- the new blob carries the new revision, a stored one carries an older one
  obtain ⟨x, hx, _, hm⟩ := hs.field_mod heq.symm
  have hle := (hs.rev_mem (mem_of_lastEntry hx).1).2
  have hrev := h.rev
  have hnn := hs.counter_nonneg
  have hroom := h.room
  rw [field_blob, dec64_blob_mod (by omega) (by omega)] at hm
  omega

namespace RedisStore

theorem currentRevision_exec {w w' : World} {x : Result ℤ}
    (h : Prog.Exec step currentRevision w x w') : w' = w ∧ x = .ok (reported w.redis) := by
  obtain ⟨r, w₁, hs, h⟩ := Prog.exec_cmd.mp h
  obtain ⟨env, _, he⟩ := step_iff.mp hs
  rw [Cmd.run, Prod.mk.injEq] at he
  obtain ⟨rfl, rfl⟩ := he
  rw [reported, Redis.counter]
  cases hrev : w.redis.revision with
  | none =>
    rw [hrev] at h
    obtain ⟨rfl, rfl⟩ := Prog.exec_ret.mp h
    exact ⟨rfl, rfl⟩
  | some n =>
    rw [hrev] at h
    obtain ⟨rfl, rfl⟩ := Prog.exec_ret.mp h
    exact ⟨rfl, rfl⟩

theorem rawRevision_exec {w w' : World} {x : Result ℤ} (hw : 0 ≤ w.redis.counter)
    (h : Prog.Exec step rawRevision w x w') : w' = w ∧ x = .ok w.redis.counter := by
  obtain ⟨r, w₁, hs, h⟩ := Prog.exec_cmd.mp h
  obtain ⟨env, _, he⟩ := step_iff.mp hs
  rw [Cmd.run, Prod.mk.injEq] at he
  obtain ⟨rfl, rfl⟩ := he
  rw [Redis.counter] at hw ⊢
  cases hrev : w.redis.revision with
  | none =>
    rw [hrev] at h
    obtain ⟨rfl, rfl⟩ := Prog.exec_ret.mp h
    exact ⟨rfl, rfl⟩
  | some n =>
    rw [hrev] at h hw
    obtain ⟨rfl, rfl⟩ := Prog.exec_ret.mp h
    change 0 ≤ n at hw
    rw [if_neg (not_lt.mpr hw)]
    exact ⟨rfl, rfl⟩

theorem get_exec {key : Key} {w w' : World} {x : Result (Option KeyValue)}
    (h : Prog.Exec step (get key) w x w') :
    w' = w ∧ x = .ok ((w.redis.kv key).bind (decodeKV key)) := by
  obtain ⟨r, w₁, hs, h⟩ := Prog.exec_cmd.mp h
  obtain ⟨env, _, he⟩ := step_iff.mp hs
  rw [Cmd.run, Prod.mk.injEq] at he
  obtain ⟨rfl, rfl⟩ := he
  cases hk : w.redis.kv key with
  | none =>
    rw [hk] at h
    obtain ⟨rfl, rfl⟩ := Prog.exec_ret.mp h
    exact ⟨rfl, rfl⟩
  | some raw =>
    rw [hk] at h
    obtain ⟨rfl, rfl⟩ := Prog.exec_ret.mp h
    exact ⟨rfl, rfl⟩

theorem put_exec {key : Key} {value : Bytes} {lease : ℤ} {w w' : World}
    {x : Result (ℤ × Option KeyValue)} (hw : Consistent w.redis)
    (h : Prog.Exec step (put key value lease) w x w') :
    (¬ w.redis.counter < 2 ^ 63 - 1 ∧ w'.redis = w.redis ∧ ∃ err, x = .error err) ∨
    (w.redis.counter < 2 ^ 63 - 1 ∧ Written key value lease w.redis w'.redis ∧
      ∃ prev, x = .ok (scriptRev (luaTostring (w.redis.counter + 1)), prev)) := by
  obtain ⟨r, w₁, q, hs, ⟨hq, hret⟩, hrest⟩ := Prog.exec_first (put_first key value lease) h
  rw [exec_quiet hq hrest]
  have hx := Prog.exec_returns hret hrest
  obtain ⟨env, _, he⟩ := step_iff.mp hs
  rw [Cmd.run, Prod.mk.injEq] at he
  obtain ⟨rfl, rfl⟩ := he
  have hl : writeLua env.now ⟨key, .put, value, lease⟩ w.redis =
      writePut env.now ⟨key, .put, value, lease⟩ (w.redis.kv key) w.redis := rfl
  rw [hl] at hx ⊢
  rcases writePut_cases env.now ⟨key, .put, value, lease⟩ w.redis with
    ⟨hmax, hl⟩ | ⟨e, hc, _, _, hl⟩
  · rw [hl] at hx ⊢
    exact Or.inl ⟨hmax, rfl, _, hx⟩
  · rw [hl, hc.rev] at hx
    obtain ⟨id, hev⟩ := writePut_events env.now (a := ⟨key, .put, value, lease⟩) hc.room
      fun raw hraw => hw.stored_length hraw
    rw [hc.entry_eq hev] at hc
    exact Or.inr ⟨hc.room, ⟨id, hc⟩, _, hx⟩

theorem scriptRev_luaTostring_eq {n : ℤ} (h : scriptRev (luaTostring n) ≠ 0) :
    scriptRev (luaTostring n) = n := by
  by_cases hlt : n.natAbs < 10 ^ 14
  · rw [scriptRev, luaTostring, if_pos hlt, parseInt, if_pos ⟨by omega, by omega⟩]
    rfl
  · rw [scriptRev, luaTostring, if_neg hlt] at h
    exact absurd rfl h

/-- The revision in a script's reply, or the counter that stands in for it. -/
theorem txnRevision_exec {w w' : World} {m n : ℤ} (hm : m = reported w.redis)
    (h : Prog.Exec step (txnRevision (luaTostring m)) w n w') : w' = w ∧ n = m := by
  rw [txnRevision] at h
  split_ifs at h with hz
  · obtain ⟨x, w₁, hcur, h⟩ := Prog.exec_bind.mp h
    obtain ⟨rfl, rfl⟩ := currentRevision_exec hcur
    obtain ⟨rfl, rfl⟩ := Prog.exec_ret.mp h
    exact ⟨rfl, hm.symm⟩
  · obtain ⟨rfl, rfl⟩ := Prog.exec_ret.mp h
    exact ⟨rfl, scriptRev_luaTostring_eq hz⟩

theorem txn_exec {key : Key} {expected : ℤ} {value : Bytes} {lease : ℤ} {w w' : World}
    {x : Result TxnResult} (h : Prog.Exec step (txn key expected .put value lease) w x w') :
    (txnCompare expected (w.redis.kv key) = false ∧ w' = w ∧
      x = .ok ⟨false, reported w.redis, (w.redis.kv key).bind (decodeKV key)⟩) ∨
    (txnCompare expected (w.redis.kv key) = true ∧ ¬ w.redis.counter < 2 ^ 63 - 1 ∧
      w'.redis = w.redis ∧ ∃ err, x = .error err) ∨
    (txnCompare expected (w.redis.kv key) = true ∧ w.redis.counter < 2 ^ 63 - 1 ∧
      Written key value lease w.redis w'.redis ∧
      ∃ rev, x = .ok ⟨true, rev, none⟩ ∧ (0 ≤ w.redis.counter → rev = w.redis.counter + 1)) := by
  obtain ⟨r, w₁, hs, h⟩ := Prog.exec_cmd.mp h
  obtain ⟨env, _, he⟩ := step_iff.mp hs
  rw [Cmd.run, Prod.mk.injEq] at he
  obtain ⟨rfl, rfl⟩ := he
  cases hc : txnCompare expected (w.redis.kv key) with
  | false =>
    left
    rw [txnLua_of_fails env.now hc] at h
    obtain ⟨n, w₁, hrev, h⟩ := Prog.exec_bind.mp h
    obtain ⟨rfl, rfl⟩ := txnRevision_exec rfl hrev
    obtain ⟨rfl, rfl⟩ := Prog.exec_ret.mp h
    refine ⟨rfl, rfl, ?_⟩
    cases w'.redis.kv key with
    | none => rfl
    | some raw => rfl
  | true =>
    right
    have hev := txnPut_events env.now (a := ⟨key, expected, value, .put, lease⟩) (s := w.redis)
    rw [txnLua_of_holds env.now rfl hc] at h
    rcases txnPut_cases env.now ⟨key, expected, value, .put, lease⟩ w.redis with
      ⟨hmax, hl⟩ | ⟨e, hcom, _, _, hl⟩
    · left
      rw [hl] at h
      obtain ⟨rfl, rfl⟩ := Prog.exec_ret.mp h
      exact ⟨rfl, hmax, rfl, _, rfl⟩
    · right
      rw [hl] at h
      obtain ⟨n, w₂, hrev, h⟩ := Prog.exec_bind.mp h
      obtain ⟨_, w₃, hemit, h⟩ := Prog.exec_bind.mp h
      obtain ⟨rfl, rfl⟩ := Prog.exec_ret.mp h
      rw [exec_quiet (emit_uses (fun _ h => h) _ _ _ _ _ _) hemit,
        exec_quiet (txnRevision_uses _) hrev]
      obtain ⟨id, hev⟩ := hev hcom.room
      refine ⟨rfl, hcom.room, ⟨id, ?_⟩, n, rfl, fun hnn => ?_⟩
      · rw [hcom.entry_eq hev] at hcom
        exact hcom
      · refine (txnRevision_exec ?_ hrev).2.trans hcom.rev
        rw [reported, hcom.counter, hcom.rev, if_neg (by omega)]

end RedisStore

end REtcd.Store
