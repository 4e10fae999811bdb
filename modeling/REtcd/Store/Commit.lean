import REtcd.Store.Command

/-!
# What a script can do

However many branches the two scripts have, a script call does one of two things to the part of
the database that readers see (the blobs, the index, the counter and the stream).  It leaves it
as it was (`Frame`): the key to delete is absent, the compare fails, the counter is at its end.
Or it commits one write (`Committed`): the counter moves by one, one entry with that revision is
appended, and the entry's key takes the entry's data in the blobs and in the index.

`writeLua_cases` and `txnLua_cases` say this of the scripts, with the result the caller gets, and
`run_effect` of every command that the server issues.
-/

namespace REtcd.Store

open Base

/-- What readers see is the same in both databases. -/
structure Frame (s s' : Redis) : Prop where
  kv : s'.kv = s.kv
  revision : s'.revision = s.revision
  events : s'.events = s.events
  keyindex : s'.keyindex = s.keyindex

theorem Frame.refl (s : Redis) : Frame s s := ⟨rfl, rfl, rfl, rfl⟩

theorem Frame.counter {s s' : Redis} (h : Frame s s') : s'.counter = s.counter := by
  rw [Redis.counter, h.revision, Redis.counter]

/-- `s'` is `s` after the write that the entry `e` records. -/
structure Committed (s s' : Redis) (e : Entry) : Prop where
  room : s.counter < 2 ^ 63 - 1
  revision : s'.revision = some (s.counter + 1)
  rev : e.rev = s.counter + 1
  id : s.lastID < e.id
  events : s'.events = s.events ++ [e]
  prev : e.prevData = s.kv e.key
  kv : s'.kv = Function.update s.kv e.key e.data
  index : ∀ k, k ∈ s'.keyindex ↔ if k = e.key then e.data.isSome = true else k ∈ s.keyindex
  put : e.type = .put → ∃ c v l value, e.data = some (blob c e.rev v l value)
  delete : e.type = .delete → e.data = none ∧ e.prevData.isSome
  leases : s'.leases = s.leases
  leaseData : s'.leaseData = s.leaseData

theorem Committed.counter {s s' : Redis} {e : Entry} (h : Committed s s' e) :
    s'.counter = s.counter + 1 := by
  rw [Redis.counter, h.revision]
  rfl

/-! ### The two kinds of commit -/

theorem incr_none {s : Redis} (h : s.incr = none) : ¬ s.counter < 2 ^ 63 - 1 := by
  rw [Redis.incr] at h
  split_ifs at h with hc
  exact hc

theorem incr_some {s t : Redis} {rev : ℤ} (h : s.incr = some (rev, t)) :
    s.counter < 2 ^ 63 - 1 ∧ rev = s.counter + 1 ∧ t = { s with revision := some rev } := by
  rw [Redis.incr] at h
  split_ifs at h with hc
  rw [Option.some.injEq, Prod.mk.injEq] at h
  obtain ⟨rfl, rfl⟩ := h
  exact ⟨hc, rfl, rfl⟩

theorem Committed.of_put {s t : Redis} {now : ℕ} {key : Key} {c v l : ℤ} {value : Bytes}
    (hroom : s.counter < 2 ^ 63 - 1)
    (hkv : t.kv = Function.update s.kv key (some (blob c (s.counter + 1) v l value)))
    (hrev : t.revision = some (s.counter + 1)) (hev : t.events = s.events)
    (hidx : t.keyindex = s.keyindex.insert key) (hleases : t.leases = s.leases)
    (hdata : t.leaseData = s.leaseData) :
    Committed s
      (t.xadd now .put key (s.counter + 1) (some (blob c (s.counter + 1) v l value)) (s.kv key)).2
      ⟨s.lastID.next now, .put, key, s.counter + 1, some (blob c (s.counter + 1) v l value),
        s.kv key⟩ where
  room := hroom
  revision := hrev
  rev := rfl
  id := StreamID.lt_next now s.lastID
  events := by
    simp only [Redis.xadd, Redis.lastID, hev]
  prev := rfl
  kv := hkv
  index k := by
    simp only [Redis.xadd, hidx, SortedSet.mem_insert]
    split_ifs with h <;> simp [h]
  put _ := ⟨c, v, l, value, rfl⟩
  delete h := nomatch h
  leases := hleases
  leaseData := hdata

theorem Committed.of_delete {s t : Redis} {now : ℕ} {key : Key} {raw : Blob}
    (hroom : s.counter < 2 ^ 63 - 1) (hraw : s.kv key = some raw)
    (hkv : t.kv = Function.update s.kv key none)
    (hrev : t.revision = some (s.counter + 1)) (hev : t.events = s.events)
    (hidx : t.keyindex = s.keyindex.erase key) (hleases : t.leases = s.leases)
    (hdata : t.leaseData = s.leaseData) :
    Committed s (t.xadd now .delete key (s.counter + 1) none (some raw)).2
      ⟨s.lastID.next now, .delete, key, s.counter + 1, none, some raw⟩ where
  room := hroom
  revision := hrev
  rev := rfl
  id := StreamID.lt_next now s.lastID
  events := by
    simp only [Redis.xadd, Redis.lastID, hev]
  prev := hraw.symm
  kv := hkv
  index k := by
    simp only [Redis.xadd, hidx, SortedSet.mem_erase]
    split_ifs with h <;> simp [h]
  put h := nomatch h
  delete _ := ⟨rfl, rfl⟩
  leases := hleases
  leaseData := hdata

/-! ### write.lua -/

theorem writeDelete_cases (now : ℕ) {a : WriteArgs} {raw : Blob} {s : Redis}
    (hraw : s.kv a.key = some raw) :
    (¬ s.counter < 2 ^ 63 - 1 ∧ writeDelete now a raw s = (.error incrOverflow, s)) ∨
    ∃ e, Committed s (writeDelete now a raw s).2 e ∧ e.key = a.key ∧ e.type = .delete ∧
      (writeDelete now a raw s).1 = .ok ⟨luaTostring e.rev, raw, [], some e.id⟩ := by
  unfold writeDelete
  cases hi : s.incr with
  | none => exact Or.inl ⟨incr_none hi, rfl⟩
  | some p =>
    obtain ⟨rev, t⟩ := p
    obtain ⟨hroom, rfl, rfl⟩ := incr_some hi
    right
    dsimp only
    split_ifs
    · exact ⟨_, Committed.of_delete hroom hraw rfl rfl rfl rfl rfl rfl, rfl, rfl, rfl⟩
    · exact ⟨_, Committed.of_delete hroom hraw rfl rfl rfl rfl rfl rfl, rfl, rfl, rfl⟩

theorem writePut_cases (now : ℕ) (a : WriteArgs) (s : Redis) :
    (¬ s.counter < 2 ^ 63 - 1 ∧ writePut now a (s.kv a.key) s = (.error incrOverflow, s)) ∨
    ∃ e, Committed s (writePut now a (s.kv a.key) s).2 e ∧ e.key = a.key ∧ e.type = .put ∧
      (writePut now a (s.kv a.key) s).1 =
        .ok ⟨luaTostring e.rev, (s.kv a.key).getD [], e.data.getD [], some e.id⟩ := by
  unfold writePut
  cases hi : s.incr with
  | none => exact Or.inl ⟨incr_none hi, rfl⟩
  | some p =>
    obtain ⟨rev, t⟩ := p
    obtain ⟨hroom, rfl, rfl⟩ := incr_some hi
    right
    dsimp only
    split_ifs
    all_goals exact ⟨_, Committed.of_put hroom rfl rfl rfl rfl rfl rfl, rfl, rfl, rfl⟩

/-- **`write.lua` does nothing or commits one write of its key.** -/
theorem writeLua_cases (now : ℕ) (a : WriteArgs) (s : Redis) :
    (¬ s.counter < 2 ^ 63 - 1 ∧ writeLua now a s = (.error incrOverflow, s)) ∨
    (a.op = .delete ∧ s.kv a.key = none ∧
      writeLua now a s = (.ok ⟨luaTostring s.counter, [], [], none⟩, s)) ∨
    ∃ e, Committed s (writeLua now a s).2 e ∧ e.key = a.key ∧ e.type = a.op ∧
      (writeLua now a s).1 =
        .ok ⟨luaTostring e.rev, (s.kv a.key).getD [], e.data.getD [], some e.id⟩ := by
  unfold writeLua
  cases hop : a.op with
  | put =>
    rcases writePut_cases now a s with h | h
    · exact Or.inl h
    · exact Or.inr (Or.inr h)
  | delete =>
    cases hraw : s.kv a.key with
    | none => exact Or.inr (Or.inl ⟨rfl, rfl, rfl⟩)
    | some raw =>
      rcases writeDelete_cases now hraw with h | ⟨e, he, hk, ht, hr⟩
      · exact Or.inl h
      · refine Or.inr (Or.inr ⟨e, he, hk, ht, ?_⟩)
        rw [(he.delete ht).1]
        exact hr

/-! ### txn.lua -/

theorem txnPut_cases (now : ℕ) (a : TxnArgs) (s : Redis) :
    (¬ s.counter < 2 ^ 63 - 1 ∧ txnPut now a (s.kv a.key) s = (.error incrOverflow, s)) ∨
    ∃ e, Committed s (txnPut now a (s.kv a.key) s).2 e ∧ e.key = a.key ∧ e.type = .put ∧
      (txnPut now a (s.kv a.key) s).1 =
        .ok ⟨true, (s.kv a.key).getD [], luaTostring e.rev, e.data.getD [], some e.id⟩ := by
  unfold txnPut
  cases hi : s.incr with
  | none => exact Or.inl ⟨incr_none hi, rfl⟩
  | some p =>
    obtain ⟨rev, t⟩ := p
    obtain ⟨hroom, rfl, rfl⟩ := incr_some hi
    exact Or.inr ⟨_, Committed.of_put hroom rfl rfl rfl rfl rfl rfl, rfl, rfl, rfl⟩

theorem txnLua_of_fails (now : ℕ) {a : TxnArgs} {s : Redis}
    (h : txnCompare a.expected (s.kv a.key) = false) :
    txnLua now a s = (.ok ⟨false, (s.kv a.key).getD [],
      luaTostring (if s.counter < 1 then 1 else s.counter), [], none⟩, s) := by
  simp [txnLua, h]

theorem txnLua_of_holds (now : ℕ) {a : TxnArgs} {s : Redis} (hop : a.op = .put)
    (h : txnCompare a.expected (s.kv a.key) = true) :
    txnLua now a s = txnPut now a (s.kv a.key) s := by
  simp [txnLua, h, hop]

/-- `txn.lua` does nothing when its compare fails.  **When the compare holds, a put commits one
write of its key**, unless the counter is at its end. -/
theorem txnLua_cases (now : ℕ) {a : TxnArgs} (hop : a.op = .put) (s : Redis) :
    (txnCompare a.expected (s.kv a.key) = false ∧ txnLua now a s =
      (.ok ⟨false, (s.kv a.key).getD [], luaTostring (if s.counter < 1 then 1 else s.counter), [],
        none⟩, s)) ∨
    (¬ s.counter < 2 ^ 63 - 1 ∧ txnLua now a s = (.error incrOverflow, s)) ∨
    (txnCompare a.expected (s.kv a.key) = true ∧
      ∃ e, Committed s (txnLua now a s).2 e ∧ e.key = a.key ∧ e.type = .put ∧
        (txnLua now a s).1 =
          .ok ⟨true, (s.kv a.key).getD [], luaTostring e.rev, e.data.getD [], some e.id⟩) := by
  cases hc : txnCompare a.expected (s.kv a.key) with
  | false => exact Or.inl ⟨rfl, txnLua_of_fails now hc⟩
  | true =>
    rw [txnLua_of_holds now hop hc]
    rcases txnPut_cases now a s with h | h
    · exact Or.inr (Or.inl h)
    · exact Or.inr (Or.inr ⟨rfl, h⟩)

/-! ### Commands -/

/-- The commands that the server issues: it never asks `txn.lua` for a delete, which on an absent
key would move the counter and append nothing. -/
def Cmd.Issued : Cmd → Prop
  | .evalTxn a => a.op = .put
  | _ => True

/-- What a command can do to the part of the database that readers see. -/
def Effect (s s' : Redis) : Prop := Frame s s' ∨ ∃ e, Committed s s' e

theorem Effect.counter_le {s s' : Redis} (h : Effect s s') : s.counter ≤ s'.counter := by
  rcases h with hf | ⟨e, hc⟩
  · rw [hf.counter]
  · rw [hc.counter]
    omega

theorem Effect.refl (s : Redis) : Effect s s := Or.inl (Frame.refl s)

theorem run_effect (env : Env) {c : Cmd} (hc : c.Issued) (w : World) :
    Effect w.redis (c.run env w).2.redis := by
  cases c with
  | evalWrite a =>
    simp only [Cmd.run]
    rcases writeLua_cases env.now a w.redis with ⟨_, h⟩ | ⟨_, _, h⟩ | ⟨e, he, _⟩
    · rw [h]
      exact Effect.refl _
    · rw [h]
      exact Effect.refl _
    · exact Or.inr ⟨e, he⟩
  | evalTxn a =>
    simp only [Cmd.run]
    rcases txnLua_cases env.now hc w.redis with ⟨_, h⟩ | ⟨_, h⟩ | ⟨_, e, he, _⟩
    · rw [h]
      exact Effect.refl _
    · rw [h]
      exact Effect.refl _
    · exact Or.inr ⟨e, he⟩
  | incrLeaseID =>
    simp only [Cmd.run]
    split_ifs
    · exact Or.inl ⟨rfl, rfl, rfl, rfl⟩
    · exact Effect.refl _
  | _ => exact Or.inl ⟨rfl, rfl, rfl, rfl⟩

/-- **A command leaves the blobs, the index, the counter and the stream as they are, or commits
one write**, whether or not its answer reaches the caller. -/
theorem exec_effect (env : Env) {c : Cmd} (hc : c.Issued) (w : World) :
    Effect w.redis (exec env c w).2.redis := by
  rcases exec_world env c w with h | h
  · rw [h]
    exact Effect.refl _
  · rw [h]
    exact run_effect env hc w

/-! ### Script calls that are answered -/

theorem run_of_exec_ok {env : Env} {c : Cmd} {w w' : World} {v : c.Val}
    (h : exec env c w = (.ok v, w')) : c.run env w = (.ok v, w') := by
  rw [exec] at h
  cases hf : env.fault with
  | none =>
    rw [hf] at h
    exact h
  | some f =>
    rw [hf] at h
    dsimp only at h
    split_ifs at h
    · cases h
    · cases h
    · exact h

/-- A `write.lua` call that answers found nothing to delete, or committed its write. -/
theorem evalWrite_ok {env : Env} {a : WriteArgs} {w w' : World} {r : WriteReply}
    (h : exec env (.evalWrite a) w = (.ok r, w')) :
    (a.op = .delete ∧ w.redis.kv a.key = none ∧ w' = w ∧
      r = ⟨luaTostring w.redis.counter, [], [], none⟩) ∨
    ∃ e, Committed w.redis w'.redis e ∧ e.key = a.key ∧ e.type = a.op ∧
      r = ⟨luaTostring e.rev, (w.redis.kv a.key).getD [], e.data.getD [], some e.id⟩ := by
  have hr := run_of_exec_ok h
  rw [Cmd.run, Prod.mk.injEq] at hr
  obtain ⟨hr, rfl⟩ := hr
  rcases writeLua_cases env.now a w.redis with ⟨_, hl⟩ | ⟨hop, hk, hl⟩ | ⟨e, he, hk, ht, hl⟩
  · rw [hl] at hr
    cases hr
  · rw [hl] at hr ⊢
    cases hr
    exact Or.inl ⟨hop, hk, rfl, rfl⟩
  · rw [hl] at hr
    cases hr
    exact Or.inr ⟨e, he, hk, ht, rfl⟩

/-- A `txn.lua` call that answers failed its compare and changed nothing, or its compare held and
it committed its write. -/
theorem evalTxn_ok {env : Env} {a : TxnArgs} {w w' : World} {r : TxnReply} (hop : a.op = .put)
    (h : exec env (.evalTxn a) w = (.ok r, w')) :
    (txnCompare a.expected (w.redis.kv a.key) = false ∧ w' = w ∧ r.succeeded = false ∧
      r.blob = (w.redis.kv a.key).getD []) ∨
    (txnCompare a.expected (w.redis.kv a.key) = true ∧
      ∃ e, Committed w.redis w'.redis e ∧ e.key = a.key ∧ e.type = .put ∧
        r = ⟨true, (w.redis.kv a.key).getD [], luaTostring e.rev, e.data.getD [], some e.id⟩) := by
  have hr := run_of_exec_ok h
  rw [Cmd.run, Prod.mk.injEq] at hr
  obtain ⟨hr, rfl⟩ := hr
  rcases txnLua_cases env.now hop w.redis with ⟨hc, hl⟩ | ⟨_, hl⟩ | ⟨hc, e, he, hk, ht, hl⟩
  · rw [hl] at hr ⊢
    cases hr
    exact Or.inl ⟨hc, rfl, rfl, rfl⟩
  · rw [hl] at hr
    cases hr
  · rw [hl] at hr
    cases hr
    exact Or.inr ⟨hc, e, he, hk, ht, rfl⟩

/-- A failed compare changes nothing, also when the answer is lost. -/
theorem exec_evalTxn_of_fails (env : Env) {a : TxnArgs} {w : World}
    (h : txnCompare a.expected (w.redis.kv a.key) = false) :
    (exec env (.evalTxn a) w).2 = w := by
  rcases exec_world env (.evalTxn a) w with he | he
  · exact he
  · rw [he, Cmd.run, txnLua_of_fails env.now h]

theorem exec_evalWrite_of_absent (env : Env) {a : WriteArgs} {w : World} (hop : a.op = .delete)
    (h : w.redis.kv a.key = none) : (exec env (.evalWrite a) w).2 = w := by
  rcases exec_world env (.evalWrite a) w with he | he
  · exact he
  · rw [he, Cmd.run, writeLua, hop, h]

end REtcd.Store
