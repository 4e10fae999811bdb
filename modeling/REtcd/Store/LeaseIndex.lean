import REtcd.Store.History
import REtcd.Store.Routine

/-!
# The per-lease sets

`lease:keys:<id>` is meant to list the keys that are stored with lease `id`; `LeaseIndex` says that
it does.  `write.lua` keeps the sets in step with the blobs (`writeLua_leaseIndex`).  `txn.lua`
writes the lease into the blob and does not touch the sets, so after it has put a key the sets are
right iff the key has kept its lease (`txnPut_leasesExact_iff`).

A set's name holds the lease as text, which Lua and Go write the same way below `10 ^ 14`.
-/

namespace REtcd.Store

open Base

/-- The lease that a key is stored with; 0 is none. -/
def leaseOf (s : Redis) (k : Key) : ℤ := field (s.kv k) 25

/-- The per-lease sets list exactly the keys that are stored with the lease, and all leases are small
enough for Lua to write in full. -/
structure LeaseIndex (s : Redis) : Prop where
  mem_iff : ∀ k n, k ∈ s.leaseKeys (.decimal n) ↔ n ≠ 0 ∧ leaseOf s k = n
  small : ∀ k, 0 ≤ leaseOf s k ∧ leaseOf s k < 10 ^ 14

/-- A key is in the set of a lease iff it is stored with the lease. -/
def LeasesExact (s : Redis) : Prop :=
  ∀ k L, 0 < L → (k ∈ s.leaseKeys (goDecimal L) ↔ leaseOf s k = L)

theorem LeaseIndex.exact {s : Redis} (h : LeaseIndex s) : LeasesExact s := by
  intro k L hL
  rw [goDecimal, h.mem_iff]
  exact ⟨fun hm => hm.2, fun hl => ⟨hL.ne', hl⟩⟩

theorem leaseIndex_empty : LeaseIndex Redis.empty where
  mem_iff k n := by
    have hl : leaseOf Redis.empty k = 0 := rfl
    rw [hl]
    simp only [Redis.empty, SortedSet.not_mem_empty, false_iff, not_and]
    exact fun h => h.symm
  small k := by
    have hl : leaseOf Redis.empty k = 0 := rfl
    rw [hl]
    decide

theorem leaseOf_update (s : Redis) {s' : Redis} (key : Key) (v : Option Blob)
    (h : s'.kv = Function.update s.kv key v) (k : Key) :
    leaseOf s' k = if k = key then field v 25 else leaseOf s k := by
  rw [leaseOf, h]
  by_cases hk : k = key
  · rw [if_pos hk, hk, Function.update_self]
  · rw [if_neg hk, Function.update_of_ne hk]
    rfl

theorem mem_leaseKeys_srem {s : Redis} {p : Prop} [Decidable p] {name m : NumText} {key k : Key} :
    k ∈ (if p then s.srem name key else s).leaseKeys m ↔
      k ∈ s.leaseKeys m ∧ (p → ¬ (m = name ∧ k = key)) := by
  by_cases hp : p
  · by_cases hm : m = name
    · subst hm
      simp [hp, Redis.srem, and_comm]
    · simp [hp, Redis.srem, hm]
  · simp [hp]

theorem mem_leaseKeys_sadd {s : Redis} {p : Prop} [Decidable p] {name m : NumText} {key k : Key} :
    k ∈ (if p then s.sadd name key else s).leaseKeys m ↔
      k ∈ s.leaseKeys m ∨ (p ∧ m = name ∧ k = key) := by
  by_cases hp : p
  · by_cases hm : m = name
    · subst hm
      simp [hp, Redis.sadd, or_comm]
    · simp [hp, Redis.sadd, hm]
  · simp [hp]

theorem LeaseIndex.congr {s s' : Redis} (h : LeaseIndex s) (hkv : s'.kv = s.kv)
    (hl : s'.leaseKeys = s.leaseKeys) : LeaseIndex s' := by
  have hof : ∀ k, leaseOf s' k = leaseOf s k := fun k => by rw [leaseOf, hkv, leaseOf]
  refine ⟨fun k n => ?_, fun k => ?_⟩
  · rw [hl, hof]
    exact h.mem_iff k n
  · rw [hof]
    exact h.small k

/-- **One key moves to another lease, in the blobs and in the sets.** -/
theorem LeaseIndex.move {s s' : Redis} (h : LeaseIndex s) (key : Key) {l : ℤ}
    (hl : 0 ≤ l ∧ l < 10 ^ 14) (hof : ∀ k, leaseOf s' k = if k = key then l else leaseOf s k)
    (hset : ∀ k n, k ∈ s'.leaseKeys (.decimal n) ↔
      if k = key then n ≠ 0 ∧ l = n else k ∈ s.leaseKeys (.decimal n)) : LeaseIndex s' := by
  refine ⟨fun k n => ?_, fun k => ?_⟩
  · rw [hset, hof]
    split_ifs
    · exact Iff.rfl
    · exact h.mem_iff k n
  · rw [hof]
    split_ifs
    · exact hl
    · exact h.small k

/-! ### write.lua -/

/-- `write.lua` takes the key out of its old lease's set, unless that is the new lease, and puts it
into the new lease's set.  A delete has the new lease 0. -/
theorem mem_moved {s : Redis} (h : LeaseIndex s) {key k : Key} {l n : ℤ}
    {sets : NumText → SortedSet Key} (hsets : ∀ m x, x ∈ sets m ↔
      (x ∈ s.leaseKeys m ∧ (leaseOf s key ≠ 0 ∧ leaseOf s key ≠ l →
        ¬ (m = .decimal (leaseOf s key) ∧ x = key))) ∨ (l ≠ 0 ∧ m = .decimal l ∧ x = key)) :
    k ∈ sets (.decimal n) ↔ if k = key then n ≠ 0 ∧ l = n else k ∈ s.leaseKeys (.decimal n) := by
  rw [hsets, h.mem_iff]
  split_ifs with hk
  · subst hk
    simp only [NumText.decimal.injEq, and_true]
    omega
  · simp [hk]

theorem writeDelete_leaseIndex (now : ℕ) {a : WriteArgs} {raw : Blob} {s : Redis}
    (h : LeaseIndex s) (hraw : s.kv a.key = some raw) :
    LeaseIndex (writeDelete now a raw s).2 := by
  have hcur : field (some raw) 25 = leaseOf s a.key := by rw [leaseOf, hraw]
  unfold writeDelete
  cases hi : s.incr with
  | none => exact h
  | some p =>
    obtain ⟨rev, t⟩ := p
    obtain ⟨_, rfl, rfl⟩ := incr_some hi
    dsimp only
    rw [hcur, luaTostring_of_lt (h.small _).1 (h.small _).2]
    refine h.move a.key (l := 0) (by decide) (fun k => ?_) fun k n => mem_moved h fun m x => ?_
    · refine leaseOf_update s a.key none ?_ k
      split_ifs <;> rfl
    · rw [Redis.xadd, mem_leaseKeys_srem]
      simp [Redis.zrem, Redis.del]

theorem writePut_leaseOf (now : ℕ) {a : WriteArgs} {s : Redis} (hroom : s.counter < 2 ^ 63 - 1)
    (ha : 0 ≤ a.lease ∧ a.lease < 10 ^ 14) (k : Key) :
    leaseOf (writePut now a (s.kv a.key) s).2 k = if k = a.key then a.lease else leaseOf s k := by
  have hi : s.incr = some (s.counter + 1, { s with revision := some (s.counter + 1) }) :=
    if_pos hroom
  unfold writePut
  rw [hi]
  dsimp only
  rw [leaseOf_update s a.key (some _) (by split_ifs <;> rfl) k, field_blob,
    dec64_blob_lease ha.1 (by omega)]

theorem writePut_leaseIndex (now : ℕ) {a : WriteArgs} {s : Redis} (h : LeaseIndex s)
    (ha : 0 ≤ a.lease ∧ a.lease < 10 ^ 14) : LeaseIndex (writePut now a (s.kv a.key) s).2 := by
  have hcur : field (s.kv a.key) 25 = leaseOf s a.key := rfl
  unfold writePut
  cases hi : s.incr with
  | none => exact h
  | some p =>
    obtain ⟨rev, t⟩ := p
    obtain ⟨_, rfl, rfl⟩ := incr_some hi
    dsimp only
    rw [hcur, luaTostring_of_lt (h.small _).1 (h.small _).2, luaTostring_of_lt ha.1 ha.2]
    refine h.move a.key ha (fun k => ?_) fun k n => mem_moved h fun m x => ?_
    · rw [leaseOf_update s a.key (some _) (by split_ifs <;> rfl) k,
        field_blob, dec64_blob_lease ha.1 (by omega)]
    · rw [Redis.xadd, mem_leaseKeys_sadd, mem_leaseKeys_srem]
      rfl

/-- **`write.lua` keeps the sets in step with the blobs.** -/
theorem writeLua_leaseIndex (now : ℕ) {a : WriteArgs} {s : Redis} (h : LeaseIndex s)
    (ha : 0 ≤ a.lease ∧ a.lease < 10 ^ 14) : LeaseIndex (writeLua now a s).2 := by
  unfold writeLua
  cases a.op with
  | put => exact writePut_leaseIndex now h ha
  | delete =>
    cases hraw : s.kv a.key with
    | none => exact h
    | some raw => exact writeDelete_leaseIndex now h hraw

/-! ### txn.lua -/

theorem txnPut_effect (now : ℕ) {a : TxnArgs} {s : Redis} (hroom : s.counter < 2 ^ 63 - 1)
    (ha : 0 ≤ a.lease ∧ a.lease < 10 ^ 14) :
    (txnPut now a (s.kv a.key) s).2.leaseKeys = s.leaseKeys ∧
      ∀ k, leaseOf (txnPut now a (s.kv a.key) s).2 k =
        if k = a.key then a.lease else leaseOf s k := by
  have hi : s.incr = some (s.counter + 1, { s with revision := some (s.counter + 1) }) :=
    if_pos hroom
  unfold txnPut
  rw [hi]
  refine ⟨rfl, fun k => ?_⟩
  dsimp only
  rw [leaseOf_update s a.key (some _) rfl k, field_blob, dec64_blob_lease ha.1 (by omega)]

theorem txnPut_leaseIndex (now : ℕ) {a : TxnArgs} {s : Redis} (h : LeaseIndex s)
    (hroom : s.counter < 2 ^ 63 - 1) (ha : 0 ≤ a.lease ∧ a.lease < 10 ^ 14)
    (hl : a.lease = leaseOf s a.key) : LeaseIndex (txnPut now a (s.kv a.key) s).2 := by
  obtain ⟨hsets, hof⟩ := txnPut_effect now hroom ha
  refine ⟨fun k n => ?_, fun k => ?_⟩
  · rw [hsets, hof, h.mem_iff]
    split_ifs with hk
    · rw [hl, hk]
    · exact Iff.rfl
  · rw [hof]
    split_ifs
    · exact ha
    · exact h.small k

/-- **After a put of `txn.lua` the sets are right iff the key has kept its lease.** -/
theorem txnPut_leasesExact_iff (now : ℕ) {a : TxnArgs} {s : Redis} (h : LeaseIndex s)
    (hroom : s.counter < 2 ^ 63 - 1) (ha : 0 ≤ a.lease ∧ a.lease < 10 ^ 14) :
    LeasesExact (txnPut now a (s.kv a.key) s).2 ↔ a.lease = leaseOf s a.key := by
  constructor
  · intro he
    -- the old lease's set still lists the key, and the new lease's set does not
    obtain ⟨hsets, hof⟩ := txnPut_effect now hroom ha
    have hold := he a.key (leaseOf s a.key)
    have hnew := he a.key a.lease
    have hsmall := h.small a.key
    rw [hsets, hof, if_pos rfl, goDecimal, h.mem_iff] at hold hnew
    omega
  · intro hl
    exact (txnPut_leaseIndex now h hroom ha hl).exact

/-! ### Commands -/

/-- The commands that keep the sets in step with the blobs whatever the state. -/
def Cmd.KeepsLeases : Cmd → Prop
  | .evalWrite a => 0 ≤ a.lease ∧ a.lease < 10 ^ 14
  | .evalTxn _ => False
  | .delLeaseKeys _ => False
  | _ => True

theorem Cmd.Quiet.keepsLeases (c : Cmd) (h : c.Quiet) : c.KeepsLeases := by
  cases c with
  | evalWrite | evalTxn | delLeaseKeys => exact h.elim
  | _ => trivial

theorem attempt_leaseIndex (c : Cmd) (w : World) (r : Reply c) (w' : World) (hc : c.KeepsLeases)
    (hs : attempt c w r w') (h : LeaseIndex w.redis) : LeaseIndex w'.redis := by
  rcases attempt_world hs with rfl | ⟨env, rfl⟩
  · exact h
  cases c with
  | evalWrite a => exact writeLua_leaseIndex env.now h hc
  | evalTxn | delLeaseKeys => exact hc.elim
  | incrLeaseID =>
    simp only [Cmd.run]
    split_ifs
    · exact h.congr rfl rfl
    · exact h
  | _ => exact h.congr rfl rfl

theorem step_leaseIndex (c : Cmd) (w : World) (r : Reply c) (w' : World) (hc : c.KeepsLeases)
    (hs : step c w r w') (h : LeaseIndex w.redis) : LeaseIndex w'.redis :=
  attempt_leaseIndex c w r w' hc (attempt_of_step hs) h

theorem LeaseIndex.drop {s : Redis} (h : LeaseIndex s) {id : ℤ}
    (hid : ∀ k, k ∉ s.leaseKeys (.decimal id)) :
    LeaseIndex { s with leaseKeys := Function.update s.leaseKeys (goDecimal id) .empty } := by
  refine ⟨fun k n => ?_, h.small⟩
  by_cases hn : n = id
  · subst hn
    simp only [goDecimal, Function.update_self, SortedSet.not_mem_empty, false_iff]
    exact fun hm => hid k ((h.mem_iff k n).mpr hm)
  · dsimp only
    rw [Function.update_of_ne (by simpa [goDecimal] using hn)]
    exact h.mem_iff k n

end REtcd.Store
