import REtcd.Server.Routing

/-!
# The fast paths against genericTxn

A create or an update that names one key throughout can be served either way: by the script of
`Txn`'s fast paths or by `genericTxn`, which compares, writes and reads in separate commands.  Run
alone from the same store both give the same answer and leave the same keys, the same index, the
same counter and the same events (`fastPath_agrees_iff`), as long as the new revision has fewer than
15 digits.

From `10 ^ 14` on Lua prints a revision as `1e+14`, which Go does not parse.  `RedisStore.Txn` then
asks for the counter, `RedisStore.Put` answers with 0, so the put in the two answers carries
different headers (`fastPath_disagrees`).

The lease sets are not compared: the script of the fast paths does not keep them.
-/

namespace REtcd.Server

open Base Store

/-! ### Equal answers, equal stores -/

def payload (e : Entry) : EventType × Key × ℤ × Option Blob × Option Blob :=
  (e.type, e.key, e.rev, e.data, e.prevData)

/-- The same keys, the same counter and the same events up to their IDs. -/
structure SameStore (s s' : Redis) : Prop where
  kv : s.kv = s'.kv
  keyindex : s.keyindex = s'.keyindex
  counter : s.counter = s'.counter
  events : s.events.map payload = s'.events.map payload

theorem SameStore.refl (s : Redis) : SameStore s s := ⟨rfl, rfl, rfl, rfl⟩

theorem sameStore_of_written {key : Key} {value : Bytes} {lease : ℤ} {s s₁ s₂ : Redis}
    (h₁ : Written key value lease s s₁) (h₂ : Written key value lease s s₂) : SameStore s₁ s₂ := by
  obtain ⟨id₁, hc₁⟩ := h₁
  obtain ⟨id₂, hc₂⟩ := h₂
  refine ⟨?_, ?_, ?_, ?_⟩
  · rw [hc₁.kv, hc₂.kv]
  · ext k
    rw [hc₁.index, hc₂.index]
  · rw [hc₁.counter, hc₂.counter]
  · rw [hc₁.events, hc₂.events, List.map_append, List.map_append]
    rfl

def Agree (x y : Result TxnResponse) (s s' : Redis) : Prop :=
  x.toOption = y.toOption ∧ SameStore s s'

/-- The request is about `key` alone, and does not ask for the script's sentinel. -/
structure AboutKey (key : Key) (req : TxnRequest) : Prop where
  compare : ∀ c ∈ req.compare, c.key = key ∧ 0 ≤ c.getModRevision
  success : ∀ p, .put p ∈ req.success → p.key = key
  failure : ∀ r, .range r ∈ req.failure → r.key = key ∧ r.rangeEnd = [] ∧ r.countOnly = false

/-! ### The fast path -/

theorem answers_single {r : RangeRequest} (hend : r.rangeEnd = []) (hcount : r.countOnly = false)
    (s : Redis) :
    answers [.range r] s = [.range ⟨headerAt (reported s), (contents s r.key).toList,
      (contents s r.key).toList.length⟩] := by
  simp [answers, rangeKVs, KVServer.rangeResponse, hend, hcount]

theorem txn_oneKey_exec {key : Key} {req : TxnRequest}
    (hacc : (KVServer.isCreate req).isSome ∨ (KVServer.isUpdate req).isSome)
    (hkey : AboutKey key req) {w w' : World} (hw : Consistent w.redis) {x : Result TxnResponse}
    (h : Prog.Exec step (KVServer.txn req) w x w') :
    ∃ c p, Shape req c p ∧
      ((¬ Holds c w.redis ∧ w' = w ∧
        x = .ok ⟨headerAt (reported w.redis), false, answers req.failure w.redis⟩) ∨
      (Holds c w.redis ∧ ¬ w.redis.counter < 2 ^ 63 - 1 ∧ w'.redis = w.redis ∧
        ∃ err, x = .error err) ∨
      (Holds c w.redis ∧ w.redis.counter < 2 ^ 63 - 1 ∧
        Written p.key p.value p.lease w.redis w'.redis ∧
        x = .ok ⟨headerAt (w.redis.counter + 1), true,
          [.put ⟨headerAt (w.redis.counter + 1), none⟩]⟩)) := by
  rw [KVServer.txn] at h
  cases hcreate : KVServer.isCreate req with
  | some p =>
    obtain ⟨c, hshape, hf, hc⟩ := isCreate_eq_some hcreate
    refine ⟨c, p, hshape, ?_⟩
    rw [hcreate] at h
    have hck := (hkey.compare c (by simp [hshape.compare])).1
    have hpk := hkey.success p (by simp [hshape.success])
    have hholds : Holds c w.redis ↔ txnCompare (-1) (w.redis.kv p.key) = true := by
      rw [holds_zero_iff hw hc, txnCompare_absent, Option.isNone_iff_eq_none, hck, hpk]
    rw [hholds, hf, Bool.not_eq_true]
    exact swap_exec (fun _ => []) hw h
  | none =>
    rw [hcreate] at hacc h
    obtain ⟨out, hupdate⟩ := Option.isSome_iff_exists.mp (hacc.resolve_left (by decide))
    obtain ⟨c, p, r, hshape, hf, rfl⟩ := isUpdate_eq_some hupdate
    refine ⟨c, p, hshape, ?_⟩
    rw [hupdate] at h
    obtain ⟨hck, hnn⟩ := hkey.compare c (by simp [hshape.compare])
    have hpk := hkey.success p (by simp [hshape.success])
    obtain ⟨hrk, hend, hcount⟩ := hkey.failure r (by simp [hf])
    have hholds := txnCompare_iff_holds hw (c := c) fun hs => by omega
    rw [← hholds, hf, answers_single hend hcount, hrk, hpk, ← hck, Bool.not_eq_true]
    exact swap_exec _ hw h

/-! ### Agreement -/

theorem scriptRev_luaTostring_iff {n : ℤ} (h : 0 < n) :
    RedisStore.scriptRev (luaTostring n) = n ↔ n < 10 ^ 14 := by
  constructor
  · intro heq
    by_contra hge
    rw [RedisStore.scriptRev, luaTostring, if_neg (by omega)] at heq
    exact absurd heq h.ne
  · intro hlt
    rw [RedisStore.scriptRev, parseInt_luaTostring h.le hlt]
    rfl

/-- **A request about one key is served by the fast paths as by `genericTxn`, iff its put is not
given a revision of 15 digits.**  For every store that a run reaches and every transaction that
`isCreate` or `isUpdate` accepts and that names one key throughout, run without other writers: the
response and the store are the same, unless the compare holds and the counter stands at `10 ^ 14 - 1`
or more. -/
theorem fastPath_agrees_iff (reqs : List Request) (ms : List (ℕ × Env)) (key : Key)
    (req : TxnRequest) (hacc : (KVServer.isCreate req).isSome ∨ (KVServer.isUpdate req).isSome)
    (hkey : AboutKey key req) :
    let w := (Pool.run exec (start reqs) ms).shared
    (∀ x w₁ y w₂, Prog.Exec step (KVServer.txn req) w x w₁ →
      Prog.Exec step (KVServer.genericTxn req) w y w₂ → Agree x y w₁.redis w₂.redis) ↔
    ∀ c ∈ req.compare, Holds c w.redis → w.redis.counter < 2 ^ 63 - 1 →
      w.redis.counter + 1 < 10 ^ 14 := by
  intro w
  have hw : Consistent w.redis := consistent_run reqs ms
  have hnn := hw.counter_nonneg
  constructor
  · intro hall c hc hh hroom
    obtain ⟨x, w₁, hfast⟩ := Prog.exists_exec step_total (KVServer.txn req) w
    obtain ⟨y, w₂, hslow⟩ := Prog.exists_exec step_total (KVServer.genericTxn req) w
    have hagree := (hall x w₁ y w₂ hfast hslow).1
    obtain ⟨c', p, hshape, hcases⟩ := txn_oneKey_exec hacc hkey hw hfast
    obtain rfl : c = c' := by simpa [hshape.compare] using hc
    rcases hcases with ⟨hn, _⟩ | ⟨_, hmax, _⟩ | ⟨_, _, _, rfl⟩
    · exact absurd hh hn
    · exact absurd hroom hmax
    · rcases genericTxn_exec hshape hw hslow with ⟨hn, _⟩ | ⟨_, hmax, _⟩ | ⟨_, _, _, rfl⟩
      · exact absurd hh hn
      · exact absurd hroom hmax
      · rw [← scriptRev_luaTostring_iff (by omega)]
        simpa [Except.toOption, headerAt, eq_comm] using hagree
  · intro hsmall x w₁ y w₂ hfast hslow
    obtain ⟨c, p, hshape, hcases⟩ := txn_oneKey_exec hacc hkey hw hfast
    have hslow := genericTxn_exec hshape hw hslow
    rcases hcases with ⟨hn, rfl, rfl⟩ | ⟨hh, hmax, hsame, err, rfl⟩ | ⟨hh, hroom, hwr, rfl⟩
    · rcases hslow with ⟨_, rfl, rfl⟩ | ⟨hh, _⟩ | ⟨hh, _⟩
      · exact ⟨rfl, .refl _⟩
      · exact absurd hh hn
      · exact absurd hh hn
    · rcases hslow with ⟨hn, _⟩ | ⟨_, _, hsame', err', rfl⟩ | ⟨_, hroom, _⟩
      · exact absurd hh hn
      · refine ⟨rfl, ?_⟩
        rw [hsame, hsame']
        exact .refl _
      · exact absurd hroom hmax
    · rcases hslow with ⟨hn, _⟩ | ⟨_, hmax, _⟩ | ⟨_, _, hwr', rfl⟩
      · exact absurd hh hn
      · exact absurd hroom hmax
      · have hlt := hsmall c (by simp [hshape.compare]) hh hroom
        rw [(scriptRev_luaTostring_iff (by omega)).mpr hlt]
        exact ⟨rfl, sameStore_of_written hwr hwr'⟩

theorem aboutKey_create (key : Key) : AboutKey key (createRequest key key) := by
  refine ⟨?_, ?_, ?_⟩
  · intro c hc
    cases List.mem_singleton.mp hc
    exact ⟨rfl, le_rfl⟩
  · intro p hp
    cases List.mem_singleton.mp hp
    rfl
  · intro r hr
    exact absurd hr List.not_mem_nil

/-- A create on an empty store. -/
theorem create_agrees :
    ∃ x w₁ y w₂, Prog.Exec step (KVServer.txn (createRequest [97] [97])) World.empty x w₁ ∧
      Prog.Exec step (KVServer.genericTxn (createRequest [97] [97])) World.empty y w₂ ∧
      Agree x y w₁.redis w₂.redis := by
  obtain ⟨x, w₁, hfast⟩ :=
    Prog.exists_exec step_total (KVServer.txn (createRequest [97] [97])) World.empty
  obtain ⟨y, w₂, hslow⟩ :=
    Prog.exists_exec step_total (KVServer.genericTxn (createRequest [97] [97])) World.empty
  have hagree := (fastPath_agrees_iff [] [] [97] (createRequest [97] [97]) (by decide)
    (aboutKey_create [97])).mpr fun c _ _ _ => by decide
  exact ⟨x, w₁, y, w₂, hfast, hslow, hagree x w₁ y w₂ hfast hslow⟩

/-! ### A long-lived store -/

def putB : Request := .put ⟨[98], [], 0, false⟩

theorem exec_putB {w : World} (hroom : w.redis.counter < 2 ^ 63 - 1) :
    let w' := (exec (.plain 0) (.evalWrite ⟨[98], .put, [], 0⟩) w).2
    w'.redis.counter = w.redis.counter + 1 ∧ w'.redis.kv [97] = w.redis.kv [97] := by
  intro w'
  have hw' : w'.redis =
      (writePut 0 ⟨[98], .put, [], 0⟩ (w.redis.kv [98]) w.redis).2 := rfl
  rw [hw']
  rcases writePut_cases 0 ⟨[98], .put, [], 0⟩ w.redis with ⟨hmax, _⟩ | ⟨e, hcom, hek, _⟩
  · exact absurd hroom hmax
  · refine ⟨hcom.counter, ?_⟩
    rw [hcom.kv, hek]
    exact Function.update_of_ne (by decide) _ _

theorem puts_counter {N : ℕ} (hN : (N : ℤ) ≤ 2 ^ 63 - 1) {j : ℕ} (hj : j ≤ N) :
    let w := (Pool.run exec (start (List.replicate N putB))
      ((List.range j).map fun i => (i, .plain 0))).shared
    w.redis.counter = j ∧ w.redis.kv [97] = none := by
  induction j with
  | zero => exact ⟨rfl, rfl⟩
  | succ j ih =>
    obtain ⟨hcount, hkv⟩ := ih (by omega)
    rw [List.range_succ, List.map_append, Pool.run_append]
    have hproc : (Pool.run exec (start (List.replicate N putB))
        ((List.range j).map fun i => (i, .plain 0))).procs[j]? = some putB.serve := by
      rw [Pool.run_skip]
      · simp [start, Nat.lt_of_succ_le hj]
      · intro m hm
        obtain ⟨i, hi, rfl⟩ := List.mem_map.mp hm
        exact (List.mem_range.mp hi).ne
    generalize Pool.run exec (start (List.replicate N putB))
      ((List.range j).map fun i => (i, .plain 0)) = pool at hcount hkv hproc ⊢
    obtain ⟨hcount', hkv'⟩ := exec_putB (w := pool.shared) (by omega)
    have hshared : (Pool.step exec pool (j, .plain 0)).shared =
        (exec (.plain 0) (.evalWrite ⟨[98], .put, [], 0⟩) pool.shared).2 :=
      (Pool.step_call exec hproc (.plain 0)).1
    change (Pool.step exec pool (j, .plain 0)).shared.redis.counter = _ ∧
      (Pool.step exec pool (j, .plain 0)).shared.redis.kv [97] = none
    rw [hshared]
    refine ⟨hcount'.trans ?_, hkv'.trans hkv⟩
    rw [hcount, Nat.cast_succ]

/-- The create that is given revision `10 ^ 14`, on both paths. -/
theorem create_headers {w : World} (hw : Consistent w.redis)
    (hcount : w.redis.counter = 10 ^ 14 - 1) (hkv : w.redis.kv [97] = none) :
    (∃ w₁, Prog.Exec step (KVServer.txn (createRequest [97] [97])) w
      (.ok ⟨headerAt (10 ^ 14), true, [.put ⟨headerAt (10 ^ 14), none⟩]⟩) w₁) ∧
    ∃ w₂, Prog.Exec step (KVServer.genericTxn (createRequest [97] [97])) w
      (.ok ⟨headerAt (10 ^ 14), true, [.put ⟨headerAt 0, none⟩]⟩) w₂ := by
  have hroom : w.redis.counter < 2 ^ 63 - 1 := by
    rw [hcount]
    decide
  obtain ⟨x, w₁, hfast⟩ := Prog.exists_exec step_total (KVServer.txn (createRequest [97] [97])) w
  obtain ⟨y, w₂, hslow⟩ :=
    Prog.exists_exec step_total (KVServer.genericTxn (createRequest [97] [97])) w
  obtain ⟨c, p, hshape, hcases⟩ := txn_oneKey_exec (by decide) (aboutKey_create [97]) hw hfast
  have hc : [⟨.equal, .mod, [97], .modRevision 0⟩] = [c] := hshape.compare
  cases hc
  have hh : Holds ⟨.equal, .mod, [97], .modRevision 0⟩ w.redis := (holds_zero_iff hw rfl).mpr hkv
  have hrev : w.redis.counter + 1 = 10 ^ 14 := by
    rw [hcount]
    rfl
  constructor
  · rcases hcases with ⟨hn, _⟩ | ⟨_, hmax, _⟩ | ⟨_, _, _, rfl⟩
    · exact absurd hh hn
    · exact absurd hroom hmax
    · rw [hrev] at hfast
      exact ⟨w₁, hfast⟩
  · rcases genericTxn_exec hshape hw hslow with ⟨hn, _⟩ | ⟨_, hmax, _⟩ | ⟨_, _, _, rfl⟩
    · exact absurd hh hn
    · exact absurd hroom hmax
    · rw [hrev] at hslow
      exact ⟨w₂, hslow⟩

/-- After `10 ^ 14 - 1` writes, the put of a create is answered with its revision by the fast path,
and with revision 0 by `genericTxn`. -/
theorem fastPath_disagrees :
    ∃ reqs ms w₁ w₂, let w := (Pool.run exec (start reqs) ms).shared
      w.redis.counter = 10 ^ 14 - 1 ∧
      Prog.Exec step (KVServer.txn (createRequest [97] [97])) w
        (.ok ⟨headerAt (10 ^ 14), true, [.put ⟨headerAt (10 ^ 14), none⟩]⟩) w₁ ∧
      Prog.Exec step (KVServer.genericTxn (createRequest [97] [97])) w
        (.ok ⟨headerAt (10 ^ 14), true, [.put ⟨headerAt 0, none⟩]⟩) w₂ := by
  obtain ⟨hcount, hkv⟩ := puts_counter (N := 10 ^ 14 - 1) (by decide) le_rfl
  obtain ⟨⟨w₁, hfast⟩, w₂, hslow⟩ := create_headers (consistent_run _ _) hcount hkv
  exact ⟨_, _, w₁, w₂, hcount, hfast, hslow⟩

end REtcd.Server
