import REtcd.Server.GenericTxn
import REtcd.Server.HalfOpen
import REtcd.Store.Alone

/-!
# The shapes that Txn recognises

`Txn` sends a transaction of the shape "if the mod revision of a key is `n`, put" to one script, and
everything else to `genericTxn`.  The fast paths read only a part of the request: a create takes its
key from the put, an update takes it from the compare, an update with `n = -1` means "absent" to the
script, and a failed update answers with the compare's key whatever its failure branch asks for.

`Meets` is what the request asks for, and `genericTxn_meets` that the generic path does it.
`shapes_faithful_iff` says of which requests, in which states, the fast paths do the same; the
requests of `shapes_unfaithful` are accepted and not served as asked.
-/

namespace REtcd.Server

open Base Store

/-! ### What the request asks for -/

/-- The compare holds: the key has this mod revision, an absent key has 0. -/
def Holds (c : Compare) (s : Redis) : Prop := modRevisionOf (contents s c.key) = c.getModRevision

instance (c : Compare) (s : Redis) : Decidable (Holds c s) :=
  inferInstanceAs (Decidable (_ = _))

/-- What a transaction with the compare `c`, the put `p` and the branch `failure` is to do.  If the
compare holds, it stores the put's value under the put's key (or fails, once the counter is at its
end); else it changes nothing and answers with the requested range. -/
structure Meets (c : Compare) (p : PutRequest) (failure : List RequestOp) (w : World)
    (x : Result TxnResponse) (w' : World) : Prop where
  success : Holds c w.redis → w.redis.counter < 2 ^ 63 - 1 →
    Stores p.key p.value w.redis w'.redis ∧ ∃ resp, x = .ok resp ∧ resp.succeeded = true
  full : Holds c w.redis → ¬ w.redis.counter < 2 ^ 63 - 1 →
    w'.redis = w.redis ∧ ∃ err, x = .error err
  failure : ¬ Holds c w.redis → w' = w ∧ ∃ resp, x = .ok resp ∧ resp.succeeded = false ∧
    ∀ r, failure = [.range r] → ∃ answer, resp.responses = [.range answer] ∧
      Prog.Exec step (KVServer.range r) w (.ok answer) w

section

variable {c : Compare} {p : PutRequest} {failure : List RequestOp} {w w' : World}
  {resp : TxnResponse} {err : GoError}

theorem Meets.of_stored (hh : Holds c w.redis) (hroom : w.redis.counter < 2 ^ 63 - 1)
    (hst : Stores p.key p.value w.redis w'.redis) (hs : resp.succeeded = true) :
    Meets c p failure w (.ok resp) w' :=
  ⟨fun _ _ => ⟨hst, resp, rfl, hs⟩, fun _ hmax => absurd hroom hmax, fun hn => absurd hh hn⟩

theorem Meets.of_full (hh : Holds c w.redis) (hmax : ¬ w.redis.counter < 2 ^ 63 - 1)
    (hsame : w'.redis = w.redis) : Meets c p failure w (.error err) w' :=
  ⟨fun _ hroom => absurd hroom hmax, fun _ _ => ⟨hsame, err, rfl⟩, fun hn => absurd hh hn⟩

theorem Meets.holds_of_error (h : Meets c p failure w (.error err) w') : Holds c w.redis := by
  by_contra hn
  obtain ⟨_, _, hx, _⟩ := h.failure hn
  cases hx

theorem Meets.succeeded_iff (h : Meets c p failure w (.ok resp) w') :
    resp.succeeded = true ↔ Holds c w.redis := by
  constructor
  · intro hs
    by_contra hn
    obtain ⟨_, _, hx, hf, _⟩ := h.failure hn
    cases hx
    exact Bool.false_ne_true (hf.symm.trans hs)
  · intro hh
    by_cases hroom : w.redis.counter < 2 ^ 63 - 1
    · obtain ⟨_, _, hx, hs⟩ := h.success hh hroom
      cases hx
      exact hs
    · obtain ⟨_, _, hx⟩ := h.full hh hroom
      cases hx

end

structure Shape (req : TxnRequest) (c : Compare) (p : PutRequest) : Prop where
  compare : req.compare = [c]
  success : req.success = [.put p]
  target : c.target = .mod
  result : c.result = .equal
  failure : (req.failure = [] ∧ c.getModRevision = 0) ∨ ∃ r, req.failure = [.range r]

theorem isCreate_eq_some {req : TxnRequest} {p : PutRequest}
    (h : KVServer.isCreate req = some p) :
    ∃ c, Shape req c p ∧ req.failure = [] ∧ c.getModRevision = 0 := by
  unfold KVServer.isCreate at h
  split at h
  · rename_i c q hc hs hf
    split_ifs at h with hcond
    cases h
    exact ⟨c, ⟨hc, hs, hcond.1, hcond.2.1, Or.inl ⟨hf, hcond.2.2⟩⟩, hf, hcond.2.2⟩
  · cases h

theorem isUpdate_eq_some {req : TxnRequest} {out : ℤ × Key × Bytes × ℤ}
    (h : KVServer.isUpdate req = some out) :
    ∃ c p r, Shape req c p ∧ req.failure = [.range r] ∧
      out = (c.getModRevision, c.key, p.value, p.lease) := by
  unfold KVServer.isUpdate at h
  split at h
  · rename_i c p r hc hs hf
    split_ifs at h with hcond
    cases h
    exact ⟨c, p, r, ⟨hc, hs, hcond.1, hcond.2, Or.inr ⟨r, hf⟩⟩, hf, rfl⟩
  · cases h

/-! ### The compare -/

theorem modRevisionOf_eq_field {s : Redis} (h : Consistent s) (k : Key) :
    modRevisionOf (contents s k) = field (s.kv k) 9 := by
  rw [contents]
  cases hk : s.kv k with
  | none => rfl
  | some raw =>
    obtain ⟨kv, hkv⟩ := Option.isSome_iff_exists.mp (h.decode_isSome hk)
    obtain ⟨e, he, _, hm⟩ := h.field_mod hk
    have hle := (h.rev_mem (mem_of_lastEntry he).1).2
    have hbound := h.bound
    rw [Option.bind_some, hkv, modRevisionOf, Option.map_some, Option.getD_some,
      decodeKV_modRevision hkv, hm, toInt64_of_lt (by omega)]

theorem modRevisionOf_pos {s : Redis} (h : Consistent s) {k : Key} (hk : (s.kv k).isSome) :
    0 < modRevisionOf (contents s k) := by
  obtain ⟨raw, hraw⟩ := Option.isSome_iff_exists.mp hk
  obtain ⟨e, he, _, hm⟩ := h.field_mod hraw
  rw [modRevisionOf_eq_field h, hraw, hm]
  exact (h.rev_mem (mem_of_lastEntry he).1).1

theorem modRevisionOf_absent {s : Redis} {k : Key} (hk : s.kv k = none) :
    modRevisionOf (contents s k) = 0 := by
  rw [contents, hk]
  rfl

theorem holds_zero_iff {s : Redis} (h : Consistent s) {c : Compare} (hc : c.getModRevision = 0) :
    Holds c s ↔ s.kv c.key = none := by
  rw [Holds, hc]
  constructor
  · intro hz
    by_contra hk
    have := modRevisionOf_pos h (Option.isSome_iff_ne_none.mpr hk)
    omega
  · exact modRevisionOf_absent

theorem not_holds_sentinel {s : Redis} (h : Consistent s) {c : Compare}
    (hc : c.getModRevision = -1) : ¬ Holds c s := by
  rw [Holds, hc]
  cases hk : s.kv c.key with
  | none =>
    rw [modRevisionOf_absent hk]
    decide
  | some raw =>
    have := modRevisionOf_pos h (k := c.key) (by rw [hk]; rfl)
    omega

theorem txnCompare_absent (raw : Option Blob) : txnCompare (-1) raw = raw.isNone := rfl

/-- Except for the sentinel, the script decides an update's compare as it is meant. -/
theorem txnCompare_iff_holds {s : Redis} (h : Consistent s) {c : Compare}
    (hc : c.getModRevision = -1 → (s.kv c.key).isSome) :
    txnCompare c.getModRevision (s.kv c.key) = true ↔ Holds c s := by
  by_cases hs : c.getModRevision = -1
  · rw [hs, txnCompare_absent, Option.isNone_iff_eq_none]
    have hk := Option.isSome_iff_ne_none.mp (hc hs)
    exact iff_of_false hk (not_holds_sentinel h hs)
  · rw [txnCompare, if_neg hs, decide_eq_true_eq, Holds, modRevisionOf_eq_field h]

/-! ### Range -/

def rangeKVs (r : RangeRequest) (s : Redis) : List KeyValue :=
  if r.rangeEnd = [] then (contents s r.key).toList else scannedKVs r (scanned r s) s

theorem singleRev_reported {s s' : Redis} (h : Consistent s) (hle : s.counter ≤ s'.counter)
    (k : Key) : KVServer.singleRev (contents s k) (.ok (reported s')) = reported s' := by
  have hmod : modRevisionOf (contents s k) ≤ s.counter := by
    rw [modRevisionOf]
    cases hc : contents s k with
    | none => exact h.counter_nonneg
    | some kv => exact modRevision_le_counter h hc
  have hrep : s'.counter ≤ reported s' := by
    rw [reported]
    split_ifs <;> omega
  change (if modRevisionOf (contents s k) < reported s' then reported s'
    else modRevisionOf (contents s k)) = reported s'
  split_ifs <;> omega

theorem range_exec_alone {r : RangeRequest} {w w' : World} (hw : Consistent w.redis)
    {x : Result RangeResponse} (h : Prog.Exec step (KVServer.range r) w x w') :
    w' = w ∧ x = .ok (KVServer.rangeResponse r (reported w.redis) (rangeKVs r w.redis)) := by
  rw [KVServer.range] at h
  rw [rangeKVs]
  split_ifs at h ⊢ with hr
  · obtain ⟨y, w₁, hget, h⟩ := Prog.exec_bind.mp h
    obtain ⟨rfl, rfl⟩ := RedisStore.get_exec hget
    obtain ⟨z, w₂, hcur, h⟩ := Prog.exec_bind.mp h
    obtain ⟨rfl, rfl⟩ := RedisStore.currentRevision_exec hcur
    obtain ⟨rfl, rfl⟩ := Prog.exec_ret.mp h
    refine ⟨rfl, ?_⟩
    change Except.ok (KVServer.rangeResponse r (KVServer.singleRev (contents _ r.key) _) _) = _
    rw [singleRev_reported hw le_rfl]
    rfl
  · obtain ⟨y, w₁, hscan, h⟩ := Prog.exec_bind.mp h
    obtain ⟨rfl, rfl⟩ := RedisStore.range_exec hscan
    obtain ⟨rfl, rfl⟩ := Prog.exec_ret.mp h
    refine ⟨rfl, ?_⟩
    rw [rangeRev_reported]
    rfl

theorem exists_range_exec (r : RangeRequest) {w : World} (hw : Consistent w.redis) :
    Prog.Exec step (KVServer.range r) w
      (.ok (KVServer.rangeResponse r (reported w.redis) (rangeKVs r w.redis))) w := by
  obtain ⟨x, w', h⟩ := Prog.exists_exec step_total (KVServer.range r) w
  obtain ⟨rfl, rfl⟩ := range_exec_alone hw h
  exact h

theorem covered_single {key k : Key} {s : Redis} :
    Covered key [] s k ↔ (s.kv k).isSome ∧ k = key := by
  have hp : KVServer.commonPrefix key [] = [] := by
    cases key <;> rfl
  rw [Covered, hp, matchesWatch, if_pos rfl, decide_eq_true_eq]
  exact ⟨fun h => ⟨h.1, h.2.2⟩, fun h => ⟨h.1, List.nil_prefix, h.2⟩⟩

theorem contents_isSome {s : Redis} (h : Consistent s) (k : Key) :
    (contents s k).isSome = (s.kv k).isSome := by
  rw [Bool.eq_iff_iff, Option.isSome_iff_ne_none, Option.isSome_iff_ne_none, ne_eq, ne_eq,
    contents_eq_none h]

theorem mem_toList_contents {s : Redis} {k : Key} {kv : KeyValue}
    (h : kv ∈ (contents s k).toList) : kv.key = k ∧ contents s k = some kv := by
  have hk := Option.mem_toList.mp h
  exact ⟨contents_key hk, hk⟩

theorem mem_keys_toList {s : Redis} (h : Consistent s) {k k' : Key} :
    k' ∈ (contents s k).toList.map KeyValue.key ↔ (s.kv k').isSome ∧ k' = k := by
  constructor
  · intro hk
    obtain ⟨kv, hkv, rfl⟩ := List.mem_map.mp hk
    obtain ⟨hkey, hc⟩ := mem_toList_contents hkv
    rw [hkey]
    refine ⟨?_, rfl⟩
    rw [← contents_isSome h, hc]
    rfl
  · rintro ⟨hs, rfl⟩
    rw [← contents_isSome h] at hs
    obtain ⟨kv, hkv⟩ := Option.isSome_iff_exists.mp hs
    rw [hkv]
    simp [contents_key hkv]

theorem rangeKVs_spec (r : RangeRequest) {s : Redis} (h : Consistent s) :
    Ascending KeyValue.key (rangeKVs r s) ∧
      (∀ k, k ∈ (rangeKVs r s).map KeyValue.key ↔ Covered r.key r.rangeEnd s k) ∧
      ∀ kv ∈ rangeKVs r s, contents s kv.key = some kv := by
  rw [rangeKVs]
  split_ifs with hr
  · refine ⟨?_, fun k => ?_, fun kv hkv => ?_⟩
    · cases contents s r.key <;> simp [Ascending]
    · rw [hr, covered_single, mem_keys_toList h]
    · obtain ⟨hkey, hc⟩ := mem_toList_contents hkv
      rw [hkey, hc]
  · exact ⟨scannedKVs_ascending r s, fun k => mem_scannedKVs r hr h,
      fun kv hkv => contents_of_mem_scannedKVs hkv⟩

theorem rangeKVs_eq_iff (r : RangeRequest) {s : Redis} (h : Consistent s) (k : Key) :
    rangeKVs r s = (contents s k).toList ↔
      ∀ k', Covered r.key r.rangeEnd s k' ↔ (s.kv k').isSome ∧ k' = k := by
  obtain ⟨hasc, hmem, hval⟩ := rangeKVs_spec r h
  constructor
  · intro heq k'
    rw [← hmem, heq, mem_keys_toList h]
  · intro hcov
    -- two ascending lists with the same keys and the values of the store
    have hkeys : ∀ kv ∈ rangeKVs r s, kv.key = k := by
      intro kv hkv
      exact ((hcov kv.key).mp ((hmem kv.key).mp (List.mem_map_of_mem hkv))).2
    cases hc : contents s k with
    | none =>
      refine List.eq_nil_iff_forall_not_mem.mpr fun kv hkv => ?_
      have := hval kv hkv
      rw [hkeys kv hkv, hc] at this
      cases this
    | some kv =>
      have hs : (s.kv k).isSome := by
        rw [← contents_isSome h, hc]
        rfl
      have hin : k ∈ (rangeKVs r s).map KeyValue.key := (hmem k).mpr ((hcov k).mpr ⟨hs, rfl⟩)
      have honly : ∀ x ∈ rangeKVs r s, x = kv := by
        intro x hx
        have := hval x hx
        rw [hkeys x hx, hc, Option.some.injEq] at this
        exact this.symm
      cases hl : rangeKVs r s with
      | nil =>
        rw [hl] at hin
        cases hin
      | cons x rest =>
        rw [hl] at honly hasc
        obtain ⟨hlt, _⟩ := List.pairwise_cons.mp hasc
        have hx := honly x List.mem_cons_self
        subst hx
        cases rest with
        | nil => rfl
        | cons y rest =>
          have hy := honly y (List.mem_cons_of_mem _ List.mem_cons_self)
          have := hlt y List.mem_cons_self
          rw [hy] at this
          exact absurd this (lt_irrefl _)

/-- A failed update's answer is the requested range iff that range covers the compare's key and
nothing else, and does not ask only for the number of stored keys. -/
theorem answer_eq_iff (r : RangeRequest) {s : Redis} (h : Consistent s) (k : Key) :
    (⟨headerAt (reported s), (contents s k).toList, (contents s k).toList.length⟩ :
        RangeResponse) = KVServer.rangeResponse r (reported s) (rangeKVs r s) ↔
      (∀ k', Covered r.key r.rangeEnd s k' ↔ (s.kv k').isSome ∧ k' = k) ∧
        (r.countOnly = true → s.kv k = none) := by
  rw [← rangeKVs_eq_iff r h, ← contents_eq_none h, KVServer.rangeResponse]
  cases hcount : r.countOnly with
  | false =>
    constructor
    · intro heq
      simp only [RangeResponse.mk.injEq, Bool.false_eq_true, if_false, true_and] at heq
      exact ⟨heq.1.symm, by simp⟩
    · rintro ⟨hkvs, _⟩
      rw [hkvs]
      rfl
  | true =>
    constructor
    · intro heq
      simp only [RangeResponse.mk.injEq, if_true, true_and, Option.toList_eq_nil_iff] at heq
      obtain ⟨hnone, hlen⟩ := heq
      rw [hnone] at hlen ⊢
      exact ⟨List.length_eq_zero_iff.mp (by simpa using hlen.symm), fun _ => rfl⟩
    · rintro ⟨hkvs, hnone⟩
      rw [hkvs, hnone rfl]
      rfl

/-! ### The generic path -/

theorem evalCompare_exec {c : Compare} (ht : c.target = .mod) (hr : c.result = .equal)
    {w w' : World} {x : Result Bool} (h : Prog.Exec step (KVServer.evalCompare c) w x w') :
    w' = w ∧ x = .ok (decide (Holds c w.redis)) := by
  obtain ⟨y, w₁, hget, h⟩ := Prog.exec_bind.mp h
  obtain ⟨rfl, rfl⟩ := RedisStore.get_exec hget
  obtain ⟨rfl, rfl⟩ := Prog.exec_ret.mp h
  refine ⟨rfl, ?_⟩
  rw [KVServer.compareKV, ht, hr]
  rfl

theorem evalCompares_exec {c : Compare} (ht : c.target = .mod) (hr : c.result = .equal)
    {w w' : World} {x : Result Bool} (h : Prog.Exec step (KVServer.evalCompares [c]) w x w') :
    w' = w ∧ x = .ok (decide (Holds c w.redis)) := by
  obtain ⟨y, w₁, hcmp, h⟩ := Prog.exec_bind.mp h
  obtain ⟨rfl, rfl⟩ := evalCompare_exec ht hr hcmp
  cases hd : decide (Holds c w₁.redis) with
  | false =>
    rw [hd] at h
    obtain ⟨rfl, rfl⟩ := Prog.exec_ret.mp h
    exact ⟨rfl, rfl⟩
  | true =>
    rw [hd] at h
    obtain ⟨rfl, rfl⟩ := Prog.exec_ret.mp h
    exact ⟨rfl, rfl⟩

theorem header_exec {w w' : World} {x : ResponseHeader} (h : Prog.Exec step KVServer.header w x w') :
    w' = w ∧ x = headerAt (reported w.redis) := by
  obtain ⟨y, w₁, hcur, h⟩ := Prog.exec_bind.mp h
  obtain ⟨rfl, rfl⟩ := RedisStore.currentRevision_exec hcur
  obtain ⟨rfl, rfl⟩ := Prog.exec_ret.mp h
  exact ⟨rfl, rfl⟩

theorem executeOps_put {p : PutRequest} {w w' : World} (hw : Consistent w.redis)
    {x : Result (List ResponseOp)} (h : Prog.Exec step (KVServer.executeOps [.put p]) w x w') :
    (¬ w.redis.counter < 2 ^ 63 - 1 ∧ w'.redis = w.redis ∧ ∃ err, x = .error err) ∨
    (w.redis.counter < 2 ^ 63 - 1 ∧ Written p.key p.value p.lease w.redis w'.redis ∧
      x = .ok [.put ⟨headerAt (RedisStore.scriptRev (luaTostring (w.redis.counter + 1))),
        none⟩]) := by
  obtain ⟨y, w₁, hop, h⟩ := Prog.exec_bind.mp h
  obtain ⟨z, w₂, hput, hop⟩ := Prog.exec_bind.mp hop
  rcases RedisStore.put_exec hw hput with ⟨hmax, hsame, err, rfl⟩ | ⟨hroom, hwr, prev, rfl⟩
  · obtain ⟨rfl, rfl⟩ := Prog.exec_ret.mp hop
    obtain ⟨rfl, rfl⟩ := Prog.exec_ret.mp h
    exact Or.inl ⟨hmax, hsame, err, rfl⟩
  · obtain ⟨rfl, rfl⟩ := Prog.exec_ret.mp hop
    obtain ⟨rfl, rfl⟩ := Prog.exec_ret.mp h
    exact Or.inr ⟨hroom, hwr, rfl⟩

def answers (ops : List RequestOp) (s : Redis) : List ResponseOp :=
  ops.filterMap fun
    | .range r => some (.range (KVServer.rangeResponse r (reported s) (rangeKVs r s)))
    | _ => none

theorem executeOps_range {r : RangeRequest} {w w' : World} (hw : Consistent w.redis)
    {x : Result (List ResponseOp)} (h : Prog.Exec step (KVServer.executeOps [.range r]) w x w') :
    w' = w ∧ x = .ok (answers [.range r] w.redis) := by
  obtain ⟨y, w₁, hop, h⟩ := Prog.exec_bind.mp h
  obtain ⟨z, w₂, hrange, hop⟩ := Prog.exec_bind.mp hop
  obtain ⟨rfl, rfl⟩ := range_exec_alone hw hrange
  obtain ⟨rfl, rfl⟩ := Prog.exec_ret.mp hop
  obtain ⟨rfl, rfl⟩ := Prog.exec_ret.mp h
  exact ⟨rfl, rfl⟩

theorem Shape.executeOps_failure {req : TxnRequest} {c : Compare} {p : PutRequest}
    (hshape : Shape req c p) {w w' : World} (hw : Consistent w.redis)
    {x : Result (List ResponseOp)} (h : Prog.Exec step (KVServer.executeOps req.failure) w x w') :
    w' = w ∧ x = .ok (answers req.failure w.redis) := by
  rcases hshape.failure with ⟨hf, _⟩ | ⟨r, hf⟩
  · rw [hf] at h ⊢
    obtain ⟨rfl, rfl⟩ := Prog.exec_ret.mp h
    exact ⟨rfl, rfl⟩
  · rw [hf] at h ⊢
    exact executeOps_range hw h

theorem genericTxn_exec {req : TxnRequest} {c : Compare} {p : PutRequest} (hshape : Shape req c p)
    {w w' : World} (hw : Consistent w.redis) {x : Result TxnResponse}
    (h : Prog.Exec step (KVServer.genericTxn req) w x w') :
    (¬ Holds c w.redis ∧ w' = w ∧
      x = .ok ⟨headerAt (reported w.redis), false, answers req.failure w.redis⟩) ∨
    (Holds c w.redis ∧ ¬ w.redis.counter < 2 ^ 63 - 1 ∧ w'.redis = w.redis ∧
      ∃ err, x = .error err) ∨
    (Holds c w.redis ∧ w.redis.counter < 2 ^ 63 - 1 ∧
      Written p.key p.value p.lease w.redis w'.redis ∧
      x = .ok ⟨headerAt (w.redis.counter + 1), true,
        [.put ⟨headerAt (RedisStore.scriptRev (luaTostring (w.redis.counter + 1))), none⟩]⟩) := by
  rw [KVServer.genericTxn, hshape.compare, hshape.success] at h
  obtain ⟨y, w₁, hcmp, h⟩ := Prog.exec_bind.mp h
  obtain ⟨rfl, rfl⟩ := evalCompares_exec hshape.target hshape.result hcmp
  by_cases hh : Holds c w₁.redis
  · right
    rw [decide_eq_true hh] at h
    obtain ⟨y, w₂, hops, h⟩ := Prog.exec_bind.mp h
    rcases executeOps_put hw hops with ⟨hmax, hsame, err, rfl⟩ | ⟨hroom, hwr, rfl⟩
    · obtain ⟨rfl, rfl⟩ := Prog.exec_ret.mp h
      exact Or.inl ⟨hh, hmax, hsame, err, rfl⟩
    · obtain ⟨z, w₃, hhead, h⟩ := Prog.exec_bind.mp h
      obtain ⟨rfl, rfl⟩ := header_exec hhead
      obtain ⟨rfl, rfl⟩ := Prog.exec_ret.mp h
      obtain ⟨id, hcom⟩ := hwr
      have hnn := hw.counter_nonneg
      have hrep : reported w'.redis = w₁.redis.counter + 1 := by
        rw [reported, hcom.counter, if_neg (by omega)]
      rw [hrep]
      exact Or.inr ⟨hh, hroom, ⟨id, hcom⟩, rfl⟩
  · left
    rw [decide_eq_false hh] at h
    obtain ⟨y, w₂, hops, h⟩ := Prog.exec_bind.mp h
    obtain ⟨rfl, rfl⟩ := hshape.executeOps_failure hw hops
    obtain ⟨z, w₃, hhead, h⟩ := Prog.exec_bind.mp h
    obtain ⟨rfl, rfl⟩ := header_exec hhead
    obtain ⟨rfl, rfl⟩ := Prog.exec_ret.mp h
    exact ⟨hh, rfl, rfl⟩

/-- The generic path does what a request of these shapes asks for. -/
theorem genericTxn_meets {req : TxnRequest} {c : Compare} {p : PutRequest} (hshape : Shape req c p)
    {w w' : World} (hw : Consistent w.redis) {x : Result TxnResponse}
    (h : Prog.Exec step (KVServer.genericTxn req) w x w') : Meets c p req.failure w x w' := by
  rcases genericTxn_exec hshape hw h with ⟨hh, rfl, rfl⟩ | ⟨hh, hmax, hsame, err, rfl⟩ |
    ⟨hh, hroom, hwr, rfl⟩
  · refine ⟨fun hc => absurd hc hh, fun hc => absurd hc hh, fun _ => ⟨rfl, _, rfl, rfl, ?_⟩⟩
    intro r hr
    exact ⟨_, by rw [hr]; rfl, exists_range_exec r hw⟩
  · exact .of_full hh hmax hsame
  · exact .of_stored hh hroom hwr.stores rfl

/-! ### The fast paths -/

/-- When the fast paths do what the request asks for.  A create looks at the put's key only, so its
two keys have to be stored or absent together.  An update must not compare an absent key with the
sentinel; it writes under the compare's key, so this has to be the put's key if it writes; and it
answers a failed compare with the compare's key, so the requested range has to hold just that. -/
def Faithful (c : Compare) (p : PutRequest) (failure : List RequestOp) (s : Redis) : Prop :=
  match failure with
  | [.range r] =>
    (c.getModRevision = -1 → (s.kv c.key).isSome) ∧
      (Holds c s → s.counter < 2 ^ 63 - 1 → p.key = c.key) ∧
      (¬ Holds c s → (∀ k, Covered r.key r.rangeEnd s k ↔ (s.kv k).isSome ∧ k = c.key) ∧
        (r.countOnly = true → s.kv c.key = none))
  | _ => (s.kv c.key).isSome ↔ (s.kv p.key).isSome

/-- The script and the answer that a fast path makes of its result; `failure` is what it lists when
the compare has failed. -/
theorem swap_exec {key : Key} {expected : ℤ} {value : Bytes} {lease : ℤ}
    (failure : RedisStore.TxnResult → List ResponseOp) {w w' : World} (hw : Consistent w.redis)
    {x : Result TxnResponse}
    (h : Prog.Exec step (do
      match ← RedisStore.txn key expected .put value lease with
      | .error err => return .error err
      | .ok res =>
        return .ok ⟨headerAt res.revision, res.succeeded,
          if res.succeeded then [.put ⟨headerAt res.revision, none⟩] else failure res⟩) w x w') :
    (txnCompare expected (w.redis.kv key) = false ∧ w' = w ∧
      x = .ok ⟨headerAt (reported w.redis), false,
        failure ⟨false, reported w.redis, contents w.redis key⟩⟩) ∨
    (txnCompare expected (w.redis.kv key) = true ∧ ¬ w.redis.counter < 2 ^ 63 - 1 ∧
      w'.redis = w.redis ∧ ∃ err, x = .error err) ∨
    (txnCompare expected (w.redis.kv key) = true ∧ w.redis.counter < 2 ^ 63 - 1 ∧
      Written key value lease w.redis w'.redis ∧
      x = .ok ⟨headerAt (w.redis.counter + 1), true,
        [.put ⟨headerAt (w.redis.counter + 1), none⟩]⟩) := by
  obtain ⟨y, w₁, htxn, h⟩ := Prog.exec_bind.mp h
  rcases RedisStore.txn_exec htxn with ⟨hcmp, rfl, rfl⟩ | ⟨hcmp, hmax, hsame, err, rfl⟩ |
    ⟨hcmp, hroom, hwr, rev, rfl, hrev⟩
  · obtain ⟨rfl, rfl⟩ := Prog.exec_ret.mp h
    exact Or.inl ⟨hcmp, rfl, rfl⟩
  · obtain ⟨rfl, rfl⟩ := Prog.exec_ret.mp h
    exact Or.inr (Or.inl ⟨hcmp, hmax, hsame, err, rfl⟩)
  · obtain ⟨rfl, rfl⟩ := Prog.exec_ret.mp h
    rw [hrev hw.counter_nonneg]
    exact Or.inr (Or.inr ⟨hcmp, hroom, hwr, rfl⟩)

theorem create_meets_iff {c : Compare} {p : PutRequest} (hc : c.getModRevision = 0) {w w' : World}
    (hw : Consistent w.redis) {x : Result TxnResponse}
    (h : Prog.Exec step (KVServer.create p) w x w') :
    Meets c p [] w x w' ↔ Faithful c p [] w.redis := by
  have hholds := holds_zero_iff hw hc
  change _ ↔ ((w.redis.kv c.key).isSome ↔ (w.redis.kv p.key).isSome)
  rcases swap_exec (fun _ => []) hw h with ⟨hcmp, rfl, rfl⟩ | ⟨hcmp, hmax, hsame, err, rfl⟩ |
    ⟨hcmp, hroom, hwr, rfl⟩
  · -- the put's key is stored
    rw [txnCompare_absent, Option.isNone_eq_false_iff] at hcmp
    rw [iff_true_right hcmp, Option.isSome_iff_ne_none, ne_eq, ← hholds]
    constructor
    · intro hm hh
      exact Bool.false_ne_true (hm.succeeded_iff.mpr hh)
    · intro hh
      refine ⟨fun hc => absurd hc hh, fun hc => absurd hc hh, fun _ => ⟨rfl, _, rfl, rfl, ?_⟩⟩
      intro r hr
      cases hr
  · -- it is absent, and the counter is at its end
    rw [txnCompare_absent, Option.isNone_iff_eq_none] at hcmp
    have hp : ¬ (w.redis.kv p.key).isSome := by simp [hcmp]
    rw [iff_false_right hp, Option.not_isSome_iff_eq_none, ← hholds]
    exact ⟨Meets.holds_of_error, fun hh => .of_full hh hmax hsame⟩
  · -- it is absent and becomes stored
    rw [txnCompare_absent, Option.isNone_iff_eq_none] at hcmp
    have hp : ¬ (w.redis.kv p.key).isSome := by simp [hcmp]
    rw [iff_false_right hp, Option.not_isSome_iff_eq_none, ← hholds]
    exact ⟨fun hm => hm.succeeded_iff.mp rfl, fun hh => .of_stored hh hroom hwr.stores rfl⟩

theorem update_meets_iff {c : Compare} {p : PutRequest} {r : RangeRequest} {w w' : World}
    (hw : Consistent w.redis) {x : Result TxnResponse}
    (h : Prog.Exec step (KVServer.update c.key c.getModRevision p.value p.lease) w x w') :
    Meets c p [.range r] w x w' ↔ Faithful c p [.range r] w.redis := by
  change _ ↔ (c.getModRevision = -1 → (w.redis.kv c.key).isSome) ∧
    (Holds c w.redis → w.redis.counter < 2 ^ 63 - 1 → p.key = c.key) ∧
    (¬ Holds c w.redis →
      (∀ k, Covered r.key r.rangeEnd w.redis k ↔ (w.redis.kv k).isSome ∧ k = c.key) ∧
      (r.countOnly = true → w.redis.kv c.key = none))
  by_cases hsent : c.getModRevision = -1 → (w.redis.kv c.key).isSome
  · have hcond := txnCompare_iff_holds hw hsent
    rcases swap_exec _ hw h with ⟨hcmp, rfl, rfl⟩ | ⟨hcmp, hmax, hsame, err, rfl⟩ |
      ⟨hcmp, hroom, hwr, rfl⟩
    · -- the compare fails
      have hh : ¬ Holds c w'.redis := by
        rw [← hcond, hcmp]
        decide
      have hans := answer_eq_iff r hw c.key
      constructor
      · intro hm
        refine ⟨hsent, fun hc => absurd hc hh, fun _ => hans.mp ?_⟩
        obtain ⟨_, resp, hx, _, hr⟩ := hm.failure hh
        obtain ⟨answer, hresp, hexec⟩ := hr r rfl
        cases hx
        have heq := (range_exec_alone hw hexec).2
        rw [Except.ok.injEq] at heq
        rw [← heq]
        injection hresp with hhead _
        injection hhead
      · rintro ⟨_, _, hcov⟩
        refine ⟨fun hc => absurd hc hh, fun hc => absurd hc hh,
          fun _ => ⟨rfl, _, rfl, rfl, fun r' hr => ?_⟩⟩
        cases hr
        refine ⟨_, ?_, exists_range_exec r hw⟩
        rw [← hans.mpr (hcov hh)]
    · -- the counter is at its end
      have hh := hcond.mp hcmp
      exact iff_of_true (.of_full hh hmax hsame)
        ⟨hsent, fun _ hroom => absurd hroom hmax, fun hn => absurd hh hn⟩
    · -- the value is stored under the compare's key
      have hh := hcond.mp hcmp
      constructor
      · intro hm
        refine ⟨hsent, fun _ _ => ?_, fun hn => absurd hh hn⟩
        by_contra hne
        obtain ⟨id, hcom⟩ := hwr
        exact hcom.kv_ne hw rfl ((hm.success hh hroom).1.2 c.key (Ne.symm hne))
      · rintro ⟨_, hkey, _⟩
        have hst := hwr.stores
        rw [← hkey hh hroom] at hst
        exact .of_stored hh hroom hst rfl
  · -- an absent key is compared with the sentinel: the script takes it to hold
    refine iff_of_false (fun hm => ?_) fun hf => hsent hf.1
    rw [Classical.not_imp, Option.not_isSome_iff_eq_none] at hsent
    have hcmp : txnCompare c.getModRevision (w.redis.kv c.key) = true := by
      rw [hsent.1, hsent.2]
      rfl
    have hn := not_holds_sentinel hw hsent.1
    rcases swap_exec _ hw h with ⟨hfail, _⟩ | ⟨_, _, _, err, rfl⟩ | ⟨_, _, _, rfl⟩
    · rw [hcmp] at hfail
      cases hfail
    · exact hn hm.holds_of_error
    · exact hn (hm.succeeded_iff.mp rfl)

/-- **Routing by shape keeps the meaning of a request iff the request is faithful to the shape.**
For every store that a run reaches and every transaction that `isCreate` or `isUpdate` accepts, run
without other writers: the generic path does what the request asks for, and `Txn` does so too iff
the request's keys, its mod revision and its range are the ones that the fast path takes them for. -/
theorem shapes_faithful_iff (reqs : List Request) (ms : List (ℕ × Env)) (req : TxnRequest)
    (hacc : (KVServer.isCreate req).isSome ∨ (KVServer.isUpdate req).isSome) :
    let w := (Pool.run exec (start reqs) ms).shared
    ∃ c p, req.compare = [c] ∧ req.success = [.put p] ∧
      (∀ x w', Prog.Exec step (KVServer.genericTxn req) w x w' → Meets c p req.failure w x w') ∧
      ((∀ x w', Prog.Exec step (KVServer.txn req) w x w' → Meets c p req.failure w x w') ↔
        Faithful c p req.failure w.redis) := by
  intro w
  have hw : Consistent w.redis := consistent_run reqs ms
  obtain ⟨y, v, hrun⟩ := Prog.exists_exec step_total (KVServer.txn req) w
  rw [KVServer.txn] at hrun ⊢
  cases hcreate : KVServer.isCreate req with
  | some p =>
    obtain ⟨c, hshape, hf, hc⟩ := isCreate_eq_some hcreate
    rw [hcreate] at hrun
    refine ⟨c, p, hshape.compare, hshape.success, fun x w' => genericTxn_meets hshape hw, ?_⟩
    rw [hf]
    constructor
    · intro hm
      exact (create_meets_iff hc hw hrun).mp (hm y v hrun)
    · intro hfaith x w' h
      exact (create_meets_iff hc hw h).mpr hfaith
  | none =>
    rw [hcreate] at hacc hrun
    obtain ⟨out, hupdate⟩ := Option.isSome_iff_exists.mp (hacc.resolve_left (by decide))
    obtain ⟨c, p, r, hshape, hf, rfl⟩ := isUpdate_eq_some hupdate
    rw [hupdate] at hrun ⊢
    refine ⟨c, p, hshape.compare, hshape.success, fun x w' => genericTxn_meets hshape hw, ?_⟩
    rw [hf]
    constructor
    · intro hm
      exact (update_meets_iff hw hrun).mp (hm y v hrun)
    · intro hfaith x w' h
      exact (update_meets_iff hw h).mpr hfaith

def updateRequest (c : Key) (n : ℤ) (p r : Key) : TxnRequest where
  compare := [⟨.equal, .mod, c, .modRevision n⟩]
  success := [.put ⟨p, [1], 0, false⟩]
  failure := [.range ⟨r, [], false⟩]

def createRequest (c p : Key) : TxnRequest where
  compare := [⟨.equal, .mod, c, .modRevision 0⟩]
  success := [.put ⟨p, [1], 0, false⟩]
  failure := []

/-- An update that names the key `b` everywhere does what it asks for. -/
theorem update_oneKey_meets :
    ∃ c p, Holds c oneKey.redis ∧
      ∀ x w', Prog.Exec step (KVServer.txn (updateRequest [98] 1 [98] [98])) oneKey x w' →
        Meets c p [.range ⟨[98], [], false⟩] oneKey x w' := by
  obtain ⟨c, p, hc, hp, _, hiff⟩ := shapes_faithful_iff [.put ⟨[98], [1], 0, false⟩]
    [(0, .plain 5), (0, .plain 5)] (updateRequest [98] 1 [98] [98]) (by decide)
  cases hc
  cases hp
  have hh : Holds ⟨.equal, .mod, [98], .modRevision 1⟩ oneKey.redis := by decide
  refine ⟨_, _, hh, hiff.mpr ⟨?_, fun _ _ => rfl, fun hn => absurd hh hn⟩⟩
  intro hm
  cases hm

/-- Requests that are accepted and not served as asked, on a store with the key `b` at revision 1:
a create of `b` under the condition that `a` is absent fails; an update of `a` under a condition on
`b` overwrites `b`; the compare of the absent `a` with `-1` holds; and a failed update answers with
`b` though it asks for `a`. -/
theorem shapes_unfaithful :
    (Holds ⟨.equal, .mod, [97], .modRevision 0⟩ oneKey.redis ∧
      ∃ resp w', Prog.Exec step (KVServer.txn (createRequest [97] [98])) oneKey (.ok resp) w' ∧
        resp.succeeded = false) ∧
    (∃ resp w', Prog.Exec step (KVServer.txn (updateRequest [98] 1 [97] [98])) oneKey
        (.ok resp) w' ∧ resp.succeeded = true ∧ w'.redis.kv [97] = none ∧
        w'.redis.kv [98] ≠ oneKey.redis.kv [98]) ∧
    (¬ Holds ⟨.equal, .mod, [97], .modRevision (-1)⟩ oneKey.redis ∧
      ∃ resp w', Prog.Exec step (KVServer.txn (updateRequest [97] (-1) [97] [97])) oneKey
        (.ok resp) w' ∧ resp.succeeded = true ∧ (w'.redis.kv [97]).isSome) ∧
    ∃ resp answer w', Prog.Exec step (KVServer.txn (updateRequest [98] 5 [98] [97])) oneKey
      (.ok resp) w' ∧ resp.succeeded = false ∧ resp.responses = [.range answer] ∧
      answer.kvs.map KeyValue.key = [[98]] := by
  refine ⟨⟨by decide, _, _, exec_undisturbed _ _, by decide⟩,
    ⟨_, _, exec_undisturbed _ _, by decide, by decide, by decide⟩,
    ⟨by decide, _, _, exec_undisturbed _ _, by decide, by decide⟩,
    ⟨_, _, _, exec_undisturbed _ _, by decide, rfl, by decide⟩⟩

end REtcd.Server
