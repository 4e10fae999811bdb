import REtcd.Server.Lease

/-!
# Ranges without other clients

Run alone, `Range` returns (`range_keys`) and `DeleteRange` deletes (`deleteRange_keys`) the stored
keys that `matchesWatch` accepts and that begin with the prefix to which the scan is narrowed.

For the range end that asks for every key from the start key on, this prefix is empty unless the
start key begins with the zero byte, which it then shares with the range end.  So the three
services agree on all the keys from the start key on iff the start key does not begin with it or no
stored key above it has another first byte (`fromKey_agree_iff`); the start key `[0]`, with which a
client asks for everything, misses every key that does not begin with the zero byte
(`fromKey_misses`).
-/

namespace REtcd.Server

open Base Store

/-! ### What a range covers -/

/-- The stored keys of a range that begin with the prefix to which the scan is narrowed. -/
def Covered (key rangeEnd : Key) (s : Redis) (k : Key) : Prop :=
  (s.kv k).isSome ∧ KVServer.commonPrefix key rangeEnd <+: k ∧
    matchesWatch k key rangeEnd = true

theorem mem_keys_iff {kvs : List KeyValue} {k : Key} :
    k ∈ kvs.map KeyValue.key ↔ (listing kvs k).isSome := by
  simp [listing, List.find?_isSome]

/-- **The keys that a range request lists are the ones it covers.** -/
theorem mem_scannedKVs (req : RangeRequest) (hr : req.rangeEnd ≠ []) {s : Redis}
    (h : Consistent s) {k : Key} :
    k ∈ (scannedKVs req (scanned req s) s).map KeyValue.key ↔
      Covered req.key req.rangeEnd s k := by
  rw [Covered, scannedKVs]
  cases hk : matchesWatch k req.key req.rangeEnd with
  | true =>
    rw [mem_keys_iff, listing_filter fun kv hkv => by rw [inRange_eq_matches hr, hkv, hk],
      listing_decodeAll]
    split_ifs with hm
    · have hs := (RedisStore.mem_scan h).mp hm
      have hc : (contents s k).isSome := by
        rw [Option.isSome_iff_ne_none, Ne, contents_eq_none h, ← Ne, ← Option.isSome_iff_ne_none]
        exact hs.1
      exact iff_of_true hc ⟨hs.1, hs.2, rfl⟩
    · refine iff_of_false (by simp) fun hs => hm ?_
      exact (RedisStore.mem_scan h).mpr ⟨hs.1, hs.2.1⟩
  | false =>
    refine iff_of_false ?_ (by simp)
    intro hm
    obtain ⟨kv, hkv, rfl⟩ := List.mem_map.mp hm
    rw [List.mem_filter, inRange_eq_matches hr, hk] at hkv
    cases hkv.2

/-! ### The two requests -/

/-- **Run alone, `Range` returns the keys it covers.** -/
theorem range_keys (req : RangeRequest) (hr : req.rangeEnd ≠ []) (hcount : req.countOnly = false)
    {w w' : World} (hw : Consistent w.redis) {x : Result RangeResponse}
    (h : Prog.Exec step (KVServer.range req) w x w') :
    ∃ resp, x = .ok resp ∧
      ∀ k, k ∈ resp.kvs.map KeyValue.key ↔ Covered req.key req.rangeEnd w.redis k := by
  rw [KVServer.range, if_neg hr] at h
  obtain ⟨y, w₁, hscan, h⟩ := Prog.exec_bind.mp h
  obtain ⟨rfl, rfl⟩ := RedisStore.range_exec hscan
  obtain ⟨rfl, rfl⟩ := Prog.exec_ret.mp h
  refine ⟨_, rfl, fun k => ?_⟩
  rw [← mem_scannedKVs req hr hw, KVServer.rangeResponse, hcount]
  rfl

theorem deleteLoop_exec {key rangeEnd : Key} {kvs : List KeyValue} {n : ℕ} {w w' : World}
    {x : Result ℕ} (h : Prog.Exec step (KVServer.deleteLoop key rangeEnd kvs n) w x w')
    (hb : w'.redis.counter < 2 ^ 63 - 1) :
    x = .ok (n + (kvs.filter (KVServer.inRange key rangeEnd)).length) ∧
      RedisStore.Removed ((kvs.filter (KVServer.inRange key rangeEnd)).map KeyValue.key)
        w.redis w'.redis := by
  induction kvs generalizing n w with
  | nil =>
    obtain ⟨rfl, rfl⟩ := Prog.exec_ret.mp h
    exact ⟨rfl, RedisStore.removed_nil _⟩
  | cons kv kvs ih =>
    rw [KVServer.deleteLoop] at h
    split_ifs at h with hin
    · obtain ⟨y, w₁, hd, hrest⟩ := Prog.exec_bind.mp h
      have hle : w₁.redis.counter ≤ w'.redis.counter := by
        refine exec_counter_le ?_ hrest
        cases y with
        | error err => trivial
        | ok _ => exact KVServer.deleteLoop_uses Cmd.Quiet.issued (fun _ => trivial) _ _ kvs _
      obtain ⟨⟨out, rfl⟩, _⟩ := RedisStore.delete_exec hd (by omega)
      obtain ⟨hx, hr⟩ := ih hrest
      rw [List.filter_cons_of_pos hin]
      refine ⟨?_, RedisStore.removed_cons hd (by omega) hr⟩
      rw [hx, List.length_cons]
      congr 1
      omega
    · rw [List.filter_cons_of_neg hin]
      exact ih h

/-- **Run alone, `DeleteRange` deletes the keys it covers** and counts them. -/
theorem deleteRange_keys (req : DeleteRangeRequest) (hr : req.rangeEnd ≠ []) {w w' : World}
    (hw : Consistent w.redis) {x : Result DeleteRangeResponse}
    (h : Prog.Exec step (KVServer.deleteRange req) w x w')
    (hb : w'.redis.counter < 2 ^ 63 - 1) :
    (∃ resp, x = .ok resp) ∧
      ∀ k, (w.redis.kv k).isSome ∧ w'.redis.kv k = none ↔
        Covered req.key req.rangeEnd w.redis k := by
  obtain ⟨y, w₁, hkeys, h⟩ := Prog.exec_bind.mp h
  have hquiet : w'.redis = w₁.redis := by
    refine exec_quiet ?_ h
    cases y with
    | error err => trivial
    | ok n => exact Prog.uses_bind (KVServer.header_uses fun _ hc => hc) fun _ => trivial
  rw [hquiet] at hb ⊢
  rw [KVServer.deleteKeys, if_neg hr] at hkeys
  obtain ⟨z, w₂, hscan, hkeys⟩ := Prog.exec_bind.mp hkeys
  obtain ⟨rfl, rfl⟩ := RedisStore.range_exec hscan
  obtain ⟨rfl, hrem⟩ := deleteLoop_exec hkeys hb
  constructor
  · obtain ⟨hd, w₃, _, hret⟩ := Prog.exec_bind.mp h
    exact ⟨_, (Prog.exec_ret.mp hret).1⟩
  · intro k
    have hmem := mem_scannedKVs ⟨req.key, req.rangeEnd, false⟩ hr hw (k := k)
    rw [← hmem, hrem.kv]
    split_ifs with hk
    · exact iff_of_true ⟨(hmem.mp hk).1, rfl⟩ hk
    · refine iff_of_false ?_ hk
      rintro ⟨hs, hn⟩
      rw [hn] at hs
      exact nomatch hs

/-! ### Every key from the start key on -/

theorem matches_fromKey {k key : Key} : matchesWatch k key KVServer.fromKey = true ↔ key ≤ k := by
  rw [matchesWatch, if_neg (by decide), if_pos rfl, decide_eq_true_eq]

/-- The scan is narrowed only if the start key begins with the zero byte. -/
theorem commonPrefix_fromKey (key k : Key) :
    KVServer.commonPrefix key KVServer.fromKey <+: k ↔
      key.head? ≠ some 0 ∨ k.head? = some 0 := by
  cases key with
  | nil => simp [KVServer.commonPrefix]
  | cons a as =>
    by_cases ha : a = 0
    · subst ha
      cases k with
      | nil => simp [KVServer.commonPrefix, KVServer.fromKey]
      | cons b bs => simp [KVServer.commonPrefix, KVServer.fromKey, eq_comm]
    · simp [KVServer.commonPrefix, KVServer.fromKey, ha]

theorem covered_fromKey {key : Key} {s : Redis} {k : Key} :
    Covered key KVServer.fromKey s k ↔
      ((s.kv k).isSome ∧ key ≤ k) ∧ (key.head? ≠ some 0 ∨ k.head? = some 0) := by
  rw [Covered, matches_fromKey, commonPrefix_fromKey]
  tauto

/-- **When the three services agree on the keys from the start key on**: the start key does not
begin with the zero byte, or every stored key above it does. -/
theorem fromKey_agree_iff (key : Key) (w : World) (hw : Consistent w.redis)
    (x : Result RangeResponse) (w₁ : World)
    (hrange : Prog.Exec step (KVServer.range ⟨key, KVServer.fromKey, false⟩) w x w₁)
    (y : Result DeleteRangeResponse) (w₂ : World)
    (hdelete : Prog.Exec step (KVServer.deleteRange ⟨key, KVServer.fromKey⟩) w y w₂)
    (hb : w₂.redis.counter < 2 ^ 63 - 1) :
    ∃ resp del, x = .ok resp ∧ y = .ok del ∧
      (((∀ k, k ∈ resp.kvs.map KeyValue.key ↔ (w.redis.kv k).isSome ∧ key ≤ k) ∧
          (∀ k, (w.redis.kv k).isSome ∧ w₂.redis.kv k = none ↔ (w.redis.kv k).isSome ∧ key ≤ k) ∧
          ∀ k, (w.redis.kv k).isSome ∧ matchesWatch k key KVServer.fromKey = true ↔
            (w.redis.kv k).isSome ∧ key ≤ k) ↔
        key.head? ≠ some 0 ∨ ∀ k, (w.redis.kv k).isSome → key ≤ k → k.head? = some 0) := by
  have hne : KVServer.fromKey ≠ [] := by decide
  obtain ⟨resp, rfl, hkeys⟩ := range_keys ⟨key, KVServer.fromKey, false⟩ hne rfl hw hrange
  obtain ⟨⟨del, rfl⟩, hdel⟩ := deleteRange_keys ⟨key, KVServer.fromKey⟩ hne hw hdelete hb
  refine ⟨resp, del, rfl, rfl, ?_⟩
  simp only [hkeys, hdel, covered_fromKey, matches_fromKey]
  constructor
  · rintro ⟨h, -, -⟩
    by_cases hz : key.head? = some 0
    · exact Or.inr fun k hs hle => ((h k).mpr ⟨hs, hle⟩).2.resolve_left (fun hn => hn hz)
    · exact Or.inl hz
  · intro h
    have hall : ∀ k, (((w.redis.kv k).isSome ∧ key ≤ k) ∧
        (key.head? ≠ some 0 ∨ k.head? = some 0)) ↔ (w.redis.kv k).isSome ∧ key ≤ k := by
      intro k
      refine ⟨And.left, fun hk => ⟨hk, ?_⟩⟩
      exact h.imp_right fun hz => hz k hk.1 hk.2
    exact ⟨hall, hall, fun _ => trivial⟩

/-- From the empty key on, all three find the one stored key. -/
theorem fromKey_agree_empty :
    ∃ w₂, (∃ y, Prog.Exec step (KVServer.deleteRange ⟨[], KVServer.fromKey⟩) oneKey y w₂) ∧
      (oneKey.redis.kv [98]).isSome ∧ w₂.redis.kv [98] = none := by
  have hr := exec_undisturbed (KVServer.range ⟨[], KVServer.fromKey, false⟩) oneKey
  have hd := exec_undisturbed (KVServer.deleteRange ⟨[], KVServer.fromKey⟩) oneKey
  obtain ⟨resp, del, -, -, hiff⟩ :=
    fromKey_agree_iff [] oneKey oneKey_consistent _ _ hr _ _ hd (by decide)
  have hs : (oneKey.redis.kv [98]).isSome := by decide
  have := ((hiff.mpr (Or.inl (by decide))).2.1 [98]).mpr ⟨hs, by decide⟩
  exact ⟨_, ⟨_, hd⟩, this⟩

/-- **With the start key `[0]`, `Range` returns nothing and `DeleteRange` deletes nothing of a store
that holds the key `b`**, while a watch of the same range gets its events. -/
theorem fromKey_misses :
    (oneKey.redis.kv [98]).isSome ∧ ([0] : Key) ≤ [98] ∧
      matchesWatch [98] [0] KVServer.fromKey = true ∧
      (∃ resp w₁, Prog.Exec step (KVServer.range ⟨[0], KVServer.fromKey, false⟩) oneKey
        (.ok resp) w₁ ∧ resp.kvs = [] ∧ resp.count = 0) ∧
      ∃ del w₂, Prog.Exec step (KVServer.deleteRange ⟨[0], KVServer.fromKey⟩) oneKey
        (.ok del) w₂ ∧ del.deleted = 0 ∧ (w₂.redis.kv [98]).isSome := by
  have hr := exec_undisturbed (KVServer.range ⟨[0], KVServer.fromKey, false⟩) oneKey
  have hd := exec_undisturbed (KVServer.deleteRange ⟨[0], KVServer.fromKey⟩) oneKey
  exact ⟨by decide, by decide, by decide, ⟨_, _, hr, by decide, by decide⟩,
    ⟨_, _, hd, by decide, by decide⟩⟩

end REtcd.Server
