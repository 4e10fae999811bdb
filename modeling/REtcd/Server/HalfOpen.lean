import REtcd.Server.FromKey

/-!
# Half-open ranges

For a range end that is an ordinary key, the keys from `key` up to `rangeEnd` all begin with what
the two share, so narrowing the scan to this prefix loses none of them
(`commonPrefix_of_mem`).  Hence `Range` lists exactly these keys (`range_halfOpen`), and
`DeleteRange` deletes exactly these, with one event for each in ascending order
(`deleteRange_halfOpen`).
-/

namespace REtcd.Server

open Base Store

/-! ### The prefix -/

theorem commonPrefix_isPrefix :
    ∀ a b : Key, KVServer.commonPrefix a b <+: a ∧ KVServer.commonPrefix a b <+: b := by
  intro a
  induction a with
  | nil =>
    intro b
    rw [KVServer.commonPrefix]
    · exact ⟨List.nil_prefix, List.nil_prefix⟩
    · simp
  | cons x a ih =>
    intro b
    cases b with
    | nil => simp [KVServer.commonPrefix]
    | cons y b =>
      rw [KVServer.commonPrefix]
      split_ifs with hxy
      · subst hxy
        exact ⟨(List.prefix_cons_inj x).mpr (ih b).1, (List.prefix_cons_inj x).mpr (ih b).2⟩
      · exact ⟨List.nil_prefix, List.nil_prefix⟩

/-- **The prefix cuts off no key of the range.** -/
theorem commonPrefix_of_mem {key rangeEnd k : Key} (hle : key ≤ k) (hlt : k < rangeEnd) :
    KVServer.commonPrefix key rangeEnd <+: k :=
  isPrefix_of_between (commonPrefix_isPrefix key rangeEnd).1 (commonPrefix_isPrefix key rangeEnd).2
    hle hlt

theorem matches_halfOpen {key rangeEnd k : Key} (hr : rangeEnd ≠ [])
    (hf : rangeEnd ≠ KVServer.fromKey) :
    matchesWatch k key rangeEnd = true ↔ key ≤ k ∧ k < rangeEnd := by
  rw [matchesWatch, if_neg hr, if_neg hf, Bool.and_eq_true, decide_eq_true_eq, decide_eq_true_eq]

theorem covered_halfOpen {key rangeEnd k : Key} {s : Redis} (hr : rangeEnd ≠ [])
    (hf : rangeEnd ≠ KVServer.fromKey) :
    Covered key rangeEnd s k ↔ (s.kv k).isSome ∧ key ≤ k ∧ k < rangeEnd := by
  rw [Covered, matches_halfOpen hr hf]
  constructor
  · rintro ⟨hs, _, hk⟩
    exact ⟨hs, hk⟩
  · rintro ⟨hs, hk⟩
    exact ⟨hs, commonPrefix_of_mem hk.1 hk.2, hk⟩

/-! ### The values that a scan lists -/

theorem decodeAll_eq (s : Redis) (matched : List Key) :
    RedisStore.decodeAll matched (matched.map s.kv) = matched.filterMap (contents s) := by
  induction matched with
  | nil => rfl
  | cons k matched ih =>
    rw [List.filterMap_cons, ← ih, RedisStore.decodeAll, List.map_cons, List.zip_cons_cons,
      List.filterMap_cons]
    rfl

theorem mem_decodeAll {s : Redis} {matched : List Key} {kv : KeyValue} :
    kv ∈ RedisStore.decodeAll matched (matched.map s.kv) ↔
      kv.key ∈ matched ∧ contents s kv.key = some kv := by
  rw [decodeAll_eq, List.mem_filterMap]
  constructor
  · rintro ⟨k, hk, hd⟩
    have hkey : kv.key = k := contents_key hd
    rw [hkey]
    exact ⟨hk, hd⟩
  · rintro ⟨hk, hd⟩
    exact ⟨kv.key, hk, hd⟩

theorem decodeAll_ascending {s : Redis} {matched : List Key} (h : matched.Pairwise (· < ·)) :
    Ascending KeyValue.key (RedisStore.decodeAll matched (matched.map s.kv)) := by
  rw [decodeAll_eq, Ascending, List.pairwise_filterMap]
  refine h.imp fun hlt x hx y hy => ?_
  rw [contents_key hx, contents_key hy]
  exact hlt

theorem scan_sorted (pre : Key) (s : Redis) : (RedisStore.scan pre s).Pairwise (· < ·) :=
  s.keyindex.sorted.filter _

theorem scannedKVs_ascending (req : RangeRequest) (s : Redis) :
    Ascending KeyValue.key (scannedKVs req (scanned req s) s) :=
  (decodeAll_ascending (scan_sorted _ s)).filter _

theorem contents_of_mem_scannedKVs {req : RangeRequest} {matched : List Key} {s : Redis}
    {kv : KeyValue} (h : kv ∈ scannedKVs req matched s) : contents s kv.key = some kv :=
  (mem_decodeAll.mp (List.mem_filter.mp h).1).2

/-! ### Range -/

/-- The answer lists the stored keys from `key` up to `rangeEnd`, each once and in ascending order,
with what they hold, and counts them. -/
def Lists (req : RangeRequest) (s : Redis) (resp : RangeResponse) : Prop :=
  ∃ kvs : List KeyValue, Ascending KeyValue.key kvs ∧
    (∀ k, k ∈ kvs.map KeyValue.key ↔ (s.kv k).isSome ∧ req.key ≤ k ∧ k < req.rangeEnd) ∧
    (∀ kv ∈ kvs, contents s kv.key = some kv) ∧
    resp.count = kvs.length ∧ resp.kvs = if req.countOnly then [] else kvs

theorem lists_scanned (req : RangeRequest) (hr : req.rangeEnd ≠ [])
    (hf : req.rangeEnd ≠ KVServer.fromKey) {s : Redis} (h : Consistent s) (rev : ℤ) :
    Lists req s (KVServer.rangeResponse req rev (scannedKVs req (scanned req s) s)) := by
  refine ⟨_, scannedKVs_ascending req s, fun k => ?_, ?_, rfl, rfl⟩
  · rw [mem_scannedKVs req hr h]
    exact covered_halfOpen hr hf
  · intro kv hkv
    exact contents_of_mem_scannedKVs hkv

theorem attempt_read {c : Cmd} {w w' : World} {r : Reply c} (h : attempt c w r w') (hc : c.Quiet) :
    w'.redis = w.redis ∧ ∀ v, r = .ok v → ∃ env : Env, c.run env w = (.ok v, w') := by
  obtain ⟨env, he⟩ := h
  constructor
  · rcases exec_world env c w with hw | hw
    · rw [he] at hw
      exact congrArg World.redis hw
    · rw [he] at hw
      exact (congrArg World.redis hw).trans (Cmd.run_quiet env hc w)
  · rintro v rfl
    exact ⟨env, run_of_exec_ok he⟩

/-- Whatever else fails, a scan that answers lists the values of the keys that it finds. -/
theorem range_attempt {pre : Key} {w w' : World} {rev : ℤ} {kvs : List KeyValue}
    (h : Prog.Exec attempt (RedisStore.range pre) w (.ok (rev, kvs)) w') :
    kvs = RedisStore.decodeAll (RedisStore.scan pre w.redis)
      ((RedisStore.scan pre w.redis).map w.redis.kv) := by
  obtain ⟨r₁, w₁, hs₁, h⟩ := Prog.exec_cmd.mp h
  obtain ⟨r₂, w₂, hs₂, h⟩ := Prog.exec_cmd.mp h
  obtain ⟨hw₁, hr₁⟩ := attempt_read hs₁ trivial
  obtain ⟨hw₂, _⟩ := attempt_read hs₂ trivial
  cases r₁ with
  | error err => cases (Prog.exec_ret.mp h).1
  | ok matched =>
    obtain ⟨env, he⟩ := hr₁ _ rfl
    rw [Cmd.run, Prod.mk.injEq, Except.ok.injEq] at he
    obtain ⟨rfl, -⟩ := he
    change Prog.Exec attempt (if RedisStore.scan pre w.redis = [] then _ else _) w₂ _ w' at h
    split_ifs at h with hm
    · rw [hm]
      cases (Prog.exec_ret.mp h).1
      rfl
    · obtain ⟨r₃, w₃, hs₃, h⟩ := Prog.exec_cmd.mp h
      obtain ⟨_, hr₃⟩ := attempt_read hs₃ trivial
      cases r₃ with
      | error err => cases (Prog.exec_ret.mp h).1
      | ok vals =>
        obtain ⟨env', he'⟩ := hr₃ _ rfl
        rw [Cmd.run, Prod.mk.injEq, Except.ok.injEq, hw₂, hw₁] at he'
        obtain ⟨rfl, -⟩ := he'
        cases (Prog.exec_ret.mp h).1
        rfl

/-- **Half-open `Range` is exact**: run alone, it answers when nothing fails, and every answer lists
exactly the stored keys of the range. -/
theorem range_halfOpen (reqs : List Request) (ms : List (ℕ × Env)) (req : RangeRequest)
    (hr : req.rangeEnd ≠ []) (hf : req.rangeEnd ≠ KVServer.fromKey) :
    let w := (Pool.run exec (start reqs) ms).shared
    (∀ x w', Prog.Exec step (KVServer.range req) w x w' → ∃ resp, x = .ok resp) ∧
      ∀ resp w', Prog.Exec attempt (KVServer.range req) w (.ok resp) w' → Lists req w.redis resp := by
  intro w
  constructor
  · intro x w' h
    rw [KVServer.range, if_neg hr] at h
    obtain ⟨y, w₁, hscan, h⟩ := Prog.exec_bind.mp h
    obtain ⟨rfl, rfl⟩ := RedisStore.range_exec hscan
    exact ⟨_, (Prog.exec_ret.mp h).1⟩
  · intro resp w' h
    rw [KVServer.range, if_neg hr] at h
    obtain ⟨y, w₁, hscan, h⟩ := Prog.exec_bind.mp h
    rcases y with err | ⟨rev, all⟩
    · cases (Prog.exec_ret.mp h).1
    · have hall := range_attempt hscan
      have hresp := (Prog.exec_ret.mp h).1
      rw [Except.ok.injEq, hall] at hresp
      rw [hresp]
      exact lists_scanned req hr hf (consistent_run reqs ms) rev

def threePuts : List Request :=
  [.put ⟨[98], [1], 0, false⟩, .put ⟨[97], [2], 0, false⟩, .put ⟨[99], [3], 0, false⟩]

def putsServed : List (ℕ × Env) :=
  [(0, .plain 5), (0, .plain 5), (1, .plain 6), (1, .plain 6), (2, .plain 7), (2, .plain 7)]

def threeKeys : World := (Pool.run exec (start threePuts) putsServed).shared

/-- The range from `a` to `c` has `a` and `b`, and not `c`. -/
theorem range_halfOpen_threeKeys :
    ∃ resp w', Prog.Exec attempt (KVServer.range ⟨[97], [99], false⟩) threeKeys (.ok resp) w' ∧
      Lists ⟨[97], [99], false⟩ threeKeys.redis resp ∧
      resp.kvs.map KeyValue.key = [[97], [98]] ∧ (threeKeys.redis.kv [99]).isSome := by
  have hr := exec_undisturbed (KVServer.range ⟨[97], [99], false⟩) threeKeys
  have ha := hr.mono fun c w r w' hs => attempt_of_step hs
  exact ⟨_, _, ha, (range_halfOpen threePuts putsServed ⟨[97], [99], false⟩ (by decide)
    (by decide)).2 _ _ ha, by decide +kernel, by decide +kernel⟩

/-! ### DeleteRange -/

/-- What deleting `keys` one after the other leaves behind: they are gone, the counter has counted
them, and the stream has one event for each, in order, with what the key held. -/
structure Erased (keys : List Key) (s s' : Redis) : Prop where
  kv : ∀ k, s'.kv k = if k ∈ keys then none else s.kv k
  counter : s'.counter = s.counter + keys.length
  events : ∃ es : List Entry, s'.events = s.events ++ es ∧ es.map Entry.key = keys ∧
    ∀ e ∈ es, e.type = .delete ∧ e.prevData = s.kv e.key

theorem erased_nil (s : Redis) : Erased [] s s := by
  refine ⟨fun k => by simp, by simp, [], by simp, rfl, ?_⟩
  intro e he
  cases he

theorem Erased.cons {key : Key} {keys : List Key} {s s₁ s' : Redis} (h : Erased [key] s s₁)
    (hk : key ∉ keys) (hr : Erased keys s₁ s') : Erased (key :: keys) s s' := by
  have hkv : ∀ k, k ≠ key → s₁.kv k = s.kv k := by
    intro k hne
    rw [h.kv, if_neg (by simpa using hne)]
  refine ⟨fun k => ?_, ?_, ?_⟩
  · rw [hr.kv, h.kv]
    by_cases he : k = key
    · simp [he]
    · simp [he]
  · rw [hr.counter, h.counter]
    simp only [List.length_cons, List.length_nil]
    push_cast
    ring
  · obtain ⟨es, hes, hkeys, hall⟩ := h.events
    obtain ⟨es', hes', hkeys', hall'⟩ := hr.events
    refine ⟨es ++ es', ?_, ?_, fun e he => ?_⟩
    · rw [hes', hes, List.append_assoc]
    · rw [List.map_append, hkeys, hkeys', List.singleton_append]
    · rcases List.mem_append.mp he with he | he
      · exact hall e he
      · -- the later keys held then what they hold at the start
        have hmem : e.key ∈ keys := hkeys' ▸ List.mem_map_of_mem he
        refine ⟨(hall' e he).1, ?_⟩
        rw [(hall' e he).2, hkv _ fun hek => hk (hek ▸ hmem)]

theorem erased_of_committed {s s' : Redis} {e : Entry} (h : Committed s s' e)
    (ht : e.type = .delete) : Erased [e.key] s s' := by
  refine ⟨fun k => ?_, ?_, [e], h.events, rfl, ?_⟩
  · rw [h.kv, (h.delete ht).1]
    by_cases hk : k = e.key
    · rw [hk, Function.update_self, if_pos (List.mem_singleton_self _)]
    · rw [Function.update_of_ne hk, if_neg (by simpa using hk)]
  · rw [h.counter]
    rfl
  · intro x hx
    rw [List.mem_singleton.mp hx]
    exact ⟨ht, h.prev⟩

/-- Run alone, a delete that answers has deleted its key, or found nothing to delete; it answers as
long as the counter has room. -/
theorem delete_erases {key : Key} {w w' : World} {x : Result (ℤ × Option KeyValue)}
    (h : Prog.Exec step (RedisStore.delete key) w x w') :
    (w.redis.counter < 2 ^ 63 - 1 → ∃ out, x = .ok out) ∧
      ∀ out, x = .ok out →
        ((w.redis.kv key).isSome → Erased [key] w.redis w'.redis) ∧
        (w.redis.kv key = none → w'.redis = w.redis) ∧
        out.2 = (w.redis.kv key).bind fun raw => RedisStore.preImage key raw := by
  obtain ⟨r, w₁, q, hs, ⟨hq, hret⟩, hrest⟩ := Prog.exec_first (RedisStore.delete_first key) h
  rw [exec_quiet hq hrest]
  have hx := Prog.exec_returns hret hrest
  obtain ⟨env, _, he⟩ := step_iff.mp hs
  rw [Cmd.run, Prod.mk.injEq] at he
  obtain ⟨rfl, rfl⟩ := he
  rcases writeLua_cases env.now ⟨key, .delete, [], 0⟩ w.redis with
    ⟨hmax, hl⟩ | ⟨_, hk, hl⟩ | ⟨e, hc, hek, het, hl⟩
  · rw [hl] at hx
    refine ⟨fun hb => absurd hb hmax, fun out hout => ?_⟩
    rw [hx] at hout
    cases hout
  · rw [hl] at hx ⊢
    refine ⟨fun _ => ⟨_, hx⟩, fun out hout => ⟨fun hsome => ?_, fun _ => rfl, ?_⟩⟩
    · rw [hk] at hsome
      cases hsome
    · rw [hx] at hout
      cases hout
      rw [hk]
      rfl
  · rw [hl] at hx
    refine ⟨fun _ => ⟨_, hx⟩, fun out hout => ⟨fun _ => ?_, fun hk => ?_, ?_⟩⟩
    · have := erased_of_committed hc het
      rw [hek] at this
      exact this
    · have := (hc.delete het).2
      rw [hc.prev, hek, hk] at this
      cases this
    · rw [hx] at hout
      cases hout
      have hsome := (hc.delete het).2
      rw [hc.prev, hek] at hsome
      obtain ⟨raw, hraw⟩ := Option.isSome_iff_exists.mp hsome
      simp only [hraw]
      rfl

theorem deleteLoop_erases {key rangeEnd : Key} {kvs : List KeyValue} {n : ℕ} {w w' : World}
    {x : Result ℕ} (h : Prog.Exec step (KVServer.deleteLoop key rangeEnd kvs n) w x w')
    (hasc : Ascending KeyValue.key kvs) (hst : ∀ kv ∈ kvs, (w.redis.kv kv.key).isSome) :
    (w'.redis.counter < 2 ^ 63 - 1 → ∃ m, x = .ok m) ∧
      ∀ m, x = .ok m → m = n + (kvs.filter (KVServer.inRange key rangeEnd)).length ∧
        Erased ((kvs.filter (KVServer.inRange key rangeEnd)).map KeyValue.key) w.redis w'.redis := by
  induction kvs generalizing n w with
  | nil =>
    obtain ⟨rfl, rfl⟩ := Prog.exec_ret.mp h
    refine ⟨fun _ => ⟨n, rfl⟩, fun m hm => ?_⟩
    cases hm
    exact ⟨rfl, erased_nil _⟩
  | cons kv kvs ih =>
    obtain ⟨hlt, hasc⟩ := List.pairwise_cons.mp hasc
    rw [KVServer.deleteLoop] at h
    split_ifs at h with hin
    · obtain ⟨y, w₁, hd, hrest⟩ := Prog.exec_bind.mp h
      obtain ⟨hroom, hdel⟩ := delete_erases hd
      have hle₁ := exec_counter_le (RedisStore.delete_issued kv.key) hd
      rw [List.filter_cons_of_pos hin]
      cases y with
      | error err =>
        obtain ⟨rfl, rfl⟩ := Prog.exec_ret.mp hrest
        refine ⟨fun hb => ?_, fun m hm => by cases hm⟩
        obtain ⟨out, hout⟩ := hroom (by omega)
        cases hout
      | ok out =>
        obtain ⟨her, _, _⟩ := hdel out rfl
        have her := her (hst kv List.mem_cons_self)
        have hst' : ∀ x ∈ kvs, (w₁.redis.kv x.key).isSome := by
          intro x hx
          rw [her.kv, if_neg]
          · exact hst x (List.mem_cons_of_mem _ hx)
          · rw [List.mem_singleton]
            exact (hlt x hx).ne'
        obtain ⟨hans, hrem⟩ := ih hrest hasc hst'
        refine ⟨hans, fun m hm => ?_⟩
        obtain ⟨hlen, her'⟩ := hrem m hm
        refine ⟨by rw [hlen, List.length_cons]; omega, her.cons ?_ her'⟩
        intro hmem
        obtain ⟨x, hx, hxk⟩ := List.mem_map.mp hmem
        exact absurd hxk (hlt x (List.mem_of_mem_filter hx)).ne'
    · rw [List.filter_cons_of_neg hin]
      exact ih h hasc fun x hx => hst x (List.mem_cons_of_mem _ hx)

theorem deleteKeys_single (req : DeleteRangeRequest) (hr : req.rangeEnd = []) {w w' : World}
    (hw : Consistent w.redis) {x : Result ℕ}
    (h : Prog.Exec step (KVServer.deleteKeys req) w x w') :
    (w'.redis.counter < 2 ^ 63 - 1 → ∃ n, x = .ok n) ∧
      ∀ n, x = .ok n → ∃ keys : List Key, keys.Pairwise (· < ·) ∧
        (∀ k, k ∈ keys ↔ (w.redis.kv k).isSome ∧ k = req.key) ∧
        n = keys.length ∧ Erased keys w.redis w'.redis := by
  rw [KVServer.deleteKeys, if_pos hr] at h
  obtain ⟨y, w₁, hd, hrest⟩ := Prog.exec_bind.mp h
  obtain ⟨hroom, hdel⟩ := delete_erases hd
  have hle := exec_counter_le (RedisStore.delete_issued req.key) hd
  rcases y with err | ⟨rev, prev⟩
  · obtain ⟨rfl, rfl⟩ := Prog.exec_ret.mp hrest
    refine ⟨fun hb => ?_, fun n hn => by cases hn⟩
    obtain ⟨out, hout⟩ := hroom (by omega)
    cases hout
  · obtain ⟨rfl, rfl⟩ := Prog.exec_ret.mp hrest
    refine ⟨fun _ => ⟨_, rfl⟩, fun n hn => ?_⟩
    obtain ⟨hsome, hnone, hprev⟩ := hdel _ rfl
    have hn : n = if prev.isSome then 1 else 0 := by
      cases hn
      rfl
    have hprev : prev = (w.redis.kv req.key).bind fun raw => RedisStore.preImage req.key raw := hprev
    cases hk : w.redis.kv req.key with
    | none =>
      rw [hprev, hk] at hn
      refine ⟨[], List.Pairwise.nil, fun k => ?_, hn, hnone hk ▸ erased_nil _⟩
      simp only [List.not_mem_nil, false_iff, not_and]
      rintro hs rfl
      rw [hk] at hs
      cases hs
    | some raw =>
      have hlen := hw.stored_length hk
      have hdec : (RedisStore.preImage req.key raw).isSome := by
        rw [RedisStore.preImage, if_pos (by rintro rfl; simp at hlen)]
        exact decodeKV_isSome hlen
      rw [hprev, hk, Option.bind_some, if_pos hdec] at hn
      refine ⟨[req.key], List.pairwise_singleton _ _, fun k => ?_, hn, hsome (by rw [hk]; rfl)⟩
      rw [List.mem_singleton]
      refine ⟨fun hkk => ⟨?_, hkk⟩, fun hkk => hkk.2⟩
      rw [hkk, hk]
      rfl

/-- The stored keys of a half-open range are deleted, in ascending order. -/
theorem deleteKeys_halfOpen (req : DeleteRangeRequest) (hr : req.rangeEnd ≠ [])
    (hf : req.rangeEnd ≠ KVServer.fromKey) {w w' : World} (hw : Consistent w.redis) {x : Result ℕ}
    (h : Prog.Exec step (KVServer.deleteKeys req) w x w') :
    (w'.redis.counter < 2 ^ 63 - 1 → ∃ n, x = .ok n) ∧
      ∀ n, x = .ok n → ∃ keys : List Key, keys.Pairwise (· < ·) ∧
        (∀ k, k ∈ keys ↔ (w.redis.kv k).isSome ∧ req.key ≤ k ∧ k < req.rangeEnd) ∧
        n = keys.length ∧ Erased keys w.redis w'.redis := by
  rw [KVServer.deleteKeys, if_neg hr] at h
  obtain ⟨z, w₁, hscan, hloop⟩ := Prog.exec_bind.mp h
  obtain ⟨rfl, rfl⟩ := RedisStore.range_exec hscan
  obtain ⟨hans, herase⟩ := deleteLoop_erases hloop
    (decodeAll_ascending (scan_sorted _ _)) fun kv hkv =>
      ((RedisStore.mem_scan hw).mp (mem_decodeAll.mp hkv).1).1
  refine ⟨hans, fun n hn => ?_⟩
  obtain ⟨hlen, her⟩ := herase n hn
  refine ⟨_, ?_, fun k => ?_, ?_, her⟩
  · rw [List.pairwise_map]
    exact scannedKVs_ascending ⟨req.key, req.rangeEnd, false⟩ _
  · rw [← covered_halfOpen hr hf]
    exact mem_scannedKVs ⟨req.key, req.rangeEnd, false⟩ hr hw
  · rw [hlen, List.length_map, Nat.zero_add]

theorem deleteKeys_erases (req : DeleteRangeRequest) (hf : req.rangeEnd ≠ KVServer.fromKey)
    {w w' : World} (hw : Consistent w.redis) {x : Result ℕ}
    (h : Prog.Exec step (KVServer.deleteKeys req) w x w') :
    (w'.redis.counter < 2 ^ 63 - 1 → ∃ n, x = .ok n) ∧
      ∀ n, x = .ok n → ∃ keys : List Key, keys.Pairwise (· < ·) ∧
        (∀ k, k ∈ keys ↔ (w.redis.kv k).isSome ∧
          if req.rangeEnd = [] then k = req.key else req.key ≤ k ∧ k < req.rangeEnd) ∧
        n = keys.length ∧ Erased keys w.redis w'.redis := by
  split_ifs with hr
  · exact deleteKeys_single req hr hw h
  · exact deleteKeys_halfOpen req hr hf hw h

/-- **Half-open `DeleteRange` is exact**: run alone and without errors, it removes exactly the stored
keys of the range, counts them, moves the counter by their number and appends one event for each,
in ascending order and with what the key held; no error comes up as long as the counter has room. -/
theorem deleteRange_halfOpen (reqs : List Request) (ms : List (ℕ × Env)) (req : DeleteRangeRequest)
    (hf : req.rangeEnd ≠ KVServer.fromKey) (x : Result DeleteRangeResponse) (w' : World)
    (h : Prog.Exec step (KVServer.deleteRange req) (Pool.run exec (start reqs) ms).shared x w') :
    let s := (Pool.run exec (start reqs) ms).shared.redis
    (w'.redis.counter < 2 ^ 63 - 1 → ∃ resp, x = .ok resp) ∧
      ∀ resp, x = .ok resp → ∃ keys : List Key, keys.Pairwise (· < ·) ∧
        (∀ k, k ∈ keys ↔ (s.kv k).isSome ∧
          if req.rangeEnd = [] then k = req.key else req.key ≤ k ∧ k < req.rangeEnd) ∧
        (∀ k, w'.redis.kv k = if k ∈ keys then none else s.kv k) ∧
        resp.deleted = keys.length ∧ w'.redis.counter = s.counter + resp.deleted ∧
        ∃ es : List Entry, w'.redis.events = s.events ++ es ∧ es.map Entry.key = keys ∧
          ∀ e ∈ es, e.type = .delete ∧ e.prevData = s.kv e.key := by
  intro s
  obtain ⟨y, w₁, hkeys, h⟩ := Prog.exec_bind.mp h
  have hquiet : w'.redis = w₁.redis := by
    refine exec_quiet ?_ h
    cases y with
    | error err => trivial
    | ok n => exact Prog.uses_bind (KVServer.header_uses fun _ hc => hc) fun _ => trivial
  rw [hquiet]
  obtain ⟨hans, herase⟩ := deleteKeys_erases req hf (consistent_run reqs ms) hkeys
  cases y with
  | error err =>
    obtain ⟨rfl, rfl⟩ := Prog.exec_ret.mp h
    refine ⟨fun hb => ?_, fun resp hresp => by cases hresp⟩
    obtain ⟨n, hn⟩ := hans hb
    cases hn
  | ok n =>
    obtain ⟨hd, w₂, _, hret⟩ := Prog.exec_bind.mp h
    have hx := (Prog.exec_ret.mp hret).1
    refine ⟨fun _ => ⟨_, hx⟩, fun resp hresp => ?_⟩
    obtain ⟨keys, hasc, hmem, rfl, her⟩ := herase n rfl
    rw [hx] at hresp
    cases hresp
    exact ⟨keys, hasc, hmem, her.kv, rfl, her.counter, her.events⟩

/-- `a` and `b` are deleted, and `c` is not. -/
theorem deleteRange_halfOpen_threeKeys :
    ∃ resp w', Prog.Exec step (KVServer.deleteRange ⟨[97], [99]⟩) threeKeys (.ok resp) w' ∧
      resp.deleted = 2 ∧ w'.redis.kv [97] = none ∧ w'.redis.kv [98] = none ∧
      (w'.redis.kv [99]).isSome := by
  have hd := exec_undisturbed (KVServer.deleteRange ⟨[97], [99]⟩) threeKeys
  obtain ⟨hans, hex⟩ := deleteRange_halfOpen threePuts putsServed ⟨[97], [99]⟩ (by decide) _ _ hd
  obtain ⟨resp, hresp⟩ := hans (by decide +kernel)
  obtain ⟨keys, _, hmem, hkv, _⟩ := hex resp hresp
  refine ⟨resp, _, hresp ▸ hd, ?_, ?_, ?_, ?_⟩
  · have hdeleted : (Prog.among exec (KVServer.deleteRange ⟨[97], [99]⟩) undisturbed
        threeKeys).1.toOption.map DeleteRangeResponse.deleted = some 2 := by decide +kernel
    rw [hresp] at hdeleted
    exact Option.some.inj hdeleted
  · exact (hkv [97]).trans (if_pos ((hmem [97]).mpr (by decide +kernel)))
  · exact (hkv [98]).trans (if_pos ((hmem [98]).mpr (by decide +kernel)))
  · rw [hkv [99], if_neg fun h => ?_]
    · decide +kernel
    · exact absurd ((hmem [99]).mp h).2 (by decide)

end REtcd.Server
