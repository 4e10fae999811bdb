import REtcd.Server.System
import REtcd.Store.Alone
import REtcd.Store.PrefixRange

/-!
# Listing and then watching

A client that lists a range and then watches it from the revision of the list on holds the
returned values with all later events applied to them.  `list_then_watch` says when this is the
store's contents (`Converges`): every requested key is written again after the reported revision,
or what the answer says about it is what held when the revision was read (`Kept`).

The second part can fail, since both paths of `Range` read something before the revision: the
single-key path the key itself, the range path the index.  A write of the key, or the creation of
a key of the range, that falls in between is in neither the answer nor the events after the
reported revision (`list_loses_write`).  What the range path reads after the revision, the values,
does no harm.
-/

namespace REtcd.Server

open Base Store

def contents (s : Redis) (k : Key) : Option KeyValue := (s.kv k).bind (decodeKV k)

def listing (kvs : List KeyValue) (k : Key) : Option KeyValue := kvs.find? (fun kv => kv.key = k)

def eventWrite (e : Entry) : KeyWrite Key KeyValue := ⟨e.key, e.write.val.bind (decodeKV e.key)⟩

/-- The events that a client which watches the requested range after revision `rev` gets. -/
def eventsAfter (req : RangeRequest) (rev : ℤ) (s : Redis) : List Entry :=
  s.events.filter (fun e => decide (rev < e.rev) && matchesWatch e.key req.key req.rangeEnd)

/-- The returned values with the events after the reported revision applied to them are the
store's contents of the requested range. -/
def Converges (req : RangeRequest) (resp : RangeResponse) (s : Redis) : Prop :=
  ∀ k, matchesWatch k req.key req.rangeEnd = true →
    replay (listing resp.kvs) ((eventsAfter req resp.header.revision s).map eventWrite) k =
      contents s k

/-! ### The store as a replay of decoded events -/

theorem contents_eq_replay {s : Redis} (h : Consistent s) (k : Key) :
    contents s k = replay (fun _ => none) (s.events.map eventWrite) k := by
  rw [contents, h.blobs]
  generalize s.events = l
  induction l using List.reverseRecOn with
  | nil => rfl
  | append_singleton l e ih =>
    rw [replayed_concat, List.map_append, List.map_singleton, replay_concat]
    by_cases hk : k = e.key
    · simp [hk, eventWrite]
    · rw [Function.update_of_ne hk, ih]
      exact (Function.update_of_ne hk _ _).symm

theorem contents_eq_none {s : Redis} (h : Consistent s) {k : Key} :
    contents s k = none ↔ s.kv k = none := by
  rw [contents]
  cases hk : s.kv k with
  | none => simp
  | some raw =>
    have := h.decode_isSome hk
    rw [Option.bind_some]
    constructor
    · intro hn
      rw [hn] at this
      cases this
    · intro hn
      cases hn

theorem filter_above {s t : Redis} (hs : Consistent s) (ht : Consistent t) {mid : List Entry}
    (hm : t.events = s.events ++ mid) :
    t.events.filter (fun e => decide (s.counter < e.rev)) = mid := by
  rw [hm, List.filter_append]
  have hlow : s.events.filter (fun e => decide (s.counter < e.rev)) = [] := by
    rw [List.filter_eq_nil_iff]
    intro e he
    have := (hs.rev_mem he).2
    simpa using this
  have hhigh : mid.filter (fun e => decide (s.counter < e.rev)) = mid := by
    rw [List.filter_eq_self]
    intro e he
    obtain ⟨i, hi⟩ := List.getElem?_of_mem he
    have hti : t.events[s.events.length + i]? = some e := by
      rw [hm, List.getElem?_append_right (by omega), Nat.add_sub_cancel_left]
      exact hi
    rw [ht.revs _ _ hti, hs.counter, decide_eq_true_eq]
    push_cast
    omega
  rw [hlow, hhigh, List.nil_append]

theorem contents_append {s t : Redis} (hs : Consistent s) (ht : Consistent t) {mid : List Entry}
    (hm : t.events = s.events ++ mid) (k : Key) :
    contents t k = replay (contents s) (mid.map eventWrite) k := by
  rw [contents_eq_replay ht, hm, List.map_append, replay_append]
  congr 1
  exact funext fun k => (contents_eq_replay hs k).symm

/-- A key that has no entry above the counter of `s` holds in `t` what it held in `s`. -/
theorem contents_unchanged {s t : Redis} (hs : Consistent s) (ht : Consistent t)
    (hp : s.events <+: t.events) {k : Key} (h : ¬ ∃ e ∈ t.events, e.key = k ∧ s.counter < e.rev) :
    contents t k = contents s k := by
  obtain ⟨mid, hmid⟩ := hp
  rw [contents_append hs ht hmid.symm]
  refine replay_of_not_mem fun x hx hk => h ?_
  obtain ⟨e, he, rfl⟩ := List.mem_map.mp hx
  rw [← filter_above hs ht hmid.symm, List.mem_filter, decide_eq_true_eq] at he
  exact ⟨e, he.1, hk, he.2⟩

/-- **A copy converges on a key iff the key is written after the copy's revision or the copy was
right at that revision.** -/
theorem replay_eq_contents_iff {req : RangeRequest} {s t : Redis} (hs : Consistent s)
    (ht : Consistent t) (hp : s.events <+: t.events) (m : Key → Option KeyValue) {k : Key}
    (hk : matchesWatch k req.key req.rangeEnd = true) :
    replay m ((eventsAfter req s.counter t).map eventWrite) k = contents t k ↔
      (∃ e ∈ t.events, e.key = k ∧ s.counter < e.rev) ∨ m k = contents s k := by
  obtain ⟨mid, hmid⟩ := hp
  have hmid := hmid.symm
  have habove := filter_above hs ht hmid
  have hfilter : replay m ((eventsAfter req s.counter t).map eventWrite) k =
      replay m (mid.map eventWrite) k := by
    have he : (eventsAfter req s.counter t).map eventWrite =
        (mid.map eventWrite).filter (fun w => matchesWatch w.key req.key req.rangeEnd) := by
      rw [List.filter_map, ← habove, List.filter_filter, eventsAfter]
      congr 1
      exact List.filter_congr fun e _ => Bool.and_comm _ _
    rw [he]
    refine replay_filter fun w _ hw => ?_
    rw [hw]
    exact hk
  rw [hfilter, contents_append hs ht hmid, replay_eq_replay_iff]
  refine or_congr_left ⟨?_, ?_⟩
  · rintro ⟨w, hw, hwk⟩
    obtain ⟨e, he, rfl⟩ := List.mem_map.mp hw
    rw [← habove, List.mem_filter, decide_eq_true_eq] at he
    exact ⟨e, he.1, hwk, he.2⟩
  · rintro ⟨e, he, hek, hr⟩
    refine ⟨eventWrite e, List.mem_map_of_mem ?_, hek⟩
    rw [← habove, List.mem_filter, decide_eq_true_eq]
    exact ⟨he, hr⟩

/-! ### What the answers list -/

theorem listing_toList {kv : Option KeyValue} {k : Key} (h : ∀ x, kv = some x → x.key = k) :
    listing kv.toList k = kv := by
  cases kv with
  | none => rfl
  | some x => simp [listing, h x rfl]

theorem listing_filter {kvs : List KeyValue} {p : KeyValue → Bool} {k : Key}
    (h : ∀ kv, kv.key = k → p kv = true) : listing (kvs.filter p) k = listing kvs k := by
  induction kvs with
  | nil => rfl
  | cons kv kvs ih =>
    rw [listing] at ih
    by_cases hk : kv.key = k
    · simp [listing, h kv hk, hk]
    · by_cases hp : p kv = true
      · simpa [listing, hp, hk] using ih
      · simpa [listing, hp, hk] using ih

theorem contents_key {s : Redis} {k : Key} {kv : KeyValue} (h : contents s k = some kv) :
    kv.key = k := by
  obtain ⟨raw, _, hd⟩ := Option.bind_eq_some_iff.mp h
  exact decodeKV_key hd

theorem listing_decodeAll (s : Redis) (matched : List Key) (k : Key) :
    listing (RedisStore.decodeAll matched (matched.map s.kv)) k =
      if k ∈ matched then contents s k else none := by
  induction matched with
  | nil => rfl
  | cons x matched ih =>
    have hcons : RedisStore.decodeAll (x :: matched) ((x :: matched).map s.kv) =
        (contents s x).toList ++ RedisStore.decodeAll matched (matched.map s.kv) := by
      rw [RedisStore.decodeAll, List.map_cons, List.zip_cons_cons, List.filterMap_cons, contents]
      dsimp only
      cases (s.kv x).bind (decodeKV x) <;> rfl
    rw [hcons]
    cases hx : contents s x with
    | none =>
      rw [Option.toList_none, List.nil_append, ih]
      by_cases hkx : k = x
      · subst hkx
        simp [hx]
      · simp [hkx]
    | some kv =>
      have hkey := contents_key hx
      by_cases hkx : k = x
      · subst hkx
        simp [listing, hkey, hx]
      · have hne : ¬ kv.key = k := by
          rw [hkey]
          exact fun h => hkx h.symm
        rw [listing, Option.toList_some, List.singleton_append,
          List.find?_cons_of_neg (by simpa using hne)]
        simpa [hkx, listing] using ih

/-! ### The reads of a request -/

section Reads

variable {req : RangeRequest} {t : ℕ → List (Env × Cmd) × Env} {w : World}

def firstRead (t : ℕ → List (Env × Cmd) × Env) (w : World) : World := Prog.others exec (t 0).1 w

def revRead (t : ℕ → List (Env × Cmd) × Env) (w : World) : World :=
  Prog.others exec (t 1).1 (firstRead t w)

def valueRead (t : ℕ → List (Env × Cmd) × Env) (w : World) : World :=
  Prog.others exec (t 2).1 (revRead t w)

theorem rangeRev_reported (s : Redis) : RedisStore.rangeRev (.ok s.revision) = reported s := by
  rw [reported, Redis.counter]
  cases s.revision with
  | none => rfl
  | some n =>
    rw [RedisStore.rangeRev, Option.getD_some]
    split_ifs <;> omega

theorem reported_eq {s : Redis} (h : 1 ≤ s.counter) : reported s = s.counter := by
  rw [reported, if_neg (by omega)]

theorem among_single (hf : ∀ n, (t n).2.fault = none) (hr : req.rangeEnd = []) :
    Prog.among exec (KVServer.range req) t w =
      (.ok (KVServer.rangeResponse req
        (KVServer.singleRev (contents (firstRead t w).redis req.key)
          (.ok (reported (revRead t w).redis)))
        (contents (firstRead t w).redis req.key).toList),
        Prog.others exec (t 2).1 (revRead t w)) := by
  rw [revRead, firstRead, reported, Redis.counter]
  cases hk : (Prog.others exec (t 0).1 w).redis.kv req.key <;>
    cases hrev : (Prog.others exec (t 1).1 (Prog.others exec (t 0).1 w)).redis.revision <;>
      simp [KVServer.range, hr, RedisStore.get, RedisStore.currentRevision, Prog.among, hf,
        exec_of_faultless, Cmd.run, hrev, hk, contents]

def scanned (req : RangeRequest) (s : Redis) : List Key :=
  RedisStore.scan (KVServer.commonPrefix req.key req.rangeEnd) s

def scannedKVs (req : RangeRequest) (matched : List Key) (s : Redis) : List KeyValue :=
  (RedisStore.decodeAll matched (matched.map s.kv)).filter
    (KVServer.inRange req.key req.rangeEnd)

/-- The range path scans the index, reads the counter and then the values of what it has found. -/
theorem among_range (hf : ∀ n, (t n).2.fault = none) (hr : req.rangeEnd ≠ []) :
    ∃ more : List (Env × Cmd), (∀ x ∈ more, ∃ n, x ∈ (t n).1) ∧
      Prog.among exec (KVServer.range req) t w =
        (.ok (KVServer.rangeResponse req (reported (revRead t w).redis)
          (scannedKVs req (scanned req (firstRead t w).redis) (valueRead t w).redis)),
          Prog.others exec more (valueRead t w)) := by
  rw [valueRead, ← rangeRev_reported]
  by_cases hm : scanned req (firstRead t w).redis = []
  · refine ⟨[], by simp, ?_⟩
    rw [hm]
    rw [scanned, RedisStore.scan, firstRead] at hm
    rw [revRead, firstRead]
    simp [KVServer.range, hr, RedisStore.range, Prog.among, hf, exec_of_faultless, Cmd.run, hm,
      scannedKVs, RedisStore.decodeAll]
  · refine ⟨(t 3).1, fun x hx => ⟨3, hx⟩, ?_⟩
    rw [scanned, RedisStore.scan, firstRead] at hm ⊢
    rw [revRead, firstRead]
    simp [KVServer.range, hr, RedisStore.range, Prog.among, hf, exec_of_faultless, Cmd.run, hm,
      scannedKVs]

/-! ### When a list converges -/

theorem others_consistent {l : List (Env × Cmd)} (hl : ∀ x ∈ l, x.2.Issued)
    (h : Consistent w.redis) : Consistent (Prog.others exec l w).redis :=
  Prog.others_inv (I := fun w : World => Consistent w.redis) exec_consistent hl h

theorem others_isPrefix {l : List (Env × Cmd)} (hl : ∀ x ∈ l, x.2.Issued) :
    w.redis.events <+: (Prog.others exec l w).redis.events :=
  Prog.others_inv (I := fun w' : World => w.redis.events <+: w'.redis.events)
    (fun env c w' hc h => h.trans (exec_isPrefix env c w' hc)) hl List.prefix_rfl

theorem counter_le_of_isPrefix {s s' : Redis} (h : Consistent s) (h' : Consistent s')
    (hp : s.events <+: s'.events) : s.counter ≤ s'.counter := by
  rw [h.counter, h'.counter]
  exact_mod_cast hp.length_le

theorem contents_last {s : Redis} (h : Consistent s) {k : Key} {kv : KeyValue}
    (hk : contents s k = some kv) :
    ∃ e, lastEntry k s.events = some e ∧ e.type = .put ∧ kv.modRevision = e.rev := by
  obtain ⟨raw, hraw, hd⟩ := Option.bind_eq_some_iff.mp hk
  obtain ⟨e, he, ht, hm⟩ := h.field_mod hraw
  have hle := (h.rev_mem (mem_of_lastEntry he).1).2
  have hb := h.bound
  refine ⟨e, he, ht, ?_⟩
  rw [decodeKV_modRevision hd, hm, toInt64_of_lt (by omega)]

/-- No stored value is newer than the counter. -/
theorem modRevision_le_counter {s : Redis} (h : Consistent s) {k : Key} {kv : KeyValue}
    (hk : contents s k = some kv) : kv.modRevision ≤ s.counter := by
  obtain ⟨e, he, _, hm⟩ := contents_last h hk
  rw [hm]
  exact (h.rev_mem (mem_of_lastEntry he).1).2

theorem singleRev_eq {s s' : Redis} (h : Consistent s) (hle : s.counter ≤ s'.counter)
    (h1 : 1 ≤ s'.counter) (k : Key) :
    KVServer.singleRev (contents s k) (.ok s'.counter) = s'.counter := by
  rw [KVServer.singleRev]
  cases hk : contents s k with
  | none => simp; omega
  | some kv =>
    have := modRevision_le_counter h hk
    simp
    omega

/-- What the answer says about a key is what held when the revision was read: for a single key,
it held the same at both reads; for a range, it was absent then, or the scan has found it. -/
def Kept (req : RangeRequest) (s₀ s₁ : Redis) (k : Key) : Prop :=
  if req.rangeEnd = [] then contents s₀ k = contents s₁ k
  else s₁.kv k = none ∨
    ((s₀.kv k).isSome ∧ KVServer.commonPrefix req.key req.rangeEnd <+: k)

theorem inRange_eq_matches {key rangeEnd : Key} (hr : rangeEnd ≠ []) (kv : KeyValue) :
    KVServer.inRange key rangeEnd kv = matchesWatch kv.key key rangeEnd := by
  rw [KVServer.inRange, matchesWatch, if_neg hr]
  split_ifs with h0
  · simp [h0]
  · simp [h0]

variable (hcount : req.countOnly = false) (hw : Consistent w.redis) (h1 : 1 ≤ w.redis.counter)
  (hf : ∀ n, (t n).2.fault = none) (hi : ∀ n, ∀ x ∈ (t n).1, x.2.Issued)

include hi hw in
theorem firstRead_consistent : Consistent (firstRead t w).redis := others_consistent (hi 0) hw

include hi hw in
theorem revRead_consistent : Consistent (revRead t w).redis :=
  others_consistent (hi 1) (firstRead_consistent hw hi)

include hi hw in
theorem firstRead_le_revRead : (firstRead t w).redis.counter ≤ (revRead t w).redis.counter :=
  counter_le_of_isPrefix (firstRead_consistent hw hi) (revRead_consistent hw hi)
    (others_isPrefix (hi 1))

include hi hw h1 in
theorem one_le_revRead : 1 ≤ (revRead t w).redis.counter := by
  have h₀ := counter_le_of_isPrefix hw (firstRead_consistent hw hi) (others_isPrefix (hi 0))
  have h₁ := firstRead_le_revRead hw hi
  omega

variable {resp : RangeResponse} {w' : World}
  (hout : Prog.among exec (KVServer.range req) t w = (.ok resp, w'))

include hcount hw h1 hf hi hout

theorem single_converges_iff (hr : req.rangeEnd = []) {k : Key}
    (hk : matchesWatch k req.key req.rangeEnd = true) :
    replay (listing resp.kvs) ((eventsAfter req resp.header.revision w'.redis).map eventWrite) k =
        contents w'.redis k ↔
      (∃ e ∈ w'.redis.events, e.key = k ∧ resp.header.revision < e.rev) ∨
        Kept req (firstRead t w).redis (revRead t w).redis k := by
  have h₀ := firstRead_consistent hw hi
  have h₁ := revRead_consistent hw hi
  have hone := one_le_revRead hw h1 hi
  rw [among_single hf hr, reported_eq hone, Prod.mk.injEq, Except.ok.injEq] at hout
  obtain ⟨rfl, rfl⟩ := hout
  have hkey : k = req.key := by simpa [matchesWatch, hr] using hk
  simp only [KVServer.rangeResponse, hcount, headerAt,
    singleRev_eq h₀ (firstRead_le_revRead hw hi) hone]
  rw [replay_eq_contents_iff h₁ (others_consistent (hi 2) h₁) (others_isPrefix (hi 2)) _ hk, Kept,
    if_pos hr, if_neg (by decide), ← hkey, listing_toList fun x hx => contents_key hx]

/-- The range path: a key that the scan has found has the value of the last read, and one that
is not written after the revision had that value when the revision was read. -/
theorem range_converges_iff (hr : req.rangeEnd ≠ []) {k : Key}
    (hk : matchesWatch k req.key req.rangeEnd = true) :
    replay (listing resp.kvs) ((eventsAfter req resp.header.revision w'.redis).map eventWrite) k =
        contents w'.redis k ↔
      (∃ e ∈ w'.redis.events, e.key = k ∧ resp.header.revision < e.rev) ∨
        Kept req (firstRead t w).redis (revRead t w).redis k := by
  have h₀ := firstRead_consistent hw hi
  have h₁ := revRead_consistent hw hi
  obtain ⟨more, hmore, ham⟩ := among_range (w := w) hf hr
  rw [ham, reported_eq (one_le_revRead hw h1 hi), Prod.mk.injEq, Except.ok.injEq] at hout
  obtain ⟨rfl, rfl⟩ := hout
  have hm : ∀ x ∈ more, x.2.Issued := fun x hx => (hmore x hx).elim fun n hn => hi n x hn
  have h₂ : Consistent (valueRead t w).redis := others_consistent (hi 2) h₁
  have hp₂ : (revRead t w).redis.events <+: (valueRead t w).redis.events := others_isPrefix (hi 2)
  have hp₃ := others_isPrefix (w := valueRead t w) hm
  simp only [KVServer.rangeResponse, hcount, headerAt]
  rw [replay_eq_contents_iff h₁ (others_consistent hm h₂) (hp₂.trans hp₃) _ hk, Kept, if_neg hr,
    if_neg (by decide), scannedKVs, listing_filter fun kv hkv => by rw [inRange_eq_matches hr, hkv, hk],
    listing_decodeAll]
  by_cases hlate :
      ∃ e ∈ (Prog.others exec more (valueRead t w)).redis.events,
        e.key = k ∧ (revRead t w).redis.counter < e.rev
  · exact iff_of_true (Or.inl hlate) (Or.inl hlate)
  · have hun : contents (valueRead t w).redis k = contents (revRead t w).redis k := by
      refine contents_unchanged h₁ h₂ hp₂ ?_
      rintro ⟨e, he, hek, her⟩
      exact hlate ⟨e, hp₃.subset he, hek, her⟩
    refine or_congr_right ?_
    rw [hun, ← RedisStore.mem_scan h₀, ← scanned]
    split_ifs with hin
    · exact iff_of_true rfl (Or.inr hin)
    · rw [eq_comm, contents_eq_none h₁]
      exact ⟨Or.inl, fun h => h.resolve_right hin⟩

end Reads

/-- **When listing and then watching gives the store's contents**: every requested key is written
again after the reported revision, or what the answer says about it is what held when the revision
was read. -/
theorem list_then_watch (req : RangeRequest) (hcount : req.countOnly = false)
    (t : ℕ → List (Env × Cmd) × Env) (w : World) (hw : Consistent w.redis)
    (h1 : 1 ≤ w.redis.counter) (hf : ∀ n, (t n).2.fault = none)
    (hi : ∀ n, ∀ x ∈ (t n).1, x.2.Issued) (resp : RangeResponse) (w' : World)
    (hout : Prog.among exec (KVServer.range req) t w = (.ok resp, w')) :
    Converges req resp w'.redis ↔
      ∀ k, matchesWatch k req.key req.rangeEnd = true →
        (∃ e ∈ w'.redis.events, e.key = k ∧ resp.header.revision < e.rev) ∨
          Kept req (firstRead t w).redis (revRead t w).redis k := by
  refine forall₂_congr fun k hk => ?_
  by_cases hr : req.rangeEnd = []
  · exact single_converges_iff hcount hw h1 hf hi hout hr hk
  · exact range_converges_iff hcount hw h1 hf hi hout hr hk

def oneKey : World :=
  (Pool.run exec (start [.put ⟨[98], [1], 0, false⟩]) [(0, .plain 5), (0, .plain 5)]).shared

def putBetween (n : ℕ) : List (Env × Cmd) × Env :=
  (if n = 1 then [(.plain 6, .evalWrite ⟨[97], .put, [2], 0⟩)] else [], .plain 6)

def undisturbed (_ : ℕ) : List (Env × Cmd) × Env := ([], .plain 6)

theorem exec_undisturbed {α : Type} (p : Routine α) (w : World) :
    Prog.Exec step p w (Prog.among exec p undisturbed w).1 (Prog.among exec p undisturbed w).2 :=
  Prog.exec_among (fun _ => rfl) (fun _ _ _ => ⟨.plain 6, rfl, rfl⟩) p w

theorem oneKey_consistent : Consistent oneKey.redis := consistent_run _ _

/-- An undisturbed list of the one key converges. -/
theorem undisturbed_list_converges :
    ∃ resp w', Prog.among exec (KVServer.range ⟨[98], [], false⟩) undisturbed oneKey =
        (.ok resp, w') ∧ resp.kvs.length = 1 ∧ Converges ⟨[98], [], false⟩ resp w'.redis := by
  refine ⟨_, _, rfl, by decide, ?_⟩
  refine (list_then_watch ⟨[98], [], false⟩ rfl undisturbed oneKey oneKey_consistent (by decide)
    (fun _ => rfl) (fun _ x hx => nomatch hx) _ _ rfl).mpr fun k _ => Or.inr ?_
  rw [Kept, if_pos rfl]
  rfl

/-- **A write between the two reads is lost**: of the single key, and of a key of the range.  It is
neither in the answer nor after the reported revision. -/
theorem list_loses_write :
    (∃ resp w', Prog.among exec (KVServer.range ⟨[97], [], false⟩) putBetween oneKey =
        (.ok resp, w') ∧ resp.header.revision = 2 ∧ resp.kvs = [] ∧
        ¬ Converges ⟨[97], [], false⟩ resp w'.redis) ∧
      (∃ resp w', Prog.among exec (KVServer.range ⟨[97], [99], false⟩) putBetween oneKey =
        (.ok resp, w') ∧ resp.header.revision = 2 ∧ resp.kvs.map KeyValue.key = [[98]] ∧
        ¬ Converges ⟨[97], [99], false⟩ resp w'.redis) := by
  constructor
  · refine ⟨_, _, rfl, by decide, by decide, fun h => ?_⟩
    exact absurd (h [97] (by decide)) (by decide)
  · refine ⟨_, _, rfl, by decide, by decide, fun h => ?_⟩
    exact absurd (h [97] (by decide)) (by decide)

end REtcd.Server
