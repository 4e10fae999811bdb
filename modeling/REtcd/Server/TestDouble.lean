import REtcd.Server.ListWatch
import REtcd.Server.Whole
import REtcd.Store.Fake
import REtcd.Store.PrefixRange

/-!
# The server on the store of the unit tests

The unit tests run the KV and the Watch service on `fakeStore`.  `served_on_double` says what this
tells about Redis: requests on single keys that are served concurrently on Redis, where commands may
be refused without effect, get answers that they also get on the fake.  `reads_on_double` says the
same of the two calls that read much at once, `Range` and `BlockReadEvents`, when nothing is written
meanwhile.  Of `BlockReadEvents` it holds for a reader that has an event left and asks for one at
least: at the end of the stream a read of Redis waits, where the fake answers that there is nothing,
and for a count of 0 it brings everything, and the fake nothing.
-/

namespace REtcd.Server

open Base Store

/-- Requests on single keys, with leases that Lua holds exactly. -/
def Scope.single : Scope := ⟨False, False, LuaExact⟩

/-- A routine that reaches Redis through calls of the store only. -/
def OnStore {α : Type} (p : Routine α) : Prop :=
  ∃ q : Prog StoreCall StoreCall.Ret α, q.Uses StoreCall.Valid ∧ .subst StoreCall.redis q = p

theorem onStore_composed : Composed fun {α : Type} (p : Routine α) => OnStore p where
  ret a := ⟨.ret a, trivial, rfl⟩
  bind := by
    rintro α β p f ⟨q, hq, rfl⟩ hf
    choose g hg using hf
    refine ⟨q >>= g, Prog.uses_bind hq fun a => (hg a).1, ?_⟩
    rw [Prog.subst_bind]
    exact congrArg _ (funext fun a => (hg a).2)

theorem onStore_call {a : StoreCall} (ha : a.Valid) : OnStore a.redis := by
  refine ⟨.cmd a, ⟨ha, fun _ => trivial⟩, ?_⟩
  change (a.redis >>= fun r => .ret r) = a.redis
  generalize a.redis = p
  induction p with
  | ret x => rfl
  | call c k ih => exact congrArg (Prog.call c) (funext ih)

/-- **A request on single keys is a client of the store.** -/
theorem serve_onStore {r : Request} (h : r.Within .single) : OnStore r.serve :=
  serve_composed (K := fun p => OnStore p) onStore_composed
    (onStore_call (a := .currentRevision) trivial)
    (fun key => onStore_call (a := .get key) trivial) (fun hr : Scope.single.ranged => hr.elim)
    (fun key => onStore_call (a := .delete key) trivial)
    (fun key value lease hl => onStore_call (a := .put key value lease) hl)
    (fun key expected value lease hl =>
      onStore_call (a := .txn key expected .put value lease) ⟨rfl, hl⟩)
    (fun hl : Scope.single.leased => hl.elim) h

/-- **Requests on single keys are served as on the fake.**  The requests run on Redis, interleaved in
any way, and any command may be refused without effect.  They are clients of the store (`clients`),
and there is a run of these clients on the fake, with one step for each call, that leaves the fake
which stands in for the database and in which every request that has been answered gets the same
answer. -/
theorem served_on_double (w : World) (hw : Consistent w.redis) (hst : Stamped w.redis)
    (h1 : 1 ≤ w.redis.counter) (reqs : List Request) (hreqs : ∀ r ∈ reqs, r.Within .single)
    (ms : List (ℕ × Env)) (hms : ∀ m ∈ ms, refusing m.2)
    (hb : (Pool.run exec ⟨w, reqs.map Request.serve⟩ ms).shared.redis.counter < 10 ^ 14) :
    ∃ clients : List (Prog StoreCall StoreCall.Ret Answer),
      clients.map (.subst StoreCall.redis) = reqs.map Request.serve ∧
      ∃ ms' : List (ℕ × Option GoError), (ms'.map Prod.fst).Sublist (ms.map Prod.fst) ∧
        (Pool.run StoreCall.onFake ⟨w.redis.fake, clients⟩ ms').shared =
          (Pool.run exec ⟨w, reqs.map Request.serve⟩ ms).shared.redis.fake ∧
        ∀ (i : ℕ) (a : Answer),
          (Pool.run exec ⟨w, reqs.map Request.serve⟩ ms).procs[i]? = some (.ret a) →
          (Pool.run StoreCall.onFake ⟨w.redis.fake, clients⟩ ms').procs[i]? = some (.ret a) := by
  have : Nonempty (Prog StoreCall StoreCall.Ret Answer) := ⟨.ret .done⟩
  choose! client hclient using fun r hr => serve_onStore (hreqs r hr)
  have hmap : (reqs.map client).map (.subst StoreCall.redis) = reqs.map Request.serve := by
    rw [List.map_map]
    exact List.map_congr_left fun r hr => (hclient r hr).2
  have hpool : (⟨w, reqs.map Request.serve⟩ : Pool Cmd Reply Answer World) =
      onRedis w (reqs.map client) := by
    rw [onRedis, hmap]
  refine ⟨reqs.map client, hmap, ?_⟩
  rw [hpool] at hb ⊢
  refine linearized hw hst h1 (fun p hp => ?_) ms hms hb
  obtain ⟨r, hr, rfl⟩ := List.mem_map.mp hp
  exact (hclient r hr).1

def ranged : Routine Answer → Option RangeResponse
  | .ret (.range (.ok r)) => some r
  | _ => none

theorem eq_of_ranged {p : Routine Answer} {r : RangeResponse} (h : ranged p = some r) :
    p = .ret (.range (.ok r)) := by
  unfold ranged at h
  split at h
  · cases h
    rfl
  · cases h

/-- A put, and a range of the same key whose reads come before and after the put has called the
sink. -/
theorem putAndRange_on_double :
    ∃ clients : List (Prog StoreCall StoreCall.Ret Answer),
      clients.map (.subst StoreCall.redis) =
        [Request.put ⟨[97], [2], 0, true⟩, .range ⟨[97], [], false⟩].map Request.serve ∧
      ∃ ms', (Pool.run StoreCall.onFake ⟨oneStored.redis.fake, clients⟩ ms').procs[1]? =
        some (.ret (.range (.ok ⟨headerAt 2, [⟨[97], [2], 2, 2, 1, 0⟩], 1⟩))) := by
  obtain ⟨clients, hmap, ms', _, _, hret⟩ := served_on_double oneStored oneStored_consistent
    oneStored_stamped (by decide) [.put ⟨[97], [2], 0, true⟩, .range ⟨[97], [], false⟩]
    (by
      intro r hr
      rcases List.mem_cons.mp hr with rfl | hr
      · exact ⟨by decide, by decide⟩
      · rw [List.mem_singleton.mp hr]
        exact Or.inl rfl)
    [(0, .plain 6), (1, .plain 7), (0, .plain 8), (1, .plain 9)] (by decide) (by decide +kernel)
  have hanswer : ((Pool.run exec ⟨oneStored, [Request.put ⟨[97], [2], 0, true⟩,
      .range ⟨[97], [], false⟩].map Request.serve⟩ [(0, .plain 6), (1, .plain 7), (0, .plain 8),
      (1, .plain 9)]).procs[1]?).bind ranged =
        some ⟨headerAt 2, [⟨[97], [2], 2, 2, 1, 0⟩], 1⟩ := by decide +kernel
  obtain ⟨p, hp, hr⟩ := Option.bind_eq_some_iff.mp hanswer
  rw [eq_of_ranged hr] at hp
  exact ⟨clients, hmap, ms', hret 1 _ hp⟩

/-! ### Reading much at once -/

/-- `lastID` is where a reader of the stream stands that has read `n` entries. -/
def ReadUpTo (s : Redis) (lastID : StreamID) (n : ℕ) : Prop :=
  n ≤ s.events.length ∧ lastID = ((s.events.take n).getLast?.map Entry.id).getD .zero

theorem ReadUpTo.filter_eq {s : Redis} (h : Recorded s) {lastID : StreamID} {n : ℕ}
    (hr : ReadUpTo s lastID n) :
    s.events.filter (fun e => decide (lastID < e.id)) = s.events.drop n := by
  obtain ⟨hn, hid⟩ := hr
  have hids := h.ids
  rw [← List.take_append_drop n s.events, List.pairwise_append] at hids
  obtain ⟨hlow, _, hcross⟩ := hids
  conv_lhs => rw [← List.take_append_drop n s.events]
  rw [List.filter_append, List.filter_eq_nil_iff.mpr, List.filter_eq_self.mpr, List.nil_append]
  · intro e he
    rw [decide_eq_true_eq, hid]
    cases hlast : (s.events.take n).getLast? with
    | none => exact h.id_pos e (List.mem_of_mem_drop he)
    | some x => exact hcross x (List.mem_of_getLast? hlast) e he
  · intro e he
    obtain ⟨x, hlast, hle⟩ := le_getLast (f := Entry.id) hlow he
    rw [decide_eq_true_eq, not_lt, hid, hlast]
    exact hle

theorem ReadUpTo.readEntries_eq {s : Redis} (h : Recorded s) (hb : s.counter < 10 ^ 14)
    {lastID : StreamID} {n maxCount : ℕ} (hr : ReadUpTo s lastID n) (hleft : n < s.events.length)
    (hpos : 1 ≤ maxCount) :
    readEntries s lastID maxCount = some (((s.events.drop n).take maxCount).map entryEvent,
      (((s.events.drop n).take maxCount).getLast?.map Entry.id).getD lastID) := by
  have hsome : ¬ ((s.events.drop n).take maxCount).isEmpty = true := by
    rw [List.isEmpty_iff, List.take_eq_nil_iff, List.drop_eq_nil_iff]
    omega
  have hparse : ((s.events.drop n).take maxCount).filterMap parseStreamEvent =
      ((s.events.drop n).take maxCount).map entryEvent := by
    rw [← List.filterMap_eq_map]
    exact List.filterMap_congr fun e he => parseStreamEvent_mem h.toConsistent hb
      (List.mem_of_mem_drop (List.mem_of_mem_take he))
  simp only [readEntries, hr.filter_eq h, if_neg (Nat.ne_of_gt hpos), if_neg hsome, hparse]

theorem blockReadEvents_left {f : FakeStore} {n maxCount : ℕ} (hleft : n < f.events.length) :
    f.blockReadEvents n maxCount =
      ((f.events.drop n).take maxCount, min (n + maxCount) f.events.length) := by
  rw [FakeStore.blockReadEvents]
  split_ifs with hnil hmax
  · rw [hnil] at hleft
    cases hleft
  · dsimp only
    rw [min_eq_left (by omega), List.drop_take, Nat.add_sub_cancel_left]
  · dsimp only
    rw [min_eq_right (by omega), List.take_length,
      List.take_of_length_le (by rw [List.length_drop]; omega)]

/-- **Both stores read the events on in the same way**: from where a reader stands that has an event
left, they return the same events, and it stands at the same place afterwards. -/
theorem blockReadEvents_fake {s : Redis} (h : Recorded s) (hb : s.counter < 10 ^ 14)
    {lastID : StreamID} {n maxCount : ℕ} (hr : ReadUpTo s lastID n) (hleft : n < s.events.length)
    (hpos : 1 ≤ maxCount) :
    ∃ events newLastID, readEntries s lastID maxCount = some (events, newLastID) ∧
      events.map Event.bare = (s.fake.blockReadEvents n maxCount).1 ∧
      ReadUpTo s newLastID (s.fake.blockReadEvents n maxCount).2 := by
  have hevents : s.fake.events = (s.events.map entryEvent).map Event.bare := by
    change ((s.events.filterMap parseStreamEvent).map Event.bare) = _
    rw [← streamEvents_eq h.toConsistent hb, streamEvents]
  have hlen : s.fake.events.length = s.events.length := by
    rw [hevents, List.length_map, List.length_map]
  refine ⟨_, _, hr.readEntries_eq h hb hleft hpos, ?_⟩
  rw [blockReadEvents_left (hlen ▸ hleft), hlen]
  refine ⟨?_, min_le_right _ _, ?_⟩
  · rw [hevents, ← List.map_drop, ← List.map_drop, ← List.map_take, ← List.map_take]
  · rw [← List.take_eq_take_min, List.take_add, List.getLast?_append, hr.2]
    cases ((s.events.drop n).take maxCount).getLast? <;> rfl

/-- The keys that the fake picks for a range are those that the scan finds. -/
theorem range_fake {s : Redis} (h1 : 1 ≤ s.counter) (pre : Key) :
    s.fake.range pre = (RedisStore.rangeRev (.ok s.revision),
      RedisStore.decodeAll (RedisStore.scan pre s) ((RedisStore.scan pre s).map s.kv)) := by
  have hkeys : s.fake.keys.toList.filter (fun k => decide (pre = [] ∨ k = pre ∨
      pre.length ≤ k.length ∧ k.take pre.length = pre)) = RedisStore.scan pre s := by
    refine List.filter_congr fun k _ => ?_
    rw [Bool.eq_iff_iff, RedisStore.mem_prefixLexRange, decide_eq_true_eq]
    constructor
    · rintro (rfl | rfl | ⟨_, hk⟩)
      · exact List.nil_prefix
      · exact List.prefix_rfl
      · rw [← hk]
        exact List.take_prefix _ _
    · intro hk
      exact Or.inr (Or.inr ⟨hk.length_le, (List.prefix_iff_eq_take.mp hk).symm⟩)
  have hrev : RedisStore.rangeRev (.ok s.revision) = s.counter := by
    rw [rangeRev_reported, reported_eq h1]
  have hvalues : ∀ l : List Key, l.filterMap s.fake.data =
      RedisStore.decodeAll l (l.map s.kv) := by
    intro l
    induction l with
    | nil => rfl
    | cons k l ih =>
      simp only [RedisStore.decodeAll, List.map_cons, List.zip_cons_cons, List.filterMap_cons] at ih ⊢
      rw [ih]
      rfl
  rw [FakeStore.range, hkeys, hvalues, hrev]
  rfl

/-- **`Range` and `BlockReadEvents` agree on both stores** while nothing is written.  `Range` run alone
returns what the fake returns and changes nothing.  A reader of the stream that has read `n` entries
and has one left is answered at once, gets the events that a reader of the fake gets, and has read as
many afterwards. -/
theorem reads_on_double (w : World) (h : Recorded w.redis) (h1 : 1 ≤ w.redis.counter)
    (hb : w.redis.counter < 10 ^ 14) :
    (∀ pre w' x, Prog.Exec step (RedisStore.range pre) w x w' →
      w' = w ∧ x = .ok (w.redis.fake.range pre)) ∧
    ∀ lastID n maxCount, ReadUpTo w.redis lastID n → n < w.redis.events.length → 1 ≤ maxCount →
      ∃ events newLastID, readEntries w.redis lastID maxCount = some (events, newLastID) ∧
        events.map Event.bare = (w.redis.fake.blockReadEvents n maxCount).1 ∧
        ReadUpTo w.redis newLastID (w.redis.fake.blockReadEvents n maxCount).2 := by
  refine ⟨fun pre w' x hx => ?_, fun lastID n maxCount hr hleft hpos =>
    blockReadEvents_fake h hb hr hleft hpos⟩
  obtain ⟨rfl, rfl⟩ := RedisStore.range_exec hx
  exact ⟨rfl, by rw [range_fake h1]⟩

/-- A reader from the beginning on gets the one event, and stands after it. -/
theorem oneStored_reads_on_double :
    ∃ events newLastID, readEntries oneStored.redis .zero 5 = some (events, newLastID) ∧
      events.map Event.bare = (oneStored.redis.fake.blockReadEvents 0 5).1 ∧
      ReadUpTo oneStored.redis newLastID 1 :=
  (reads_on_double oneStored ⟨oneStored_consistent, by decide⟩ (by decide) (by decide)).2 .zero 0 5
    ⟨Nat.zero_le _, rfl⟩ (by decide) (by decide)

end REtcd.Server
