import REtcd.Base.Linearize
import REtcd.Store.Alone

/-!
# The store of the unit tests

The server is written against an interface that two stores implement: `RedisStore`, and the
`fakeStore` of the unit tests, which keeps everything in a Go map under one lock.  `FakeStore` is the
second, and `store_linearizable` says that the first behaves like it: however the Redis commands of
concurrent `Put`, `Get`, `Delete`, `Txn` and `CurrentRevision` calls are interleaved, and whichever
of them are refused, the clients get the answers that the fake gives when each call is one step of
it.

The two differ where the counter is still 0, which `RedisStore` reports as 1 and the fake as 0.  And
the answer to a command that was carried out may get lost.  Then the client library sends the command
again, and a call may take effect twice; the fake has nothing like this, and it is left out here.
-/

namespace REtcd.Store

open Base

/-- `fakeStore`: the keys of the map `data` in ascending order and what they hold, the revision, and
the events.  (The sink is not part of it: both stores call it after the call has taken effect.) -/
structure FakeStore where
  keys : SortedSet Key
  data : Key → Option KeyValue
  rev : ℤ
  events : List Event

namespace FakeStore

/-- The value that a put over `prev` stores. -/
def stampKV (key : Key) (value : Bytes) (leaseID rev : ℤ) (prev : Option KeyValue) : KeyValue where
  key := key
  value := value
  createRevision := (prev.map KeyValue.createRevision).getD rev
  modRevision := rev
  version := (prev.map fun kv => kv.version + 1).getD 1
  lease := leaseID

/-- The event of a put or a delete; the fake gives it neither a time nor a stream ID. -/
def event (type : EventType) (key : Key) (rev : ℤ) (kv prev : Option KeyValue) : Event :=
  ⟨type, key, rev, kv, prev, 0, none⟩

/-- A put, as `Put` and `Txn` do it. -/
def store (f : FakeStore) (key : Key) (value : Bytes) (leaseID : ℤ) : FakeStore :=
  let prev := f.data key
  let rev := f.rev + 1
  let kv := stampKV key value leaseID rev prev
  { keys := f.keys.insert key
    data := Function.update f.data key (some kv)
    rev := rev
    events := f.events ++ [event .put key rev (some kv) prev] }

/-- A delete, as `Delete` and `Txn` do it. -/
def remove (f : FakeStore) (key : Key) : FakeStore :=
  { keys := f.keys.erase key
    data := Function.update f.data key none
    rev := f.rev + 1
    events := f.events ++ [event .delete key (f.rev + 1) none (f.data key)] }

def put (f : FakeStore) (key : Key) (value : Bytes) (leaseID : ℤ) :
    (ℤ × Option KeyValue) × FakeStore :=
  ((f.rev + 1, f.data key), f.store key value leaseID)

def get (f : FakeStore) (key : Key) : Option KeyValue := f.data key

def range (f : FakeStore) (pre : Key) : ℤ × List KeyValue :=
  let keys := f.keys.toList.filter fun k =>
    pre = [] ∨ k = pre ∨ pre.length ≤ k.length ∧ k.take pre.length = pre
  (f.rev, keys.filterMap f.data)

def delete (f : FakeStore) (key : Key) : (ℤ × Option KeyValue) × FakeStore :=
  match f.data key with
  | none => ((f.rev, none), f)
  | some prev => ((f.rev + 1, some prev), f.remove key)

def txn (f : FakeStore) (key : Key) (expectedModRevision : ℤ) (successOp : EventType)
    (newValue : Bytes) (leaseID : ℤ) : RedisStore.TxnResult × FakeStore :=
  let current := f.data key
  let currentModRev := (current.map KeyValue.modRevision).getD 0
  if if expectedModRevision = -1 then current.isSome else currentModRev ≠ expectedModRevision then
    (⟨false, f.rev, current⟩, f)
  else match successOp with
    | .delete => (⟨true, f.rev + 1, none⟩, f.remove key)
    | .put => (⟨true, f.rev + 1, none⟩, f.store key newValue leaseID)

def currentRevision (f : FakeStore) : ℤ := f.rev

/-- `BlockReadEvents`; the ID is the number of events that have been read.  (The injected errors are
left out.) -/
def blockReadEvents (f : FakeStore) (lastID maxCount : ℕ) : List Event × ℕ :=
  if f.events = [] then ([], lastID)
  else
    let stop := if maxCount < f.events.length - lastID then lastID + maxCount else f.events.length
    ((f.events.take stop).drop lastID, stop)

end FakeStore

/-! ### The calls of the interface -/

/-- A call that takes effect at once.  (`Range` is not among them: on Redis it is three reads.) -/
inductive StoreCall where
  | put (key : Key) (value : Bytes) (leaseID : ℤ)
  | get (key : Key)
  | delete (key : Key)
  | txn (key : Key) (expectedModRevision : ℤ) (successOp : EventType) (newValue : Bytes)
      (leaseID : ℤ)
  | currentRevision

namespace StoreCall

@[reducible] def Val : StoreCall → Type
  | put _ _ _ => ℤ × Option KeyValue
  | get _ => Option KeyValue
  | delete _ => ℤ × Option KeyValue
  | txn _ _ _ _ _ => RedisStore.TxnResult
  | currentRevision => ℤ

abbrev Ret (c : StoreCall) : Type := Result c.Val

def redis : (c : StoreCall) → Routine c.Ret
  | put key value leaseID => RedisStore.put key value leaseID
  | get key => RedisStore.get key
  | delete key => RedisStore.delete key
  | txn key expected op value leaseID => RedisStore.txn key expected op value leaseID
  | currentRevision => RedisStore.currentRevision

def fake : (c : StoreCall) → FakeStore → c.Val × FakeStore
  | put key value leaseID, f => f.put key value leaseID
  | get key, f => (f.get key, f)
  | delete key, f => f.delete key
  | txn key expected op value leaseID, f => f.txn key expected op value leaseID
  | currentRevision, f => (f.currentRevision, f)

/-- The text that a caller of `RedisStore` gets when Redis reports `msg`. -/
def errorText : StoreCall → GoError → GoError
  | put _ _ _, msg => "put script: " ++ msg
  | get key, msg => "get " ++ RedisStore.keyText key ++ ": " ++ msg
  | delete _, msg => "delete script: " ++ msg
  | txn _ _ _ _ _, msg => "txn script: " ++ msg
  | currentRevision, msg => msg

/-- The fake, where a call may be refused as a remote one is. -/
def onFake (refusal : Option GoError) (c : StoreCall) (f : FakeStore) : c.Ret × FakeStore :=
  match refusal with
  | none => (.ok (c.fake f).1, (c.fake f).2)
  | some msg => (.error (c.errorText msg), f)

/-- The calls that the server makes: it never asks `Txn` for a delete, and leases are numbers that
Lua holds exactly. -/
def Valid : StoreCall → Prop
  | put _ _ leaseID => LuaExact leaseID
  | txn _ _ op _ leaseID => op = .put ∧ LuaExact leaseID
  | _ => True

end StoreCall

/-! ### What the fake would hold -/

def Event.bare (ev : Event) : Event := { ev with createdMs := 0, id := none }

/-- The fake that holds what the database holds; its events are those that a reader of the stream
gets. -/
def Redis.fake (s : Redis) : FakeStore where
  keys := s.keyindex
  data k := (s.kv k).bind (decodeKV k)
  rev := s.counter
  events := (s.events.filterMap parseStreamEvent).map Event.bare

structure Faked (s : Redis) (f : FakeStore) : Prop where
  consistent : Consistent s
  stamped : Stamped s
  pos : 1 ≤ s.counter
  bounded : s.counter < 10 ^ 14
  eq : f = s.fake

theorem Consistent.preImage_eq {s : Redis} (h : Consistent s) (key : Key) :
    RedisStore.preImage key ((s.kv key).getD []) = (s.kv key).bind (decodeKV key) := by
  cases hk : s.kv key with
  | none => rfl
  | some raw =>
    have hne : raw ≠ [] := by
      rintro rfl
      have := h.stored_length hk
      simp at this
    exact if_pos hne

section Commits

variable {s s' : Redis} {e : Entry}

/-- **What a put stores decodes to what the fake stores.** -/
theorem Stamped.decode_stamped (h : Stamped s) (hs : Consistent s) (hb : s.counter + 1 < 10 ^ 14)
    (key : Key) (value : Bytes) {lease : ℤ} (hl : LuaExact lease) :
    decodeKV key (stamped (s.kv key) (s.counter + 1) lease value) =
      some (FakeStore.stampKV key value lease (s.counter + 1) ((s.kv key).bind (decodeKV key))) := by
  have hnn := hs.counter_nonneg
  have hrev : LuaExact (s.counter + 1) := ⟨by omega, by omega⟩
  cases hk : s.kv key with
  | none =>
    have hone : LuaExact 1 := ⟨by decide, by decide⟩
    exact decodeKV_blob_exact key hrev hrev hone hl value
  | some raw =>
    obtain ⟨kv, first, last, hdec, _, _, hfirst, hcreate, hversion⟩ := h.decode hs hk
    obtain ⟨first', m, lease', value', hfirst', hraw⟩ := h key raw hk
    rw [hfirst, Option.some.injEq] at hfirst'
    subst hfirst'
    have hmem := hs.rev_mem (mem_lifetime (List.mem_of_head? hfirst)).1
    have hlen : (lifetime key s.events).length ≤ s.events.length :=
      ((List.rtakeWhile_suffix _ _).length_le).trans (List.length_filter_le _ _)
    have hcounter := hs.counter
    have hstamp : stamp (some raw) (s.counter + 1) = (kv.createRevision, kv.version + 1) := by
      simp only [stamp]
      rw [hraw, field_blob, dec64_blob_create (by omega) (by omega), field_blob,
        dec64_blob_version (by omega) (by omega), hcreate, hversion]
    rw [stamped, hstamp, Option.bind_some, hdec]
    exact decodeKV_blob_exact key ⟨by omega, by omega⟩ hrev ⟨by omega, by omega⟩ hl value

theorem bare_of_committed (h : Consistent s) (hc : Committed s s' e) (hb : s'.counter < 10 ^ 14) :
    (parseStreamEvent e).map Event.bare = some (FakeStore.event e.type e.key (s.counter + 1)
      (e.data.bind (decodeKV e.key)) ((s.kv e.key).bind (decodeKV e.key))) := by
  have hnn := h.counter_nonneg
  have hcounter := hc.counter
  have hrev := hc.rev
  rw [parseStreamEvent, parseInt_luaTostring (by omega) (by omega)]
  have hkv : (if e.type = .put then e.data.bind (decodeKV e.key) else none) =
      e.data.bind (decodeKV e.key) := by
    cases ht : e.type with
    | put => rfl
    | delete =>
      rw [(hc.delete ht).1]
      rfl
  have hprev : e.prevData.bind (fun prev => if prev ≠ [] then decodeKV e.key prev else none) =
      (s.kv e.key).bind (decodeKV e.key) := by
    rw [hc.prev, ← h.preImage_eq]
    cases s.kv e.key <;> rfl
  rw [hkv, hprev, hrev]
  rfl

/-- What a commit does to the fake that stands in. -/
theorem fake_of_committed (h : Consistent s) (hc : Committed s s' e) (hb : s'.counter < 10 ^ 14) :
    s'.fake.data = Function.update s.fake.data e.key (e.data.bind (decodeKV e.key)) ∧
      s'.fake.rev = s.fake.rev + 1 ∧
      s'.fake.events = s.fake.events ++ [FakeStore.event e.type e.key (s.fake.rev + 1)
        (e.data.bind (decodeKV e.key)) (s.fake.data e.key)] := by
  refine ⟨?_, hc.counter, ?_⟩
  · funext k
    change (s'.kv k).bind (decodeKV k) = _
    rw [hc.kv]
    by_cases hk : k = e.key
    · subst hk
      rw [Function.update_self, Function.update_self]
    · rw [Function.update_of_ne hk, Function.update_of_ne hk]
      rfl
  · obtain ⟨ev, hev, hbare⟩ := Option.map_eq_some_iff.mp (bare_of_committed h hc hb)
    change (s'.events.filterMap parseStreamEvent).map Event.bare = _
    rw [hc.events, List.filterMap_append, List.map_append, List.filterMap_cons_some hev, List.map_cons,
      hbare]
    rfl

/-- **A put that commits is a put of the fake.** -/
theorem fake_put (h : Consistent s) (hst : Stamped s) {key : Key} {value : Bytes} {lease : ℤ}
    (hl : LuaExact lease) (hw : Written key value lease s s') (hb : s'.counter < 10 ^ 14) :
    s'.fake = s.fake.store key value lease := by
  obtain ⟨id, hc⟩ := hw
  have hcounter := hc.counter
  obtain ⟨hdata, hrev, hevents⟩ := fake_of_committed h hc hb
  rw [Option.bind_some, hst.decode_stamped h (by omega) key value hl] at hdata hevents
  have hkeys : s'.fake.keys = s.fake.keys.insert key := by
    ext k
    rw [SortedSet.mem_insert]
    refine (hc.index k).trans ?_
    split_ifs with hk
    · simp [hk]
    · simp [hk, Redis.fake]
  change FakeStore.mk s'.fake.keys s'.fake.data s'.fake.rev s'.fake.events = _
  rw [hkeys, hdata, hrev, hevents]
  rfl

/-- **A delete that commits is a delete of the fake.** -/
theorem fake_delete (h : Consistent s) (hc : Committed s s' e) (ht : e.type = .delete)
    (hb : s'.counter < 10 ^ 14) : s'.fake = s.fake.remove e.key := by
  obtain ⟨hdata, hrev, hevents⟩ := fake_of_committed h hc hb
  rw [(hc.delete ht).1, Option.bind_none, ht] at hevents
  rw [(hc.delete ht).1, Option.bind_none] at hdata
  have hkeys : s'.fake.keys = s.fake.keys.erase e.key := by
    ext k
    rw [SortedSet.mem_erase]
    refine (hc.index k).trans ?_
    split_ifs with hk
    · simp [hk, (hc.delete ht).1]
    · simp [hk, Redis.fake]
  change FakeStore.mk s'.fake.keys s'.fake.data s'.fake.rev s'.fake.events = _
  rw [hkeys, hdata, hrev, hevents]
  rfl

theorem Faked.put (h : Faked s s.fake) {key : Key} {value : Bytes} {lease : ℤ}
    (hl : LuaExact lease) (hw : Written key value lease s s') (hb : s'.counter < 10 ^ 14) :
    Faked s' (s.fake.store key value lease) := by
  have heq := fake_put h.consistent h.stamped hl hw hb
  obtain ⟨id, hc⟩ := hw
  have hcounter := hc.counter
  have hpos := h.pos
  refine ⟨h.consistent.commit hc, ?_, by omega, hb, heq.symm⟩
  exact h.stamped.commit h.consistent hc fun _ => ⟨lease, value, by rw [hc.prev]⟩

theorem Faked.delete (h : Faked s s.fake) (hc : Committed s s' e) (ht : e.type = .delete)
    (hb : s'.counter < 10 ^ 14) : Faked s' (s.fake.remove e.key) := by
  have hcounter := hc.counter
  have hpos := h.pos
  refine ⟨h.consistent.commit hc, ?_, by omega, hb, (fake_delete h.consistent hc ht hb).symm⟩
  refine h.stamped.commit h.consistent hc fun hput => ?_
  rw [ht] at hput
  cases hput

end Commits

/-! ### The scripts, when the counter has room -/

section Scripts

variable {s : Redis} (now : ℕ) {key : Key} {value : Bytes} {lease : ℤ}

theorem writeLua_put (key : Key) (value : Bytes) (lease : ℤ) (h : Consistent s)
    (hroom : s.counter < 2 ^ 63 - 1) :
    Written key value lease s (writeLua now ⟨key, .put, value, lease⟩ s).2 ∧
      ∃ newBlob sid, (writeLua now ⟨key, .put, value, lease⟩ s).1 =
        .ok ⟨luaTostring (s.counter + 1), (s.kv key).getD [], newBlob, sid⟩ := by
  have hl : writeLua now ⟨key, .put, value, lease⟩ s =
      writePut now ⟨key, .put, value, lease⟩ (s.kv key) s := rfl
  rw [hl]
  rcases writePut_cases now ⟨key, .put, value, lease⟩ s with ⟨hmax, _⟩ | ⟨e, hc, _, _, hr⟩
  · exact absurd hroom hmax
  · obtain ⟨id, hev⟩ := writePut_events now (a := ⟨key, .put, value, lease⟩) hroom
      fun _ => h.stored_length
    rw [hc.rev] at hr
    rw [hc.entry_eq hev] at hc
    exact ⟨⟨id, hc⟩, _, _, hr⟩

theorem txnLua_put (key : Key) (value : Bytes) (lease : ℤ) {expected : ℤ}
    (hroom : s.counter < 2 ^ 63 - 1)
    (hcmp : txnCompare expected (s.kv key) = true) :
    Written key value lease s (txnLua now ⟨key, expected, value, .put, lease⟩ s).2 ∧
      ∃ newBlob sid, (txnLua now ⟨key, expected, value, .put, lease⟩ s).1 =
        .ok ⟨true, (s.kv key).getD [], luaTostring (s.counter + 1), newBlob, sid⟩ := by
  rw [txnLua_of_holds now rfl hcmp]
  rcases txnPut_cases now ⟨key, expected, value, .put, lease⟩ s with ⟨hmax, _⟩ | ⟨e, hc, _, _, hr⟩
  · exact absurd hroom hmax
  · obtain ⟨id, hev⟩ := txnPut_events now (a := ⟨key, expected, value, .put, lease⟩) hroom
    rw [hc.rev] at hr
    rw [hc.entry_eq hev] at hc
    exact ⟨⟨id, hc⟩, _, _, hr⟩

theorem writeLua_delete (key : Key) (hroom : s.counter < 2 ^ 63 - 1) (hk : (s.kv key).isSome) :
    ∃ e, Committed s (writeLua now ⟨key, .delete, [], 0⟩ s).2 e ∧ e.key = key ∧
      e.type = .delete ∧ ∃ newBlob sid, (writeLua now ⟨key, .delete, [], 0⟩ s).1 =
        .ok ⟨luaTostring (s.counter + 1), (s.kv key).getD [], newBlob, sid⟩ := by
  rcases writeLua_cases now ⟨key, .delete, [], 0⟩ s with ⟨hmax, _⟩ | ⟨_, hnone, _⟩ |
    ⟨e, hc, hek, ht, hr⟩
  · exact absurd hroom hmax
  · dsimp only at hnone
    rw [hnone] at hk
    cases hk
  · rw [hc.rev] at hr
    exact ⟨e, hc, hek, ht, _, _, hr⟩

end Scripts

/-! ### The calls on both stores -/

theorem scriptRev_full {n : ℤ} (h : 0 ≤ n) (h' : n < 10 ^ 14) :
    RedisStore.scriptRev (luaTostring n) = n := by
  rw [RedisStore.scriptRev, parseInt_luaTostring h h', Option.getD_some]

theorem txnCompare_fake {s : Redis} (h : Consistent s) (expected : ℤ) (key : Key) :
    txnCompare expected (s.kv key) = true ↔ ¬ (if expected = -1 then (s.fake.data key).isSome
      else ((s.fake.data key).map KeyValue.modRevision).getD 0 ≠ expected) := by
  change _ ↔ ¬ (if expected = -1 then ((s.kv key).bind (decodeKV key)).isSome
    else (((s.kv key).bind (decodeKV key)).map KeyValue.modRevision).getD 0 ≠ expected)
  rw [txnCompare]
  cases hk : s.kv key with
  | none =>
    split_ifs
    · simp
    · rw [decide_eq_true_iff, decide_eq_true_iff, not_not]
      rfl
  | some raw =>
    obtain ⟨kv, hkv⟩ := Option.isSome_iff_exists.mp (h.decode_isSome hk)
    obtain ⟨e, he, _, hm⟩ := h.field_mod hk
    have hle := (h.rev_mem (mem_of_lastEntry he).1).2
    have hb := h.bound
    have hmod := decodeKV_modRevision hkv
    rw [hm, toInt64_of_lt (by omega)] at hmod
    rw [Option.bind_some, hkv, hm]
    split_ifs <;> simp [hmod]

/-- What `Txn` makes of the script's result, when the revision in it parses. -/
def txnAnswer (key : Key) (res : TxnReply) : RedisStore.TxnResult :=
  if res.succeeded then ⟨true, RedisStore.scriptRev res.rev, none⟩
  else ⟨false, RedisStore.scriptRev res.rev, decodeKV key res.blob⟩

theorem get_first (key : Key) : (RedisStore.get key).First (.get key) (fun r q => q = .ret
    (match r with
      | .error err => .error ("get " ++ RedisStore.keyText key ++ ": " ++ err)
      | .ok v => .ok (v.bind (decodeKV key)))) := by
  refine Prog.first_cmd fun r => ?_
  rcases r with err | _ | raw <;> rfl

theorem currentRevision_first : RedisStore.currentRevision.First .getRevision
    (fun r q => q = .ret (r.map fun n => if n.getD 0 < 1 then 1 else n.getD 0)) := by
  refine Prog.first_cmd fun r => ?_
  rcases r with err | _ | n <;> rfl

theorem txn_first_exact (key : Key) (expected : ℤ) (op : EventType) (value : Bytes) (lease : ℤ) :
    (RedisStore.txn key expected op value lease).First (.evalTxn ⟨key, expected, value, op, lease⟩)
      (fun r q => (∀ err, r = .error err → q = .ret (.error ("txn script: " ++ err))) ∧
        ∀ res, r = .ok res → RedisStore.scriptRev res.rev ≠ 0 →
          q.Uses Cmd.Quiet ∧ q.Returns (· = .ok (txnAnswer key res))) := by
  refine Prog.first_cmd fun r => ?_
  cases r with
  | error err =>
    refine ⟨fun err' h => ?_, fun res h => ?_⟩
    · cases h
      rfl
    · cases h
  | ok res =>
    refine ⟨fun err h => ?_, fun res' h hrev => ?_⟩
    · cases h
    · cases h
      dsimp only
      rw [RedisStore.txnRevision, if_neg hrev, Prog.ret_bind, txnAnswer]
      cases res.succeeded with
      | false => exact ⟨trivial, rfl⟩
      | true =>
        exact ⟨Prog.uses_bind (RedisStore.emit_uses (fun _ h => h) _ _ _ _ _ _) fun _ => trivial,
          Prog.returns_after _ rfl⟩

/-- What a call does when its command runs: the database becomes one that the fake stands in for
after the call, and the rest of the routine returns the fake's answer without a further effect. -/
def Answered (a : StoreCall) {c : Cmd} (k : Reply c → Routine a.Ret) (env : Env) (w : World) : Prop :=
  ∃ v, (c.run env w).1 = .ok v ∧ Faked (c.run env w).2.redis (a.fake w.redis.fake).2 ∧
    (k (.ok v)).Uses Cmd.Quiet ∧ (k (.ok v)).Returns (· = .ok (a.fake w.redis.fake).1)

section Answered

variable {w : World} (hf : Faked w.redis w.redis.fake) (env : Env)

include hf

theorem put_answered {key : Key} {value : Bytes} {lease : ℤ} (hl : LuaExact lease)
    (hb : (Cmd.run env (.evalWrite ⟨key, .put, value, lease⟩) w).2.redis.counter < 10 ^ 14)
    {k : Reply (.evalWrite ⟨key, .put, value, lease⟩) → Routine (Result (ℤ × Option KeyValue))}
    (hk : ∀ r, (k r).Uses Cmd.Quiet ∧
      (k r).Returns fun x => x = RedisStore.writeResult "put script: " key r) :
    Answered (.put key value lease) k env w := by
  have hbound := hf.bounded
  have hpos := hf.pos
  obtain ⟨hw, newBlob, sid, hr⟩ := writeLua_put env.now key value lease hf.consistent (by omega)
  have hfaked := hf.put hl hw hb
  have hlt : w.redis.counter + 1 < 10 ^ 14 := by
    obtain ⟨id, hc⟩ := hw
    rw [← hc.counter]
    exact hb
  refine ⟨_, hr, hfaked, (hk _).1, Prog.returns_mono (hk _).2 fun x hx => ?_⟩
  rw [hx, RedisStore.writeResult, scriptRev_full (by omega) hlt, hf.consistent.preImage_eq]
  rfl

theorem delete_answered {key : Key}
    (hb : (Cmd.run env (.evalWrite ⟨key, .delete, [], 0⟩) w).2.redis.counter < 10 ^ 14)
    {k : Reply (.evalWrite ⟨key, .delete, [], 0⟩) → Routine (Result (ℤ × Option KeyValue))}
    (hk : ∀ r, (k r).Uses Cmd.Quiet ∧
      (k r).Returns fun x => x = RedisStore.writeResult "delete script: " key r) :
    Answered (.delete key) k env w := by
  have hbound := hf.bounded
  have hpos := hf.pos
  cases hraw : w.redis.kv key with
  | none =>
    have hdata : w.redis.fake.data key = none := by
      change (w.redis.kv key).bind _ = none
      rw [hraw]
      rfl
    have hfake : (StoreCall.delete key).fake w.redis.fake = ((w.redis.counter, none), w.redis.fake) := by
      simp only [StoreCall.fake, FakeStore.delete, hdata]
      rfl
    have hrun : Cmd.run env (.evalWrite ⟨key, .delete, [], 0⟩) w =
        (.ok ⟨luaTostring w.redis.counter, [], [], none⟩, w) := by
      simp only [Cmd.run, writeLua, hraw]
    refine ⟨_, by rw [hrun], ?_, (hk _).1, Prog.returns_mono (hk _).2 fun x hx => ?_⟩
    · rw [hrun, hfake]
      exact hf
    · rw [hx, hfake, RedisStore.writeResult, scriptRev_full (by omega) hbound]
      rfl
  | some raw =>
    obtain ⟨kv, hkv⟩ := Option.isSome_iff_exists.mp (hf.consistent.decode_isSome hraw)
    have hdata : w.redis.fake.data key = some kv := by
      change (w.redis.kv key).bind _ = _
      rw [hraw]
      exact hkv
    have hfake : (StoreCall.delete key).fake w.redis.fake =
        ((w.redis.counter + 1, some kv), w.redis.fake.remove key) := by
      simp only [StoreCall.fake, FakeStore.delete, hdata]
      rfl
    obtain ⟨e, hc, rfl, ht, newBlob, sid, hr⟩ := writeLua_delete env.now (s := w.redis) key
      (by omega) (by rw [hraw]; rfl)
    have hlt : w.redis.counter + 1 < 10 ^ 14 := by
      rw [← hc.counter]
      exact hb
    refine ⟨_, hr, ?_, (hk _).1, Prog.returns_mono (hk _).2 fun x hx => ?_⟩
    · rw [hfake]
      exact hf.delete hc ht hb
    · rw [hx, hfake, RedisStore.writeResult, scriptRev_full (by omega) hlt,
        hf.consistent.preImage_eq, hraw, Option.bind_some, hkv]

theorem get_answered {key : Key} {k : Reply (.get key) → Routine (Result (Option KeyValue))}
    (hk : ∀ r, k (.ok r) = .ret (.ok (r.bind (decodeKV key)))) : Answered (.get key) k env w := by
  refine ⟨_, rfl, hf, ?_, ?_⟩
  · rw [hk]
    trivial
  · rw [hk]
    rfl

theorem currentRevision_answered {k : Reply .getRevision → Routine (Result ℤ)}
    (hk : ∀ r, k (.ok r) = .ret (.ok (if r.getD 0 < 1 then 1 else r.getD 0))) :
    Answered .currentRevision k env w := by
  have hpos := hf.pos
  refine ⟨_, rfl, hf, ?_, ?_⟩
  · rw [hk]
    trivial
  · rw [hk]
    refine congrArg Except.ok ?_
    exact if_neg (not_lt.mpr hpos)

theorem txn_answered {key : Key} {expected : ℤ} {value : Bytes} {lease : ℤ} (hl : LuaExact lease)
    (hb : (Cmd.run env (.evalTxn ⟨key, expected, value, .put, lease⟩) w).2.redis.counter < 10 ^ 14)
    {k : Reply (.evalTxn ⟨key, expected, value, .put, lease⟩) → Routine (Result RedisStore.TxnResult)}
    (hk : ∀ res, RedisStore.scriptRev res.rev ≠ 0 → (k (.ok res)).Uses Cmd.Quiet ∧
      (k (.ok res)).Returns (· = .ok (txnAnswer key res))) :
    Answered (.txn key expected .put value lease) k env w := by
  have hbound := hf.bounded
  have hpos := hf.pos
  have hcompare := txnCompare_fake hf.consistent expected key
  cases hcmp : txnCompare expected (w.redis.kv key) with
  | false =>
    rw [hcmp] at hcompare
    have hfake : (StoreCall.txn key expected .put value lease).fake w.redis.fake =
        (⟨false, w.redis.counter, (w.redis.kv key).bind (decodeKV key)⟩, w.redis.fake) :=
      if_pos (not_not.mp fun h => by cases hcompare.mpr h)
    have hrun := txnLua_of_fails env.now (a := ⟨key, expected, value, .put, lease⟩) (s := w.redis) hcmp
    rw [if_neg (not_lt.mpr hpos)] at hrun
    obtain ⟨huses, hreturns⟩ := hk ⟨false, (w.redis.kv key).getD [], luaTostring w.redis.counter,
      [], none⟩ (by rw [scriptRev_full (by omega) hbound]; omega)
    refine ⟨_, congrArg Prod.fst hrun, ?_, huses, Prog.returns_mono hreturns fun x hx => ?_⟩
    · rw [hfake, Cmd.run, hrun]
      exact hf
    · rw [hx, hfake, txnAnswer, scriptRev_full (by omega) hbound]
      cases w.redis.kv key <;> rfl
  | true =>
    rw [hcmp] at hcompare
    have hfake : (StoreCall.txn key expected .put value lease).fake w.redis.fake =
        (⟨true, w.redis.counter + 1, none⟩, w.redis.fake.store key value lease) :=
      if_neg (hcompare.mp rfl)
    obtain ⟨hw, newBlob, sid, hr⟩ := txnLua_put env.now key value lease (by omega) hcmp
    have hfaked := hf.put hl hw hb
    have hlt : w.redis.counter + 1 < 10 ^ 14 := by
      obtain ⟨id, hc⟩ := hw
      rw [← hc.counter]
      exact hb
    obtain ⟨huses, hreturns⟩ := hk ⟨true, (w.redis.kv key).getD [],
      luaTostring (w.redis.counter + 1), newBlob, sid⟩
      (by rw [scriptRev_full (by omega) hlt]; omega)
    refine ⟨_, hr, ?_, huses, Prog.returns_mono hreturns fun x hx => ?_⟩
    · rw [hfake]
      exact hfaked
    · rw [hx, hfake, txnAnswer, scriptRev_full (by omega) hlt]
      rfl

end Answered

/-- A command that fails under `env` has no effect. -/
def refusing (env : Env) : Prop := ∀ f, env.fault = some f → f.applied = false

instance (env : Env) : Decidable (refusing env) :=
  decidable_of_iff (env.fault.all fun f => !f.applied)
    (by simp only [Option.all_eq_true, Bool.not_eq_true', refusing])

/-- A command that Redis is asked for may be refused, as a call of the fake may. -/
theorem effect_of_run {a : StoreCall} {c : Cmd} (hremote : c.remote = true)
    {k : Reply c → Routine a.Ret}
    (herr : ∀ err, k (.error err) = .ret (.error (a.errorText err)))
    (hrun : ∀ env w, Faked w.redis w.redis.fake → (c.run env w).2.redis.counter < 10 ^ 14 →
      Answered a k env w) (env : Env) (w : World) (f : FakeStore) (henv : refusing env)
    (hf : Faked w.redis f) (hok : (exec env c w).2.redis.counter < 10 ^ 14) :
    ∃ refusal, Faked (exec env c w).2.redis (a.onFake refusal f).2 ∧
      (k (exec env c w).1).Uses Cmd.Quiet ∧
      (k (exec env c w).1).Returns (· = (a.onFake refusal f).1) := by
  obtain rfl := hf.eq
  cases hfault : env.fault with
  | none =>
    rw [exec_of_faultless hfault] at hok ⊢
    obtain ⟨v, hv, hfaked, huses, hreturns⟩ := hrun env w hf hok
    refine ⟨none, hfaked, ?_, ?_⟩
    · rw [hv]
      exact huses
    · rw [hv]
      exact hreturns
  | some e =>
    have hexec : exec env c w = (.error e.msg, w) := by
      rw [exec, hfault]
      simp only [hremote, henv e hfault, if_true, Bool.false_eq_true, if_false]
    rw [hexec]
    refine ⟨some e.msg, hf, ?_, ?_⟩
    · rw [herr]
      trivial
    · rw [herr]
      rfl

/-- **`RedisStore` is linearizable**: its calls take effect with their first command, as they do on
the fake. -/
theorem redis_linearizes : Linearizes StoreCall.redis exec StoreCall.onFake
    (fun w f => Faked w.redis f) (fun w => w.redis.counter < 10 ^ 14) refusing StoreCall.Valid
    Cmd.Quiet where
  silent env c w f hc hf _ := by
    have hsame : (exec env c w).2.redis = w.redis := by
      rcases exec_world env c w with h | h
      · rw [h]
      · rw [h]
        exact Cmd.run_quiet env hc w
    rw [hsame]
    exact hf
  effect a ha := by
    cases a with
    | put key value lease =>
      obtain ⟨k, hk, hrest⟩ := RedisStore.put_first key value lease
      refine ⟨_, k, hk, effect_of_run rfl (fun err => ?_) fun env w hf hb =>
        put_answered hf env ha hb hrest⟩
      cases hk
      rfl
    | get key =>
      obtain ⟨k, hk, hrest⟩ := get_first key
      exact ⟨_, k, hk, effect_of_run rfl (fun err => hrest _) fun env w hf _ =>
        get_answered hf env fun r => hrest _⟩
    | delete key =>
      obtain ⟨k, hk, hrest⟩ := RedisStore.delete_first key
      refine ⟨_, k, hk, effect_of_run rfl (fun err => ?_) fun env w hf hb =>
        delete_answered hf env hb hrest⟩
      cases hk
      rfl
    | txn key expected op value lease =>
      obtain ⟨rfl, hl⟩ := ha
      obtain ⟨k, hk, hrest⟩ := txn_first_exact key expected .put value lease
      exact ⟨_, k, hk, effect_of_run rfl (fun err => (hrest _).1 err rfl) fun env w hf hb =>
        txn_answered hf env hl hb fun res => (hrest _).2 res rfl⟩
    | currentRevision =>
      obtain ⟨k, hk, hrest⟩ := currentRevision_first
      exact ⟨_, k, hk, effect_of_run rfl (fun err => hrest _) fun env w hf _ =>
        currentRevision_answered hf env fun r => hrest _⟩

theorem StoreCall.redis_issued (a : StoreCall) (ha : a.Valid) : a.redis.Uses Cmd.Issued := by
  have hq : ∀ c : Cmd, c.Quiet → c.Issued := Cmd.Quiet.issued
  cases a with
  | put key value lease => exact RedisStore.put_uses hq trivial
  | get key => exact RedisStore.get_uses hq key
  | delete key => exact RedisStore.delete_uses hq trivial
  | txn key expected op value lease =>
    exact ((RedisStore.txn_first key expected op value lease).mono fun _ _ h =>
      Prog.uses_mono hq h.1).uses ha.1
  | currentRevision => exact RedisStore.currentRevision_uses hq

section Clients

variable {α : Type} {w : World} {clients : List (Prog StoreCall StoreCall.Ret α)}

def onRedis (w : World) (clients : List (Prog StoreCall StoreCall.Ret α)) :
    Pool Cmd Reply α World := ⟨w, clients.map (.subst StoreCall.redis)⟩

theorem linearized (hw : Consistent w.redis) (hst : Stamped w.redis) (h1 : 1 ≤ w.redis.counter)
    (hv : ∀ p ∈ clients, p.Uses StoreCall.Valid) (ms : List (ℕ × Env))
    (hms : ∀ m ∈ ms, refusing m.2)
    (hb : (Pool.run exec (onRedis w clients) ms).shared.redis.counter < 10 ^ 14) :
    ∃ ms' : List (ℕ × Option GoError), (ms'.map Prod.fst).Sublist (ms.map Prod.fst) ∧
      (Pool.run StoreCall.onFake ⟨w.redis.fake, clients⟩ ms').shared =
        (Pool.run exec (onRedis w clients) ms).shared.redis.fake ∧
      ∀ (i : ℕ) (a : α), (Pool.run exec (onRedis w clients) ms).procs[i]? = some (.ret a) →
        (Pool.run StoreCall.onFake ⟨w.redis.fake, clients⟩ ms').procs[i]? = some (.ret a) := by
  have huses : (onRedis w clients).Uses Cmd.Issued := by
    intro p hp
    obtain ⟨q, hq, rfl⟩ := List.mem_map.mp hp
    exact Prog.uses_subst StoreCall.redis_issued (hv q hq)
  -- the counter only grows, so it was below the bound all the time
  have hgrows : ∀ pool : Pool Cmd Reply α World, pool.Uses Cmd.Issued → ∀ ms,
      pool.shared.redis.counter ≤ (Pool.run exec pool ms).shared.redis.counter := by
    intro pool hpool ms
    exact Pool.run_inv (I := fun v : World => pool.shared.redis.counter ≤ v.redis.counter)
      (fun env c v hc h => h.trans (exec_effect env hc v).counter_le) hpool le_rfl ms
  have hok : ∀ ms', ms' <+: ms →
      (Pool.run exec (onRedis w clients) ms').shared.redis.counter < 10 ^ 14 := by
    rintro ms' ⟨rest, rfl⟩
    rw [Pool.run_append] at hb
    exact (hgrows _ (Pool.run_uses huses ms') rest).trans_lt hb
  have hfaked : Faked w.redis w.redis.fake := ⟨hw, hst, h1, hok [] List.nil_prefix, rfl⟩
  have hfollow : (onRedis w clients).Follow StoreCall.redis StoreCall.Valid Cmd.Quiet
      (⟨w.redis.fake, clients⟩ : Pool StoreCall StoreCall.Ret α FakeStore) := by
    intro i p hp
    rw [onRedis, List.getElem?_map, Option.map_eq_some_iff] at hp
    obtain ⟨q, hq, rfl⟩ := hp
    exact ⟨q, hq, .between (hv q (List.mem_of_getElem? hq))⟩
  obtain ⟨ms', hsub, habs, hfol⟩ := redis_linearizes.run hfaked hfollow ms hms hok
  refine ⟨ms', hsub, habs.eq, fun i a hi => ?_⟩
  obtain ⟨q, hq, hf⟩ := hfol i _ hi
  rw [hq, hf.ret fun a ha => ?_]
  obtain ⟨c, k, hk, _⟩ := redis_linearizes.effect a ha
  exact ⟨c, k, hk⟩

end Clients

/-- **Concurrent clients of `RedisStore` get the answers of the fake.**  Any number of clients call
`Put`, `Get`, `Delete`, `Txn` and `CurrentRevision`, each depending on the answers to its own calls
before; their Redis commands are interleaved in any way, and any of them may be refused without
effect.  Then there is a run of the same clients on the fake, in which every call is one step of it,
taken while the client runs the call on Redis, that leaves the fake which stands in for the database,
and in which every client that has returned has returned the same. -/
theorem store_linearizable {α : Type} (w : World) (hw : Consistent w.redis) (hst : Stamped w.redis)
    (h1 : 1 ≤ w.redis.counter) (clients : List (Prog StoreCall StoreCall.Ret α))
    (hv : ∀ p ∈ clients, p.Uses StoreCall.Valid) (ms : List (ℕ × Env))
    (hms : ∀ m ∈ ms, refusing m.2)
    (hb : (Pool.run exec (onRedis w clients) ms).shared.redis.counter < 10 ^ 14) :
    ∃ ms' : List (ℕ × Option GoError), (ms'.map Prod.fst).Sublist (ms.map Prod.fst) ∧
      (Pool.run StoreCall.onFake ⟨w.redis.fake, clients⟩ ms').shared =
        (Pool.run exec (onRedis w clients) ms).shared.redis.fake ∧
      ∀ (i : ℕ) (a : α), (Pool.run exec (onRedis w clients) ms).procs[i]? = some (.ret a) →
        (Pool.run StoreCall.onFake ⟨w.redis.fake, clients⟩ ms').procs[i]? = some (.ret a) :=
  linearized hw hst h1 hv ms hms hb

def oneStored : World := (exec (.plain 5) (.evalWrite ⟨[98], .put, [1], 0⟩) .empty).2

theorem oneStored_consistent : Consistent oneStored.redis :=
  exec_consistent _ _ _ trivial consistent_empty

theorem oneStored_stamped : Stamped oneStored.redis :=
  exec_stamped (c := .evalWrite ⟨[98], .put, [1], 0⟩) _ trivial consistent_empty stamped_empty

/-- A client that creates the key `a`, one that does the same and then reads it, and another that
creates it. -/
def creators : List (Prog StoreCall StoreCall.Ret (Option Bool × Option Bytes)) :=
  [.call (.txn [97] (-1) .put [2] 0) fun r =>
      .ret (r.toOption.map RedisStore.TxnResult.succeeded, none),
    .call (.txn [97] (-1) .put [3] 0) fun r => .call (.get [97]) fun v =>
      .ret (r.toOption.map RedisStore.TxnResult.succeeded,
        (v.toOption.bind id).map KeyValue.value),
    .call (.txn [97] (-1) .put [4] 0) fun r =>
      .ret (r.toOption.map RedisStore.TxnResult.succeeded, none)]

/-- The script of the third client is refused.  That of the second comes between the script of the
first and its call of the sink: it loses, and reads what the first has written; and so it does on the
fake. -/
theorem creators_linearizable :
    ∃ ms', (Pool.run StoreCall.onFake ⟨oneStored.redis.fake, creators⟩ ms').procs[0]? =
        some (.ret (some true, none)) ∧
      (Pool.run StoreCall.onFake ⟨oneStored.redis.fake, creators⟩ ms').procs[1]? =
        some (.ret (some false, some [2])) ∧
      (Pool.run StoreCall.onFake ⟨oneStored.redis.fake, creators⟩ ms').procs[2]? =
        some (.ret (none, none)) := by
  obtain ⟨ms', _, _, hret⟩ := store_linearizable oneStored oneStored_consistent oneStored_stamped
    (by decide) creators
    (by
      intro p hp
      simp only [creators, List.mem_cons, List.not_mem_nil, or_false] at hp
      rcases hp with rfl | rfl | rfl
      · exact ⟨⟨rfl, by decide, by decide⟩, fun _ => trivial⟩
      · exact ⟨⟨rfl, by decide, by decide⟩, fun _ => ⟨trivial, fun _ => trivial⟩⟩
      · exact ⟨⟨rfl, by decide, by decide⟩, fun _ => trivial⟩)
    [(2, { Env.plain 5 with fault := some ⟨"connection refused", false⟩ }), (0, .plain 6),
      (1, .plain 7), (1, .plain 8), (0, .plain 9)] (by decide) (by decide +kernel)
  exact ⟨ms', hret 0 _ rfl, hret 1 _ rfl, hret 2 _ rfl⟩

end REtcd.Store
