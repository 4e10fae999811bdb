import REtcd.Store.History
import REtcd.Store.Routine

/-!
# What the sink is handed

A write builds the event for the sink out of what its script returned (`makeEvent`), while a catch-up
read builds it out of the stream entry that the script appended (`parseStreamEvent`).  The two are
the same event as long as the entry's revision is written in full (`parseStreamEvent_eq`).

A routine of the store that writes issues its script first.  If the script committed and answered,
the routine owes the sink the event of the entry that the script appended (`owing`), and hands it
over next; otherwise it owes and hands over nothing (`Writes`, `WriteOp.routine_writes`).
-/

namespace REtcd.Store

open Base

/-- A blob that is too short does not decode, so asking first makes no difference. -/
theorem decodeKV_of_length (key : Key) (data : Bytes) :
    (if 32 ≤ data.length then decodeKV key data else none) = decodeKV key data := by
  split_ifs with h
  · rfl
  · rw [decodeKV, if_pos (by omega)]

/-- **The event of an entry, built either way.** -/
theorem parseStreamEvent_eq {e : Entry} (h : 0 ≤ e.rev) (h' : e.rev < 10 ^ 14) :
    parseStreamEvent e =
      some (makeEvent e.type e.key e.rev (e.data.getD []) (e.prevData.getD []) e.id) := by
  have hkv : (if e.type = .put then e.data.bind (decodeKV e.key) else none) =
      if e.type = .put ∧ 32 ≤ (e.data.getD []).length then decodeKV e.key (e.data.getD [])
      else none := by
    by_cases ht : e.type = .put
    · simp only [ht, true_and, if_true]
      rw [decodeKV_of_length]
      cases e.data with
      | none => rfl
      | some data => rfl
    · simp [ht]
  have hprev : e.prevData.bind (fun prev => if prev ≠ [] then decodeKV e.key prev else none) =
      if 32 ≤ (e.prevData.getD []).length then decodeKV e.key (e.prevData.getD []) else none := by
    rw [decodeKV_of_length]
    cases e.prevData with
    | none => rfl
    | some prev =>
      rw [Option.bind_some, Option.getD_some]
      by_cases hp : prev = []
      · rw [if_neg (by simpa using hp), hp]
        rfl
      · rw [if_pos hp]
  rw [parseStreamEvent, parseInt_luaTostring h h']
  simp only [hkv, hprev]
  rfl

/-! ### Answers of txn.lua -/

theorem txnDelete_cases (now : ℕ) {a : TxnArgs} {raw : Blob} {s : Redis}
    (hraw : s.kv a.key = some raw) :
    (txnDelete now a (some raw) s = (.error incrOverflow, s)) ∨
    ∃ e, Committed s (txnDelete now a (some raw) s).2 e ∧ e.key = a.key ∧ e.type = .delete ∧
      (txnDelete now a (some raw) s).1 = .ok ⟨true, raw, luaTostring e.rev, [], some e.id⟩ := by
  unfold txnDelete
  cases hi : s.incr with
  | none => exact Or.inl rfl
  | some p =>
    obtain ⟨rev, t⟩ := p
    obtain ⟨hroom, rfl, rfl⟩ := incr_some hi
    exact Or.inr ⟨_, Committed.of_delete hroom hraw rfl rfl rfl rfl rfl rfl, rfl, rfl, rfl⟩

/-- The delete of an absent key is an error, although the counter may have moved. -/
theorem txnDelete_of_absent (now : ℕ) (a : TxnArgs) (s : Redis) :
    ∃ err, (txnDelete now a none s).1 = .error err := by
  unfold txnDelete
  cases s.incr with
  | none => exact ⟨_, rfl⟩
  | some p => exact ⟨_, rfl⟩

theorem txnLua_ok {now : ℕ} {a : TxnArgs} {s : Redis} {r : TxnReply}
    (h : (txnLua now a s).1 = .ok r) :
    r.succeeded = false ∧ (txnLua now a s).2 = s ∨
    ∃ e, Committed s (txnLua now a s).2 e ∧ e.key = a.key ∧ e.type = a.op ∧
      r = ⟨true, (s.kv a.key).getD [], luaTostring e.rev, e.data.getD [], some e.id⟩ := by
  cases hcmp : txnCompare a.expected (s.kv a.key) with
  | false =>
    rw [txnLua_of_fails now hcmp] at h ⊢
    cases h
    exact Or.inl ⟨rfl, rfl⟩
  | true =>
    right
    cases hop : a.op with
    | put =>
      rw [txnLua_of_holds now hop hcmp] at h ⊢
      rcases txnPut_cases now a s with ⟨_, hl⟩ | ⟨e, he, hk, ht, hl⟩
      · rw [hl] at h
        cases h
      · rw [hl] at h
        cases h
        exact ⟨e, he, hk, ht, rfl⟩
    | delete =>
      have hlua : txnLua now a s = txnDelete now a (s.kv a.key) s := by simp [txnLua, hcmp, hop]
      rw [hlua] at h ⊢
      cases hraw : s.kv a.key with
      | none =>
        obtain ⟨err, herr⟩ := txnDelete_of_absent now a s
        rw [hraw, herr] at h
        cases h
      | some raw =>
        rw [hraw] at h
        rcases txnDelete_cases now hraw with hl | ⟨e, he, hk, ht, hl⟩
        · rw [hl] at h
          cases h
        · rw [hl] at h
          cases h
          refine ⟨e, he, hk, ht, ?_⟩
          rw [(he.delete ht).1]
          rfl

/-! ### What is owed -/

/-- The event that a command's caller owes the sink: that of the entry which the command has
appended, if its answer has arrived. -/
def owing {c : Cmd} (w : World) (r : Reply c) (w' : World) : Option Event :=
  if r.isOk = true ∧ w'.redis.events ≠ w.redis.events then
    w'.redis.events.getLast?.bind parseStreamEvent
  else none

section Owing

variable {c : Cmd} {w w' : World} {r : Reply c}

theorem owing_of_events (h : w'.redis.events = w.redis.events) : owing w r w' = none :=
  if_neg fun hr => hr.2 h

theorem owing_error (err : GoError) : owing w (.error err : Reply c) w' = none :=
  if_neg fun hr => by cases hr.1

theorem owing_of_committed {e : Entry} {v : c.Val} (h : Committed w.redis w'.redis e) :
    owing w (.ok v : Reply c) w' = parseStreamEvent e := by
  rw [owing, if_pos, h.events, List.getLast?_concat, Option.bind_some]
  refine ⟨rfl, fun heq => ?_⟩
  have := congrArg List.length (h.events.symm.trans heq)
  simp at this

end Owing

/-- The commands that append nothing and do not call the sink. -/
def Cmd.Plain : Cmd → Prop
  | .evalWrite _ => False
  | .evalTxn _ => False
  | .emit _ => False
  | _ => True

theorem txnRevision_plain (rev : NumText) : (RedisStore.txnRevision rev).Uses Cmd.Plain := by
  unfold RedisStore.txnRevision
  split_ifs
  · refine Prog.uses_bind (Prog.uses_cmd trivial fun r => ?_) fun v => ?_
    · rcases r with err | _ | n <;> trivial
    · cases v <;> trivial
  · trivial

theorem txnRevision_of_committed {s s' : Redis} {e : Entry} (h : Committed s s' e)
    (hs : Consistent s) (hb : s'.counter < 10 ^ 14) :
    RedisStore.txnRevision (luaTostring e.rev) =
      .ret (RedisStore.scriptRev (luaTostring e.rev)) := by
  have hpos := hs.counter_nonneg
  rw [RedisStore.txnRevision, if_neg]
  rw [RedisStore.scriptRev, parseInt_luaTostring (by rw [h.rev]; omega)
    (by rw [h.rev, ← h.counter]; exact hb), Option.getD_some, h.rev]
  omega

/-! ### The writing routines of the store -/

/-- What a writing routine does after its script has answered `r`: it owes the event of a committed
entry and hands it over at once, or it owes and hands over nothing.  `wrote` says of an answer
whether there was a write. -/
def HandsOver {c : Cmd} {α : Type} (wrote : α → Bool) (w : World) (r : Reply c) (w' : World)
    (q : Routine (Result α)) : Prop :=
  (∃ e ev x, Committed w.redis w'.redis e ∧ parseStreamEvent e = some ev ∧
    owing w r w' = some ev ∧ wrote x = true ∧ q = .call (.emit ev) (fun _ => .ret (.ok x))) ∨
  owing w r w' = none ∧ q.Uses Cmd.Plain ∧ q.Returns fun x => x.map wrote ≠ .ok true

/-- A routine that issues the script call `c` first, and hands over what it owes then. -/
def Writes {α : Type} (wrote : α → Bool) (c : Cmd) (p : Routine (Result α)) : Prop :=
  p.First c fun r q => ∀ env w w', Consistent w.redis → exec env c w = (r, w') →
    w'.redis.counter < 10 ^ 14 → HandsOver wrote w r w' q

section HandsOver

variable {c : Cmd} {α : Type} {wrote : α → Bool} {w w' : World}

theorem handsOver_error (err err' : GoError) :
    HandsOver wrote w (.error err : Reply c) w' (.ret (.error err')) :=
  Or.inr ⟨owing_error err, trivial, fun h => by cases h⟩

/-- The last step of a write: the event that is owed is handed over. -/
theorem handsOver_emit {e : Entry} {type : EventType} {key : Key} {newBlob : Bytes} {v : c.Val}
    {x : α} (h : Committed w.redis w'.redis e) (hk : e.key = key) (ht : e.type = type)
    (hnew : e.data.getD [] = newBlob) (hw : Consistent w.redis) (hb : w'.redis.counter < 10 ^ 14)
    (hx : wrote x = true) :
    HandsOver wrote w (.ok v : Reply c) w'
      (RedisStore.emit type key (RedisStore.scriptRev (luaTostring e.rev)) newBlob
        ((w.redis.kv key).getD []) (some e.id) >>= fun _ => .ret (.ok x)) := by
  subst hk ht hnew
  have hpos : 0 < e.rev := by
    rw [h.rev]
    have := hw.counter_nonneg
    omega
  have hlt : e.rev < 10 ^ 14 := by
    rw [h.rev, ← h.counter]
    exact hb
  have hparse := parseStreamEvent_eq hpos.le hlt
  refine Or.inl ⟨e, _, x, h, hparse, (owing_of_committed h).trans hparse, hx, ?_⟩
  rw [RedisStore.scriptRev, parseInt_luaTostring hpos.le hlt, Option.getD_some, RedisStore.emit,
    if_neg (by omega), h.prev]
  rfl

theorem Writes.map {p : Routine (Result α)} (h : Writes wrote c p) :
    Writes id c (Except.map wrote <$> p) := by
  refine Prog.First.bind h fun r q hq env w w' hw he hb => ?_
  rcases hq env w w' hw he hb with ⟨e, ev, x, hc, hev, howes, hx, rfl⟩ | ⟨howes, huses, hret⟩
  · exact Or.inl ⟨e, ev, wrote x, hc, hev, howes, hx, rfl⟩
  · refine Or.inr ⟨howes, Prog.uses_bind huses fun _ => trivial, Prog.returns_bind hret fun x hx => ?_⟩
    cases x with
    | error err => exact fun h => by cases h
    | ok v => exact hx

end HandsOver

namespace RedisStore

theorem put_writes (key : Key) (value : Bytes) (leaseID : ℤ) :
    Writes (fun _ => true) (.evalWrite ⟨key, .put, value, leaseID⟩) (put key value leaseID) := by
  refine Prog.first_cmd fun r env w w' hw he hb => ?_
  cases r with
  | error err => exact handsOver_error _ _
  | ok res =>
    rcases evalWrite_ok he with ⟨hop, _⟩ | ⟨e, hc, hk, ht, rfl⟩
    · cases hop
    · exact handsOver_emit hc hk ht rfl hw hb rfl

theorem delete_writes (key : Key) :
    Writes (fun out => out.2.isSome) (.evalWrite ⟨key, .delete, [], 0⟩) (delete key) := by
  refine Prog.first_cmd fun r env w w' hw he hb => ?_
  cases r with
  | error err => exact handsOver_error _ _
  | ok res =>
    rcases evalWrite_ok he with ⟨_, _, rfl, rfl⟩ | ⟨e, hc, hk, ht, rfl⟩
    · exact Or.inr ⟨owing_of_events rfl, trivial, fun h => by cases h⟩
    · obtain ⟨hdata, hsome⟩ := hc.delete ht
      have hk : e.key = key := hk
      rw [hc.prev, hk] at hsome
      obtain ⟨raw, hraw⟩ := Option.isSome_iff_exists.mp hsome
      have hlen := hw.stored_length hraw
      have hpre : (preImage key ((w.redis.kv key).getD [])).isSome := by
        rw [hraw, Option.getD_some, preImage, if_pos (by rintro rfl; simp at hlen)]
        exact decodeKV_isSome hlen
      exact handsOver_emit hc hk ht (by rw [hdata]; rfl) hw hb hpre

theorem txn_writes (key : Key) (expected : ℤ) (op : EventType) (value : Bytes) (leaseID : ℤ) :
    Writes TxnResult.succeeded (.evalTxn ⟨key, expected, value, op, leaseID⟩)
      (txn key expected op value leaseID) := by
  refine Prog.first_cmd fun r env w w' hw he hb => ?_
  cases r with
  | error err => exact handsOver_error _ _
  | ok res =>
    have hr := run_of_exec_ok he
    rw [Cmd.run, Prod.mk.injEq] at hr
    obtain ⟨hr, rfl⟩ := hr
    rcases txnLua_ok hr with ⟨hfails, hsame⟩ | ⟨e, hc, hk, ht, rfl⟩
    · -- a transaction whose compare failed only looks up the revision that it reports
      refine Or.inr ⟨owing_of_events (congrArg Redis.events hsame), ?_, ?_⟩
      · refine Prog.uses_bind (txnRevision_plain res.rev) fun revision => ?_
        rw [if_neg (by simp [hfails])]
        trivial
      · refine Prog.returns_bind (Prog.returns_of_forall (fun _ => trivial) _) fun revision _ => ?_
        rw [if_neg (by simp [hfails])]
        exact fun h => by cases h
    · dsimp only
      rw [txnRevision_of_committed hc hw hb]
      exact handsOver_emit hc hk ht rfl hw hb rfl

end RedisStore

inductive WriteOp where
  | put (key : Key) (value : Bytes) (leaseID : ℤ)
  | delete (key : Key)
  | txn (key : Key) (expectedModRevision : ℤ) (successOp : EventType) (newValue : Bytes)
      (leaseID : ℤ)

namespace WriteOp

def script : WriteOp → Cmd
  | put key value leaseID => .evalWrite ⟨key, .put, value, leaseID⟩
  | delete key => .evalWrite ⟨key, .delete, [], 0⟩
  | txn key expected op value leaseID => .evalTxn ⟨key, expected, value, op, leaseID⟩

/-- An operation, with the answer whether it has written: a delete has if it found a value. -/
def routine : WriteOp → Routine (Result Bool)
  | put key value leaseID => Except.map (fun _ => true) <$> RedisStore.put key value leaseID
  | delete key => Except.map (fun out => out.2.isSome) <$> RedisStore.delete key
  | txn key expected op value leaseID =>
    Except.map RedisStore.TxnResult.succeeded <$> RedisStore.txn key expected op value leaseID

/-- **An operation hands over the event of the entry that its script has appended, and no other.** -/
theorem routine_writes (op : WriteOp) : Writes id op.script op.routine := by
  cases op with
  | put key value leaseID => exact (RedisStore.put_writes key value leaseID).map
  | delete key => exact (RedisStore.delete_writes key).map
  | txn key expected op value leaseID =>
    exact (RedisStore.txn_writes key expected op value leaseID).map

end WriteOp

end REtcd.Store
