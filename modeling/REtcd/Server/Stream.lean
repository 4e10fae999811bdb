import REtcd.Server.System
import REtcd.Store.Metadata

/-!
# What the stream holds

Three facts about every state of every run, on the first two of which the watch side of the server
rests.

* `stream_contiguous`: the stream has one entry for each revision from 1 up to the counter, in
  order; a compare that fails and a delete of an absent key change nothing; and a write that
  succeeds returns the revision of the entry that it appended.
* `stream_replays`: replaying the stream gives the stored blobs, the index lists their keys, and
  each entry carries what its key held just before, so that every delete has a previous value.
* `metadata_exact`: the mod revision, create revision and version of a stored key are what the
  stream says they are.

Numbers pass through Lua's `tostring` on their way into the stream and to the caller, which is
exact for revisions below `10 ^ 14`.
-/

namespace REtcd.Server

open Base Store

/-! ### Numbers that the scripts return -/

theorem scriptRev_luaTostring {n : ℤ} (h : 0 ≤ n) (h' : n < 10 ^ 14) :
    RedisStore.scriptRev (luaTostring n) = n := by
  rw [RedisStore.scriptRev, parseInt_luaTostring h h', Option.getD_some]

/-! ### Script calls of a run -/

section Calls

variable {reqs : List Request} {ms : List (ℕ × Env)}

theorem call_counter_le {x : Call Cmd Reply World} (hx : x ∈ Pool.calls exec (start reqs) ms) :
    x.after.redis.counter ≤ (Pool.run exec (start reqs) ms).shared.redis.counter := by
  obtain ⟨hi, hc, env, he⟩ := calls_consistent reqs ms x hx
  have hafter : Consistent x.after.redis := by
    have := exec_consistent env x.cmd x.before hi hc
    rw [he] at this
    exact this
  rw [hafter.counter, (consistent_run reqs ms).counter]
  exact_mod_cast (call_isPrefix_run reqs ms x hx).length_le

variable {i : ℕ} {w w' : World}

theorem call_failed_compare {a : TxnArgs} {r : Reply (.evalTxn a)}
    (hx : ⟨i, .evalTxn a, r, w, w'⟩ ∈ Pool.calls exec (start reqs) ms)
    (h : txnCompare a.expected (w.redis.kv a.key) = false) : w' = w := by
  obtain ⟨_, _, env, he⟩ := call_exec hx
  have := exec_evalTxn_of_fails env h
  rw [he] at this
  exact this

theorem call_absent_delete {a : WriteArgs} {r : Reply (.evalWrite a)}
    (hx : ⟨i, .evalWrite a, r, w, w'⟩ ∈ Pool.calls exec (start reqs) ms) (hop : a.op = .delete)
    (h : w.redis.kv a.key = none) : w' = w := by
  obtain ⟨_, _, env, he⟩ := call_exec hx
  have := exec_evalWrite_of_absent env hop h
  rw [he] at this
  exact this

theorem call_rev {x : Call Cmd Reply World} {e : Entry}
    (hb : (Pool.run exec (start reqs) ms).shared.redis.counter < 10 ^ 14)
    (hx : x ∈ Pool.calls exec (start reqs) ms) (hc : Committed x.before.redis x.after.redis e) :
    RedisStore.scriptRev (luaTostring e.rev) = e.rev := by
  have hle := call_counter_le hx
  have h0 := (calls_consistent reqs ms x hx).2.1.counter_nonneg
  have hr := hc.rev
  rw [hc.counter] at hle
  exact scriptRev_luaTostring (by omega) (by omega)

/-- **A `write.lua` call that has something to do and answers returns the revision of the entry
that it appended.** -/
theorem call_write {a : WriteArgs} {r : WriteReply}
    (hb : (Pool.run exec (start reqs) ms).shared.redis.counter < 10 ^ 14)
    (hx : ⟨i, .evalWrite a, .ok r, w, w'⟩ ∈ Pool.calls exec (start reqs) ms)
    (h : a.op = .put ∨ (w.redis.kv a.key).isSome) :
    ∃ e, w'.redis.events = w.redis.events ++ [e] ∧ e.key = a.key ∧ e.type = a.op ∧
      e.rev = RedisStore.scriptRev r.rev := by
  obtain ⟨_, _, env, he⟩ := call_exec hx
  rcases evalWrite_ok he with ⟨hop, hk, _, _⟩ | ⟨e, hc, hk, ht, rfl⟩
  · rcases h with h | h
    · rw [hop] at h
      cases h
    · rw [hk] at h
      cases h
  · exact ⟨e, hc.events, hk, ht, (call_rev hb hx hc).symm⟩

/-- **A `txn.lua` call that succeeds returns the revision of the entry that it appended.** -/
theorem call_txn {a : TxnArgs} {r : TxnReply}
    (hb : (Pool.run exec (start reqs) ms).shared.redis.counter < 10 ^ 14)
    (hx : ⟨i, .evalTxn a, .ok r, w, w'⟩ ∈ Pool.calls exec (start reqs) ms)
    (h : r.succeeded = true) :
    ∃ e, w'.redis.events = w.redis.events ++ [e] ∧ e.key = a.key ∧ e.type = .put ∧
      e.rev = RedisStore.scriptRev r.rev ∧ 0 < e.rev := by
  obtain ⟨hop, hcons, env, he⟩ := call_exec hx
  rcases evalTxn_ok hop he with ⟨_, _, hs, _⟩ | ⟨_, e, hc, hk, ht, rfl⟩
  · rw [hs] at h
    cases h
  · refine ⟨e, hc.events, hk, ht, (call_rev hb hx hc).symm, ?_⟩
    have := hcons.counter_nonneg
    have := hc.rev
    omega

end Calls

/-! ### What the answers carry -/

theorem serve_put_first (req : PutRequest) :
    (Request.serve (.put req)).First (.evalWrite ⟨req.key, .put, req.value, req.lease⟩)
      (fun r q => q.Returns fun a => ∀ resp, a = .put (.ok resp) →
        ∃ res, r = .ok res ∧ resp.header.revision = RedisStore.scriptRev res.rev) := by
  refine Prog.First.bind (K := fun r q => q.Returns fun x => ∀ resp, x = .ok resp →
    ∃ res, r = .ok res ∧ resp.header.revision = RedisStore.scriptRev res.rev)
    ((RedisStore.put_first _ _ _).bind fun r q hq => Prog.returns_bind hq.2 fun x hx => ?_)
    fun r q hq => Prog.returns_bind hq fun x hx => ?_
  · subst hx
    cases r with
    | error err => exact fun resp h => nomatch h
    | ok res =>
      rintro resp ⟨⟩
      exact ⟨res, rfl, rfl⟩
  · rintro resp ⟨⟩
    exact hx resp rfl

theorem serve_txn_first {req : TxnRequest} {a : TxnArgs} (h : KVServer.swapArgs req = some a) :
    (Request.serve (.txn req)).First (.evalTxn a)
      (fun r q => q.Returns fun x => ∀ resp, x = .txn (.ok resp) → ∃ res, r = .ok res ∧
        resp.succeeded = res.succeeded ∧ (RedisStore.scriptRev res.rev ≠ 0 →
          resp.header.revision = RedisStore.scriptRev res.rev)) := by
  refine (KVServer.txn_first h).bind fun r q hq => Prog.returns_bind hq.2 fun x hx => ?_
  rintro resp ⟨⟩
  exact hx resp rfl

section Answers

variable {reqs : List Request} {ms : List (ℕ × Env)} {i : ℕ}

theorem put_answered {req : PutRequest} {resp : PutResponse} (hreq : reqs[i]? = some (.put req))
    (ha : (Pool.run exec (start reqs) ms).procs[i]? = some (.ret (.put (.ok resp)))) :
    ∃ r w w', ⟨i, .evalWrite ⟨req.key, .put, req.value, req.lease⟩, .ok r, w, w'⟩ ∈
        Pool.calls exec (start reqs) ms ∧ resp.header.revision = RedisStore.scriptRev r.rev := by
  obtain ⟨r, w, w', hx, hret⟩ := answered_first hreq (serve_put_first req) ha
  obtain ⟨res, rfl, hrev⟩ := hret resp rfl
  exact ⟨res, w, w', hx, hrev⟩

theorem txn_answered {req : TxnRequest} {a : TxnArgs} {resp : TxnResponse}
    (hreq : reqs[i]? = some (.txn req)) (hs : KVServer.swapArgs req = some a)
    (ha : (Pool.run exec (start reqs) ms).procs[i]? = some (.ret (.txn (.ok resp)))) :
    ∃ r w w', ⟨i, .evalTxn a, .ok r, w, w'⟩ ∈ Pool.calls exec (start reqs) ms ∧
      resp.succeeded = r.succeeded ∧ (RedisStore.scriptRev r.rev ≠ 0 →
        resp.header.revision = RedisStore.scriptRev r.rev) := by
  obtain ⟨r, w, w', hx, hret⟩ := answered_first hreq (serve_txn_first hs) ha
  obtain ⟨res, rfl, hrev⟩ := hret resp rfl
  exact ⟨res, w, w', hx, hrev⟩

end Answers

/-! ### The stream counts the revisions -/

/-- **The stream has one entry for each revision up to the counter, in order.**  A failed compare
and the delete of an absent key add nothing, and every write that succeeds returns the revision
of its own entry: the script calls, and the answers to `Put` and to a create or an update. -/
theorem stream_contiguous (reqs : List Request) (ms : List (ℕ × Env))
    (hb : (Pool.run exec (start reqs) ms).shared.redis.counter < 10 ^ 14) :
    let s := (Pool.run exec (start reqs) ms).shared.redis
    let answer := fun i : ℕ => (Pool.run exec (start reqs) ms).procs[i]?
    let history := Pool.calls exec (start reqs) ms
    s.events.map (fun e => parseInt (luaTostring e.rev)) =
        (List.range s.counter.toNat).map (fun i : ℕ => some (i + 1 : ℤ)) ∧
      (∀ i a r w w', ⟨i, .evalTxn a, r, w, w'⟩ ∈ history →
        txnCompare a.expected (w.redis.kv a.key) = false → w'.redis = w.redis) ∧
      (∀ i a r w w', ⟨i, .evalWrite a, r, w, w'⟩ ∈ history →
        a.op = .delete → w.redis.kv a.key = none → w'.redis = w.redis) ∧
      (∀ i a r w w', ⟨i, .evalWrite a, .ok r, w, w'⟩ ∈ history →
        a.op = .put ∨ (w.redis.kv a.key).isSome →
        ∃ e, w'.redis.events = w.redis.events ++ [e] ∧ e.key = a.key ∧ e.type = a.op ∧
          e.rev = RedisStore.scriptRev r.rev) ∧
      (∀ i a r w w', ⟨i, .evalTxn a, .ok r, w, w'⟩ ∈ history → r.succeeded = true →
        ∃ e, w'.redis.events = w.redis.events ++ [e] ∧ e.key = a.key ∧ e.type = .put ∧
          e.rev = RedisStore.scriptRev r.rev) ∧
      (∀ i req resp, reqs[i]? = some (.put req) → answer i = some (.ret (.put (.ok resp))) →
        ∃ r w w' e, ⟨i, .evalWrite ⟨req.key, .put, req.value, req.lease⟩, r, w, w'⟩ ∈ history ∧
          w'.redis.events = w.redis.events ++ [e] ∧ e.key = req.key ∧
          e.rev = resp.header.revision) ∧
      (∀ i req a resp, reqs[i]? = some (.txn req) → KVServer.swapArgs req = some a →
        answer i = some (.ret (.txn (.ok resp))) → resp.succeeded = true →
        ∃ r w w' e, ⟨i, .evalTxn a, r, w, w'⟩ ∈ history ∧
          w'.redis.events = w.redis.events ++ [e] ∧ e.key = a.key ∧
          e.rev = resp.header.revision) := by
  intro s answer history
  refine ⟨(consistent_run reqs ms).revs_text hb, ?_, ?_, ?_, ?_, ?_, ?_⟩
  · intro i a r w w' hx h
    rw [call_failed_compare hx h]
  · intro i a r w w' hx hop h
    rw [call_absent_delete hx hop h]
  · intro i a r w w' hx h
    exact call_write hb hx h
  · intro i a r w w' hx h
    obtain ⟨e, hev, hk, ht, hr, _⟩ := call_txn hb hx h
    exact ⟨e, hev, hk, ht, hr⟩
  · intro i req resp hreq ha
    obtain ⟨r, w, w', hx, hrev⟩ := put_answered hreq ha
    obtain ⟨e, hev, hk, _, hr⟩ := call_write hb hx (Or.inl rfl)
    exact ⟨.ok r, w, w', e, hx, hev, hk, hr.trans hrev.symm⟩
  · intro i req a resp hreq hs ha hsucc
    obtain ⟨r, w, w', hx, hout, hrev⟩ := txn_answered hreq hs ha
    obtain ⟨e, hev, hk, _, hr, hpos⟩ := call_txn hb hx (hout ▸ hsucc)
    exact ⟨.ok r, w, w', e, hx, hev, hk, hr.trans (hrev (by omega)).symm⟩

def putThenDelete : List Request := [.put ⟨[97], [1], 0, false⟩, .deleteRange ⟨[97], []⟩]

def inTurn : List (ℕ × Env) :=
  [(0, .plain 5), (0, .plain 5), (1, .plain 5), (1, .plain 5), (1, .plain 5)]

theorem putThenDelete_contiguous :
    (Pool.run exec (start putThenDelete) inTurn).shared.redis.counter < 10 ^ 14 ∧
    (Pool.run exec (start putThenDelete) inTurn).shared.redis.events.map
      (fun e => parseInt (luaTostring e.rev)) = [some 1, some 2] := by
  have hcount : (Pool.run exec (start putThenDelete) inTurn).shared.redis.counter = 2 := by decide
  have hb : (Pool.run exec (start putThenDelete) inTurn).shared.redis.counter < 10 ^ 14 := by
    rw [hcount]
    decide
  refine ⟨hb, ?_⟩
  rw [(stream_contiguous putThenDelete inTurn hb).1, hcount]
  rfl

/-! ### The stream replays to the store -/

theorem call_prevData {reqs : List Request} {ms : List (ℕ × Env)} {x : Call Cmd Reply World}
    {e : Entry} (hx : x ∈ Pool.calls exec (start reqs) ms)
    (he : x.after.redis.events = x.before.redis.events ++ [e]) :
    e.prevData = x.before.redis.kv e.key := by
  obtain ⟨hi, _, env, hexec⟩ := calls_consistent reqs ms x hx
  have heff := exec_effect env hi x.before
  rw [hexec] at heff
  rcases heff with hf | ⟨e', hc⟩
  · have := congrArg List.length (hf.events.symm.trans he)
    simp at this
  · have hee : [e'] = [e] := List.append_cancel_left (hc.events.symm.trans he)
    cases hee
    exact hc.prev

/-- **Replaying the stream gives the store**: the blobs, and in the index their keys.  Every entry
carries the blob that its key held just before it, and every delete event a previous value. -/
theorem stream_replays (reqs : List Request) (ms : List (ℕ × Env))
    (hb : (Pool.run exec (start reqs) ms).shared.redis.counter < 10 ^ 14) :
    let s := (Pool.run exec (start reqs) ms).shared.redis
    replayed s.events = s.kv ∧
      (∀ k, k ∈ s.keyindex ↔ (s.kv k).isSome) ∧
      (∀ (i : ℕ) e, s.events[i]? = some e → e.prevData = replayed (s.events.take i) e.key) ∧
      (∀ x ∈ Pool.calls exec (start reqs) ms, ∀ e,
        x.after.redis.events = x.before.redis.events ++ [e] →
        e.prevData = x.before.redis.kv e.key) ∧
      (∀ e ∈ s.events, e.type = .delete →
        ∃ ev, parseStreamEvent e = some ev ∧ ev.type = .delete ∧ ev.prevKV.isSome) := by
  intro s
  have h := consistent_run reqs ms
  refine ⟨h.blobs.symm, h.index, h.images, fun x hx e he => call_prevData hx he, ?_⟩
  intro e he ht
  obtain ⟨hpos, hle⟩ := h.rev_mem he
  obtain ⟨raw, hraw⟩ := Option.isSome_iff_exists.mp (h.deletes e he ht).2
  have hlen : 32 ≤ raw.length := h.prevData_length he hraw
  refine ⟨_, by rw [parseStreamEvent, parseInt_luaTostring hpos.le (by omega)], ht, ?_⟩
  have hne : raw ≠ [] := by
    rintro rfl
    simp at hlen
  simp only [hraw, Option.bind_some, if_pos hne]
  exact decodeKV_isSome hlen

theorem putThenDelete_replays :
    (Pool.run exec (start putThenDelete) inTurn).shared.redis.counter < 10 ^ 14 ∧
    replayed (Pool.run exec (start putThenDelete) inTurn).shared.redis.events =
      (Pool.run exec (start putThenDelete) inTurn).shared.redis.kv ∧
    (Pool.run exec (start putThenDelete) inTurn).shared.redis.events.map Entry.type =
      [.put, .delete] := by
  have hb : (Pool.run exec (start putThenDelete) inTurn).shared.redis.counter < 10 ^ 14 := by
    decide
  exact ⟨hb, (stream_replays putThenDelete inTurn hb).1, by decide⟩

/-! ### The numbers of a stored key -/

/-- **In every state of every run the stored blobs carry the right numbers.** -/
theorem stamped_run (reqs : List Request) (ms : List (ℕ × Env)) :
    Stamped (Pool.run exec (start reqs) ms).shared.redis := by
  have hboth : Consistent (Pool.run exec (start reqs) ms).shared.redis ∧
      Stamped (Pool.run exec (start reqs) ms).shared.redis :=
    Pool.run_inv (I := fun w => Consistent w.redis ∧ Stamped w.redis)
      (fun env c w hc h => ⟨exec_consistent env c w hc h.1, exec_stamped env hc h.1 h.2⟩)
      (start_issued reqs) ⟨consistent_empty, stamped_empty⟩ ms
  exact hboth.2

/-- **The metadata of every stored key is exact**: the mod revision is the revision of its last
entry, the create revision that of its first put since its last delete, and the version the number
of its puts since then.  So the three are in order, and no two keys have one mod revision. -/
theorem metadata_exact (reqs : List Request) (ms : List (ℕ × Env)) :
    let s := (Pool.run exec (start reqs) ms).shared.redis
    (∀ k raw, s.kv k = some raw →
      ∃ kv first last, decodeKV k raw = some kv ∧
        lastEntry k s.events = some last ∧ kv.modRevision = last.rev ∧
        (lifetime k s.events).head? = some first ∧ kv.createRevision = first.rev ∧
        kv.version = (lifetime k s.events).length ∧
        1 ≤ kv.createRevision ∧ kv.createRevision ≤ kv.modRevision ∧ kv.modRevision ≤ s.counter ∧
        (kv.version = 1 ↔ kv.createRevision = kv.modRevision)) ∧
      ∀ k k' raw raw' kv kv', s.kv k = some raw → s.kv k' = some raw' →
        decodeKV k raw = some kv → decodeKV k' raw' = some kv' →
        kv.modRevision = kv'.modRevision → k = k' := by
  intro s
  have hs : Consistent s := consistent_run reqs ms
  have hst : Stamped s := stamped_run reqs ms
  constructor
  · intro k raw hk
    obtain ⟨kv, first, last, hkv, hlast, hmod, hfirst, hcreate, hversion⟩ := hst.decode hs hk
    have hne : lifetime k s.events ≠ [] := by
      intro hnil
      rw [hnil] at hfirst
      cases hfirst
    obtain ⟨hle, hone⟩ := hs.lifetime_length hfirst ((lifetime_getLast hne).trans hlast)
    have hposf := hs.rev_mem (mem_lifetime (List.mem_of_head? hfirst)).1
    have hposl := hs.rev_mem (mem_of_lastEntry hlast).1
    refine ⟨kv, first, last, hkv, hlast, hmod, hfirst, hcreate, hversion, ?_, ?_, ?_, ?_⟩
    · omega
    · omega
    · omega
    · rw [hcreate, hmod, ← hone, hversion]
      exact_mod_cast Iff.rfl
  · intro k k' raw raw' kv kv' hk hk' hkv hkv' hmod
    obtain ⟨x, _, last, hx, hlast, hm, _⟩ := hst.decode hs hk
    obtain ⟨x', _, last', hx', hlast', hm', _⟩ := hst.decode hs hk'
    rw [hkv, Option.some.injEq] at hx
    rw [hkv', Option.some.injEq] at hx'
    subst hx hx'
    obtain ⟨hmem, rfl⟩ := mem_of_lastEntry hlast
    obtain ⟨hmem', rfl⟩ := mem_of_lastEntry hlast'
    rw [hs.eq_of_rev_eq hmem hmem' (by omega)]

/-- A key that is put, deleted and put twice again is at version 2 since revision 3. -/
example :
    let reqs := [.put ⟨[97], [1], 0, false⟩, .deleteRange ⟨[97], []⟩, .put ⟨[97], [2], 0, false⟩,
      .put ⟨[97], [3], 0, false⟩]
    let ms := [0, 0, 1, 1, 1, 2, 2, 3, 3].map fun i => (i, Env.plain 5)
    ((Pool.run exec (start reqs) ms).shared.redis.kv [97]).bind (decodeKV [97]) =
      some ⟨[97], [3], 3, 4, 2, 0⟩ := by decide

end REtcd.Server
