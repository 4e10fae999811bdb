import REtcd.Server.Stream

/-!
# Compare and swap

A create or an update goes to `txn.lua`, which compares and writes in one step.  The revisions of
the stream are positions in a log that only grows, so the mod revision that an update compares
with names one write for good: `swap_one_winner` says that of all the transactions that compare a
key with one positive revision at most one succeeds, also when the key is deleted and created
again, and that between two successful creates of a key there is a delete of it.
-/

namespace REtcd.Server

open Base Store

/-! ### When the compare holds -/

theorem lastEntry_of_compare {s : Redis} (h : Consistent s) {key : Key} {expected : ℤ}
    (hpos : 0 < expected) (hc : txnCompare expected (s.kv key) = true) :
    ∃ e, lastEntry key s.events = some e ∧ e.type = .put ∧ e.rev = expected := by
  rw [txnCompare, if_neg (by omega), decide_eq_true_eq] at hc
  cases hk : s.kv key with
  | none =>
    rw [hk] at hc
    exact absurd hc hpos.ne
  | some raw =>
    rw [hk] at hc
    obtain ⟨e, he, ht, hm⟩ := h.field_mod hk
    exact ⟨e, he, ht, hm.symm.trans hc⟩

theorem absent_of_compare {s : Redis} (h : Consistent s) {key : Key} {expected : ℤ}
    (he : expected = -1 ∨ expected = 0) (hc : txnCompare expected (s.kv key) = true) :
    s.kv key = none := by
  rcases he with rfl | rfl
  · simpa [txnCompare] using hc
  · cases hk : s.kv key with
    | none => rfl
    | some raw =>
      obtain ⟨e, he, _, hm⟩ := h.field_mod hk
      have := (h.rev_mem (mem_of_lastEntry he).1).1
      rw [hk, txnCompare, if_neg (by decide), decide_eq_true_eq] at hc
      omega

/-! ### Successful transactions -/

section Winners

variable {reqs : List Request} {ms : List (ℕ × Env)} {i j : ℕ}

def Won (reqs : List Request) (ms : List (ℕ × Env)) (i : ℕ) (a : TxnArgs) : Prop :=
  ∃ req resp, reqs[i]? = some (.txn req) ∧ KVServer.swapArgs req = some a ∧
    (Pool.run exec (start reqs) ms).procs[i]? = some (.ret (.txn (.ok resp))) ∧
    resp.succeeded = true

theorem Won.call {a : TxnArgs} (h : Won reqs ms i a) :
    ∃ r w w' e, ⟨i, .evalTxn a, r, w, w'⟩ ∈ Pool.calls exec (start reqs) ms ∧
      Consistent w.redis ∧ Consistent w'.redis ∧
      txnCompare a.expected (w.redis.kv a.key) = true ∧
      Committed w.redis w'.redis e ∧ e.key = a.key ∧ e.type = .put := by
  obtain ⟨req, resp, hreq, hs, ha, hsucc⟩ := h
  obtain ⟨r, w, w', hx, hout, _⟩ := txn_answered hreq hs ha
  obtain ⟨hop, hcons, env, hexec⟩ := call_exec hx
  rcases evalTxn_ok hop hexec with ⟨_, _, hf, _⟩ | ⟨hc, e, he, hk, ht, _⟩
  · rw [← hout, hsucc] at hf
    cases hf
  · exact ⟨.ok r, w, w', e, hx, hcons, hcons.commit he, hc, he, hk, ht⟩

theorem calls_ordered {c d : Cmd} {r : Reply c} {q : Reply d} {w w' v v' : World} (hij : i ≠ j)
    (hx : ⟨i, c, r, w, w'⟩ ∈ Pool.calls exec (start reqs) ms)
    (hy : ⟨j, d, q, v, v'⟩ ∈ Pool.calls exec (start reqs) ms) :
    w'.redis.events <+: v.redis.events ∨ v'.redis.events <+: w.redis.events := by
  refine pairwise_or (calls_isPrefix reqs ms) hx hy fun he => hij ?_
  cases he
  rfl

theorem lastEntry_after {s s' t : Redis} {e : Entry} (ht : Consistent t) (hc : Committed s s' e)
    (hp : s'.events <+: t.events) :
    ∃ x, lastEntry e.key t.events = some x ∧ s.counter < x.rev := by
  have hmem : e ∈ t.events := hp.subset (by rw [hc.events]; simp)
  obtain ⟨x, hx, hle⟩ := ht.le_lastEntry hmem
  have := hc.rev
  exact ⟨x, hx, by omega⟩

/-- No later state meets the compare of a positive revision that has won once. -/
theorem compare_after_win {s s' t : Redis} {e : Entry} {expected : ℤ} (hs : Consistent s)
    (ht : Consistent t) (hpos : 0 < expected) (hc : Committed s s' e)
    (hwon : txnCompare expected (s.kv e.key) = true) (hp : s'.events <+: t.events) :
    txnCompare expected (t.kv e.key) = false := by
  by_contra hne
  obtain ⟨x, hx, _, hxr⟩ := lastEntry_of_compare hs hpos hwon
  obtain ⟨y, hy, _, hyr⟩ := lastEntry_of_compare ht hpos (by simpa using hne)
  obtain ⟨z, hz, hlt⟩ := lastEntry_after ht hc hp
  have hle := (hs.rev_mem (mem_of_lastEntry hx).1).2
  rw [hy, Option.some.injEq] at hz
  subst hz
  omega

def DeletedBetween (key : Key) (l l' : List Entry) : Prop :=
  ∃ mid, l' = l ++ mid ∧ ∃ e ∈ mid, e.key = key ∧ e.type = .delete

/-- A key that a commit has put and that is absent later was deleted in between. -/
theorem deletedBetween_of_absent {s s' t : Redis} {e : Entry} (hs : Consistent s)
    (ht : Consistent t) (hc : Committed s s' e) (hput : e.type = .put)
    (hp : s'.events <+: t.events) (habs : t.kv e.key = none) :
    DeletedBetween e.key s'.events t.events := by
  obtain ⟨mid, hmid⟩ := hp
  refine ⟨mid, hmid.symm, ?_⟩
  obtain ⟨x, hx, hlt⟩ := lastEntry_after ht hc ⟨mid, hmid⟩
  obtain ⟨hxm, hxk⟩ := mem_of_lastEntry hx
  have htype := ht.deleted_last hx habs
  rw [← hmid, hc.events, List.append_assoc, List.mem_append, List.mem_append,
    List.mem_singleton] at hxm
  rcases hxm with hxm | rfl | hxm
  · have := (hs.rev_mem hxm).2
    omega
  · rw [htype] at hput
    cases hput
  · exact ⟨x, hxm, hxk, htype⟩

end Winners

/-! ### One winner -/

/-- What `RedisStore.Txn` reports when its compare fails: the store as it was, and the value that
the key held. -/
theorem txn_failed (key : Key) (expected : ℤ) (value : Bytes) (lease : ℤ)
    (t : ℕ → List (Env × Cmd) × Env) (w : World) (out : RedisStore.TxnResult)
    (ho : (Prog.among exec (RedisStore.txn key expected .put value lease) t w).1 = .ok out)
    (hs : out.succeeded = false) :
    (exec (t 0).2 (.evalTxn ⟨key, expected, value, .put, lease⟩)
        (Prog.others exec (t 0).1 w)).2 = Prog.others exec (t 0).1 w ∧
      out.current = ((Prog.others exec (t 0).1 w).redis.kv key).bind (decodeKV key) := by
  obtain ⟨q, hq, ham⟩ := Prog.among_first (RedisStore.txn_first key expected .put value lease) t w
  rw [ham] at ho
  obtain ⟨res, hr, hsucc, hcur, _⟩ := Prog.among_returns hq.2 _ _ out ho
  rw [hs] at hsucc
  rcases evalTxn_ok rfl (Prod.ext hr rfl : _ = (Except.ok res, _)) with
    ⟨hc, hw, _, hblob⟩ | ⟨_, e, _, _, _, he⟩
  · refine ⟨hw, ?_⟩
    rw [hcur hs, hblob]
    cases (Prog.others exec (t 0).1 w).redis.kv key <;> rfl
  · rw [he] at hsucc
    cases hsucc

/-- **Compare-and-swap admits one winner.**  An update that compares with a positive revision
succeeds only if the last entry of its key is a put with that revision, and of all transactions
that compare a key with one positive revision at most one succeeds.  Between two successful
creates of a key there is a delete of it.  A transaction whose compare fails changes nothing and
reports the value that it found. -/
theorem swap_one_winner (reqs : List Request) (ms : List (ℕ × Env)) :
    (∀ i a, Won reqs ms i a → 0 < a.expected →
      ∃ r w w' e, ⟨i, .evalTxn a, r, w, w'⟩ ∈ Pool.calls exec (start reqs) ms ∧
        lastEntry a.key w.redis.events = some e ∧ e.type = .put ∧ e.rev = a.expected) ∧
      (∀ i j a b, Won reqs ms i a → Won reqs ms j b → a.key = b.key →
        a.expected = b.expected → 0 < a.expected → i = j) ∧
      (∀ i j a b, Won reqs ms i a → Won reqs ms j b → i ≠ j → a.key = b.key →
        (a.expected = -1 ∨ a.expected = 0) → (b.expected = -1 ∨ b.expected = 0) →
        ∃ r w w' q v v', ⟨i, .evalTxn a, r, w, w'⟩ ∈ Pool.calls exec (start reqs) ms ∧
          ⟨j, .evalTxn b, q, v, v'⟩ ∈ Pool.calls exec (start reqs) ms ∧
          (DeletedBetween a.key w'.redis.events v.redis.events ∨
            DeletedBetween a.key v'.redis.events w.redis.events)) ∧
      (∀ i a r w w', ⟨i, .evalTxn a, r, w, w'⟩ ∈ Pool.calls exec (start reqs) ms →
        txnCompare a.expected (w.redis.kv a.key) = false → w' = w) ∧
      (∀ key expected value lease t w out,
        (Prog.among exec (RedisStore.txn key expected .put value lease) t w).1 = .ok out →
        out.succeeded = false →
        (exec (t 0).2 (.evalTxn ⟨key, expected, value, .put, lease⟩)
            (Prog.others exec (t 0).1 w)).2 = Prog.others exec (t 0).1 w ∧
          out.current = ((Prog.others exec (t 0).1 w).redis.kv key).bind (decodeKV key)) := by
  refine ⟨?_, ?_, ?_, fun i a r w w' => call_failed_compare, txn_failed⟩
  · intro i a hwon hpos
    obtain ⟨r, w, w', e, hx, hcons, _, hcomp, _⟩ := hwon.call
    obtain ⟨x, hx', ht, hr⟩ := lastEntry_of_compare hcons hpos hcomp
    exact ⟨r, w, w', x, hx, hx', ht, hr⟩
  · intro i j a b hi hj hkey hexp hpos
    obtain ⟨r, w, w', e, hx, hw, _, hcomp, he, hek, _⟩ := hi.call
    obtain ⟨q, v, v', f, hy, hv, _, hcomp', hf, hfk, _⟩ := hj.call
    by_contra hij
    rcases calls_ordered hij hx hy with hle | hle
    · have := compare_after_win hw hv hpos he (hek ▸ hcomp) hle
      rw [hek, hkey, hexp, hcomp'] at this
      cases this
    · have := compare_after_win hv hw (hexp ▸ hpos) hf (hfk ▸ hcomp') hle
      rw [hfk, ← hkey, ← hexp, hcomp] at this
      cases this
  · intro i j a b hi hj hij hkey ha hb
    obtain ⟨r, w, w', e, hx, hw, _, hcomp, he, hek, het⟩ := hi.call
    obtain ⟨q, v, v', f, hy, hv, _, hcomp', hf, hfk, hft⟩ := hj.call
    refine ⟨r, w, w', q, v, v', hx, hy, ?_⟩
    have habs := absent_of_compare hw ha hcomp
    have habs' := absent_of_compare hv hb hcomp'
    rcases calls_ordered hij hx hy with hle | hle
    · left
      rw [← hek]
      exact deletedBetween_of_absent hw hv he het hle (by rw [hek, hkey]; exact habs')
    · right
      rw [hkey, ← hfk]
      exact deletedBetween_of_absent hv hw hf hft hle (by rw [hfk, ← hkey]; exact habs)

end REtcd.Server
