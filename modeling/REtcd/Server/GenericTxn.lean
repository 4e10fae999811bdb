import REtcd.Server.ListWatch

/-!
# A conditional delete on the generic path

A transaction that is neither a create nor an update is evaluated command by command: the compare
is a `GET`, and the operations run afterwards whatever has happened to the key since.  For the
transaction "if the mod revision of `k` is `n`, delete `k`" the delete removes the version that
the compare saw iff no write of `k` commits between the two commands (`conditionalDelete_removes`).
The comment at `genericTxn` names this window; `conditionalDelete_removes_newer` is a run in which
a newer version is removed.
-/

namespace REtcd.Server

open Base Store

/-- "If the mod revision of `k` is `n`, delete `k`, else return it." -/
def conditionalDelete (k : Key) (n : ℤ) (countOnly : Bool) : TxnRequest where
  compare := [⟨.equal, .mod, k, .modRevision n⟩]
  success := [.deleteRange ⟨k, []⟩]
  failure := [.range ⟨k, [], countOnly⟩]

def modRevisionOf (kv : Option KeyValue) : ℤ := (kv.map KeyValue.modRevision).getD 0

theorem compareKV_conditionalDelete (k : Key) (n : ℤ) (kv : Option KeyValue) :
    KVServer.compareKV ⟨.equal, .mod, k, .modRevision n⟩ kv = decide (modRevisionOf kv = n) := rfl

/-! ### The two commands -/

/-- The compare issues one `GET` and decides by what it reads. -/
theorem evalCompares_first (c : Compare) :
    (KVServer.evalCompares [c]).First (.get c.key) (fun r q => match r with
      | .error _ => ∃ err, q = .ret (.error err)
      | .ok v => q = .ret (.ok (KVServer.compareKV c (v.bind (decodeKV c.key))))) := by
  refine Prog.First.bind (K := fun r q => match r with
    | .error _ => ∃ err, q = .ret (.error err)
    | .ok v => q = .ret (.ok (KVServer.compareKV c (v.bind (decodeKV c.key))))) ?_ fun r q hq => ?_
  · refine Prog.First.bind (K := fun r q => match r with
      | .error _ => ∃ err, q = .ret (.error err)
      | .ok v => q = .ret (.ok (v.bind (decodeKV c.key)))) (Prog.first_cmd fun r => ?_)
      fun r q hq => ?_
    · rcases r with err | _ | data
      · exact ⟨_, rfl⟩
      · rfl
      · rfl
    · cases r with
      | error err =>
        obtain ⟨err, rfl⟩ := hq
        exact ⟨err, rfl⟩
      | ok v =>
        subst hq
        rfl
  · cases r with
    | error err =>
      obtain ⟨err, rfl⟩ := hq
      exact ⟨err, rfl⟩
    | ok v =>
      subst hq
      dsimp only
      rw [Prog.ret_bind]
      cases KVServer.compareKV c (v.bind (decodeKV c.key)) <;> rfl

theorem first_ok_bind {α β : Type} {c : Cmd} {p : Routine (Result α)}
    {f : Result α → Routine (Result β)}
    (hp : p.First c fun r q => q.Returns fun x => ∀ out, x = .ok out → ∃ res, r = .ok res)
    (hf : ∀ err, ∃ err', f (.error err) = .ret (.error err')) :
    (p >>= f).First c fun r q => q.Returns fun x => ∀ out, x = .ok out → ∃ res, r = .ok res := by
  refine hp.bind fun r q hq => Prog.returns_bind hq fun x hx => ?_
  cases x with
  | error err =>
    obtain ⟨err', he⟩ := hf err
    rw [he]
    exact fun out h => nomatch h
  | ok out => exact Prog.returns_of_forall (fun _ _ _ => hx out rfl) _

theorem executeOps_delete_first (k : Key) :
    (KVServer.executeOps [.deleteRange ⟨k, []⟩]).First (.evalWrite ⟨k, .delete, [], 0⟩)
      (fun r q => q.Returns fun x => ∀ out, x = .ok out → ∃ res, r = .ok res) := by
  have hdelete : (RedisStore.delete k).First (.evalWrite ⟨k, .delete, [], 0⟩)
      (fun r q => q.Returns fun x => ∀ out, x = .ok out → ∃ res, r = .ok res) := by
    refine (RedisStore.delete_first k).mono fun r q hq => Prog.returns_mono hq.2 ?_
    rintro x rfl out hout
    cases r with
    | error err => cases hout
    | ok res => exact ⟨res, rfl⟩
  refine first_ok_bind (first_ok_bind (first_ok_bind (first_ok_bind hdelete ?_) ?_) ?_) ?_
  all_goals exact fun err => ⟨err, rfl⟩

/-- The transaction issues the `GET` of its compare.  If the compare holds, the delete script comes
next, and the answer is an error if that fails; else the answer says that the compare failed. -/
theorem serve_conditionalDelete_first (k : Key) (n : ℤ) (countOnly : Bool) :
    (Request.serve (.txn (conditionalDelete k n countOnly))).First (.get k) (fun r q => match r with
      | .error _ => ∃ err, q = .ret (.txn (.error err))
      | .ok v =>
        if modRevisionOf (v.bind (decodeKV k)) = n then
          q.First (.evalWrite ⟨k, .delete, [], 0⟩)
            (fun r' q' => q'.Returns fun a => ∀ resp, a = .txn (.ok resp) → ∃ res, r' = .ok res)
        else q.Returns fun a => ∀ resp, a = .txn (.ok resp) → resp.succeeded = false) := by
  have hgen : Request.serve (.txn (conditionalDelete k n countOnly)) =
      Answer.txn <$> KVServer.genericTxn (conditionalDelete k n countOnly) := rfl
  rw [hgen, Prog.map_eq, KVServer.genericTxn, Prog.bind_assoc]
  refine (evalCompares_first ⟨.equal, .mod, k, .modRevision n⟩).bind fun r q hq => ?_
  cases r with
  | error err =>
    obtain ⟨err, rfl⟩ := hq
    exact ⟨err, rfl⟩
  | ok v =>
    dsimp only at hq ⊢
    rw [hq, Prog.ret_bind, compareKV_conditionalDelete]
    split_ifs with hn
    · rw [decide_eq_true hn]
      refine Prog.First.bind (first_ok_bind (executeOps_delete_first k) fun err => ⟨err, rfl⟩)
        fun r' q' hq' => Prog.returns_bind hq' fun x hx => ?_
      rintro resp ⟨⟩
      exact hx resp rfl
    · rw [decide_eq_false hn]
      refine Prog.returns_bind (Q := fun x => ∀ resp, x = .ok resp → resp.succeeded = false)
        (Prog.returns_bind (Prog.returns_of_forall (fun _ => trivial) _) fun x _ => ?_)
        fun x hx => ?_
      · cases x with
        | error err => exact fun resp h => nomatch h
        | ok results =>
          refine Prog.returns_bind (Prog.returns_of_forall (fun _ => trivial) _) fun h _ => ?_
          rintro resp ⟨⟩
          rfl
      · rintro resp ⟨⟩
        exact hx resp rfl

/-! ### Which version is removed -/

theorem call_get {reqs : List Request} {ms : List (ℕ × Env)} {i : ℕ} {k : Key} {v : Option Blob}
    {w w' : World} (hx : ⟨i, .get k, .ok v, w, w'⟩ ∈ Pool.calls exec (start reqs) ms) :
    v = w.redis.kv k ∧ w' = w := by
  obtain ⟨_, _, env, he⟩ := call_exec hx
  have := run_of_exec_ok he
  rw [Cmd.run, Prod.mk.injEq, Except.ok.injEq] at this
  exact ⟨this.1.symm, this.2.symm⟩

/-- The value of a key is the one that an earlier read saw iff the key was not written since. -/
theorem modRevision_eq_iff {s t : Redis} (hs : Consistent s) (ht : Consistent t)
    (hp : s.events <+: t.events) {k : Key} {kv : KeyValue} (hk : contents t k = some kv) :
    kv.modRevision = modRevisionOf (contents s k) ↔
      ∀ x ∈ t.events, x.key = k → x.rev ≤ s.counter := by
  constructor
  · intro hmod x hx hxk
    -- the last entry of the key is at or above `x`, and its revision is the mod revision of `kv`
    obtain ⟨raw, hraw, hd⟩ := Option.bind_eq_some_iff.mp hk
    obtain ⟨e, he, _, hm⟩ := ht.field_mod hraw
    obtain ⟨y, hy, hle⟩ := ht.le_lastEntry hx
    rw [hxk, he, Option.some.injEq] at hy
    have hb := (ht.rev_mem (mem_of_lastEntry he).1).2
    have hbound := ht.bound
    rw [decodeKV_modRevision hd, hm, toInt64_of_lt (by omega)] at hmod
    have hsmall : modRevisionOf (contents s k) ≤ s.counter := by
      rw [modRevisionOf]
      cases hc : contents s k with
      | none => exact hs.counter_nonneg
      | some kv => exact modRevision_le_counter hs hc
    rw [hy] at hmod
    omega
  · intro hno
    have hun := contents_unchanged hs ht hp (k := k) (by
      rintro ⟨x, hx, hxk, hlt⟩
      have := hno x hx hxk
      omega)
    rw [← hun, hk]
    rfl

theorem conditionalDelete_calls {reqs : List Request} {ms : List (ℕ × Env)} {i : ℕ} {k : Key}
    {n : ℤ} {countOnly : Bool} {resp : TxnResponse}
    (hreq : reqs[i]? = some (.txn (conditionalDelete k n countOnly)))
    (ha : (Pool.run exec (start reqs) ms).procs[i]? = some (.ret (.txn (.ok resp))))
    (hs : resp.succeeded = true) :
    ∃ w₀ res w₁ w₂,
      ⟨i, .get k, .ok (w₀.redis.kv k), w₀, w₀⟩ ∈ Pool.calls exec (start reqs) ms ∧
      ⟨i, .evalWrite ⟨k, .delete, [], 0⟩, .ok res, w₁, w₂⟩ ∈ Pool.calls exec (start reqs) ms ∧
      w₀.redis.events <+: w₁.redis.events ∧ modRevisionOf (contents w₀.redis k) = n := by
  obtain ⟨j, r, w₀, w₀', l, p, hl, hK, hpath⟩ :=
    (answered hreq ha).first (serve_conditionalDelete_first k n countOnly)
  cases r with
  | error err =>
    obtain ⟨err, rfl⟩ := hK
    cases hpath
  | ok v =>
    dsimp only at hK
    split_ifs at hK with hn
    · obtain ⟨j', q, w₁, w₂, l', p', rfl, hret, hrest⟩ := hpath.first hK
      obtain ⟨res, rfl⟩ := hrest.returns hret resp rfl
      -- both calls are the request's own, and in this order
      have hown : ∀ x ∈ (⟨j, .get k, .ok v, w₀, w₀'⟩ : Call Cmd Reply World) ::
          ⟨j', .evalWrite ⟨k, .delete, [], 0⟩, .ok res, w₁, w₂⟩ :: l',
          x ∈ Pool.calls exec (start reqs) ms ∧ x.proc = i := by
        intro x hx
        rw [← hl, List.mem_filter] at hx
        exact ⟨hx.1, by simpa using hx.2⟩
      obtain ⟨hget, hj⟩ := hown _ List.mem_cons_self
      obtain ⟨hdel, hj'⟩ := hown _ (List.mem_cons_of_mem _ List.mem_cons_self)
      have hord := (calls_isPrefix reqs ms).filter (fun x => decide (x.proc = i))
      rw [hl] at hord
      have hp := (List.pairwise_cons.mp hord).1 _ List.mem_cons_self
      dsimp only at hj hj'
      subst hj hj'
      obtain ⟨rfl, rfl⟩ := call_get hget
      exact ⟨_, res, w₁, w₂, hget, hdel, hp, hn⟩
    · exact absurd (hpath.returns hK resp rfl) (by rw [hs]; decide)

/-- **A conditional delete removes the version that its compare saw iff the key is not written
between the two commands.**  If the transaction reports success, its compare held when it read the
key; its delete script then removes whatever the key holds. -/
theorem conditionalDelete_removes (reqs : List Request) (ms : List (ℕ × Env)) (i : ℕ) (k : Key)
    (n : ℤ) (countOnly : Bool) (resp : TxnResponse)
    (hreq : reqs[i]? = some (.txn (conditionalDelete k n countOnly)))
    (ha : (Pool.run exec (start reqs) ms).procs[i]? = some (.ret (.txn (.ok resp))))
    (hs : resp.succeeded = true) :
    ∃ r w₀ q w₁ w₂, ⟨i, .get k, r, w₀, w₀⟩ ∈ Pool.calls exec (start reqs) ms ∧
      ⟨i, .evalWrite ⟨k, .delete, [], 0⟩, q, w₁, w₂⟩ ∈ Pool.calls exec (start reqs) ms ∧
      w₀.redis.events <+: w₁.redis.events ∧
      modRevisionOf (contents w₀.redis k) = n ∧
      (w₁.redis.kv k = none ∧ w₂ = w₁ ∨
        ∃ kv e, contents w₁.redis k = some kv ∧ w₂.redis.events = w₁.redis.events ++ [e] ∧
          e.key = k ∧ e.type = .delete ∧ e.prevData = w₁.redis.kv k ∧
          (kv.modRevision = n ↔
            ∀ x ∈ w₁.redis.events, x.key = k → x.rev ≤ w₀.redis.counter)) := by
  obtain ⟨w₀, res, w₁, w₂, hget, hdel, hp, hn⟩ := conditionalDelete_calls hreq ha hs
  refine ⟨_, w₀, _, w₁, w₂, hget, hdel, hp, hn, ?_⟩
  obtain ⟨_, hc₀, _⟩ := call_exec hget
  obtain ⟨_, hc₁, env, hexec⟩ := call_exec hdel
  rcases evalWrite_ok hexec with ⟨_, hk, hw, _⟩ | ⟨e, he, hek, het, _⟩
  · exact Or.inl ⟨hk, hw⟩
  · have hprev := he.prev
    rw [hek] at hprev
    obtain ⟨raw, hraw⟩ := Option.isSome_iff_exists.mp (he.delete het).2
    obtain ⟨kv, hkv⟩ := Option.isSome_iff_exists.mp (hc₁.decode_isSome (hprev ▸ hraw))
    have hcont : contents w₁.redis k = some kv := by
      rw [contents, ← hprev, hraw]
      exact hkv
    refine Or.inr ⟨kv, e, hcont, he.events, hek, het, hprev, ?_⟩
    rw [← hn]
    exact modRevision_eq_iff hc₀ hc₁ hp hcont

def deleteAndPut : List Request :=
  [.put ⟨[97], [1], 0, false⟩, .txn (conditionalDelete [97] 1 false), .put ⟨[97], [2], 0, false⟩]

def deleteFirst : List (ℕ × Env) := [0, 0, 1, 1, 1, 1, 1, 2, 2].map fun i => (i, .plain 5)

def putInWindow : List (ℕ × Env) := [0, 0, 1, 2, 2, 1, 1, 1, 1].map fun i => (i, .plain 5)

theorem conditionalDelete_undisturbed :
    ∃ resp, (Pool.run exec (start deleteAndPut) deleteFirst).procs[1]? =
        some (.ret (.txn (.ok resp))) ∧ resp.succeeded = true ∧
      ∃ r w₀, ⟨1, .get [97], r, w₀, w₀⟩ ∈ Pool.calls exec (start deleteAndPut) deleteFirst ∧
        modRevisionOf (contents w₀.redis [97]) = 1 := by
  refine ⟨_, rfl, by decide, ?_⟩
  obtain ⟨r, w₀, _, _, _, hget, _, _, hmod, _⟩ :=
    conditionalDelete_removes deleteAndPut deleteFirst 1 [97] 1 false _ rfl rfl (by decide)
  exact ⟨r, w₀, hget, hmod⟩

/-- **A newer version is removed**: the transaction compares with revision 1 and reports success,
and the version that its delete removes has revision 2. -/
theorem conditionalDelete_removes_newer :
    ∃ resp, (Pool.run exec (start deleteAndPut) putInWindow).procs[1]? =
        some (.ret (.txn (.ok resp))) ∧ resp.succeeded = true ∧
      (Pool.run exec (start deleteAndPut) putInWindow).shared.redis.events.map
          (fun e => (e.type, modRevisionOf (e.prevData.bind (decodeKV e.key)))) =
        [(.put, 0), (.put, 1), (.delete, 2)] :=
  ⟨_, rfl, by decide, by decide⟩

end REtcd.Server
