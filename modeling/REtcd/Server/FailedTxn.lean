import REtcd.Server.Routing
import REtcd.Store.Atomic

/-!
# Transactions that fail

`genericTxn` runs the operations of a branch one after the other, each with its own calls of the
store, and returns at the first that fails.  What was written before stays.

`Cost s n p` says what a part of a transaction does from a database `s` in which it makes `n` writes
when nothing is refused: without a write it leaves `s` as it is, with at most one write it does so
whenever it fails, and with more it can fail after the first.  `executeOp_cost` finds the cost of
every operation.  So a branch that fails leaves everything as it was iff it is `Safe`: an operation
that writes makes one write, and no operation after it calls the store (`failed_unchanged_iff`).
-/

namespace REtcd.Server

open Base Store

variable {α β : Type} {s : Redis} {n : ℕ}

def Room (s : Redis) : Prop := s.counter < 2 ^ 63 - 1

/-- What `p` does from `s`, where it makes `n` writes when nothing is refused. -/
structure Cost (s : Redis) (n : ℕ) (p : Routine (Result α)) : Prop where
  same : n = 0 → ∀ {w x w'}, w.redis = s → Prog.Exec refusable p w x w' → w'.redis = s
  clean : n ≤ 1 → ∀ {w err w'}, w.redis = s → Prog.Exec refusable p w (.error err) w' → w'.redis = s
  answers : n ≤ 1 → Room s → ∀ {w}, w.redis = s →
    ∃ a w', Prog.Exec refusable p w (.ok a) w' ∧ w'.redis.counter = s.counter + n
  strands : 2 ≤ n → Room s → ∀ {w}, w.redis = s →
    ∃ err w', Prog.Exec refusable p w (.error err) w' ∧ s.counter < w'.redis.counter

theorem cost_quiet {p : Routine (Result α)} (hq : p.Uses Cmd.Quiet)
    (hok : ∀ w, ∃ a w', Prog.Exec step p w (.ok a) w') : Cost s 0 p where
  same _ _ _ _ hw h := (refusable_quiet hq h).trans hw
  clean _ _ _ _ hw h := (refusable_quiet hq h).trans hw
  answers _ _ w hw := by
    obtain ⟨a, w', h⟩ := hok w
    refine ⟨a, w', h.mono fun _ _ _ _ => refusable_of_step, ?_⟩
    rw [exec_quiet hq h, hw]
    simp
  strands h := absurd h (by decide)

/-- What is done with an answer and only reads does not count. -/
theorem Cost.bind {p : Routine (Result α)} {g : Result α → Routine (Result β)} (h : Cost s n p)
    (herr : ∀ err, g (.error err) = .ret (.error err))
    (hq : ∀ a, (g (.ok a)).Uses Cmd.Quiet)
    (hok : ∀ a, (g (.ok a)).Returns fun y => ∃ b, y = .ok b) : Cost s n (p >>= g) := by
  have hrest : ∀ {x y w w'}, Prog.Exec refusable (g x) w y w' → w'.redis = w.redis := by
    intro x y w w' hg
    cases x with
    | error err =>
      rw [herr] at hg
      rw [(Prog.exec_ret.mp hg).2]
    | ok a => exact refusable_quiet (hq a) hg
  constructor
  · intro hn w y w' hw hrun
    obtain ⟨x, w₁, hp, hg⟩ := Prog.exec_bind.mp hrun
    rw [hrest hg]
    exact h.same hn hw hp
  · intro hn w err w' hw hrun
    obtain ⟨x, w₁, hp, hg⟩ := Prog.exec_bind.mp hrun
    cases x with
    | error err' =>
      rw [hrest hg]
      exact h.clean hn hw hp
    | ok a =>
      obtain ⟨b, hb⟩ := Prog.exec_returns (hok a) hg
      cases hb
  · intro hn hroom w hw
    obtain ⟨a, w₁, hp, hcounter⟩ := h.answers hn hroom hw
    obtain ⟨y, w', hg⟩ := Prog.exists_exec step_total (g (.ok a)) w₁
    have hg := hg.mono fun _ _ _ _ => refusable_of_step
    obtain ⟨b, rfl⟩ := Prog.exec_returns (hok a) hg
    refine ⟨b, w', Prog.exec_bind.mpr ⟨_, w₁, hp, hg⟩, ?_⟩
    rw [hrest hg, hcounter]
  · intro hn hroom w hw
    obtain ⟨err, w', hp, hlt⟩ := h.strands hn hroom hw
    refine ⟨err, w', Prog.exec_bind.mpr ⟨_, w', hp, ?_⟩, hlt⟩
    rw [herr]
    exact Prog.exec_ret.mpr ⟨rfl, rfl⟩

/-! ### The store's calls -/

theorem refusable_error {c : Cmd} (hc : c.remote = true) (w : World) :
    refusable c w (.error "refused") w := by
  refine ⟨{ Env.plain 0 with fault := some ⟨"refused", false⟩ }, ?_, ?_⟩
  · intro f hf
    cases hf
    rfl
  · simp [exec, hc]

theorem refused_cmd {c : Cmd} {f : Reply c → Routine (Result α)} {err : GoError} {w : World}
    (hc : c.remote = true) (hf : f (.error "refused") = .ret (.error err)) :
    ∃ err, Prog.Exec refusable (Prog.cmd c >>= f) w (.error err) w := by
  refine ⟨err, Prog.exec_cmd.mpr ⟨_, w, refusable_error hc w, ?_⟩⟩
  rw [hf]
  exact Prog.exec_ret.mpr ⟨rfl, rfl⟩

theorem refused_bind {p : Routine (Result α)} {g : Result α → Routine (Result β)} {w : World}
    (h : ∃ err, Prog.Exec refusable p w (.error err) w)
    (herr : ∀ err, g (.error err) = .ret (.error err)) :
    ∃ err, Prog.Exec refusable (p >>= g) w (.error err) w := by
  obtain ⟨err, hp⟩ := h
  refine ⟨err, Prog.exec_bind.mpr ⟨_, w, hp, ?_⟩⟩
  rw [herr]
  exact Prog.exec_ret.mpr ⟨rfl, rfl⟩

section Write

variable {a : WriteArgs} {what : String} {p : Routine (Result (ℤ × Option KeyValue))}

theorem write_refusable (hp : p.First (.evalWrite a) fun r q => q.Uses Cmd.Quiet ∧
      q.Returns fun x => x = RedisStore.writeResult what a.key r)
    {w w' : World} {x : Result (ℤ × Option KeyValue)} (h : Prog.Exec refusable p w x w') :
    (w'.redis = w.redis ∧ ∃ err, x = .error err) ∨
    ∃ now, w'.redis = (writeLua now a w.redis).2 ∧
      x = RedisStore.writeResult what a.key (writeLua now a w.redis).1 := by
  obtain ⟨r, w₁, q, hs, ⟨hq, hret⟩, hrest⟩ := Prog.exec_first hp h
  rw [refusable_quiet hq hrest, Prog.exec_returns hret hrest]
  rcases refusable_cases hs with ⟨rfl, err, rfl⟩ | ⟨env, he⟩
  · exact Or.inl ⟨rfl, _, rfl⟩
  · rw [Cmd.run, Prod.mk.injEq] at he
    obtain ⟨rfl, rfl⟩ := he
    exact Or.inr ⟨env.now, rfl, rfl⟩

theorem exists_write (hp : p.First (.evalWrite a) fun r q => q.Uses Cmd.Quiet ∧
      q.Returns fun x => x = RedisStore.writeResult what a.key r) (w : World) :
    ∃ now w', Prog.Exec step p w (RedisStore.writeResult what a.key (writeLua now a w.redis).1) w' ∧
      w'.redis = (writeLua now a w.redis).2 := by
  obtain ⟨x, w', h⟩ := Prog.exists_exec step_total p w
  obtain ⟨r, w₁, q, hs, ⟨hq, hret⟩, hrest⟩ := Prog.exec_first hp h
  have hx := Prog.exec_returns hret hrest
  have hw' := exec_quiet hq hrest
  obtain ⟨env, _, he⟩ := step_iff.mp hs
  rw [Cmd.run, Prod.mk.injEq] at he
  obtain ⟨rfl, rfl⟩ := he
  rw [hx] at h
  exact ⟨env.now, w', h, hw'⟩

theorem not_absent_of_committed {s' : Redis} {e : Entry} (hc : Committed s s' e)
    (hek : e.key = a.key) (het : e.type = a.op) : ¬ (a.op = .delete ∧ s.kv a.key = none) := by
  rintro ⟨hop, habs⟩
  have hsome := (hc.delete (het.trans hop)).2
  rw [hc.prev, hek, habs] at hsome
  cases hsome

/-- A write costs one revision, unless it deletes an absent key. -/
theorem cost_write (hp : p.First (.evalWrite a) fun r q => q.Uses Cmd.Quiet ∧
      q.Returns fun x => x = RedisStore.writeResult what a.key r) :
    Cost s (if a.op = .delete ∧ s.kv a.key = none then 0 else 1) p := by
  constructor
  · intro hn w x w' hw h
    split_ifs at hn with habs
    rcases write_refusable hp h with ⟨hsame, _⟩ | ⟨now, hsame, _⟩
    · rw [hsame, hw]
    · rw [hsame, hw]
      rcases writeLua_cases now a s with ⟨_, hl⟩ | ⟨_, _, hl⟩ | ⟨e, hc, hek, het, _⟩
      · rw [hl]
      · rw [hl]
      · exact absurd habs (not_absent_of_committed hc hek het)
  · intro _ w err w' hw h
    rcases write_refusable hp h with ⟨hsame, _⟩ | ⟨now, hsame, hx⟩
    · rw [hsame, hw]
    · rw [hw] at hsame hx
      rw [hsame]
      rcases writeLua_cases now a s with ⟨_, hl⟩ | ⟨_, _, hl⟩ | ⟨e, _, _, _, hl⟩
      · rw [hl]
      · rw [hl] at hx
        cases hx
      · rw [hl] at hx
        cases hx
  · intro _ hroom w hw
    obtain ⟨now, w', h, hw'⟩ := exists_write hp w
    have h := h.mono fun _ _ _ _ => refusable_of_step
    rw [hw] at h hw'
    rcases writeLua_cases now a s with ⟨hmax, _⟩ | ⟨hop, habs, hl⟩ | ⟨e, hc, hek, het, hl⟩
    · exact absurd hroom hmax
    · rw [hl] at h hw'
      refine ⟨_, w', h, ?_⟩
      rw [hw', if_pos ⟨hop, habs⟩]
      simp
    · rw [hl] at h
      refine ⟨_, w', h, ?_⟩
      rw [hw', hc.counter, if_neg (not_absent_of_committed hc hek het)]
      rfl
  · intro hn
    split_ifs at hn
    · exact absurd hn (by decide)
    · exact absurd hn (by decide)

end Write

theorem put_cost (key : Key) (value : Bytes) (lease : ℤ) :
    Cost s 1 (RedisStore.put key value lease) := by
  have := cost_write (s := s) (RedisStore.put_first key value lease)
  simpa using this

theorem delete_cost (key : Key) :
    Cost s (if s.kv key = none then 0 else 1) (RedisStore.delete key) := by
  have := cost_write (s := s) (RedisStore.delete_first key)
  simpa using this

theorem range_cost (r : RangeRequest) : Cost s 0 (KVServer.range r) := by
  refine cost_quiet (KVServer.range_uses (fun _ h => h) r) fun w => ?_
  obtain ⟨x, w', h⟩ := Prog.exists_exec step_total (KVServer.range r) w
  have hrun := h
  rw [KVServer.range] at h
  split_ifs at h
  · obtain ⟨y, w₁, hget, h⟩ := Prog.exec_bind.mp h
    obtain ⟨rfl, rfl⟩ := RedisStore.get_exec hget
    obtain ⟨z, w₂, _, h⟩ := Prog.exec_bind.mp h
    obtain ⟨rfl, rfl⟩ := Prog.exec_ret.mp h
    exact ⟨_, _, hrun⟩
  · obtain ⟨y, w₁, hscan, h⟩ := Prog.exec_bind.mp h
    obtain ⟨rfl, rfl⟩ := RedisStore.range_exec hscan
    obtain ⟨rfl, rfl⟩ := Prog.exec_ret.mp h
    exact ⟨_, _, hrun⟩

theorem Cost.after {p : Routine (Result α)} {g : Result α → Routine (Result β)}
    (hq : p.Uses Cmd.Quiet) (hok : ∀ w, ∃ a w', Prog.Exec step p w (.ok a) w')
    (herr : ∀ err, g (.error err) = .ret (.error err))
    (hg : ∀ {w a w'}, w.redis = s → Prog.Exec refusable p w (.ok a) w' → Cost s n (g (.ok a))) :
    Cost s n (p >>= g) := by
  -- a run fails in the first part, or passes it and comes to the second with the same database
  have hsplit : ∀ {w y w'}, w.redis = s → Prog.Exec refusable (p >>= g) w y w' →
      ((∃ err, y = .error err) ∧ w'.redis = s) ∨
      ∃ a w₁, w₁.redis = s ∧ Cost s n (g (.ok a)) ∧ Prog.Exec refusable (g (.ok a)) w₁ y w' := by
    intro w y w' hw hrun
    obtain ⟨x, w₁, hp, hrest⟩ := Prog.exec_bind.mp hrun
    have hw₁ := (refusable_quiet hq hp).trans hw
    cases x with
    | error err =>
      rw [herr] at hrest
      obtain ⟨rfl, rfl⟩ := Prog.exec_ret.mp hrest
      exact Or.inl ⟨⟨err, rfl⟩, hw₁⟩
    | ok a => exact Or.inr ⟨a, w₁, hw₁, hg hw hp, hrest⟩
  -- without refusals the second part is reached
  have hreach : ∀ {w}, w.redis = s → ∃ a w₁, w₁.redis = s ∧ Cost s n (g (.ok a)) ∧
      Prog.Exec refusable p w (.ok a) w₁ := by
    intro w hw
    obtain ⟨a, w₁, h⟩ := hok w
    have h := h.mono fun _ _ _ _ => refusable_of_step
    exact ⟨a, w₁, (refusable_quiet hq h).trans hw, hg hw h, h⟩
  constructor
  · intro hn w y w' hw hrun
    rcases hsplit hw hrun with ⟨_, hw'⟩ | ⟨a, w₁, hw₁, hcost, hrest⟩
    · exact hw'
    · exact hcost.same hn hw₁ hrest
  · intro hn w err w' hw hrun
    rcases hsplit hw hrun with ⟨_, hw'⟩ | ⟨a, w₁, hw₁, hcost, hrest⟩
    · exact hw'
    · exact hcost.clean hn hw₁ hrest
  · intro hn hroom w hw
    obtain ⟨a, w₁, hw₁, hcost, hp⟩ := hreach hw
    obtain ⟨b, w', hrest, hcounter⟩ := hcost.answers hn hroom hw₁
    exact ⟨b, w', Prog.exec_bind.mpr ⟨_, w₁, hp, hrest⟩, hcounter⟩
  · intro hn hroom w hw
    obtain ⟨a, w₁, hw₁, hcost, hp⟩ := hreach hw
    obtain ⟨err, w', hrest, hlt⟩ := hcost.strands hn hroom hw₁
    exact ⟨err, w', Prog.exec_bind.mpr ⟨_, w₁, hp, hrest⟩, hlt⟩

/-! ### DeleteRange -/

section DeleteLoop

variable {key rangeEnd : Key} {kvs : List KeyValue}

theorem deleteLoop_none (h : kvs.filter (KVServer.inRange key rangeEnd) = []) (m : ℕ) :
    KVServer.deleteLoop key rangeEnd kvs m = .ret (.ok m) := by
  induction kvs with
  | nil => rfl
  | cons kv kvs ih =>
    rw [List.filter_cons] at h
    split_ifs at h with hin
    rw [KVServer.deleteLoop, if_neg hin]
    exact ih h

theorem deleteLoop_refused (h : kvs.filter (KVServer.inRange key rangeEnd) ≠ []) (m : ℕ)
    (w : World) :
    ∃ err, Prog.Exec refusable (KVServer.deleteLoop key rangeEnd kvs m) w (.error err) w := by
  induction kvs with
  | nil => exact absurd rfl h
  | cons kv kvs ih =>
    rw [KVServer.deleteLoop]
    split_ifs with hin
    · exact refused_bind (refused_cmd rfl rfl) fun _ => rfl
    · rw [List.filter_cons_of_neg hin] at h
      exact ih h

/-- The loop makes a write for every listed key that is in the range. -/
theorem deleteLoop_cost (hst : ∀ kv ∈ kvs, s.kv kv.key ≠ none) (m : ℕ) :
    Cost s (kvs.filter (KVServer.inRange key rangeEnd)).length
      (KVServer.deleteLoop key rangeEnd kvs m) := by
  induction kvs with
  | nil =>
    exact cost_quiet (p := KVServer.deleteLoop key rangeEnd [] m) trivial
      fun w => ⟨m, w, Prog.exec_ret.mpr ⟨rfl, rfl⟩⟩
  | cons kv kvs ih =>
    rw [KVServer.deleteLoop]
    split_ifs with hin
    · rw [List.filter_cons_of_pos hin, List.length_cons]
      have hcost := delete_cost (s := s) kv.key
      rw [if_neg (hst kv List.mem_cons_self)] at hcost
      -- with one key in the range, the rest of the loop does nothing
      have hlast : (kvs.filter (KVServer.inRange key rangeEnd)).length + 1 ≤ 1 →
          KVServer.deleteLoop key rangeEnd kvs (m + 1) = .ret (.ok (m + 1)) := fun hn =>
        deleteLoop_none (List.length_eq_zero_iff.mp (by omega)) (m + 1)
      constructor
      · intro hn
        omega
      · intro hn w err w' hw hrun
        obtain ⟨x, w₁, hd, hrest⟩ := Prog.exec_bind.mp hrun
        cases x with
        | error err' =>
          obtain ⟨_, rfl⟩ := Prog.exec_ret.mp hrest
          exact hcost.clean le_rfl hw hd
        | ok out =>
          dsimp only at hrest
          rw [hlast hn] at hrest
          cases (Prog.exec_ret.mp hrest).1
      · intro hn hroom w hw
        obtain ⟨out, w₁, hd, hcounter⟩ := hcost.answers le_rfl hroom hw
        refine ⟨m + 1, w₁, Prog.exec_bind.mpr ⟨_, w₁, hd, ?_⟩, ?_⟩
        · dsimp only
          rw [hlast hn]
          exact Prog.exec_ret.mpr ⟨rfl, rfl⟩
        · rw [hcounter]
          omega
      · intro hn hroom w hw
        obtain ⟨out, w₁, hd, hcounter⟩ := hcost.answers le_rfl hroom hw
        have hmore : kvs.filter (KVServer.inRange key rangeEnd) ≠ [] := by
          intro hnil
          rw [hnil] at hn
          exact absurd hn (by decide)
        obtain ⟨err, hrest⟩ := deleteLoop_refused hmore (m + 1) w₁
        exact ⟨err, w₁, Prog.exec_bind.mpr ⟨_, w₁, hd, hrest⟩, by omega⟩
    · rw [List.filter_cons_of_neg hin]
      exact ih fun kv hkv => hst kv (List.mem_cons_of_mem _ hkv)

end DeleteLoop

def opWrites (s : Redis) : RequestOp → ℕ
  | .put _ => 1
  | .range _ => 0
  | .deleteRange r =>
    if r.rangeEnd = [] then if s.kv r.key = none then 0 else 1
    else (scannedKVs ⟨r.key, r.rangeEnd, false⟩ (scanned ⟨r.key, r.rangeEnd, false⟩ s) s).length
  | .other => 0

theorem deleteKeys_cost (r : DeleteRangeRequest) :
    Cost s (opWrites s (.deleteRange r)) (KVServer.deleteKeys r) := by
  rw [KVServer.deleteKeys, opWrites]
  split_ifs with hr hk
  · have := delete_cost (s := s) r.key
    rw [if_pos hk] at this
    exact this.bind (fun _ => rfl) (fun _ => trivial) fun a => ⟨_, rfl⟩
  · have := delete_cost (s := s) r.key
    rw [if_neg hk] at this
    exact this.bind (fun _ => rfl) (fun _ => trivial) fun a => ⟨_, rfl⟩
  · refine Cost.after (RedisStore.range_uses (fun _ h => h) _) (fun w => ?_) (fun _ => rfl) ?_
    · obtain ⟨x, w', h⟩ := Prog.exists_exec step_total
        (RedisStore.range (KVServer.commonPrefix r.key r.rangeEnd)) w
      obtain ⟨_, rfl⟩ := RedisStore.range_exec h
      exact ⟨_, _, h⟩
    · rintro w ⟨rev, kvs⟩ w' hw h
      have hkvs := range_attempt (h.mono fun c v r v' hs => by
        obtain ⟨env, _, he⟩ := hs
        exact ⟨env, he⟩)
      rw [hw] at hkvs
      subst hkvs
      refine deleteLoop_cost (fun kv hkv => ?_) 0
      intro hnone
      obtain ⟨_, hc⟩ := mem_decodeAll.mp hkv
      rw [contents, hnone] at hc
      cases hc

/-! ### The operations -/

theorem executeOp_cost (op : RequestOp) : Cost s (opWrites s op) (KVServer.executeOp op) := by
  cases op with
  | put p =>
    exact (put_cost p.key p.value p.lease).bind (fun _ => rfl) (fun _ => trivial) fun a => ⟨_, rfl⟩
  | range r => exact (range_cost r).bind (fun _ => rfl) (fun _ => trivial) fun a => ⟨_, rfl⟩
  | deleteRange r =>
    have hdelete : Cost s (opWrites s (.deleteRange r)) (KVServer.deleteRange r) := by
      refine (deleteKeys_cost r).bind (fun _ => rfl) (fun a => ?_) fun a => ?_
      · exact Prog.uses_bind (KVServer.header_uses fun _ h => h) fun _ => trivial
      · exact Prog.returns_bind (Prog.returns_of_forall (fun _ => trivial) _) fun h _ => ⟨_, rfl⟩
    exact hdelete.bind (fun _ => rfl) (fun _ => trivial) fun a => ⟨_, rfl⟩
  | other =>
    exact cost_quiet (p := KVServer.executeOp .other) trivial
      fun w => ⟨_, w, Prog.exec_ret.mpr ⟨rfl, rfl⟩⟩

theorem executeOp_refused {op : RequestOp} (hop : op ≠ .other) (w : World) :
    ∃ err, Prog.Exec refusable (KVServer.executeOp op) w (.error err) w := by
  -- a scan is a pipeline, whose second command goes out all the same
  have hscan : ∀ pre, ∃ err, Prog.Exec refusable (RedisStore.range pre) w (.error err) w := fun pre =>
    ⟨_, Prog.exec_cmd.mpr ⟨_, w, refusable_error rfl w, Prog.exec_cmd.mpr ⟨_, w,
      refusable_error rfl w, Prog.exec_ret.mpr ⟨rfl, rfl⟩⟩⟩⟩
  cases op with
  | put p => exact refused_bind (refused_cmd rfl rfl) fun _ => rfl
  | range r =>
    refine refused_bind ?_ fun _ => rfl
    rw [KVServer.range]
    split_ifs
    · exact refused_bind (refused_cmd rfl rfl) fun _ => rfl
    · exact refused_bind (hscan _) fun _ => rfl
  | deleteRange r =>
    refine refused_bind (refused_bind ?_ fun _ => rfl) fun _ => rfl
    rw [KVServer.deleteKeys]
    split_ifs
    · exact refused_bind (refused_cmd rfl rfl) fun _ => rfl
    · exact refused_bind (hscan _) fun _ => rfl
  | other => exact absurd rfl hop

/-- A branch of a transaction that leaves everything as it was when it fails: an operation that writes
makes one write, and no operation after it calls the store. -/
def Safe (s : Redis) : List RequestOp → Prop
  | [] => True
  | op :: ops =>
    if opWrites s op = 0 then Safe s ops else opWrites s op = 1 ∧ ∀ o ∈ ops, o = .other

instance decidableSafe (s : Redis) : (ops : List RequestOp) → Decidable (Safe s ops)
  | [] => .isTrue trivial
  | op :: ops =>
    have := decidableSafe s ops
    inferInstanceAs (Decidable (if opWrites s op = 0 then Safe s ops
      else opWrites s op = 1 ∧ ∀ o ∈ ops, o = .other))

/-- Nested transactions are passed over. -/
theorem executeOps_others {ops : List RequestOp} (hops : ∀ o ∈ ops, o = .other) {w w' : World}
    {x : Result (List ResponseOp)} (h : Prog.Exec refusable (KVServer.executeOps ops) w x w') :
    ∃ resps, x = .ok resps := by
  induction ops generalizing w w' x with
  | nil => exact ⟨[], (Prog.exec_ret.mp h).1⟩
  | cons op ops ih =>
    obtain rfl := hops op List.mem_cons_self
    obtain ⟨y, w₁, hop, hrest⟩ := Prog.exec_bind.mp h
    obtain ⟨rfl, rfl⟩ := Prog.exec_ret.mp hop
    obtain ⟨z, w₂, hmore, hret⟩ := Prog.exec_bind.mp hrest
    obtain ⟨resps, rfl⟩ := ih (fun o ho => hops o (List.mem_cons_of_mem _ ho)) hmore
    exact ⟨_, (Prog.exec_ret.mp hret).1⟩

theorem executeOps_refused {ops : List RequestOp} (hops : ∃ o ∈ ops, o ≠ .other) (w : World) :
    ∃ err, Prog.Exec refusable (KVServer.executeOps ops) w (.error err) w := by
  induction ops with
  | nil => simp at hops
  | cons op ops ih =>
    by_cases hop : op = .other
    · subst hop
      obtain ⟨o, ho, hne⟩ := hops
      obtain ⟨err, hrest⟩ := ih ⟨o, (List.mem_cons.mp ho).resolve_left hne, hne⟩
      refine ⟨err, Prog.exec_bind.mpr ⟨.ok .other, w, Prog.exec_ret.mpr ⟨rfl, rfl⟩, ?_⟩⟩
      exact Prog.exec_bind.mpr ⟨.error err, w, hrest, Prog.exec_ret.mpr ⟨rfl, rfl⟩⟩
    · exact refused_bind (executeOp_refused hop w) fun _ => rfl

/-- **A safe branch that fails leaves the database as it was.** -/
theorem executeOps_safe {ops : List RequestOp} (hops : Safe s ops) {w w' : World} {err : GoError}
    (hw : w.redis = s)
    (h : Prog.Exec refusable (KVServer.executeOps ops) w (.error err) w') : w'.redis = s := by
  induction ops generalizing w w' err with
  | nil => cases (Prog.exec_ret.mp h).1
  | cons op ops ih =>
    have hcost := executeOp_cost (s := s) op
    rw [Safe] at hops
    obtain ⟨y, w₁, hop, h⟩ := Prog.exec_bind.mp h
    split_ifs at hops with hn
    · have hw₁ := hcost.same hn hw hop
      cases y with
      | error err' =>
        obtain ⟨_, rfl⟩ := Prog.exec_ret.mp h
        exact hw₁
      | ok resp =>
        obtain ⟨z, w₂, hrest, h⟩ := Prog.exec_bind.mp h
        cases z with
        | error err' =>
          obtain ⟨_, rfl⟩ := Prog.exec_ret.mp h
          exact ih hops hw₁ hrest
        | ok resps => cases (Prog.exec_ret.mp h).1
    · obtain ⟨hone, hothers⟩ := hops
      cases y with
      | error err' =>
        obtain ⟨_, rfl⟩ := Prog.exec_ret.mp h
        exact hcost.clean hone.le hw hop
      | ok resp =>
        obtain ⟨z, w₂, hrest, h⟩ := Prog.exec_bind.mp h
        obtain ⟨resps, rfl⟩ := executeOps_others hothers hrest
        cases (Prog.exec_ret.mp h).1

/-- **A branch that is not safe can fail after a write.** -/
theorem executeOps_strands {ops : List RequestOp} (hops : ¬ Safe s ops) (hroom : Room s)
    {w : World} (hw : w.redis = s) :
    ∃ err w', Prog.Exec refusable (KVServer.executeOps ops) w (.error err) w' ∧
      s.counter < w'.redis.counter := by
  induction ops generalizing w with
  | nil => exact absurd trivial hops
  | cons op ops ih =>
    have hcost := executeOp_cost (s := s) op
    -- the rest of the branch fails after this operation has answered
    have hlater : ∀ {resp w₁ err w'}, Prog.Exec refusable (KVServer.executeOp op) w (.ok resp) w₁ →
        Prog.Exec refusable (KVServer.executeOps ops) w₁ (.error err) w' →
        Prog.Exec refusable (KVServer.executeOps (op :: ops)) w (.error err) w' := by
      intro resp w₁ err w' hop hrest
      exact Prog.exec_bind.mpr ⟨_, w₁, hop, Prog.exec_bind.mpr ⟨_, w', hrest,
        Prog.exec_ret.mpr ⟨rfl, rfl⟩⟩⟩
    rw [Safe] at hops
    split_ifs at hops with hn
    · obtain ⟨resp, w₁, hop, _⟩ := hcost.answers (by omega) hroom hw
      obtain ⟨err, w', hrest, hlt⟩ := ih hops (hcost.same hn hw hop)
      exact ⟨err, w', hlater hop hrest, hlt⟩
    · by_cases hone : opWrites s op = 1
      · have hmore : ∃ o ∈ ops, o ≠ .other := by
          by_contra hall
          exact hops ⟨hone, fun o ho => by_contra fun hne => hall ⟨o, ho, hne⟩⟩
        obtain ⟨resp, w₁, hop, hcounter⟩ := hcost.answers hone.le hroom hw
        obtain ⟨err, hrest⟩ := executeOps_refused hmore w₁
        exact ⟨err, w₁, hlater hop hrest, by omega⟩
      · obtain ⟨err, w', hop, hlt⟩ := hcost.strands (by omega) hroom hw
        exact ⟨err, w', Prog.exec_bind.mpr ⟨_, w', hop, Prog.exec_ret.mpr ⟨rfl, rfl⟩⟩, hlt⟩

/-! ### The compares -/

def comparesHold (cs : List Compare) (s : Redis) : Bool :=
  cs.all fun c => KVServer.compareKV c (contents s c.key)

def branch (req : TxnRequest) (s : Redis) : List RequestOp :=
  if comparesHold req.compare s then req.success else req.failure

theorem get_refusable {key : Key} {w w' : World} {kv : Option KeyValue}
    (h : Prog.Exec refusable (RedisStore.get key) w (.ok kv) w') : kv = contents w.redis key := by
  obtain ⟨r, w₁, hs, h⟩ := Prog.exec_cmd.mp h
  rcases refusable_cases hs with ⟨rfl, err, rfl⟩ | ⟨env, he⟩
  · cases (Prog.exec_ret.mp h).1
  · rw [Cmd.run, Prod.mk.injEq] at he
    obtain ⟨rfl, rfl⟩ := he
    rw [contents]
    cases hk : w.redis.kv key with
    | none =>
      rw [hk] at h
      cases (Prog.exec_ret.mp h).1
      rfl
    | some raw =>
      rw [hk] at h
      cases (Prog.exec_ret.mp h).1
      rfl

theorem evalCompares_refusable {cs : List Compare} {w w' : World} {b : Bool}
    (h : Prog.Exec refusable (KVServer.evalCompares cs) w (.ok b) w') :
    b = comparesHold cs w.redis := by
  induction cs generalizing w with
  | nil =>
    cases (Prog.exec_ret.mp h).1
    rfl
  | cons c cs ih =>
    obtain ⟨y, w₁, hcmp, hrest⟩ := Prog.exec_bind.mp h
    obtain ⟨x, w₂, hget, hret⟩ := Prog.exec_bind.mp hcmp
    have hw₂ := refusable_quiet (RedisStore.get_uses (fun _ h => h) c.key) hget
    cases x with
    | error err =>
      obtain ⟨rfl, rfl⟩ := Prog.exec_ret.mp hret
      cases (Prog.exec_ret.mp hrest).1
    | ok kv =>
      obtain ⟨rfl, rfl⟩ := Prog.exec_ret.mp hret
      have hkv : kv = contents w.redis c.key := get_refusable hget
      rw [comparesHold, List.all_cons, ← hkv]
      cases hb : KVServer.compareKV c kv with
      | false =>
        rw [hb] at hrest
        cases (Prog.exec_ret.mp hrest).1
        rfl
      | true =>
        rw [hb] at hrest
        rw [ih hrest, hw₂]
        rfl

theorem evalCompares_answers (cs : List Compare) (w : World) :
    ∃ w', Prog.Exec refusable (KVServer.evalCompares cs) w (.ok (comparesHold cs w.redis)) w' := by
  have hok : ∀ {x w'}, Prog.Exec step (KVServer.evalCompares cs) w x w' → ∃ b, x = .ok b := by
    induction cs with
    | nil => exact fun h => ⟨true, (Prog.exec_ret.mp h).1⟩
    | cons c cs ih =>
      intro x w' h
      obtain ⟨y, w₁, hcmp, hrest⟩ := Prog.exec_bind.mp h
      obtain ⟨z, w₂, hget, hret⟩ := Prog.exec_bind.mp hcmp
      obtain ⟨rfl, rfl⟩ := RedisStore.get_exec hget
      obtain ⟨rfl, rfl⟩ := Prog.exec_ret.mp hret
      cases hb : KVServer.compareKV c ((w₁.redis.kv c.key).bind (decodeKV c.key)) with
      | false =>
        rw [hb] at hrest
        exact ⟨false, (Prog.exec_ret.mp hrest).1⟩
      | true =>
        rw [hb] at hrest
        exact ih hrest
  obtain ⟨x, w', h⟩ := Prog.exists_exec step_total (KVServer.evalCompares cs) w
  obtain ⟨b, rfl⟩ := hok h
  have h := h.mono fun _ _ _ _ => refusable_of_step
  rw [evalCompares_refusable h] at h
  exact ⟨w', h⟩

/-! ### The transaction -/

/-- A generic transaction fails in its compares, without effect, or in its branch. -/
theorem genericTxn_error {req : TxnRequest} {w w' : World} {err : GoError}
    (h : Prog.Exec refusable (KVServer.genericTxn req) w (.error err) w') :
    w'.redis = w.redis ∨ ∃ w₁, w₁.redis = w.redis ∧
      Prog.Exec refusable (KVServer.executeOps (branch req w.redis)) w₁ (.error err) w' := by
  obtain ⟨x, w₁, hcmp, h⟩ := Prog.exec_bind.mp h
  have hw₁ := refusable_quiet (KVServer.evalCompares_uses (fun _ h => h) req.compare) hcmp
  cases x with
  | error err' =>
    rw [(Prog.exec_ret.mp h).2]
    exact Or.inl hw₁
  | ok b =>
    obtain rfl := evalCompares_refusable hcmp
    obtain ⟨y, w₂, hops, h⟩ := Prog.exec_bind.mp h
    cases y with
    | error err' =>
      obtain ⟨herr, rfl⟩ := Prog.exec_ret.mp h
      cases herr
      exact Or.inr ⟨w₁, hw₁, hops⟩
    | ok results =>
      obtain ⟨hd, w₃, _, hret⟩ := Prog.exec_bind.mp h
      cases (Prog.exec_ret.mp hret).1

/-- `RedisStore.Txn` is one script, and a script that fails has done nothing. -/
theorem storeTxn_error {key : Key} {expected : ℤ} {value : Bytes} {lease : ℤ} {w w' : World}
    {err : GoError}
    (h : Prog.Exec refusable (RedisStore.txn key expected .put value lease) w (.error err) w') :
    w'.redis = w.redis := by
  obtain ⟨r, w₂, hscript, h⟩ := Prog.exec_cmd.mp h
  cases r with
  | error err' =>
    rw [(Prog.exec_ret.mp h).2]
    rcases refusable_cases hscript with ⟨rfl, _⟩ | ⟨env, he⟩
    · rfl
    · rw [Cmd.run, Prod.mk.injEq] at he
      have hatomic := txnLua_atomic env.now (a := ⟨key, expected, value, .put, lease⟩)
        (s := w.redis) (Or.inl rfl)
      rw [he.1] at hatomic
      rw [← he.2]
      exact hatomic
  | ok res =>
    obtain ⟨rev, w₃, _, h⟩ := Prog.exec_bind.mp h
    split_ifs at h
    · obtain ⟨_, w₄, _, h⟩ := Prog.exec_bind.mp h
      cases (Prog.exec_ret.mp h).1
    · cases (Prog.exec_ret.mp h).1

theorem error_of_bind {p : Routine (Result α)} {g : Result α → Routine (Result β)} {w w' : World}
    {err : GoError} (herr : ∀ err, g (.error err) = .ret (.error err))
    (hok : ∀ a, ∃ b, g (.ok a) = .ret (.ok b))
    (h : Prog.Exec refusable (p >>= g) w (.error err) w') :
    Prog.Exec refusable p w (.error err) w' := by
  obtain ⟨x, w₁, hp, h⟩ := Prog.exec_bind.mp h
  cases x with
  | error err' =>
    rw [herr] at h
    obtain ⟨hx, rfl⟩ := Prog.exec_ret.mp h
    cases hx
    exact hp
  | ok a =>
    obtain ⟨b, hb⟩ := hok a
    rw [hb] at h
    cases (Prog.exec_ret.mp h).1

theorem swap_error {req : TxnRequest} {a : TxnArgs} (hs : KVServer.swapArgs req = some a)
    {w w' : World} {err : GoError}
    (h : Prog.Exec refusable (KVServer.txn req) w (.error err) w') : w'.redis = w.redis := by
  rw [KVServer.swapArgs] at hs
  rw [KVServer.txn] at h
  cases hc : KVServer.isCreate req with
  | some p =>
    rw [hc] at h
    refine storeTxn_error (error_of_bind ?_ ?_ h)
    · exact fun _ => rfl
    · exact fun res => ⟨_, rfl⟩
  | none =>
    rw [hc] at h hs
    rcases hu : KVServer.isUpdate req with _ | ⟨rev, key, value, lease⟩
    · rw [hu] at hs
      cases hs
    · rw [hu] at h
      refine storeTxn_error (error_of_bind ?_ ?_ h)
      · exact fun _ => rfl
      · exact fun res => ⟨_, rfl⟩

def TxnCmd (c : Cmd) : Prop :=
  c.Quiet ∨ (∃ a, c = .evalWrite a) ∨ ∃ a, c = .evalTxn a ∧ a.op = .put

theorem txn_cmds (req : TxnRequest) : (KVServer.txn req).Uses TxnCmd := by
  refine KVServer.txn_uses (fun _ => Or.inl) ?_ ?_ ?_ req
  · intro key
    exact Or.inr (Or.inl ⟨_, rfl⟩)
  · intro a _
    exact Or.inr (Or.inl ⟨a, rfl⟩)
  · intro a ha
    exact Or.inr (Or.inr ⟨a, rfl, ha⟩)

/-- With the counter at its end, nothing is written any more. -/
theorem txn_full {req : TxnRequest} {w w' : World} {x : Result TxnResponse} (hfull : ¬ Room w.redis)
    (h : Prog.Exec refusable (KVServer.txn req) w x w') : w'.redis = w.redis := by
  refine Prog.exec_inv (I := fun v : World => v.redis = w.redis) ?_ (txn_cmds req) h rfl
  intro c v r v' hc hs hv
  rcases refusable_cases hs with ⟨rfl, _⟩ | ⟨env, he⟩
  · exact hv
  have hv' : v' = (c.run env v).2 := by rw [he]
  rw [hv']
  rcases hc with hq | ⟨a, rfl⟩ | ⟨a, rfl, hop⟩
  · exact (Cmd.run_quiet env hq v).trans hv
  · rcases writeLua_cases env.now a v.redis with ⟨_, hl⟩ | ⟨_, _, hl⟩ | ⟨e, hc, _⟩
    · rw [Cmd.run, hl]
      exact hv
    · rw [Cmd.run, hl]
      exact hv
    · rw [hv] at hc
      exact absurd hc.room hfull
  · rcases txnLua_cases env.now hop v.redis with ⟨_, hl⟩ | ⟨_, hl⟩ | ⟨_, e, hc, _⟩
    · rw [Cmd.run, hl]
      exact hv
    · rw [Cmd.run, hl]
      exact hv
    · rw [hv] at hc
      exact absurd hc.room hfull

/-- **When a failing transaction changes nothing**, whatever call of the store is refused: it is a
create or an update, or the branch that it takes is safe, or the counter is at its end. -/
theorem failed_unchanged_iff (req : TxnRequest) (w : World) :
    (∀ err w', Prog.Exec refusable (KVServer.txn req) w (.error err) w' →
      w'.redis.kv = w.redis.kv ∧ w'.redis.counter = w.redis.counter ∧
        w'.redis.events = w.redis.events) ↔
      (KVServer.swapArgs req = none → w.redis.counter < 2 ^ 63 - 1 →
        Safe w.redis (branch req w.redis)) := by
  constructor
  · intro h hs hroom
    by_contra hsafe
    obtain ⟨w₁, hcmp⟩ := evalCompares_answers req.compare w
    have hw₁ := refusable_quiet (KVServer.evalCompares_uses (fun _ h => h) req.compare) hcmp
    obtain ⟨err, w', hops, hlt⟩ := executeOps_strands hsafe hroom hw₁
    have hrun : Prog.Exec refusable (KVServer.txn req) w (.error err) w' := by
      rw [KVServer.txn_generic hs]
      exact Prog.exec_bind.mpr ⟨_, w₁, hcmp, Prog.exec_bind.mpr ⟨_, w', hops,
        Prog.exec_ret.mpr ⟨rfl, rfl⟩⟩⟩
    have := (h err w' hrun).2.1
    omega
  · intro hsafe err w' hrun
    suffices hsame : w'.redis = w.redis by
      rw [hsame]
      exact ⟨rfl, rfl, rfl⟩
    by_cases hroom : w.redis.counter < 2 ^ 63 - 1
    · cases hs : KVServer.swapArgs req with
      | some a => exact swap_error hs hrun
      | none =>
        rw [KVServer.txn_generic hs] at hrun
        rcases genericTxn_error hrun with hsame | ⟨w₁, hw₁, hops⟩
        · exact hsame
        · exact executeOps_safe (hsafe hs hroom) hw₁ hops
    · exact txn_full hroom hrun

def twoPuts : TxnRequest := ⟨[], [.put ⟨[97], [1], 0, false⟩, .put ⟨[98], [1], 0, false⟩], []⟩

example : ¬ Safe Redis.empty (branch twoPuts Redis.empty) := by decide

example : Safe Redis.empty [.range ⟨[97], [], false⟩, .put ⟨[97], [1], 0, false⟩, .other] := by
  decide

def secondPutRefused (n : ℕ) : List (Env × Cmd) × Env :=
  ([], { Env.plain 6 with fault := if n = 2 then some ⟨"refused", false⟩ else none })

/-- **The second of two puts fails, and the first stays.** -/
theorem failed_leaves_write :
    ∃ err w', Prog.Exec refusable (KVServer.txn twoPuts) World.empty (.error err) w' ∧
      (w'.redis.kv [97]).isSome ∧ w'.redis.counter = 1 ∧ w'.redis.events.length = 1 := by
  have hstep : ∀ n c w, refusable c w (exec (secondPutRefused n).2 c w).1
      (exec (secondPutRefused n).2 c w).2 := by
    intro n c w
    refine ⟨(secondPutRefused n).2, fun f hf => ?_, rfl⟩
    simp only [secondPutRefused] at hf
    split_ifs at hf
    cases hf
    rfl
  exact ⟨_, _, Prog.exec_among (fun _ => rfl) hstep (KVServer.txn twoPuts) _, by decide, by decide,
    by decide⟩

end REtcd.Server
