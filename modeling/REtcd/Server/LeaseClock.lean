import REtcd.Base.History
import REtcd.Server.KeepAlive

/-!
# A lease that is renewed in time

So far a lease may end at any moment.  Here the run has a clock: `timed` is `exec` with a record
beside the database, of the time and of the moment at which each lease ends (`Clock`).  A run is
`Punctual` if the clock does not go back and no lease ends before its time.

For a lease that nobody revokes, in every punctual run (`lease_kept`):

* each `SET` or `EXPIRE` of the lease that is answered moves its end to one TTL from then;
* until then the lease is there;
* the reaper does not touch the lease before.

The reaper asks for the list of leases first, then for each whether it is still there, and does the
rest of its work afterwards (`reap_earns`).  So it may act on what it has seen a while ago.  But an ID
is on the list only after its lease was set, no ID is set twice, and a lease that is gone cannot be
renewed: what the reaper has found gone stays gone.
-/

namespace REtcd.Server

open Base Store

/-! ### Time -/

/-- The time in milliseconds, and when the leases end that were given an expiry. -/
structure Clock where
  now : ℕ
  deadline : ℤ → Option ℕ

/-- A command that is carried out and gives a lease an expiry moves the lease's end. -/
def Clock.note (env : Env) (c : Cmd) (after : World) (t : Clock) : Clock where
  now := env.now
  deadline :=
    match expiryOf c with
    | none => t.deadline
    | some (id, _) =>
      match after.redis.leaseData id with
      | none => t.deadline
      | some d =>
        if carriedOut env then
          Function.update t.deadline id (some (env.now + (d.expiry / 10 ^ 6).toNat))
        else t.deadline

def timed : Env → (c : Cmd) → World × Clock → Reply c × World × Clock := noting exec Clock.note

def startTimed (reqs : List Request) : Pool Cmd Reply Answer (World × Clock) :=
  ⟨(.empty, ⟨0, fun _ => none⟩), reqs.map Request.serve⟩

def timedCalls (reqs : List Request) (ms : List (ℕ × Env)) : List (Call Cmd Reply (World × Clock)) :=
  Pool.calls timed (startTimed reqs) ms

def endsDue (x : Call Cmd Reply (World × Clock)) : Bool :=
  match x.cmd with
  | .expireLease id => (x.before.2.deadline id).all fun d => decide (d ≤ x.after.2.now)
  | _ => true

/-- Time does not go back, and no lease ends before its time. -/
structure Punctual (reqs : List Request) (ms : List (ℕ × Env)) : Prop where
  forward : ∀ x ∈ timedCalls reqs ms, x.before.2.now ≤ x.after.2.now
  due : ∀ x ∈ timedCalls reqs ms, endsDue x = true

/-! ### What one command does -/

theorem exec_leaseData (env : Env) {c : Cmd} (w : World) (hc : c.Issued) (id : ℤ) :
    (exec env c w).2.redis.leaseData id = w.redis.leaseData id ∨
    (c = .delLease id ∨ c = .expireLease id) ∧ (exec env c w).2.redis.leaseData id = none ∨
    (∃ ttl expiry, c = .setLease id ttl expiry ∧
      (exec env c w).2.redis.leaseData id = some ⟨ttl, expiry⟩) ∨
    ∃ dur, c = .renewLease id dur ∧
      (exec env c w).2.redis.leaseData id = (w.redis.leaseData id).bind (LeaseData.expire dur) := by
  rcases exec_world env c w with hw | hw
  · exact Or.inl (by rw [hw])
  rw [hw]
  -- a command about another lease
  have hother : ∀ {id' : ℤ} {v : Option LeaseData}, id' ≠ id →
      (c.run env w).2.redis.leaseData = Function.update w.redis.leaseData id' v →
      (c.run env w).2.redis.leaseData id = w.redis.leaseData id := by
    intro id' v hne hs
    rw [hs, Function.update_of_ne (Ne.symm hne)]
  cases c with
  | evalWrite a => exact Or.inl (congrFun (writeLua_leases env.now a w.redis).2 id)
  | evalTxn a => exact Or.inl (congrFun (txnLua_leases env.now hc w.redis).2 id)
  | incrLeaseID =>
    refine Or.inl ?_
    simp only [Cmd.run]
    split_ifs <;> rfl
  | setLease id' ttl expiry =>
    by_cases hid : id' = id
    · subst hid
      exact Or.inr (Or.inr (Or.inl ⟨ttl, expiry, rfl, Function.update_self ..⟩))
    · exact Or.inl (hother hid rfl)
  | renewLease id' dur =>
    by_cases hid : id' = id
    · subst hid
      exact Or.inr (Or.inr (Or.inr ⟨dur, rfl, Function.update_self ..⟩))
    · exact Or.inl (hother hid rfl)
  | delLease id' =>
    by_cases hid : id' = id
    · subst hid
      exact Or.inr (Or.inl ⟨Or.inl rfl, Function.update_self ..⟩)
    · exact Or.inl (hother hid rfl)
  | expireLease id' =>
    by_cases hid : id' = id
    · subst hid
      exact Or.inr (Or.inl ⟨Or.inr rfl, Function.update_self ..⟩)
    · exact Or.inl (hother hid rfl)
  | _ => exact Or.inl rfl

/-- The end of a lease is moved only by a command that is carried out and leaves the lease there. -/
theorem note_deadline (env : Env) (c : Cmd) (after : World) (t : Clock) (id : ℤ) :
    (t.note env c after).deadline id = t.deadline id ∨
      carriedOut env ∧ ∃ dur d, expiryOf c = some (id, dur) ∧ after.redis.leaseData id = some d := by
  rw [Clock.note]
  dsimp only
  cases hc : expiryOf c with
  | none => exact Or.inl rfl
  | some p =>
    obtain ⟨id', dur⟩ := p
    dsimp only
    cases hd : after.redis.leaseData id' with
    | none => exact Or.inl rfl
    | some d =>
      dsimp only
      split_ifs with henv
      · by_cases hid : id' = id
        · subst hid
          exact Or.inr ⟨henv, dur, d, rfl, hd⟩
        · exact Or.inl (Function.update_of_ne (Ne.symm hid) _ _)
      · exact Or.inl rfl

theorem note_deadline_of_some {env : Env} {c : Cmd} {after : World} (t : Clock) {id dur : ℤ}
    {d : LeaseData} (hc : expiryOf c = some (id, dur)) (hd : after.redis.leaseData id = some d)
    (henv : carriedOut env) :
    (t.note env c after).deadline id = some (env.now + (d.expiry / 10 ^ 6).toNat) := by
  rw [Clock.note]
  dsimp only
  rw [hc]
  dsimp only
  rw [hd]
  dsimp only
  rw [if_pos henv, Function.update_self]

theorem exec_carriedOut {env : Env} (h : carriedOut env) (c : Cmd) (w : World) :
    (exec env c w).2 = (c.run env w).2 := by
  rw [exec]
  cases hf : env.fault with
  | none => rfl
  | some f =>
    dsimp only
    rw [if_pos (h f hf)]
    split_ifs <;> rfl

theorem carriedOut_of_ok {env : Env} {c : Cmd} {w w' : World} {v : c.Val} (hc : c.remote = true)
    (h : exec env c w = (.ok v, w')) : carriedOut env := by
  intro f hf
  rw [exec, hf] at h
  dsimp only at h
  rw [if_pos hc] at h
  cases h

section Calls

variable {reqs : List Request} {ms : List (ℕ × Env)} {x : Call Cmd Reply (World × Clock)}

theorem timedCalls_bare (reqs : List Request) (ms : List (ℕ × Env)) :
    (timedCalls reqs ms).map Call.bare = Pool.calls exec (start reqs) ms :=
  Pool.calls_noting (startTimed reqs) ms

theorem mem_bare (hx : x ∈ timedCalls reqs ms) : x.bare ∈ Pool.calls exec (start reqs) ms := by
  rw [← timedCalls_bare]
  exact List.mem_map_of_mem hx

theorem timedCalls_chained (reqs : List Request) (ms : List (ℕ × Env)) :
    Chained (startTimed reqs).shared (timedCalls reqs ms) := Pool.calls_chained (startTimed reqs) ms

theorem timedCall_exec (hx : x ∈ timedCalls reqs ms) :
    x.cmd.Issued ∧ ∃ env, exec env x.cmd x.before.1 = (x.reply, x.after.1) ∧
      x.after.2 = x.before.2.note env x.cmd x.after.1 := by
  have huses : (startTimed reqs).Uses Cmd.Issued := start_issued reqs
  obtain ⟨hc, _, env, he⟩ := Pool.calls_inv (I := fun _ => True) (fun _ _ _ _ _ => trivial) huses
    trivial ms x hx
  rw [timed, noting, Prod.mk.injEq] at he
  obtain ⟨hr, hafter⟩ := he
  rw [← hafter]
  exact ⟨hc, env, by rw [← hr], rfl⟩

theorem timedCall_lease (hx : x ∈ timedCalls reqs ms) (id : ℤ) :
    (x.after.2.deadline id = x.before.2.deadline id ∨ x.after.1.redis.leaseData id ≠ none) ∧
    (x.after.1.redis.leaseData id = x.before.1.redis.leaseData id ∨
      (x.cmd = .delLease id ∨ x.cmd = .expireLease id) ∧
        x.after.1.redis.leaseData id = none ∨
      (∃ ttl expiry, x.cmd = .setLease id ttl expiry ∧
        x.after.1.redis.leaseData id = some ⟨ttl, expiry⟩) ∨
      ∃ dur, x.cmd = .renewLease id dur ∧ x.after.1.redis.leaseData id =
        (x.before.1.redis.leaseData id).bind (LeaseData.expire dur)) := by
  obtain ⟨hc, env, he, hnote⟩ := timedCall_exec hx
  have hdata := exec_leaseData env x.before.1 hc id
  rw [he] at hdata
  refine ⟨?_, hdata⟩
  rw [hnote]
  refine (note_deadline env x.cmd x.after.1 x.before.2 id).imp_right ?_
  rintro ⟨_, _, d, _, hd⟩
  rw [hd]
  exact Option.some_ne_none d

end Calls

/-! ### Who issues which commands on leases -/

/-- The commands on leases that a request can issue. -/
def Request.Manages (req : Request) : Cmd → Prop
  | .incrLeaseID | .setLease _ _ _ | .saddLease _ => ∃ ttl, req = .leaseGrant ttl
  | .renewLease id _ => req = .leaseKeepAlive id
  | .delLease id => req = .leaseRevoke id
  | .delLeaseKeys id | .sremLease id => req = .leaseRevoke id ∨ req = .reap
  | .expireLease id => req = .expire id
  | _ => True

theorem serve_manages (req : Request) : req.serve.Uses req.Manages := by
  have hq : ∀ c : Cmd, c.Quiet → req.Manages c := by
    intro c h
    cases c <;> trivial
  have hd : ∀ key, req.Manages (.evalWrite ⟨key, .delete, [], 0⟩) := fun _ => trivial
  cases req with
  | put req => exact Prog.uses_bind (KVServer.put_uses hq trivial) fun _ => trivial
  | range req => exact Prog.uses_bind (KVServer.range_uses hq req) fun _ => trivial
  | deleteRange req => exact Prog.uses_bind (KVServer.deleteRange_uses hq hd req) fun _ => trivial
  | txn req =>
    exact Prog.uses_bind (KVServer.txn_uses hq hd (fun _ _ => trivial) (fun _ _ => trivial) req)
      fun _ => trivial
  | leaseGrant ttl =>
    refine Prog.uses_bind (Prog.uses_bind (RedisStore.leaseGrant_uses _
      ⟨⟨ttl, rfl⟩, fun _ => ⟨ttl, rfl⟩, fun _ => ⟨ttl, rfl⟩⟩) fun r => ?_) fun _ => trivial
    cases r <;> trivial
  | leaseRevoke id =>
    refine Prog.uses_bind (Prog.uses_bind (RedisStore.leaseRevoke_uses hq hd _
      ⟨rfl, Or.inl rfl, Or.inl rfl⟩) fun r => ?_) fun _ => trivial
    cases r <;> trivial
  | leaseKeepAlive id =>
    refine Prog.uses_bind (Prog.uses_bind (RedisStore.leaseRenew_uses hq id fun _ => rfl)
      fun r => ?_) fun _ => trivial
    cases r <;> trivial
  | reap =>
    exact Prog.uses_bind (RedisStore.reapExpiredLeases_uses hq hd
      fun _ => ⟨Or.inr rfl, Or.inr rfl⟩) fun _ => trivial
  | expire id => exact ⟨rfl, fun _ => trivial⟩

/-! ### The order of the commands of a request -/

def Told (id : ℤ) (x : Call Cmd Reply (World × Clock)) : Prop :=
  ∃ i s s', x = ⟨i, .incrLeaseID, .ok id, s, s'⟩

def ListsLease (id : ℤ) (x : Call Cmd Reply (World × Clock)) : Prop :=
  ∃ i ids s s', x = ⟨i, .smembersLeases, .ok ids, s, s'⟩ ∧ id ∈ ids

def FoundGone (id : ℤ) (x : Call Cmd Reply (World × Clock)) : Prop :=
  ∃ i s s', x = ⟨i, .existsLease id, .ok false, s, s'⟩

def Cmd.tracks : Cmd → Option ℤ
  | .smembersLeaseKeys id => some id
  | .delLeaseKeys id => some id
  | .sremLease id => some id
  | _ => none

/-- What a grant has to have done before: it lists an ID that it was told, and that is the end. -/
def GrantOrder (l : List (Call Cmd Reply (World × Clock))) (c : Cmd) : Prop :=
  (∀ y ∈ l, ∀ id, y.cmd ≠ .saddLease id) ∧ ∀ id, c = .saddLease id → ∃ y ∈ l, Told id y

/-- What the reaper has to have done before: it looks for leases that were listed, and clears up after
those that it found gone. -/
def ReapOrder (l : List (Call Cmd Reply (World × Clock))) : Cmd → Prop
  | .existsLease id => ∃ y ∈ l, ListsLease id y
  | .smembersLeaseKeys id | .delLeaseKeys id | .sremLease id => ∃ y ∈ l, FoundGone id y
  | _ => True

theorem grant_earns (ttl : ℤ) : (Request.leaseGrant ttl).serve.Earns GrantOrder [] := by
  refine ⟨⟨by simp, fun id h => by cases h⟩, fun i r s s' => ?_⟩
  cases r with
  | error err => trivial
  | ok id =>
    refine ⟨⟨by simp, fun id' h => by cases h⟩, fun i₁ r₁ s₁ s₁' => ⟨⟨by simp, ?_⟩, ?_⟩⟩
    · intro id' h
      cases h
      exact ⟨_, List.mem_cons_self, i, s, s', rfl⟩
    · intro _ r₂ _ _
      cases r₁ <;> cases r₂ <;> trivial

section Reaper

variable {l : List (Call Cmd Reply (World × Clock))}

theorem reapOrder_delete (key : Key) : (RedisStore.delete key).Earns ReapOrder l := by
  refine ⟨trivial, fun i r s s' => ?_⟩
  cases r with
  | error err => trivial
  | ok res =>
    show Prog.Earns ReapOrder _ (RedisStore.emit .delete key _ _ _ res.sid >>= fun _ => _)
    refine Prog.earns_bind ?_ fun _ _ _ => trivial
    rw [RedisStore.emit.eq_def]
    cases res.sid with
    | none => trivial
    | some sid =>
      dsimp only
      split_ifs
      · trivial
      · exact ⟨trivial, fun _ _ _ _ => trivial⟩

theorem reapOrder_keys (keys : List Key) : (RedisStore.reapKeys keys).Earns ReapOrder l := by
  induction keys generalizing l with
  | nil => trivial
  | cons key keys ih => exact Prog.earns_bind (reapOrder_delete key) fun _ _ _ => ih

theorem reapOrder_lease {id : ℤ} (h : ∃ y ∈ l, ListsLease id y) :
    (RedisStore.reapLease id).Earns ReapOrder l := by
  refine ⟨h, fun i r s s' => ?_⟩
  rcases r with err | _ | _
  · trivial
  · -- the lease was found gone, and that stays in the list of calls
    have hgone : ∀ {l'}, l ++ [⟨i, .existsLease id, .ok false, s, s'⟩] <+: l' →
        ∃ y ∈ l', FoundGone id y := fun hl =>
      ⟨_, hl.subset (List.mem_append_right _ List.mem_cons_self), i, s, s', rfl⟩
    refine ⟨hgone List.prefix_rfl, fun i₁ r₁ s₁ s₁' => ?_⟩
    show Prog.Earns ReapOrder _ (RedisStore.reapKeys _ >>= fun _ => _)
    refine Prog.earns_bind (reapOrder_keys _) fun _ l' hl => ?_
    have hl' := (List.prefix_append _ _).trans hl
    refine ⟨hgone hl', fun i₂ r₂ s₂ s₂' => ?_⟩
    exact ⟨hgone (hl'.trans (List.prefix_append _ _)), fun _ _ _ _ => trivial⟩
  · trivial

theorem reapOrder_leases {ids : List ℤ} (h : ∀ id ∈ ids, ∃ y ∈ l, ListsLease id y) :
    (RedisStore.reapLeases ids).Earns ReapOrder l := by
  induction ids generalizing l with
  | nil => trivial
  | cons id ids ih =>
    refine Prog.earns_bind (reapOrder_lease (h id List.mem_cons_self)) fun _ l' hl => ih ?_
    intro id' hid
    obtain ⟨y, hy, hlist⟩ := h id' (List.mem_cons_of_mem _ hid)
    exact ⟨y, hl.subset hy, hlist⟩

theorem reap_earns : Request.reap.serve.Earns ReapOrder [] := by
  refine Prog.earns_bind ⟨trivial, fun i r s s' => ?_⟩ fun _ _ _ => trivial
  cases r with
  | error err => trivial
  | ok ids =>
    exact reapOrder_leases fun id hid =>
      ⟨_, List.mem_append_right _ List.mem_cons_self, i, ids, s, s', rfl, hid⟩

end Reaper

/-! ### The list of leases -/

section Runs

variable {reqs : List Request} {ms : List (ℕ × Env)} {x y : Call Cmd Reply (World × Clock)}
  {l₁ l₂ : List (Call Cmd Reply (World × Clock))} {id : ℤ}

theorem timed_path (hx : x ∈ timedCalls reqs ms) :
    ∃ req q, reqs[x.proc]? = some req ∧
      Pool.Path req.serve ((timedCalls reqs ms).filter fun y => y.proc = x.proc) q := by
  obtain ⟨p, hp⟩ := Pool.calls_proc hx
  obtain ⟨q, _, hpath⟩ := Pool.run_path hp ms
  rw [startTimed, List.getElem?_map, Option.map_eq_some_iff] at hp
  obtain ⟨req, hreq, rfl⟩ := hp
  exact ⟨req, q, hreq, hpath⟩

theorem timed_manages (hx : x ∈ timedCalls reqs ms) :
    ∃ req, reqs[x.proc]? = some req ∧ req.Manages x.cmd := by
  obtain ⟨req, q, hreq, hpath⟩ := timed_path hx
  exact ⟨req, hreq, hpath.uses (serve_manages req) x (List.mem_filter.mpr ⟨hx, by simp⟩)⟩

theorem exec_leases (env : Env) {c : Cmd} {w : World} (hc : c.Issued) (hne : c ≠ .saddLease id)
    (h : id ∉ w.redis.leases) : id ∉ (exec env c w).2.redis.leases := by
  rcases exec_world env c w with hw | hw
  · rw [hw]
    exact h
  rw [hw]
  cases c with
  | evalWrite a =>
    rcases writeLua_cases env.now a w.redis with ⟨_, hl⟩ | ⟨_, _, hl⟩ | ⟨e, he, _, _, _⟩
    · simp only [Cmd.run, hl]
      exact h
    · simp only [Cmd.run, hl]
      exact h
    · simp only [Cmd.run, he.leases]
      exact h
  | evalTxn a =>
    rcases txnLua_cases env.now (a := a) hc w.redis with ⟨_, hl⟩ | ⟨_, hl⟩ | ⟨_, e, he, _, _, _⟩
    · simp only [Cmd.run, hl]
      exact h
    · simp only [Cmd.run, hl]
      exact h
    · simp only [Cmd.run, he.leases]
      exact h
  | incrLeaseID =>
    simp only [Cmd.run]
    split_ifs <;> exact h
  | saddLease id' =>
    simp only [Cmd.run, World.modify, SortedSet.mem_insert, not_or]
    exact ⟨fun hid => hne (by rw [hid]), h⟩
  | sremLease id' =>
    simp only [Cmd.run, World.modify, SortedSet.mem_erase, not_and]
    exact fun _ => h
  | _ => exact h

/-- An ID that is listed was put on the list before. -/
theorem sadd_before_list (hh : timedCalls reqs ms = l₁ ++ x :: l₂) (hx : ListsLease id x) :
    ∃ y ∈ l₁, y.cmd = .saddLease id := by
  by_contra hno
  have hchain := timedCalls_chained reqs ms
  rw [hh] at hchain
  have hmem : ∀ y ∈ l₁ ++ x :: l₂, y ∈ timedCalls reqs ms := fun y hy => hh ▸ hy
  have hout : id ∉ x.before.1.redis.leases := by
    refine hchain.before (I := fun s => id ∉ s.1.redis.leases) (SortedSet.not_mem_empty id)
      fun y hy hnot => ?_
    obtain ⟨hc, env, he, _⟩ := timedCall_exec (hmem y (List.mem_append_left _ hy))
    have := exec_leases env hc (fun h => hno ⟨y, hy, h⟩) hnot
    rw [he] at this
    exact this
  obtain ⟨i, ids, s, s', rfl, hid⟩ := hx
  obtain ⟨_, env, he, _⟩ :=
    timedCall_exec (hmem _ (List.mem_append_right _ List.mem_cons_self))
  have hrun := run_of_exec_ok he
  rw [Cmd.run, Prod.mk.injEq, Except.ok.injEq] at hrun
  rw [← hrun.1] at hid
  exact hout ((env.orderIDs_perm _).subset hid)

theorem sadd_origin (hy : y ∈ timedCalls reqs ms) (hcmd : y.cmd = .saddLease id) :
    (∃ w w', ⟨y.proc, .incrLeaseID, .ok id, w, w'⟩ ∈ Pool.calls exec (start reqs) ms) ∧
      ∀ l₁ l₂, timedCalls reqs ms = l₁ ++ y :: l₂ → ∀ x ∈ l₂, x.proc ≠ y.proc := by
  obtain ⟨req, q, hreq, hpath⟩ := timed_path hy
  have hmem : y ∈ (timedCalls reqs ms).filter fun z => z.proc = y.proc :=
    List.mem_filter.mpr ⟨hy, by simp⟩
  obtain ⟨ttl, rfl⟩ : ∃ ttl, req = .leaseGrant ttl := by
    have := hpath.uses (serve_manages req) y hmem
    rwa [hcmd] at this
  constructor
  · obtain ⟨m₁, m₂, hsplit⟩ := List.append_of_mem hmem
    obtain ⟨z, hz, i, s, s', rfl⟩ := (hpath.earned (grant_earns ttl) hsplit).2 id hcmd
    have hown : (⟨i, .incrLeaseID, .ok id, s, s'⟩ : Call Cmd Reply (World × Clock)) ∈
        (timedCalls reqs ms).filter fun z => z.proc = y.proc := by
      rw [hsplit]
      exact List.mem_append_left _ hz
    obtain ⟨hin, hproc⟩ := List.mem_filter.mp hown
    have hproc : i = y.proc := by simpa using hproc
    rw [← hproc]
    exact ⟨s.1, s'.1, mem_bare hin⟩
  · intro m₁ m₂ hh x hx hproc
    obtain ⟨n₁, n₂, rfl⟩ := List.append_of_mem hx
    -- in the grant's own commands, `x` comes after `y`
    have hsplit : (timedCalls reqs ms).filter (fun z => z.proc = y.proc) =
        (m₁.filter (fun z => z.proc = y.proc) ++ y :: n₁.filter (fun z => z.proc = y.proc)) ++
          x :: n₂.filter (fun z => z.proc = y.proc) := by
      rw [hh]
      simp [hproc]
    have hnone := (hpath.earned (grant_earns ttl) hsplit).1 y
      (List.mem_append_right _ (List.mem_append_right _ List.mem_cons_self))
    exact hnone id hcmd

/-- After an ID has been listed, its lease is not set any more. -/
theorem no_set_after_list (hh : timedCalls reqs ms = l₁ ++ x :: l₂) (hx : ListsLease id x)
    (hy : y ∈ l₂) : ∀ ttl expiry, y.cmd ≠ .setLease id ttl expiry := by
  intro ttl expiry hcmd
  have hyin : y ∈ timedCalls reqs ms := by
    rw [hh]
    exact List.mem_append_right _ (List.mem_cons_of_mem _ hy)
  obtain ⟨z, hz, hzcmd⟩ := sadd_before_list hh hx
  obtain ⟨m₁, m₂, rfl⟩ := List.append_of_mem hz
  have hh' : timedCalls reqs ms = m₁ ++ z :: (m₂ ++ x :: l₂) := by
    rw [hh, List.append_assoc, List.cons_append]
  have hzin : z ∈ timedCalls reqs ms := by
    rw [hh']
    exact List.mem_append_right _ List.mem_cons_self
  obtain ⟨⟨w, w', htold⟩, hlast⟩ := sadd_origin hzin hzcmd
  have hset : expiryOf y.bare.cmd = some (id, expiry) := by
    show expiryOf y.cmd = _
    rw [hcmd]
    rfl
  rcases expiry_origin (mem_bare hyin) hset with ⟨_, v, v', _, htold', _⟩ | ⟨_, _, _, _, hrenew⟩
  · -- no ID is told twice, so it is the same grant
    have hproc : z.proc = y.proc := incr_unique htold htold'
    exact hlast m₁ _ hh' y (List.mem_append_right _ (List.mem_cons_of_mem _ hy)) hproc.symm
  · have : y.cmd = _ := hrenew
    rw [hcmd] at this
    cases this

/-! ### The lease of a grant -/

variable {i : ℕ} {reqTTL : ℤ}

theorem grantedTTL_le (h : reqTTL ≤ 9223372036) : grantedTTL reqTTL ≤ 9223372036 := by
  rw [grantedTTL]
  split_ifs
  · decide
  · exact h

/-- Whoever gives a lease an expiry goes by the TTL of its grant. -/
theorem handed_dur {w w' : World} (hreq : reqs[i]? = some (.leaseGrant reqTTL))
    (hid : ⟨i, .incrLeaseID, .ok id, w, w'⟩ ∈ Pool.calls exec (start reqs) ms)
    (hx : x ∈ timedCalls reqs ms) {dur : ℤ} (he : expiryOf x.cmd = some (id, dur)) :
    dur = RedisStore.seconds (grantedTTL reqTTL) := by
  rcases expiry_origin (mem_bare hx) he with
    ⟨reqTTL', v, v', hreq', hid', hc⟩ | ⟨ttl, v, v', hget, hc⟩
  · have hc : x.cmd = _ := hc
    rw [← incr_unique hid hid', hreq] at hreq'
    cases hreq'
    rw [hc] at he
    cases he
    rfl
  · have hc : x.cmd = _ := hc
    rw [hc] at he
    cases he
    obtain ⟨_, _, env, hexec⟩ := call_exec hget
    have hrun := run_of_exec_ok hexec
    simp only [Cmd.run, Prod.mk.injEq, Except.ok.injEq, Option.map_eq_some_iff] at hrun
    obtain ⟨⟨d, hd, rfl⟩, _⟩ := hrun
    rw [stored_ttl hreq hid _ hget d hd]

/-- A lease of at most `9223372036` seconds is there until its time is over, if nobody revokes
it. -/
theorem alive_until {w w' : World} (hp : Punctual reqs ms)
    (hreq : reqs[i]? = some (.leaseGrant reqTTL))
    (hid : ⟨i, .incrLeaseID, .ok id, w, w'⟩ ∈ Pool.calls exec (start reqs) ms)
    (hshort : reqTTL ≤ 9223372036) (hkeep : Request.leaseRevoke id ∉ reqs) :
    ∀ x ∈ timedCalls reqs ms, ∀ d, x.before.2.deadline id = some d →
      x.before.1.redis.leaseData id ≠ none ∨ d ≤ x.before.2.now := by
  refine (Pool.calls_keep (I := fun s : World × Clock => ∀ d, s.2.deadline id = some d →
    s.1.redis.leaseData id ≠ none ∨ d ≤ s.2.now) ?_ ?_).1
  · intro d h
    cases h
  · intro x hx hbefore d hd
    obtain ⟨hdeadline, hdata⟩ := timedCall_lease hx id
    rcases hdeadline with hsame | halive
    · rw [hsame] at hd
      rcases hbefore d hd with halive | hover
      · rcases hdata with h | ⟨h | h, _⟩ | ⟨ttl, expiry, _, h⟩ | ⟨dur, hcmd, h⟩
        · left
          rw [h]
          exact halive
        · -- only a revocation deletes the lease
          obtain ⟨req, hr, hman⟩ := timed_manages hx
          rw [h] at hman
          have hman : req = .leaseRevoke id := hman
          subst hman
          exact absurd (List.mem_of_getElem? hr) hkeep
        · have hdue := hp.due x hx
          rw [endsDue, h] at hdue
          dsimp only at hdue
          rw [hd, Option.all_some, decide_eq_true_eq] at hdue
          exact Or.inr hdue
        · left
          rw [h]
          exact Option.some_ne_none _
        · left
          obtain ⟨d₀, h₀⟩ := Option.ne_none_iff_exists'.mp halive
          have he : expiryOf x.cmd = some (id, dur) := by rw [hcmd]; rfl
          have hdur := handed_dur hreq hid hx he
          have hexp := (expire_seconds_iff (grantedTTL_pos reqTTL) d₀).mpr (grantedTTL_le hshort)
          rw [h, h₀, hdur]
          intro hnone
          rw [show (some d₀).bind _ = d₀.expire _ from rfl] at hnone
          rw [hnone] at hexp
          cases hexp
      · exact Or.inr (hover.trans (hp.forward x hx))
    · exact Or.inl halive

/-- A pass of the reaper that reads or clears the tracking sets of a lease has found the lease gone
before, and from then on the lease is not set any more. -/
theorem reap_found_gone (hy : y ∈ timedCalls reqs ms) (hreap : reqs[y.proc]? = some .reap)
    (hcmd : Cmd.tracks y.cmd = some id) :
    ∃ l₁ e l₂, timedCalls reqs ms = l₁ ++ e :: l₂ ∧ FoundGone id e ∧ y ∈ l₂ ∧
      ∀ x ∈ l₂, ∀ ttl expiry, x.cmd ≠ .setLease id ttl expiry := by
  obtain ⟨req, q, hr, hpath⟩ := timed_path hy
  rw [hreap] at hr
  cases hr
  -- in the pass's own commands, the lease is listed, found gone and then cleared
  obtain ⟨m₁, m₂, hsplit⟩ := List.append_of_mem
    (List.mem_filter.mpr ⟨hy, by simp⟩ : y ∈ (timedCalls reqs ms).filter fun z => z.proc = y.proc)
  obtain ⟨e, he, hgone⟩ : ∃ e ∈ m₁, FoundGone id e := by
    have hearned := hpath.earned reap_earns hsplit
    rw [List.nil_append] at hearned
    cases hc : y.cmd with
    | smembersLeaseKeys | delLeaseKeys | sremLease =>
      rw [hc] at hearned hcmd
      cases hcmd
      exact hearned
    | _ =>
      rw [hc] at hcmd
      cases hcmd
  obtain ⟨n₁, n₂, rfl⟩ := List.append_of_mem he
  rw [List.append_assoc, List.cons_append] at hsplit
  obtain ⟨z, hz, hlist⟩ : ∃ z ∈ n₁, ListsLease id z := by
    have hearned := hpath.earned reap_earns hsplit
    rw [List.nil_append] at hearned
    obtain ⟨_, _, _, rfl⟩ := hgone
    exact hearned
  -- and so in the history
  obtain ⟨l₁, l₂, hh, rfl, hl₂⟩ := split_of_filter hsplit
  have hy₂ : y ∈ l₂.filter fun z => z.proc = y.proc := by
    rw [hl₂]
    exact List.mem_append_right _ List.mem_cons_self
  refine ⟨l₁, e, l₂, hh, hgone, List.mem_of_mem_filter hy₂, fun x hx => ?_⟩
  obtain ⟨k₁, k₂, rfl⟩ := List.append_of_mem (List.mem_of_mem_filter hz)
  rw [List.append_assoc, List.cons_append] at hh
  exact no_set_after_list hh hlist (List.mem_append_right _ (List.mem_cons_of_mem _ hx))

/-- **The reaper waits**: when it reads or clears the tracking sets of such a lease, the time of the
lease is over. -/
theorem reaper_waits {w w' : World} (hp : Punctual reqs ms)
    (hreq : reqs[i]? = some (.leaseGrant reqTTL))
    (hid : ⟨i, .incrLeaseID, .ok id, w, w'⟩ ∈ Pool.calls exec (start reqs) ms)
    (hshort : reqTTL ≤ 9223372036) (hkeep : Request.leaseRevoke id ∉ reqs)
    (hy : y ∈ timedCalls reqs ms) (hreap : reqs[y.proc]? = some .reap)
    (hcmd : Cmd.tracks y.cmd = some id) :
    ∀ d, y.before.2.deadline id = some d → d ≤ y.after.2.now := by
  obtain ⟨l₁, e, l₂, hh, hgone, hy₂, hset⟩ := reap_found_gone hy hreap hcmd
  have hmem : ∀ x ∈ e :: l₂, x ∈ timedCalls reqs ms := by
    intro x hx
    rw [hh]
    exact List.mem_append_right _ hx
  have he := hmem e List.mem_cons_self
  have hchain := timedCalls_chained reqs ms
  rw [hh] at hchain
  -- what was found gone stays gone, with the end that it had
  have hstays := hchain.after (I := fun s : World × Clock => s.1.redis.leaseData id = none ∧
    ∀ d, s.2.deadline id = some d → d ≤ s.2.now) ?_ ?_ y hy₂
  · exact fun d hd => (hstays.2 d hd).trans (hp.forward y hy)
  · have halive := alive_until hp hreq hid hshort hkeep e he
    have hforward := hp.forward e he
    have hdeadline := (timedCall_lease he id).1
    obtain ⟨_, env, hexec, _⟩ := timedCall_exec he
    obtain ⟨j, s, s', rfl⟩ := hgone
    have hrun := run_of_exec_ok hexec
    rw [Cmd.run, Prod.mk.injEq, Except.ok.injEq] at hrun
    have hnone : s.1.redis.leaseData id = none := by simpa using hrun.1
    have hafter : s'.1.redis.leaseData id = none := by rw [← hrun.2]; exact hnone
    refine ⟨hafter, fun d hd => ?_⟩
    rcases hdeadline with hsame | hthere
    · rw [hsame] at hd
      exact ((halive d hd).resolve_left fun h => h hnone).trans hforward
    · exact absurd hafter hthere
  · rintro x hx ⟨hnone, hover⟩
    have hx' := hmem x (List.mem_cons_of_mem _ hx)
    obtain ⟨hdeadline, hdata⟩ := timedCall_lease hx' id
    have hafter : x.after.1.redis.leaseData id = none := by
      rcases hdata with h | ⟨_, h⟩ | ⟨ttl, expiry, h, _⟩ | ⟨dur, _, h⟩
      · rw [h, hnone]
      · exact h
      · exact absurd h (hset x hx ttl expiry)
      · rw [h, hnone]
        rfl
    refine ⟨hafter, fun d hd => ?_⟩
    rcases hdeadline with hsame | halive
    · rw [hsame] at hd
      exact (hover d hd).trans (hp.forward x hx')
    · exact absurd hafter halive

def Gives (id : ℤ) (x : Call Cmd Reply (World × Clock)) : Prop :=
  (∃ j ttl dur s s', x = ⟨j, .setLease id ttl dur, .ok (), s, s'⟩) ∨
    ∃ j dur s s', x = ⟨j, .renewLease id dur, .ok true, s, s'⟩

/-- A command that is carried out and leaves the lease with an expiry moves its end to one TTL from
then. -/
theorem given_deadline {w w' : World} (hreq : reqs[i]? = some (.leaseGrant reqTTL))
    (hid : ⟨i, .incrLeaseID, .ok id, w, w'⟩ ∈ Pool.calls exec (start reqs) ms)
    (hshort : reqTTL ≤ 9223372036) (hx : x ∈ timedCalls reqs ms) {env : Env}
    (hexec : exec env x.cmd x.before.1 = (x.reply, x.after.1))
    (hnote : x.after.2 = x.before.2.note env x.cmd x.after.1) (henv : carriedOut env) {dur : ℤ}
    {d : LeaseData} (he : expiryOf x.cmd = some (id, dur))
    (hd : x.after.1.redis.leaseData id = some d) :
    x.after.2.deadline id = some (x.after.2.now + (1000 * grantedTTL reqTTL).toNat) := by
  have hpos := grantedTTL_pos reqTTL
  have hle := grantedTTL_le hshort
  have hdur := handed_dur hreq hid hx he
  have hnow : x.after.2.now = env.now := by rw [hnote]; rfl
  -- `SET` and `EXPIRE` both leave the lease with its TTL
  have hexp : d.expiry = grantedTTL reqTTL * 10 ^ 9 := by
    have hafter : x.after.1 = (x.cmd.run env x.before.1).2 := by
      rw [← exec_carriedOut henv, hexec]
    rw [hafter] at hd
    cases hc : x.cmd with
    | setLease id' ttl expiry =>
      rw [hc] at he hd
      cases he
      have hd : Function.update x.before.1.redis.leaseData id (some ⟨ttl, dur⟩) id = some d := hd
      rw [Function.update_self, Option.some.injEq] at hd
      subst hd hdur
      exact ((seconds_exact_iff hpos).mpr hle).2
    | renewLease id' expiry =>
      rw [hc] at he hd
      cases he
      have hd : Function.update x.before.1.redis.leaseData id
        ((x.before.1.redis.leaseData id).bind (LeaseData.expire dur)) id = some d := hd
      rw [Function.update_self, Option.bind_eq_some_iff] at hd
      obtain ⟨d₀, _, hd⟩ := hd
      have hexp := (expire_seconds_iff hpos d₀).mpr hle
      subst hdur
      rw [hd] at hexp
      exact Option.some.inj hexp
    | _ =>
      rw [hc] at he
      cases he
  have hms : d.expiry / 10 ^ 6 = 1000 * grantedTTL reqTTL := by
    rw [hexp]
    omega
  rw [hnow, ← hms, hnote]
  exact note_deadline_of_some _ he hd henv

theorem gives_deadline {w w' : World} (hreq : reqs[i]? = some (.leaseGrant reqTTL))
    (hid : ⟨i, .incrLeaseID, .ok id, w, w'⟩ ∈ Pool.calls exec (start reqs) ms)
    (hshort : reqTTL ≤ 9223372036) (hx : x ∈ timedCalls reqs ms) (hgives : Gives id x) :
    x.after.2.deadline id = some (x.after.2.now + (1000 * grantedTTL reqTTL).toNat) := by
  obtain ⟨_, env, hexec, hnote⟩ := timedCall_exec hx
  rcases hgives with ⟨j, ttl, dur, s, s', rfl⟩ | ⟨j, dur, s, s', rfl⟩
  · have hafter : s'.1 = _ := (congrArg Prod.snd (run_of_exec_ok hexec)).symm
    refine given_deadline (d := ⟨ttl, dur⟩) hreq hid hshort hx hexec hnote
      (carriedOut_of_ok rfl hexec) rfl ?_
    rw [hafter]
    exact Function.update_self ..
  · have hrun := run_of_exec_ok hexec
    have hafter : s'.1 = _ := (congrArg Prod.snd hrun).symm
    have hthere : (s.1.redis.leaseData id).isSome = true := by
      have := congrArg Prod.fst hrun
      simpa [Cmd.run] using this
    obtain ⟨d₀, h₀⟩ := Option.isSome_iff_exists.mp hthere
    have hexp := (expire_seconds_iff (grantedTTL_pos reqTTL) d₀).mpr (grantedTTL_le hshort)
    rw [← handed_dur hreq hid hx rfl, Option.map_eq_some_iff] at hexp
    obtain ⟨d, hd, _⟩ := hexp
    refine given_deadline (d := d) hreq hid hshort hx hexec hnote (carriedOut_of_ok rfl hexec) rfl ?_
    rw [hafter]
    show Function.update _ _ _ _ = _
    rw [Function.update_self, h₀]
    exact hd

/-- **A lease that is renewed in time is kept.**  In every punctual run, for a lease that a grant has
reported, with a TTL of at most `9223372036` seconds, and that nobody revokes: each `SET` or `EXPIRE`
that is answered moves its end to one TTL from then, before its end the lease is there, and no pass
of the reaper reads or clears its tracking sets. -/
theorem lease_kept (reqs : List Request) (ms : List (ℕ × Env)) {i : ℕ} {reqTTL : ℤ}
    {resp : LeaseGrantResponse} (hp : Punctual reqs ms)
    (hreq : reqs[i]? = some (.leaseGrant reqTTL))
    (ha : (Pool.run exec (start reqs) ms).procs[i]? = some (.ret (.leaseGrant (.ok resp))))
    (hshort : reqTTL ≤ 9223372036) (hkeep : Request.leaseRevoke resp.id ∉ reqs) :
    (∀ x ∈ timedCalls reqs ms, Gives resp.id x →
      x.after.2.deadline resp.id = some (x.after.2.now + (1000 * resp.ttl).toNat)) ∧
    ∀ x ∈ timedCalls reqs ms, ∀ d, x.before.2.deadline resp.id = some d →
      (x.before.2.now < d → x.before.1.redis.leaseData resp.id ≠ none) ∧
      (x.after.2.now < d → reqs[x.proc]? = some .reap → Cmd.tracks x.cmd ≠ some resp.id) := by
  obtain ⟨httl, ⟨w, w', hid⟩, _⟩ := leaseGrant_answered hreq ha
  refine ⟨fun x hx hgives => ?_, fun x hx d hd => ⟨fun hlt => ?_, fun hlt hreap hcmd => ?_⟩⟩
  · rw [httl]
    exact gives_deadline hreq hid hshort hx hgives
  · exact (alive_until hp hreq hid hshort hkeep x hx d hd).resolve_right (by omega)
  · have := reaper_waits hp hreq hid hshort hkeep hx hreap hcmd d hd
    omega

end Runs

def oneLease : List Request := [.leaseGrant 5, .leaseKeepAlive 1, .reap, .expire 1, .reap]

def oneLeaseTimes : List (ℕ × Env) :=
  [(0, .plain 1000), (0, .plain 1000), (0, .plain 1000), (1, .plain 4000), (1, .plain 4000),
    (2, .plain 8000), (2, .plain 8000), (3, .plain 9000), (4, .plain 9500), (4, .plain 9500),
    (4, .plain 9500), (4, .plain 9500), (4, .plain 9500)]

theorem oneLease_kept :
    Punctual oneLease oneLeaseTimes ∧
      (Pool.run exec (start oneLease) oneLeaseTimes).shared.redis.leases.toList = [] ∧
      ∀ x ∈ timedCalls oneLease oneLeaseTimes, ∀ d, x.before.2.deadline 1 = some d →
        x.before.2.now < d → x.before.1.redis.leaseData 1 ≠ none := by
  have hp : Punctual oneLease oneLeaseTimes := ⟨by decide +kernel, by decide +kernel⟩
  have ha : (Pool.run exec (start oneLease) oneLeaseTimes).procs[0]? =
      some (.ret (.leaseGrant (.ok ⟨headerAt 0, 1, 5⟩))) := rfl
  refine ⟨hp, by decide +kernel, fun x hx d hd => ?_⟩
  exact ((lease_kept oneLease oneLeaseTimes hp rfl ha (by decide) (by decide)).2 x hx d hd).1

end REtcd.Server
