import REtcd.Base.Rely
import REtcd.Server.Lease
import REtcd.Store.Metadata

/-!
# Revoking and reaping a lease while others write

`LeaseRevoke` and the reaper list the keys of a lease once, delete them one by one whatever they
hold by then, and drop the set at the end.  Between these commands other clients' puts and deletes
take effect.  They are harmless as long as a put carries the lease exactly if its key is still to be
deleted (`Harmless`): then every deleted key carries the lease when it is deleted, and at the end no
key that carries it is missing from the set (`removal_among_writers`).

A put that detaches a listed key, or one that attaches another key, breaks this: the first loses a
live key, the second leaves a key that no longer expires (`removal_loses_key`).
-/

namespace REtcd.Server

open Base Store

inductive Removal where
  | revoke
  | reap
  deriving DecidableEq, Repr

def Removal.routine (L : ℤ) : Removal → Routine Unit
  | revoke => (fun _ => ()) <$> RedisStore.leaseRevoke L
  | reap => RedisStore.reapLease L

/-! ### What is still to be deleted -/

/-- The keys that have been listed and not deleted yet; `none` before the set is read and after it
is dropped. -/
def listed (g : Option (List Key)) : Call Cmd Reply World → Option (List Key)
  | ⟨_, .smembersLeaseKeys _, .ok keys, _, _⟩ => some keys
  | ⟨_, .evalWrite a, _, _, _⟩ => g.map fun keys => keys.erase a.key
  | ⟨_, .delLeaseKeys _, _, _, _⟩ => none
  | _ => g

/-- A delete, or a put that carries the lease `L` exactly if its key is still to be deleted. -/
def Harmless (L : ℤ) (g : Option (List Key)) (c : Cmd) : Prop :=
  (∃ key, c = .evalWrite ⟨key, .delete, [], 0⟩) ∨
    ∃ key value lease, c = .evalWrite ⟨key, .put, value, lease⟩ ∧ (0 ≤ lease ∧ lease < 10 ^ 14) ∧
      ∀ keys, g = some keys → (lease = L ↔ key ∈ keys)

/-- If the command deletes a key, the key carries the lease. -/
def Rightful (L : ℤ) (x : Call Cmd Reply World) : Prop :=
  ∀ key, x.cmd = .evalWrite ⟨key, .delete, [], 0⟩ → (x.before.redis.kv key).isSome →
    x.after.redis.kv key = none → leaseOf x.before.redis key = L

/-- The sets are right, and the keys still to be deleted are those that carry the lease, apart from
absent ones. -/
structure Listing (L : ℤ) (g : Option (List Key)) (s : Redis) : Prop where
  index : LeaseIndex s
  carries : ∀ keys, g = some keys → ∀ k ∈ keys, (s.kv k).isSome → leaseOf s k = L
  covers : ∀ keys, g = some keys → ∀ k, leaseOf s k = L → k ∈ keys

/-- `Listing`, as long as the counter has room for the deletes. -/
def Listed (L : ℤ) (g : Option (List Key)) (w : World) : Prop :=
  w.redis.counter < 2 ^ 63 - 1 → Listing L g w.redis

theorem writeLua_counter_le (now : ℕ) (a : WriteArgs) (s : Redis) :
    s.counter ≤ (writeLua now a s).2.counter := by
  rcases writeLua_cases now a s with ⟨_, hl⟩ | ⟨_, _, hl⟩ | ⟨e, hc, _⟩
  · rw [hl]
  · rw [hl]
  · rw [hc.counter]
    omega

section Scripts

variable {L : ℤ} {g : Option (List Key)} {s : Redis} {now : ℕ} {key : Key}

theorem delete_kv (hb : (writeLua now ⟨key, .delete, [], 0⟩ s).2.counter < 2 ^ 63 - 1) :
    (writeLua now ⟨key, .delete, [], 0⟩ s).2.kv = Function.update s.kv key none := by
  rcases writeLua_cases now ⟨key, .delete, [], 0⟩ s with
    ⟨hmax, hl⟩ | ⟨_, hk, hl⟩ | ⟨e, hc, hek, het, _⟩
  · rw [hl] at hb
    exact absurd hb hmax
  · rw [hl, ← hk, Function.update_eq_self]
  · rw [hc.kv, hek, (hc.delete het).1]

theorem Listing.delete (hL : L ≠ 0) (h : Listing L g s)
    (hb : (writeLua now ⟨key, .delete, [], 0⟩ s).2.counter < 2 ^ 63 - 1) :
    Listing L g (writeLua now ⟨key, .delete, [], 0⟩ s).2 ∧
      Listing L (g.map fun keys => keys.erase key) (writeLua now ⟨key, .delete, [], 0⟩ s).2 := by
  have hkv := delete_kv hb
  have hindex : LeaseIndex (writeLua now ⟨key, .delete, [], 0⟩ s).2 :=
    writeLua_leaseIndex now h.index ⟨le_rfl, by norm_num⟩
  have hof := leaseOf_update s key none hkv
  generalize (writeLua now ⟨key, .delete, [], 0⟩ s).2 = s' at hkv hindex hof
  -- the key itself carries no lease any more
  have hgone : ∀ k, leaseOf s' k = L → k ≠ key ∧ leaseOf s k = L := by
    intro k hk
    rw [hof] at hk
    split_ifs at hk with hkk
    · exact absurd hk.symm hL
    · exact ⟨hkk, hk⟩
  have hcarries : ∀ keys, g = some keys → ∀ k ∈ keys, (s'.kv k).isSome → leaseOf s' k = L := by
    intro keys hg k hk hs
    by_cases hkk : k = key
    · rw [hkv, hkk, Function.update_self] at hs
      cases hs
    · rw [hkv, Function.update_of_ne hkk] at hs
      rw [hof, if_neg hkk]
      exact h.carries keys hg k hk hs
  refine ⟨⟨hindex, hcarries, fun keys hg k hk => h.covers keys hg k (hgone k hk).2⟩,
    hindex, fun keys hg k hk hs => ?_, fun keys hg k hk => ?_⟩
  · obtain ⟨keys', hg', rfl⟩ := Option.map_eq_some_iff.mp hg
    exact hcarries keys' hg' k (List.mem_of_mem_erase hk) hs
  · obtain ⟨keys', hg', rfl⟩ := Option.map_eq_some_iff.mp hg
    obtain ⟨hne, hold⟩ := hgone k hk
    exact (List.mem_erase_of_ne hne).mpr (h.covers keys' hg' k hold)

theorem Listing.put {value : Bytes} {lease : ℤ} (h : Listing L g s)
    (hl : 0 ≤ lease ∧ lease < 10 ^ 14) (hg : ∀ keys, g = some keys → (lease = L ↔ key ∈ keys))
    (hb : (writeLua now ⟨key, .put, value, lease⟩ s).2.counter < 2 ^ 63 - 1) :
    Listing L g (writeLua now ⟨key, .put, value, lease⟩ s).2 := by
  have hroom := (writeLua_counter_le now ⟨key, .put, value, lease⟩ s).trans_lt hb
  have hof : ∀ k, leaseOf (writeLua now ⟨key, .put, value, lease⟩ s).2 k =
      if k = key then lease else leaseOf s k := fun k => writePut_leaseOf now hroom hl k
  have hindex : LeaseIndex (writeLua now ⟨key, .put, value, lease⟩ s).2 :=
    writeLua_leaseIndex now h.index hl
  have hkv : ∀ k, k ≠ key → (writeLua now ⟨key, .put, value, lease⟩ s).2.kv k = s.kv k := by
    intro k hk
    rcases writeLua_cases now ⟨key, .put, value, lease⟩ s with
      ⟨_, hl⟩ | ⟨_, _, hl⟩ | ⟨e, hc, hek, _⟩
    · rw [hl]
    · rw [hl]
    · rw [hc.kv, hek, Function.update_of_ne hk]
  generalize (writeLua now ⟨key, .put, value, lease⟩ s).2 = s' at hindex hof hkv
  refine ⟨hindex, fun keys hk k hmem hs => ?_, fun keys hk k hc => ?_⟩
  · rw [hof]
    split_ifs with hkk
    · exact (hg keys hk).mpr (hkk ▸ hmem)
    · rw [hkv k hkk] at hs
      exact h.carries keys hk k hmem hs
  · rw [hof] at hc
    split_ifs at hc with hkk
    · rw [hkk]
      exact (hg keys hk).mp hc
    · exact h.covers keys hk k hc

end Scripts

/-! ### The others -/

theorem listed_harmless {L : ℤ} (hL : L ≠ 0) (g : Option (List Key)) (env : Env) (c : Cmd)
    (w : World) (hc : Harmless L g c) (h : Listed L g w) : Listed L g (exec env c w).2 := by
  rcases exec_world env c w with hw | hw
  · rw [hw]
    exact h
  · rw [hw]
    rcases hc with ⟨key, rfl⟩ | ⟨key, value, lease, rfl, hl, hg⟩
    · intro hb
      exact ((h ((writeLua_counter_le _ _ _).trans_lt hb)).delete hL hb).1
    · intro hb
      exact (h ((writeLua_counter_le _ _ _).trans_lt hb)).put hl hg hb

/-! ### The routines -/

theorem step_of_faultless {env : Env} (hf : env.fault = none) (c : Cmd) (w : World) :
    step c w (exec env c w).1 (exec env c w).2 := ⟨env, hf, rfl⟩

section Routines

variable {L : ℤ} {α : Type}

/-- The routine keeps the listing from the keys `g` on, and every delete of it is rightful. -/
def Removes (L : ℤ) (p : Routine α) (g : Option (List Key)) (Q : α → Option (List Key) → Prop) :
    Prop :=
  p.Keeps exec listed (fun env => env.fault = none) (Listed L) (Rightful L) g Q

theorem removes_emit (type : EventType) (key : Key) (rev : ℤ) (newBlob prevBlob : Bytes)
    (sid : Option StreamID) (g : Option (List Key)) :
    Removes L (RedisStore.emit type key rev newBlob prevBlob sid) g (fun _ g' => g' = g) := by
  unfold RedisStore.emit
  cases sid with
  | none => exact rfl
  | some sid =>
    dsimp only
    split_ifs
    · exact rfl
    · refine Prog.keeps_cmd (fun _ _ _ => rfl) (fun _ _ _ key h => by cases h) ?_ fun _ => rfl
      intro env w hf h
      rw [exec_of_faultless hf]
      exact h

theorem removes_delete (hL : L ≠ 0) (key : Key) (keys : List Key) :
    Removes L (RedisStore.delete key) (some (key :: keys)) (fun _ g => g = some keys) := by
  intro env w hf h
  have hnext : ∀ r w', listed (some (key :: keys))
      ⟨0, .evalWrite ⟨key, .delete, [], 0⟩, r, w, w'⟩ = some keys := by
    intro r w'
    show some ((key :: keys).erase key) = some keys
    rw [List.erase_cons_head]
  rw [hnext, exec_of_faultless hf]
  refine ⟨?_, ?_, ?_⟩
  · -- the script deletes something only if the counter has room
    intro key' hkey hs hgone
    cases hkey
    rcases writeLua_cases env.now ⟨key, .delete, [], 0⟩ w.redis with
      ⟨_, hl⟩ | ⟨_, hk, _⟩ | ⟨e, hc, _⟩
    · have hsame : (writeLua env.now ⟨key, .delete, [], 0⟩ w.redis).2.kv key = w.redis.kv key := by
        rw [hl]
      have hs' : (w.redis.kv key).isSome := hs
      rw [← hsame, show (writeLua env.now ⟨key, .delete, [], 0⟩ w.redis).2.kv key = none from hgone]
        at hs'
      cases hs'
    · have hs' : (w.redis.kv key).isSome := hs
      rw [show w.redis.kv key = none from hk] at hs'
      cases hs'
    · exact (h hc.room).carries _ rfl key List.mem_cons_self hs
  · intro hb
    have := ((h ((writeLua_counter_le _ _ _).trans_lt hb)).delete hL hb).2
    rwa [Option.map_some, List.erase_cons_head] at this
  · generalize ((Cmd.evalWrite ⟨key, .delete, [], 0⟩).run env w).1 = r
    cases r with
    | error err => exact rfl
    | ok res =>
      show Removes L (RedisStore.emit .delete key _ [] res.existing res.sid >>= fun _ =>
        pure (Except.ok _)) (some keys) _
      exact Prog.keeps_bind (removes_emit _ _ _ _ _ _ _) fun _ g hg => hg

theorem removes_revokeKeys (hL : L ≠ 0) (keys : List Key) :
    Removes L (RedisStore.revokeKeys keys) (some keys) (fun x g => x = .ok () → g = some []) := by
  induction keys with
  | nil => exact fun _ => rfl
  | cons key keys ih =>
    refine Prog.keeps_bind (removes_delete hL key keys) fun x g hg => ?_
    subst hg
    cases x with
    | error err => exact fun h => by cases h
    | ok out => exact ih

theorem removes_reapKeys (hL : L ≠ 0) (keys : List Key) :
    Removes L (RedisStore.reapKeys keys) (some keys) (fun _ g => g = some []) := by
  induction keys with
  | nil => exact rfl
  | cons key keys ih =>
    refine Prog.keeps_bind (removes_delete hL key keys) fun x g hg => ?_
    subst hg
    exact ih

theorem removes_smembers (hL : L ≠ 0) {f : Reply (.smembersLeaseKeys L) → Routine α}
    {Q : α → Option (List Key) → Prop} (hf : ∀ keys, Removes L (f (.ok keys)) (some keys) Q) :
    Removes L (issue (.smembersLeaseKeys L) >>= f) none Q := by
  intro env w hfault h
  obtain ⟨hw, keys, hr, hmem⟩ := RedisStore.step_smembersLeaseKeys
    (step_of_faultless hfault (.smembersLeaseKeys L) w)
  rw [hr]
  refine ⟨fun key hkey => (by cases hkey), ?_, hf keys⟩
  intro hb
  rw [hw] at hb ⊢
  have hi := (h hb).index
  refine ⟨hi, fun keys' hk k hkm _ => ?_, fun keys' hk k hl => ?_⟩
  · cases hk
    exact ((hi.mem_iff k L).mp ((hmem k).mp hkm)).2
  · cases hk
    exact (hmem k).mpr ((hi.mem_iff k L).mpr ⟨hL, hl⟩)

theorem removes_delLeaseKeys {f : Reply (.delLeaseKeys L) → Routine α}
    {Q : α → Option (List Key) → Prop} (hf : ∀ r, Removes L (f r) none Q) :
    Removes L (issue (.delLeaseKeys L) >>= f) (some []) Q := by
  intro env w hfault h
  have hs := (RedisStore.step_delLeaseKeys (step_of_faultless hfault (.delLeaseKeys L) w)).2
  refine ⟨fun key hkey => (by cases hkey), ?_, hf _⟩
  intro hb
  rw [hs] at hb ⊢
  have hlist := h hb
  refine ⟨hlist.index.drop fun k hk => ?_, fun keys hk => (by cases hk), fun keys hk => (by cases hk)⟩
  have := hlist.covers [] rfl k ((hlist.index.mem_iff k L).mp hk).2
  cases this

theorem removes_cmd {c : Cmd} {f : Reply c → Routine α} {g : Option (List Key)}
    {Q : α → Option (List Key) → Prop} (hnext : ∀ r w w', listed g ⟨0, c, r, w, w'⟩ = g)
    (hwrite : ∀ a, c ≠ .evalWrite a)
    (hsame : ∀ env w, (c.run env w).2.redis.kv = w.redis.kv ∧
      (c.run env w).2.redis.leaseKeys = w.redis.leaseKeys ∧
      (c.run env w).2.redis.revision = w.redis.revision)
    (hf : ∀ r, Removes L (f r) g Q) : Removes L (issue c >>= f) g Q := by
  refine Prog.keeps_cmd hnext (fun _ _ _ key h => absurd h (hwrite _)) ?_ hf
  intro env w hfault h hb
  rw [exec_of_faultless hfault] at hb ⊢
  obtain ⟨hkv, hkeys, hrev⟩ := hsame env w
  have hlist := h (by rwa [Redis.counter, ← hrev])
  have hof : ∀ k, leaseOf (c.run env w).2.redis k = leaseOf w.redis k := by
    intro k
    rw [leaseOf, leaseOf, hkv]
  refine ⟨hlist.index.congr hkv hkeys, fun keys hk k hkm hs => ?_, fun keys hk k hl => ?_⟩
  · rw [hof]
    rw [hkv] at hs
    exact hlist.carries keys hk k hkm hs
  · rw [hof] at hl
    exact hlist.covers keys hk k hl

theorem removes_leaseRevoke (hL : L ≠ 0) :
    Removes L (RedisStore.leaseRevoke L) none (fun _ _ => True) := by
  refine removes_smembers hL fun keys => ?_
  refine Prog.keeps_bind (removes_revokeKeys hL keys) fun x g hg => ?_
  cases x with
  | error err => exact trivial
  | ok u =>
    rw [hg rfl]
    refine removes_cmd (fun _ _ _ => rfl) (fun _ h => by cases h) (fun _ _ => ⟨rfl, rfl, rfl⟩)
      fun r₁ => removes_delLeaseKeys fun r₂ => ?_
    refine removes_cmd (fun _ _ _ => rfl) (fun _ h => by cases h) (fun _ _ => ⟨rfl, rfl, rfl⟩)
      fun r₃ => ?_
    cases RedisStore.pipeErr [r₁, r₂, r₃] with
    | error err => exact trivial
    | ok u => exact trivial

theorem removes_reapLease (hL : L ≠ 0) :
    Removes L (RedisStore.reapLease L) none (fun _ _ => True) := by
  refine removes_cmd (fun _ _ _ => rfl) (fun _ h => by cases h) (fun _ _ => ⟨rfl, rfl, rfl⟩)
    fun r => ?_
  rcases r with err | _ | _
  · exact trivial
  · refine removes_smembers hL fun keys => ?_
    refine Prog.keeps_bind (removes_reapKeys hL keys) fun _ g hg => ?_
    subst hg
    refine removes_delLeaseKeys fun r₂ => ?_
    exact removes_cmd (fun _ _ _ => rfl) (fun _ h => by cases h) (fun _ _ => ⟨rfl, rfl, rfl⟩)
      fun r₃ => trivial
  · exact trivial

theorem removes_removal (hL : L ≠ 0) (r : Removal) :
    Removes L (r.routine L) none (fun _ _ => True) := by
  cases r with
  | revoke => exact Prog.keeps_bind (removes_leaseRevoke hL) fun _ _ _ => trivial
  | reap => exact removes_reapLease hL

end Routines

/-- **Among harmless writers a lease is removed rightly.**  A revoke or a reaper's pass of lease `L`
starts with the sets right, and other clients' scripts run between its commands.  If every put of
theirs that falls between the listing of the keys and the dropping of the set carries `L` exactly if
its key is still to be deleted, then every key that is deleted carries `L` at that moment, and at
the end no key that carries `L` is missing from the set of `L`. -/
theorem removal_among_writers (L : ℤ) (hL : L ≠ 0) (r : Removal)
    (t : ℕ → List (Env × Cmd) × Env) (w : World) (hw : LeaseIndex w.redis)
    (hf : ∀ n, (t n).2.fault = none)
    (hr : (r.routine L).Relies exec listed (Harmless L) t w none)
    (hb : (Prog.among exec (r.routine L) t w).2.redis.counter < 2 ^ 63 - 1) :
    (∀ x ∈ Prog.trace exec (r.routine L) t w, Rightful L x) ∧
      ∀ k, leaseOf (Prog.among exec (r.routine L) t w).2.redis k = L →
        k ∈ (Prog.among exec (r.routine L) t w).2.redis.leaseKeys (goDecimal L) := by
  have hstart : Listed L none w := by
    intro _
    exact ⟨hw, fun keys hk => (by cases hk), fun keys hk => (by cases hk)⟩
  obtain ⟨hall, g, _, hend⟩ := (removes_removal hL r).sound (listed_harmless hL) hf hr hstart
  refine ⟨hall, fun k hk => ?_⟩
  exact ((hend hb).index.mem_iff k L).mpr ⟨hL, hk⟩

/-- The command `c` runs before the `n`-th command. -/
def intrude (n : ℕ) (c : Cmd) (m : ℕ) : List (Env × Cmd) × Env :=
  (if m = n then [(.plain 6, c)] else [], .plain 6)

theorem intrude_harmless {L : ℤ} {g : Option (List Key)} {n m : ℕ} {key : Key} :
    ∀ x ∈ (intrude n (.evalWrite ⟨key, .delete, [], 0⟩) m).1, Harmless L g x.2 := by
  intro x hx
  rw [intrude] at hx
  split_ifs at hx
  · rw [List.mem_singleton.mp hx]
    exact Or.inl ⟨key, rfl⟩
  · cases hx

/-- Another client deletes the key `a` after a revoke has listed it. -/
theorem removal_among_delete :
    leaseOf (serveAlone putLeased .empty).redis [97] = 7 ∧
      ∀ x ∈ Prog.trace exec (Removal.revoke.routine 7)
        (intrude 1 (.evalWrite ⟨[97], .delete, [], 0⟩)) (serveAlone putLeased .empty),
        Rightful 7 x :=
  ⟨by decide, (removal_among_writers 7 (by decide) .revoke _ _ served_putLeased.leaseIndex
    (fun _ => rfl) (Prog.relies_of_forall (fun _ _ => intrude_harmless) _ _ _) (by decide)).1⟩

/-- **Puts between the listing and the drop**, on a store with the key `a` under lease 7.  If `a` is
put again without a lease after it has been listed, it is deleted all the same; if `b` is put with
lease 7 then, it is stored at the end and missing from the set.  Both happen to a revoke and to the
reaper. -/
theorem removal_loses_key :
    (∃ x ∈ Prog.trace exec (Removal.revoke.routine 7)
        (intrude 1 (.evalWrite ⟨[97], .put, [2], 0⟩)) (serveAlone putLeased .empty),
      x.cmd = .evalWrite ⟨[97], .delete, [], 0⟩ ∧ (x.before.redis.kv [97]).isSome ∧
        x.after.redis.kv [97] = none ∧ leaseOf x.before.redis [97] = 0) ∧
    (∃ x ∈ Prog.trace exec (Removal.reap.routine 7)
        (intrude 2 (.evalWrite ⟨[97], .put, [2], 0⟩)) (serveAlone putLeased .empty),
      x.cmd = .evalWrite ⟨[97], .delete, [], 0⟩ ∧ (x.before.redis.kv [97]).isSome ∧
        x.after.redis.kv [97] = none ∧ leaseOf x.before.redis [97] = 0) ∧
    (∃ w, (Prog.among exec (Removal.revoke.routine 7)
        (intrude 1 (.evalWrite ⟨[98], .put, [2], 7⟩)) (serveAlone putLeased .empty)).2 = w ∧
      leaseOf w.redis [98] = 7 ∧ (w.redis.kv [98]).isSome ∧
        [98] ∉ w.redis.leaseKeys (goDecimal 7)) ∧
    ∃ w, (Prog.among exec (Removal.reap.routine 7)
        (intrude 2 (.evalWrite ⟨[98], .put, [2], 7⟩)) (serveAlone putLeased .empty)).2 = w ∧
      leaseOf w.redis [98] = 7 ∧ (w.redis.kv [98]).isSome ∧
        [98] ∉ w.redis.leaseKeys (goDecimal 7) := by
  refine ⟨?_, ?_, ⟨_, rfl, by decide, by decide, by decide⟩,
    ⟨_, rfl, by decide, by decide, by decide⟩⟩
  · exact ⟨_, List.mem_cons_of_mem _ List.mem_cons_self, rfl, by decide, by decide, by decide⟩
  · exact ⟨_, List.mem_cons_of_mem _ (List.mem_cons_of_mem _ List.mem_cons_self), rfl, by decide,
      by decide, by decide⟩

end REtcd.Server
