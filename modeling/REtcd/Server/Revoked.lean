import REtcd.Server.Lease

/-!
# Revoking a lease, once or again

`Shed L keys s s'`: between two databases the listed keys have left lease `L`.  Each was stored with
the lease and is gone, with one delete event, and nothing else has changed but the set of the lease
itself.  Every run of `LeaseRevoke` does this for some keys, wherever it is stopped by an error
(`leaseRevoke_shed`), and for all keys of the lease if it answers; and what two runs shed one after
the other adds up (`Shed.trans`).  So a revocation that is run again after it was interrupted ends
where one that was not interrupted ends (`leaseRevoke_exact`).

The stores in question are those that complete requests reach in which no transaction writes
(`Attached`).
-/

namespace REtcd.Server

open Base Store

variable {L : ℤ} {keys keys' : List Key} {s s' s'' : Redis} {w w' : World}

/-- The keys have left lease `L`, and nothing else has changed. -/
structure Shed (L : ℤ) (keys : List Key) (s s' : Redis) : Prop where
  nodup : keys.Nodup
  attached : ∀ k ∈ keys, L ≠ 0 ∧ leaseOf s k = L
  kv : ∀ k, s'.kv k = if k ∈ keys then none else s.kv k
  keyindex : ∀ k, k ∈ s'.keyindex ↔ k ∈ s.keyindex ∧ k ∉ keys
  events : ∃ new, s'.events = s.events ++ new ∧ new.map Entry.key = keys ∧
    ∀ e ∈ new, e.type = .delete
  sets : ∀ n, n ≠ goDecimal L → s'.leaseKeys n = s.leaseKeys n
  leaseIndex : LeaseIndex s'

theorem Shed.leaseOf_of_mem (h : Shed L keys s s') {k : Key} (hk : k ∈ keys) : leaseOf s' k = 0 := by
  rw [leaseOf, h.kv, if_pos hk]
  rfl

theorem Shed.leaseOf_of_not_mem (h : Shed L keys s s') {k : Key} (hk : k ∉ keys) :
    leaseOf s' k = leaseOf s k := by
  rw [leaseOf, h.kv, if_neg hk, leaseOf]

theorem shed_nil (hkv : s'.kv = s.kv) (hidx : s'.keyindex = s.keyindex)
    (hev : s'.events = s.events) (hsets : ∀ n, n ≠ goDecimal L → s'.leaseKeys n = s.leaseKeys n)
    (hi : LeaseIndex s') : Shed L [] s s' where
  nodup := List.nodup_nil
  attached k hk := absurd hk List.not_mem_nil
  kv k := by simp [hkv]
  keyindex k := by simp [hidx]
  events := ⟨[], by simp [hev], rfl, by simp⟩
  sets := hsets
  leaseIndex := hi

theorem shed_refl (hi : LeaseIndex s) : Shed L [] s s := shed_nil rfl rfl rfl (fun _ _ => rfl) hi

/-- **What is shed in two runs adds up**: no key is shed twice. -/
theorem Shed.trans (h : Shed L keys s s') (h' : Shed L keys' s' s'') :
    Shed L (keys ++ keys') s s'' := by
  have hnew : ∀ k ∈ keys', k ∉ keys := by
    intro k hk' hk
    obtain ⟨hL, hl⟩ := h'.attached k hk'
    rw [h.leaseOf_of_mem hk] at hl
    exact hL hl.symm
  obtain ⟨new, hev, hkeys, hdel⟩ := h.events
  obtain ⟨new', hev', hkeys', hdel'⟩ := h'.events
  constructor
  · exact List.Nodup.append h.nodup h'.nodup fun k hk hk' => hnew k hk' hk
  · intro k hk
    rcases List.mem_append.mp hk with hk | hk
    · exact h.attached k hk
    · rw [← h.leaseOf_of_not_mem (hnew k hk)]
      exact h'.attached k hk
  · intro k
    rw [h'.kv, h.kv]
    by_cases hk : k ∈ keys <;> by_cases hk' : k ∈ keys' <;> simp [hk, hk']
  · intro k
    rw [h'.keyindex, h.keyindex, List.mem_append, not_or, and_assoc]
  · refine ⟨new ++ new', ?_, ?_, ?_⟩
    · rw [hev', hev, List.append_assoc]
    · rw [List.map_append, hkeys, hkeys']
    · intro e he
      rcases List.mem_append.mp he with he | he
      · exact hdel e he
      · exact hdel' e he
  · intro n hn
    rw [h'.sets n hn, h.sets n hn]
  · exact h'.leaseIndex

/-! ### One delete -/

theorem writeDelete_otherSets (now : ℕ) {a : WriteArgs} {raw : Blob} (hi : LeaseIndex s)
    (hraw : s.kv a.key = some raw) (hl : leaseOf s a.key = L) {n : NumText} (hn : n ≠ goDecimal L) :
    (writeDelete now a raw s).2.leaseKeys n = s.leaseKeys n := by
  have hcur : field (some raw) 25 = L := by rw [← hl, leaseOf, hraw]
  have hsmall := hi.small a.key
  rw [hl] at hsmall
  unfold writeDelete
  cases hinc : s.incr with
  | none => rfl
  | some p =>
    obtain ⟨rev, t⟩ := p
    obtain ⟨_, rfl, rfl⟩ := incr_some hinc
    dsimp only
    rw [hcur, luaTostring_of_lt hsmall.1 hsmall.2]
    split_ifs
    · exact Function.update_of_ne hn _ _
    · rfl

/-- **A delete of a key of lease `L` fails and changes nothing, or sheds the key.** -/
theorem writeLua_shed (now : ℕ) {key : Key} (hi : LeaseIndex s) (hL : L ≠ 0)
    (hl : leaseOf s key = L) :
    (∃ err, writeLua now ⟨key, .delete, [], 0⟩ s = (.error err, s)) ∨
      Shed L [key] s (writeLua now ⟨key, .delete, [], 0⟩ s).2 := by
  obtain ⟨raw, hraw⟩ : ∃ raw, s.kv key = some raw := by
    cases hkv : s.kv key with
    | none =>
      rw [leaseOf, hkv] at hl
      exact absurd hl.symm hL
    | some raw => exact ⟨raw, rfl⟩
  rcases writeLua_cases now ⟨key, .delete, [], 0⟩ s with
    ⟨_, h⟩ | ⟨_, hnone, _⟩ | ⟨e, hc, hek, het, _⟩
  · exact Or.inl ⟨_, h⟩
  · dsimp only at hnone
    rw [hraw] at hnone
    cases hnone
  · right
    dsimp only at hek
    have hdata := (hc.delete het).1
    have hlua : writeLua now ⟨key, .delete, [], 0⟩ s =
        writeDelete now ⟨key, .delete, [], 0⟩ raw s := by
      simp [writeLua, hraw]
    constructor
    · exact List.nodup_singleton key
    · intro k hk
      rw [List.mem_singleton.mp hk]
      exact ⟨hL, hl⟩
    · intro k
      rw [hc.kv, hek, hdata, Function.update_apply]
      simp
    · intro k
      rw [hc.index, hek, hdata]
      by_cases hk : k = key <;> simp [hk]
    · exact ⟨[e], hc.events, by simp [hek], by simp [het]⟩
    · intro n hn
      rw [hlua]
      exact writeDelete_otherSets now hi hraw hl hn
    · exact writeLua_leaseIndex now hi (by decide : (0 : ℤ) ≤ 0 ∧ (0 : ℤ) < 10 ^ 14)

theorem delete_shed {key : Key} {x : Result (ℤ × Option KeyValue)} (hi : LeaseIndex w.redis)
    (hl : L ≠ 0 ∧ leaseOf w.redis key = L)
    (h : Prog.Exec attempt (RedisStore.delete key) w x w') :
    Shed L [key] w.redis w'.redis ∨ (∃ err, x = .error err) ∧ w'.redis = w.redis := by
  obtain ⟨r, w₁, q, hs, ⟨hq, hret⟩, hrest⟩ := Prog.exec_first (RedisStore.delete_first key) h
  rw [attempt_quiet hq hrest, Prog.exec_returns hret hrest]
  obtain ⟨env, he | ⟨⟨err, rfl⟩, rfl | rfl⟩⟩ := attempt_cases hs
  · rw [Cmd.run, Prod.mk.injEq] at he
    obtain ⟨rfl, rfl⟩ := he
    rcases writeLua_shed env.now hi hl.1 hl.2 with ⟨err, hf⟩ | hshed
    · rw [hf]
      exact Or.inr ⟨⟨_, rfl⟩, rfl⟩
    · exact Or.inl hshed
  · exact Or.inr ⟨⟨_, rfl⟩, rfl⟩
  · rcases writeLua_shed env.now hi hl.1 hl.2 with ⟨err, hf⟩ | hshed
    · rw [Cmd.run, hf]
      exact Or.inr ⟨⟨_, rfl⟩, rfl⟩
    · exact Or.inl hshed

/-! ### The routine -/

/-- The delete loop sheds some of its keys, and all of them if it gets to its end. -/
theorem revokeKeys_shed {x : Result Unit} (hnd : keys.Nodup)
    (hkeys : ∀ k ∈ keys, L ≠ 0 ∧ leaseOf w.redis k = L) (hi : LeaseIndex w.redis)
    (h : Prog.Exec attempt (RedisStore.revokeKeys keys) w x w') :
    ∃ gone, Shed L gone w.redis w'.redis ∧ (x = .ok () → ∀ k ∈ keys, k ∈ gone) := by
  induction keys generalizing w with
  | nil =>
    obtain ⟨_, rfl⟩ := Prog.exec_ret.mp h
    exact ⟨[], shed_refl hi, fun _ k hk => hk⟩
  | cons key keys ih =>
    obtain ⟨hkey, hnd⟩ := List.nodup_cons.mp hnd
    obtain ⟨y, w₁, hd, hrest⟩ := Prog.exec_bind.mp h
    rcases delete_shed hi (hkeys key List.mem_cons_self) hd with hshed | ⟨⟨err, rfl⟩, hsame⟩
    · cases y with
      | error err =>
        obtain ⟨rfl, rfl⟩ := Prog.exec_ret.mp hrest
        exact ⟨[key], hshed, fun hx => nomatch hx⟩
      | ok out =>
        -- the keys still to come have kept their lease
        have hkeys₁ : ∀ k ∈ keys, L ≠ 0 ∧ leaseOf w₁.redis k = L := by
          intro k hk
          have hne : k ∉ [key] := fun hm => hkey (List.mem_singleton.mp hm ▸ hk)
          rw [hshed.leaseOf_of_not_mem hne]
          exact hkeys k (List.mem_cons_of_mem _ hk)
        obtain ⟨gone, hgone, hall⟩ := ih hnd hkeys₁ hshed.leaseIndex hrest
        refine ⟨[key] ++ gone, hshed.trans hgone, fun hx k hk => ?_⟩
        rcases List.mem_cons.mp hk with rfl | hk
        · exact List.mem_append_left _ (List.mem_singleton_self k)
        · exact List.mem_append_right _ (hall hx k hk)
    · obtain ⟨rfl, rfl⟩ := Prog.exec_ret.mp hrest
      rw [hsame]
      exact ⟨[], shed_refl hi, fun hx => nomatch hx⟩

theorem cleanup_shed {c : Cmd} {r : Reply c}
    (hc : c = .delLease L ∨ c = .delLeaseKeys L ∨ c = .sremLease L) (hi : LeaseIndex w.redis)
    (hempty : ∀ k, k ∉ w.redis.leaseKeys (goDecimal L)) (h : attempt c w r w') :
    Shed L [] w.redis w'.redis ∧ ∀ k, k ∉ w'.redis.leaseKeys (goDecimal L) := by
  rcases attempt_world h with rfl | ⟨env, rfl⟩
  · exact ⟨shed_refl hi, hempty⟩
  rcases hc with rfl | rfl | rfl
  · exact ⟨shed_nil rfl rfl rfl (fun _ _ => rfl) (hi.congr rfl rfl), hempty⟩
  · refine ⟨shed_nil rfl rfl rfl (fun n hn => Function.update_of_ne hn _ _) (hi.drop hempty), ?_⟩
    intro k
    simp [Cmd.run, World.modify]
  · exact ⟨shed_nil rfl rfl rfl (fun _ _ => rfl) (hi.congr rfl rfl), hempty⟩

theorem attempt_smembers {keys : List Key} (h : attempt (.smembersLeaseKeys L) w (.ok keys) w') :
    keys.Nodup ∧ ∀ k, k ∈ keys ↔ k ∈ w.redis.leaseKeys (goDecimal L) := by
  obtain ⟨env, he | ⟨⟨err, hr⟩, _⟩⟩ := attempt_cases h
  · rw [Cmd.run, Prod.mk.injEq] at he
    cases he.1
    have hperm := env.order_perm (w.redis.leaseKeys (goDecimal L)).toList
    refine ⟨hperm.nodup_iff.mpr ?_, fun k => hperm.mem_iff⟩
    exact (w.redis.leaseKeys (goDecimal L)).sorted.imp ne_of_lt
  · cases hr

theorem Shed.set_empty {gone : List Key} {s s' : Redis} (h : Shed L gone s s')
    (hall : ∀ k, L ≠ 0 → leaseOf s k = L → k ∈ gone) (k : Key) :
    k ∉ s'.leaseKeys (goDecimal L) := by
  intro hk
  obtain ⟨hL, hl⟩ := (h.leaseIndex.mem_iff k L).mp hk
  by_cases hkg : k ∈ gone
  · rw [h.leaseOf_of_mem hkg] at hl
    exact hL hl.symm
  · rw [h.leaseOf_of_not_mem hkg] at hl
    exact hkg (hall k hL hl)

/-- **`LeaseRevoke` sheds some keys of its lease, whatever fails, and all of them if it answers.** -/
theorem leaseRevoke_shed {x : Result Unit} (hi : LeaseIndex w.redis)
    (h : Prog.Exec attempt (RedisStore.leaseRevoke L) w x w') :
    ∃ gone, Shed L gone w.redis w'.redis ∧
      (x = .ok () → ∀ k, L ≠ 0 → leaseOf w.redis k = L → k ∈ gone) := by
  obtain ⟨r, w₀, hs, h⟩ := Prog.exec_cmd.mp h
  have hw₀ : w₀.redis = w.redis := by
    rcases attempt_world hs with rfl | ⟨env, rfl⟩ <;> rfl
  cases r with
  | error err =>
    obtain ⟨rfl, rfl⟩ := Prog.exec_ret.mp h
    rw [hw₀]
    refine ⟨[], shed_refl hi, ?_⟩
    intro hx
    cases hx
  | ok keys =>
    have hlist := attempt_smembers hs
    have hkeys : ∀ k ∈ keys, L ≠ 0 ∧ leaseOf w₀.redis k = L := by
      intro k hk
      rw [hw₀]
      exact (hi.mem_iff k L).mp ((hlist.2 k).mp hk)
    rw [← hw₀] at hi
    obtain ⟨y, w₁, hrev, hrest⟩ := Prog.exec_bind.mp h
    obtain ⟨gone, hgone, hall⟩ := revokeKeys_shed hlist.1 hkeys hi hrev
    rw [hw₀] at hgone hi
    cases y with
    | error err =>
      obtain ⟨rfl, rfl⟩ := Prog.exec_ret.mp hrest
      refine ⟨gone, hgone, ?_⟩
      intro hx
      cases hx
    | ok u =>
      have hcovers : ∀ k, L ≠ 0 → leaseOf w.redis k = L → k ∈ gone := fun k hL hl =>
        hall rfl k ((hlist.2 k).mpr ((hi.mem_iff k L).mpr ⟨hL, hl⟩))
      have hempty := hgone.set_empty hcovers
      obtain ⟨r₁, w₂, hs₁, hrest⟩ := Prog.exec_cmd.mp hrest
      obtain ⟨r₂, w₃, hs₂, hrest⟩ := Prog.exec_cmd.mp hrest
      obtain ⟨r₃, w₄, hs₃, hrest⟩ := Prog.exec_cmd.mp hrest
      obtain ⟨h₁, hempty₁⟩ := cleanup_shed (Or.inl rfl) hgone.leaseIndex hempty hs₁
      obtain ⟨h₂, hempty₂⟩ := cleanup_shed (Or.inr (Or.inl rfl)) h₁.leaseIndex hempty₁ hs₂
      obtain ⟨h₃, _⟩ := cleanup_shed (Or.inr (Or.inr rfl)) h₂.leaseIndex hempty₂ hs₃
      have hw' : w' = w₄ := by
        cases hp : RedisStore.pipeErr [r₁, r₂, r₃] with
        | error err =>
          rw [hp] at hrest
          exact (Prog.exec_ret.mp hrest).2
        | ok u =>
          rw [hp] at hrest
          exact (Prog.exec_ret.mp hrest).2
      have hshed := ((hgone.trans h₁).trans h₂).trans h₃
      simp only [List.append_nil] at hshed
      rw [hw']
      exact ⟨gone, hshed, fun _ => hcovers⟩

/-! ### The stores -/

/-- The stores that complete requests reach from an empty one, one after the other and whatever fails
in them, with lease IDs below `10 ^ 14` and without transactions and passes of the reaper. -/
inductive Attached : World → Prop
  | empty : Attached .empty
  | serve {w w' : World} {r : Request} {a : Answer} : Attached w → r.LeaseSmall →
      (∀ req, r ≠ .txn req) → r ≠ .reap → Prog.Exec attempt r.serve w a w' → Attached w'

theorem Attached.leaseIndex (h : Attached w) : LeaseIndex w.redis := by
  induction h with
  | empty => exact leaseIndex_empty
  | @serve w w' r a _ hr htxn hreap he ih =>
    by_cases hrev : ∃ id, r = .leaseRevoke id
    · obtain ⟨id, rfl⟩ := hrev
      obtain ⟨x, w₁, he, hret⟩ := Prog.exec_bind.mp he
      obtain ⟨_, rfl⟩ := Prog.exec_ret.mp hret
      obtain ⟨y, w₂, he, hret⟩ := Prog.exec_bind.mp he
      obtain ⟨gone, hshed, _⟩ := leaseRevoke_shed ih he
      cases y with
      | error err =>
        rw [(Prog.exec_ret.mp hret).2]
        exact hshed.leaseIndex
      | ok u =>
        rw [(Prog.exec_ret.mp hret).2]
        exact hshed.leaseIndex
    · exact Prog.exec_inv (I := fun v : World => LeaseIndex v.redis) attempt_leaseIndex
        (serve_keepsLeases hr htxn (fun id h => hrev ⟨id, h⟩) hreap) he ih

/-- Exactly the keys of lease `L` are gone, each with one delete event, and the blobs of all other
keys and the sets of all other leases are as they were. -/
structure Revoked (L : ℤ) (s s' : Redis) : Prop where
  kv : ∀ k, s'.kv k = if leaseOf s k = L then none else s.kv k
  keyindex : ∀ k, k ∈ s'.keyindex ↔ k ∈ s.keyindex ∧ leaseOf s k ≠ L
  events : ∃ new, s'.events = s.events ++ new ∧ (new.map Entry.key).Nodup ∧
    (∀ k, k ∈ new.map Entry.key ↔ leaseOf s k = L) ∧ ∀ e ∈ new, e.type = .delete
  sets : ∀ n, n ≠ goDecimal L → s'.leaseKeys n = s.leaseKeys n

theorem Shed.revoked (hL : L ≠ 0) (h : Shed L keys s s')
    (hall : ∀ k, L ≠ 0 → leaseOf s k = L → k ∈ keys) : Revoked L s s' := by
  have hmem : ∀ k, k ∈ keys ↔ leaseOf s k = L := fun k => ⟨fun hk => (h.attached k hk).2, hall k hL⟩
  obtain ⟨new, hev, hkeys, hdel⟩ := h.events
  constructor
  · intro k
    rw [h.kv]
    simp only [hmem]
  · intro k
    rw [h.keyindex, hmem]
  · refine ⟨new, hev, ?_, ?_, hdel⟩
    · rw [hkeys]
      exact h.nodup
    · intro k
      rw [hkeys, hmem]
  · exact h.sets

/-- A run of `LeaseRevoke` that an error has ended, at whatever command. -/
def Interrupted (L : ℤ) (w w' : World) : Prop :=
  ∃ err, Prog.Exec attempt (RedisStore.leaseRevoke L) w (.error err) w'

/-- However often it was interrupted, some keys of the lease are shed. -/
theorem interrupted_shed (hi : LeaseIndex w.redis)
    (h : Relation.ReflTransGen (Interrupted L) w w') : ∃ gone, Shed L gone w.redis w'.redis := by
  induction h with
  | refl => exact ⟨[], shed_refl hi⟩
  | tail _ hstep ih =>
    obtain ⟨gone, hgone⟩ := ih
    obtain ⟨err, he⟩ := hstep
    obtain ⟨gone', hgone', _⟩ := leaseRevoke_shed hgone.leaseIndex he
    exact ⟨_, hgone.trans hgone'⟩

/-- **`LeaseRevoke` deletes exactly the attached keys**, also when it is run again after it was
interrupted.  Alone and without failures it always ends, and it answers unless the revision counter
is at its end. -/
theorem leaseRevoke_exact (hw : Attached w) (hL : 0 < L) :
    (∃ x w', Prog.Exec step (RedisStore.leaseRevoke L) w x w') ∧
    (∀ x w', Prog.Exec step (RedisStore.leaseRevoke L) w x w' →
      x = .ok () ∨ ¬ w'.redis.counter < 2 ^ 63 - 1) ∧
    (∀ w', Prog.Exec step (RedisStore.leaseRevoke L) w (.ok ()) w' →
      Revoked L w.redis w'.redis) ∧
    ∀ w₁ w₂, Relation.ReflTransGen (Interrupted L) w w₁ →
      Prog.Exec step (RedisStore.leaseRevoke L) w₁ (.ok ()) w₂ → Revoked L w.redis w₂.redis := by
  -- an uninterrupted run is one that was interrupted no times
  have hrerun : ∀ w₁ w₂, Relation.ReflTransGen (Interrupted L) w w₁ →
      Prog.Exec step (RedisStore.leaseRevoke L) w₁ (.ok ()) w₂ → Revoked L w.redis w₂.redis := by
    intro w₁ w₂ hint he
    obtain ⟨gone, hgone⟩ := interrupted_shed hw.leaseIndex hint
    obtain ⟨rest, hrest, hall⟩ := leaseRevoke_shed hgone.leaseIndex
      (he.mono fun _ _ _ _ => attempt_of_step)
    refine (hgone.trans hrest).revoked hL.ne' fun k hne hl => ?_
    by_cases hk : k ∈ gone
    · exact List.mem_append_left _ hk
    · rw [← hgone.leaseOf_of_not_mem hk] at hl
      exact List.mem_append_right _ (hall rfl k hne hl)
  refine ⟨Prog.exists_exec step_total _ w, ?_, fun w' => hrerun w w' .refl, hrerun⟩
  intro x w' he
  by_cases hb : w'.redis.counter < 2 ^ 63 - 1
  · exact Or.inl (RedisStore.leaseRevoke_removed he hb).1
  · exact Or.inr hb

def secondLost (n : ℕ) : List (Env × Cmd) × Env :=
  ([], { Env.plain 6 with fault := if n = 1 then some ⟨"connection reset", true⟩ else none })

theorem attached_putLeased : Attached (serveAlone putLeased .empty) := by
  obtain ⟨a, he⟩ := serveAlone_exec putLeased .empty
  refine Attached.serve (r := putLeased) .empty ?_ ?_ ?_ (he.mono fun _ _ _ _ => attempt_of_step)
  · exact (by decide : (0 : ℤ) ≤ 7 ∧ (7 : ℤ) < 10 ^ 14)
  · intro req h
    cases h
  · intro h
    cases h

/-- A put with lease 7, a revocation whose delete is carried out and its answer lost, and then the
revocation again. -/
theorem putLeased_revokedAgain :
    leaseOf (serveAlone putLeased .empty).redis [97] = 7 ∧
    ∃ w₁ w₂, Interrupted 7 (serveAlone putLeased .empty) w₁ ∧
      Prog.Exec step (RedisStore.leaseRevoke 7) w₁ (.ok ()) w₂ ∧
      Revoked 7 (serveAlone putLeased .empty).redis w₂.redis := by
  obtain ⟨_, _, _, hrerun⟩ := leaseRevoke_exact attached_putLeased (by decide : (0 : ℤ) < 7)
  have hstep : ∀ n c w, attempt c w (exec (secondLost n).2 c w).1 (exec (secondLost n).2 c w).2 :=
    fun n _ _ => ⟨(secondLost n).2, rfl⟩
  have hfirst : Interrupted 7 (serveAlone putLeased .empty) (Prog.among exec
      (RedisStore.leaseRevoke 7) secondLost (serveAlone putLeased .empty)).2 :=
    ⟨_, Prog.exec_among (fun _ => rfl) hstep (RedisStore.leaseRevoke 7) _⟩
  obtain ⟨w₂, hagain⟩ : ∃ w₂, Prog.Exec step (RedisStore.leaseRevoke 7) (Prog.among exec
      (RedisStore.leaseRevoke 7) secondLost (serveAlone putLeased .empty)).2 (.ok ()) w₂ := by
    have hok : (Prog.among exec (RedisStore.leaseRevoke 7) undisturbed (Prog.among exec
        (RedisStore.leaseRevoke 7) secondLost (serveAlone putLeased .empty)).2).1 = .ok () := by
      decide +kernel
    exact ⟨_, hok ▸ exec_undisturbed (RedisStore.leaseRevoke 7) _⟩
  exact ⟨by decide, _, w₂, hfirst, hagain, hrerun _ _ (.single hfirst) hagain⟩

end REtcd.Server
