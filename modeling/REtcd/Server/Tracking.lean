import REtcd.Server.Revoke
import REtcd.Store.Atomic

/-!
# Lease tracking when commands fail

`LeaseRevoke` and a pass of the reaper delete the keys that `lease:keys:<id>` lists and then drop the
set and the lease's entry in `leases`.  If Redis refuses some of their commands on the way, the keys
that are left should still be on record, so that a later revoke or pass deletes them (`Survives`).

A revoke stops at the first error, so its record survives every pattern of refusals.  The reaper
goes on: `tracking_survives_iff` says that the record survives a run iff every recorded key had a
delete of the run answered, or neither `DEL lease:keys:<id>` nor `SREM leases <id>` was answered.  A
pass whose `SMEMBERS` or whose delete fails and whose cleanup succeeds leaves keys that no lease
lists any more (`reaper_forgets`).
-/

namespace REtcd.Server

open Base Store

/-! ### The commands of a removal -/

abbrev deleteCmd (key : Key) : Cmd := .evalWrite ⟨key, .delete, [], 0⟩

inductive Clears : Cmd → Prop
  | quiet {c : Cmd} : c.Quiet → Clears c
  | delete (key : Key) : Clears (deleteCmd key)
  | delLease (id : ℤ) : Clears (.delLease id)
  | delLeaseKeys (id : ℤ) : Clears (.delLeaseKeys id)
  | sremLease (id : ℤ) : Clears (.sremLease id)

/-- `key` is gone, from the blobs and at most from the sets; the rest is as it was. -/
structure Struck (key : Key) (s s' : Redis) : Prop where
  kv : s'.kv = Function.update s.kv key none
  mem : ∀ m k, k ∈ s'.leaseKeys m → k ∈ s.leaseKeys m
  mem_of_ne : ∀ m k, k ≠ key → k ∈ s.leaseKeys m → k ∈ s'.leaseKeys m
  leases : s'.leases = s.leases
  leaseData : s'.leaseData = s.leaseData

theorem writeDelete_sets (now : ℕ) (a : WriteArgs) (raw : Blob) (s : Redis) (m : NumText) (k : Key) :
    (k ∈ (writeDelete now a raw s).2.leaseKeys m → k ∈ s.leaseKeys m) ∧
      (k ≠ a.key → k ∈ s.leaseKeys m → k ∈ (writeDelete now a raw s).2.leaseKeys m) := by
  unfold writeDelete
  cases hi : s.incr with
  | none => exact ⟨id, fun _ => id⟩
  | some p =>
    obtain ⟨rev, t⟩ := p
    obtain ⟨_, rfl, rfl⟩ := incr_some hi
    dsimp only
    rw [Redis.xadd, mem_leaseKeys_srem]
    exact ⟨fun h => h.1, fun hk h => ⟨h, fun _ h' => hk h'.2⟩⟩

theorem writeLua_struck {now : ℕ} {key : Key} {s : Redis} {r : WriteReply}
    (h : (writeLua now ⟨key, .delete, [], 0⟩ s).1 = .ok r) :
    Struck key s (writeLua now ⟨key, .delete, [], 0⟩ s).2 := by
  rcases writeLua_cases now ⟨key, .delete, [], 0⟩ s with
    ⟨_, hl⟩ | ⟨_, hk, hl⟩ | ⟨e, hc, hek, het, _⟩
  · rw [hl] at h
    cases h
  · rw [hl]
    refine ⟨?_, fun _ _ => id, fun _ _ _ => id, rfl, rfl⟩
    rw [← hk, Function.update_eq_self]
  · have hsome := (hc.delete het).2
    rw [hc.prev, hek] at hsome
    obtain ⟨raw, hraw⟩ := Option.isSome_iff_exists.mp hsome
    have hl : writeLua now ⟨key, .delete, [], 0⟩ s =
        writeDelete now ⟨key, .delete, [], 0⟩ raw s := by
      simp [writeLua, show s.kv key = some raw from hraw]
    have hsets := writeDelete_sets now ⟨key, .delete, [], 0⟩ raw s
    rw [← hl] at hsets
    refine ⟨?_, fun m k => (hsets m k).1, fun m k => (hsets m k).2, hc.leases, hc.leaseData⟩
    rw [hc.kv, hek, (hc.delete het).1]

/-- **What a command of a removal can do**, run or refused. -/
theorem clears_cases {c : Cmd} (hc : Clears c) {w w' : World} {r : Reply c}
    (h : refusable c w r w') :
    (w'.redis = w.redis ∧ (c.Quiet ∨ r.isOk = false)) ∨
    (∃ key, c = deleteCmd key ∧ r.isOk = true ∧ Struck key w.redis w'.redis) ∨
    (∃ id, c = .delLease id ∧ r.isOk = true ∧
      w'.redis = { w.redis with leaseData := Function.update w.redis.leaseData id none }) ∨
    (∃ id, c = .delLeaseKeys id ∧ r.isOk = true ∧ w'.redis =
      { w.redis with leaseKeys := Function.update w.redis.leaseKeys (goDecimal id) .empty }) ∨
    ∃ id, c = .sremLease id ∧ r.isOk = true ∧
      w'.redis = { w.redis with leases := w.redis.leases.erase id } := by
  rcases refusable_cases h with ⟨rfl, err, rfl⟩ | ⟨env, he⟩
  · exact Or.inl ⟨rfl, Or.inr rfl⟩
  · cases hc with
    | quiet hq =>
      have := Cmd.run_quiet env hq w
      rw [he] at this
      exact Or.inl ⟨this, Or.inl hq⟩
    | delete key =>
      rw [Cmd.run, Prod.mk.injEq] at he
      obtain ⟨rfl, rfl⟩ := he
      cases hr : (writeLua env.now ⟨key, .delete, [], 0⟩ w.redis).1 with
      | error err =>
        rcases writeLua_cases env.now ⟨key, .delete, [], 0⟩ w.redis with
          ⟨_, hl⟩ | ⟨_, _, hl⟩ | ⟨_, _, _, _, hl⟩
        · rw [hl]
          exact Or.inl ⟨rfl, Or.inr rfl⟩
        · rw [hl] at hr
          cases hr
        · rw [hl] at hr
          cases hr
      | ok res => exact Or.inr (Or.inl ⟨key, rfl, rfl, writeLua_struck hr⟩)
    | delLease id =>
      rw [Cmd.run, World.modify, Prod.mk.injEq] at he
      obtain ⟨rfl, rfl⟩ := he
      exact Or.inr (Or.inr (Or.inl ⟨id, rfl, rfl, rfl⟩))
    | delLeaseKeys id =>
      rw [Cmd.run, World.modify, Prod.mk.injEq] at he
      obtain ⟨rfl, rfl⟩ := he
      exact Or.inr (Or.inr (Or.inr (Or.inl ⟨id, rfl, rfl, rfl⟩)))
    | sremLease id =>
      rw [Cmd.run, World.modify, Prod.mk.injEq] at he
      obtain ⟨rfl, rfl⟩ := he
      exact Or.inr (Or.inr (Or.inr (Or.inr ⟨id, rfl, rfl, rfl⟩)))

/-! ### What is left after some answers -/

def Acked (c : Cmd) (l : List (Call Cmd Reply World)) : Prop :=
  ∃ x ∈ l, x.cmd = c ∧ x.reply.isOk = true

theorem acked_concat {c : Cmd} {l : List (Call Cmd Reply World)} {x : Call Cmd Reply World} :
    Acked c (l ++ [x]) ↔ Acked c l ∨ (x.cmd = c ∧ x.reply.isOk = true) := by
  simp only [Acked, List.mem_append, List.mem_singleton, or_and_right, exists_or,
    exists_eq_left]

/-- The blobs, the set of `L` and the entry of `L` in `leases`, given the answers so far. -/
structure Ledger (L : ℤ) (s₀ : Redis) (l : List (Call Cmd Reply World)) (s : Redis) : Prop where
  gone : ∀ k, Acked (deleteCmd k) l → s.kv k = none
  kept : ∀ k, ¬ Acked (deleteCmd k) l → s.kv k = s₀.kv k
  dropped : Acked (.delLeaseKeys L) l → ∀ k, k ∉ s.leaseKeys (goDecimal L)
  listed : ¬ Acked (.delLeaseKeys L) l → ∀ k ∈ s₀.leaseKeys (goDecimal L), (s.kv k).isSome →
    k ∈ s.leaseKeys (goDecimal L)
  leases : L ∈ s.leases ↔ L ∈ s₀.leases ∧ ¬ Acked (.sremLease L) l

theorem ledger_nil (L : ℤ) (s : Redis) : Ledger L s [] s := by
  refine ⟨?_, fun _ _ => rfl, ?_, fun _ k hk _ => hk, ?_⟩ <;> simp [Acked]

theorem Ledger.same {L : ℤ} {s₀ s s' : Redis} {l l' : List (Call Cmd Reply World)}
    (h : Ledger L s₀ l s) (hkv : s'.kv = s.kv)
    (hset : s'.leaseKeys (goDecimal L) = s.leaseKeys (goDecimal L))
    (hleases : L ∈ s'.leases ↔ L ∈ s.leases)
    (hans : ∀ d, (∃ k, d = deleteCmd k) ∨ d = .delLeaseKeys L ∨ d = .sremLease L →
      (Acked d l' ↔ Acked d l)) : Ledger L s₀ l' s' := by
  refine ⟨fun k => ?_, fun k => ?_, ?_, ?_, ?_⟩
  · rw [hans _ (Or.inl ⟨k, rfl⟩), hkv]
    exact h.gone k
  · rw [hans _ (Or.inl ⟨k, rfl⟩), hkv]
    exact h.kept k
  · rw [hans _ (Or.inr (Or.inl rfl)), hset]
    exact h.dropped
  · rw [hans _ (Or.inr (Or.inl rfl)), hset, hkv]
    exact h.listed
  · rw [hans _ (Or.inr (Or.inr rfl)), hleases]
    exact h.leases

theorem Ledger.delete {L : ℤ} {s₀ s s' : Redis} {l l' : List (Call Cmd Reply World)} {key : Key}
    (h : Ledger L s₀ l s) (hst : Struck key s s')
    (hans : ∀ d, Acked d l' ↔ Acked d l ∨ deleteCmd key = d) : Ledger L s₀ l' s' := by
  refine ⟨fun k hk => ?_, fun k hk => ?_, fun hd k hm => ?_, fun hd k hm hsome => ?_, ?_⟩
  · rw [hst.kv]
    rcases (hans _).mp hk with hk | hk
    · rw [Function.update_apply]
      split_ifs
      · rfl
      · exact h.gone k hk
    · cases hk
      rw [Function.update_self]
  · rw [hans, not_or] at hk
    have hne : k ≠ key := by
      rintro rfl
      exact hk.2 rfl
    rw [hst.kv, Function.update_of_ne hne]
    exact h.kept k hk.1
  · rw [hans, or_iff_left (by simp)] at hd
    exact h.dropped hd k (hst.mem _ k hm)
  · rw [hans, or_iff_left (by simp)] at hd
    have hne : k ≠ key := by
      rintro rfl
      rw [hst.kv, Function.update_self] at hsome
      cases hsome
    rw [hst.kv, Function.update_of_ne hne] at hsome
    exact hst.mem_of_ne _ k hne (h.listed hd k hm hsome)
  · rw [hans, or_iff_left (by simp), hst.leases]
    exact h.leases

theorem Ledger.step {L : ℤ} {s₀ : Redis} {l : List (Call Cmd Reply World)} {n : ℕ} {c : Cmd}
    {w w' : World} {r : Reply c} (h : Ledger L s₀ l w.redis) (hc : Clears c)
    (hs : refusable c w r w') : Ledger L s₀ (l ++ [⟨n, c, r, w, w'⟩]) w'.redis := by
  have hans : ∀ d, Acked d (l ++ [⟨n, c, r, w, w'⟩]) ↔
      Acked d l ∨ (c = d ∧ r.isOk = true) := fun d => acked_concat
  -- an answer to a command that does not count
  have hother : ∀ d, ¬ (c = d ∧ r.isOk = true) →
      (Acked d (l ++ [⟨n, c, r, w, w'⟩]) ↔ Acked d l) := fun d hd => by
    rw [hans, or_iff_left hd]
  rcases clears_cases hc hs with ⟨hw, hq⟩ | ⟨key, rfl, hok, hst⟩ | ⟨id, rfl, hok, hw⟩ |
    ⟨id, rfl, hok, hw⟩ | ⟨id, rfl, hok, hw⟩
  · rw [hw]
    refine h.same rfl rfl Iff.rfl fun d hd => hother d ?_
    rintro ⟨rfl, hok⟩
    rcases hq with hq | hq
    · rcases hd with ⟨k, rfl⟩ | rfl | rfl <;> exact hq
    · rw [hq] at hok
      cases hok
  · exact h.delete hst fun d => by rw [hans, hok, and_iff_left rfl]
  · rw [hw]
    refine h.same rfl rfl Iff.rfl fun d hd => hother d ?_
    rintro ⟨rfl, _⟩
    simp at hd
  · by_cases hid : id = L
    · subst hid
      rw [hw]
      refine ⟨fun k => ?_, fun k => ?_, fun _ k => by simp, fun hd => ?_, ?_⟩
      · rw [hother _ (by simp)]
        exact h.gone k
      · rw [hother _ (by simp)]
        exact h.kept k
      · exact absurd ((hans _).mpr (Or.inr ⟨rfl, hok⟩)) hd
      · rw [hother _ (by simp)]
        exact h.leases
    · rw [hw]
      refine h.same rfl (Function.update_of_ne (by simpa [goDecimal] using Ne.symm hid) _ _) Iff.rfl
        fun d hd => hother d ?_
      rintro ⟨rfl, _⟩
      simp [hid] at hd
  · by_cases hid : id = L
    · subst hid
      rw [hw]
      refine ⟨fun k => ?_, fun k => ?_, ?_, ?_, ?_⟩
      · rw [hother _ (by simp)]
        exact h.gone k
      · rw [hother _ (by simp)]
        exact h.kept k
      · rw [hother _ (by simp)]
        exact h.dropped
      · rw [hother _ (by simp)]
        exact h.listed
      · have hyes : Acked (.sremLease id) (l ++ [⟨n, .sremLease id, r, w, w'⟩]) :=
          (hans _).mpr (Or.inr ⟨rfl, hok⟩)
        simp [hyes]
    · rw [hw]
      refine h.same rfl rfl ?_ fun d hd => hother d ?_
      · simp [Ne.symm hid]
      · rintro ⟨rfl, _⟩
        simp [hid] at hd

/-! ### Runs in which commands are refused -/

def Removal.pass (L : ℤ) : Removal → Routine Unit
  | revoke => (fun _ => ()) <$> RedisStore.leaseRevoke L
  | reap => RedisStore.reapExpiredLeases

theorem Removal.pass_clears (r : Removal) (L : ℤ) : (r.pass L).Uses Clears := by
  cases r with
  | revoke =>
    exact Prog.uses_bind (RedisStore.leaseRevoke_uses (fun _ => .quiet) .delete L
      ⟨.delLease L, .delLeaseKeys L, .sremLease L⟩) fun _ => trivial
  | reap =>
    exact RedisStore.reapExpiredLeases_uses (fun _ => .quiet) .delete
      fun id => ⟨.delLeaseKeys id, .sremLease id⟩

/-- Commands that fail do so without effect. -/
def Refusing (e : ℕ → Env) : Prop := ∀ n f, (e n).fault = some f → f.applied = false

def alone (e : ℕ → Env) (n : ℕ) : List (Env × Cmd) × Env := ([], e n)

theorem exec_alone {α : Type} {e : ℕ → Env} (he : Refusing e) (p : Routine α) (w : World) :
    Prog.Exec refusable p w (Prog.among exec p (alone e) w).1 (Prog.among exec p (alone e) w).2 :=
  Prog.exec_among (fun _ => rfl) (fun n _ _ => ⟨e n, he n, rfl⟩) p w

theorem ledger_run (r : Removal) (L : ℤ) {e : ℕ → Env} (he : Refusing e) (w : World) :
    Ledger L w.redis (Prog.trace exec (r.pass L) (alone e) w)
      (Prog.among exec (r.pass L) (alone e) w).2.redis := by
  have hown (l : List (Call Cmd Reply World)) (env : Env) (c : Cmd) (v : World)
      (hq : ∀ f, env.fault = some f → f.applied = false) (hc : Clears c)
      (hl : Ledger L w.redis l v.redis) : Ledger L w.redis
        (l ++ [⟨0, c, (exec env c v).1, v, (exec env c v).2⟩]) (exec env c v).2.redis :=
    hl.step hc ⟨env, hq, rfl⟩
  exact Prog.trace_inv (I := fun l v => Ledger L w.redis l v.redis) (O := fun _ => False)
    (t := alone e) hown (fun _ _ _ _ h => h.elim) (r.pass_clears L) he (fun _ _ hx => nomatch hx)
    (ledger_nil L w.redis)

/-- After a run that started in `s₀`, every key on record is deleted, or the record of those that are
left is still there: in the set and, for the reaper, in `leases`. -/
def Survives (r : Removal) (L : ℤ) (s₀ s : Redis) : Prop :=
  (∀ k ∈ s₀.leaseKeys (goDecimal L), s.kv k = none) ∨
    ((r = .reap → L ∈ s.leases) ∧
      ∀ k ∈ s₀.leaseKeys (goDecimal L), (s.kv k).isSome → k ∈ s.leaseKeys (goDecimal L))

theorem Ledger.survives_iff {r : Removal} {L : ℤ} {s₀ s : Redis}
    {l : List (Call Cmd Reply World)} (h : Ledger L s₀ l s) (hL : r = .reap → L ∈ s₀.leases) :
    Survives r L s₀ s ↔
      (∀ k ∈ s₀.leaseKeys (goDecimal L), (s₀.kv k).isSome → Acked (deleteCmd k) l) ∨
        (¬ Acked (.delLeaseKeys L) l ∧ (r = .reap → ¬ Acked (.sremLease L) l)) := by
  constructor
  · rintro (hall | ⟨hin, hleft⟩)
    · left
      intro k hk hsome
      by_contra hno
      rw [← h.kept k hno, hall k hk] at hsome
      cases hsome
    · by_cases hall : ∀ k ∈ s₀.leaseKeys (goDecimal L), (s₀.kv k).isSome → Acked (deleteCmd k) l
      · exact Or.inl hall
      · -- a key that is left is in the set, so the set was not dropped
        push Not at hall
        obtain ⟨k, hk, hsome, hno⟩ := hall
        rw [← h.kept k hno] at hsome
        exact Or.inr ⟨fun hd => h.dropped hd k (hleft k hk hsome),
          fun hr => (h.leases.mp (hin hr)).2⟩
  · rintro (hall | ⟨hset, hin⟩)
    · left
      intro k hk
      cases hsome : s₀.kv k with
      | some raw => exact h.gone k (hall k hk (by rw [hsome]; rfl))
      | none =>
        by_cases hans : Acked (deleteCmd k) l
        · exact h.gone k hans
        · rw [h.kept k hans, hsome]
    · exact Or.inr ⟨fun hr => h.leases.mpr ⟨hL hr, hin hr⟩, h.listed hset⟩

/-! ### The revoke loop -/

section Loops

variable {L : ℤ} {k : Key} {w w' : World}

theorem stays_gone {α : Type} {p : Routine α} {x : α} (hp : p.Uses Clears)
    (h : Prog.Exec refusable p w x w') (hk : w.redis.kv k = none) : w'.redis.kv k = none := by
  refine Prog.exec_inv (I := fun v : World => v.redis.kv k = none) ?_ hp h hk
  intro c v r v' hc hs hv
  rcases clears_cases hc hs with ⟨hw, _⟩ | ⟨key, _, _, hst⟩ | ⟨_, _, _, hw⟩ | ⟨_, _, _, hw⟩ |
    ⟨_, _, _, hw⟩
  · rw [hw]
    exact hv
  · rw [hst.kv, Function.update_apply, hv, ite_self]
  all_goals
    rw [hw]
    exact hv

def OnRecord (L : ℤ) (k : Key) (s : Redis) : Prop :=
  k ∈ s.leaseKeys (goDecimal L) ∨ s.kv k = none

/-- As long as the set of `L` is not dropped, a key stays on record until it is gone. -/
theorem stays_onRecord {α : Type} {p : Routine α} {x : α}
    (hp : p.Uses fun c => Clears c ∧ c ≠ .delLeaseKeys L) (h : Prog.Exec refusable p w x w')
    (hk : OnRecord L k w.redis) : OnRecord L k w'.redis := by
  refine Prog.exec_inv (I := fun v : World => OnRecord L k v.redis) ?_ hp h hk
  intro c v r v' hc hs hv
  rcases clears_cases hc.1 hs with ⟨hw, _⟩ | ⟨key, _, _, hst⟩ | ⟨_, _, _, hw⟩ | ⟨id, rfl, _, hw⟩ |
    ⟨_, _, _, hw⟩
  · rw [hw]
    exact hv
  · by_cases hkk : k = key
    · right
      rw [hst.kv, hkk, Function.update_self]
    · exact hv.imp (hst.mem_of_ne _ k hkk) fun hn => by rw [hst.kv, Function.update_of_ne hkk, hn]
  · rw [hw]
    exact hv
  · have hid : id ≠ L := fun h => hc.2 (h ▸ rfl)
    rw [hw, OnRecord]
    dsimp only
    rw [Function.update_of_ne (by simpa [goDecimal] using hid.symm)]
    exact hv
  · rw [hw]
    exact hv

theorem delete_answered {key : Key} {out : ℤ × Option KeyValue}
    (h : Prog.Exec refusable (RedisStore.delete key) w (.ok out) w') : w'.redis.kv key = none := by
  obtain ⟨r, w₁, q, hs, ⟨hq, hret⟩, hrest⟩ := Prog.exec_first (RedisStore.delete_first key) h
  rw [refusable_quiet hq hrest]
  have hx := Prog.exec_returns hret hrest
  rcases clears_cases (.delete key) hs with ⟨_, hq | hr⟩ | ⟨k, hk, _, hst⟩ | ⟨_, hc, _⟩ |
    ⟨_, hc, _⟩ | ⟨_, hc, _⟩
  · exact hq.elim
  · cases r with
    | error err => cases hx
    | ok res => cases hr
  · cases hk
    rw [hst.kv, Function.update_self]
  all_goals cases hc

theorem revokeKeys_answered {keys : List Key} {u : Unit}
    (h : Prog.Exec refusable (RedisStore.revokeKeys keys) w (.ok u) w') :
    ∀ k ∈ keys, w'.redis.kv k = none := by
  induction keys generalizing w with
  | nil => simp
  | cons key keys ih =>
    obtain ⟨y, w₁, hd, hrest⟩ := Prog.exec_bind.mp h
    cases y with
    | error err => cases hrest
    | ok out =>
      intro k hk
      rcases List.mem_cons.mp hk with rfl | hk
      · exact stays_gone (RedisStore.revokeKeys_uses (fun _ => .quiet) .delete keys) hrest
          (delete_answered hd)
      · exact ih hrest k hk

theorem refusable_smembers {r : Reply (.smembersLeaseKeys L)}
    (h : refusable (.smembersLeaseKeys L) w r w') :
    w' = w ∧ ∀ keys, r = .ok keys → ∀ k, k ∈ keys ↔ k ∈ w.redis.leaseKeys (goDecimal L) := by
  rcases refusable_cases h with ⟨rfl, err, rfl⟩ | ⟨env, he⟩
  · exact ⟨rfl, fun keys hk => nomatch hk⟩
  · rw [Cmd.run, Prod.mk.injEq] at he
    obtain ⟨rfl, rfl⟩ := he
    refine ⟨rfl, fun keys hk k => ?_⟩
    cases hk
    exact (env.order_perm _).mem_iff

theorem revokeKeys_spares (keys : List Key) :
    (RedisStore.revokeKeys keys).Uses fun c => Clears c ∧ c ≠ .delLeaseKeys L := by
  refine RedisStore.revokeKeys_uses (fun c hc => ⟨.quiet hc, ?_⟩) (fun key => ⟨.delete key, ?_⟩) keys
  · rintro rfl
    exact hc
  · simp

/-- **The record of a lease survives its revoke**, whatever Redis refuses. -/
theorem leaseRevoke_survives {x : Unit} (h : Prog.Exec refusable (Removal.revoke.pass L) w x w') :
    Survives .revoke L w.redis w'.redis := by
  obtain ⟨y, w₁, h, hrest⟩ := Prog.exec_bind.mp h
  obtain ⟨_, rfl⟩ := Prog.exec_ret.mp hrest
  obtain ⟨r, w₂, hs, h⟩ := Prog.exec_cmd.mp h
  obtain ⟨rfl, hkeys⟩ := refusable_smembers hs
  cases r with
  | error err =>
    obtain ⟨_, rfl⟩ := Prog.exec_ret.mp h
    exact Or.inr ⟨fun hr => (nomatch hr), fun k hk _ => hk⟩
  | ok keys =>
    obtain ⟨z, w₃, hloop, hrest⟩ := Prog.exec_bind.mp h
    cases z with
    | error err =>
      obtain ⟨_, rfl⟩ := Prog.exec_ret.mp hrest
      refine Or.inr ⟨fun hr => (nomatch hr), fun k hk hsome => ?_⟩
      refine (stays_onRecord (revokeKeys_spares keys) hloop (Or.inl hk)).resolve_right fun hn => ?_
      rw [hn] at hsome
      cases hsome
    | ok u =>
      left
      intro k hk
      refine stays_gone ?_ hrest (revokeKeys_answered hloop k ((hkeys keys rfl k).mpr hk))
      refine Prog.uses_cmd (.delLease L) fun r₁ => Prog.uses_cmd (.delLeaseKeys L) fun r₂ =>
        Prog.uses_cmd (.sremLease L) fun r₃ => ?_
      cases RedisStore.pipeErr [r₁, r₂, r₃] <;> trivial

/-! ### Later passes -/

theorem leaseRevoke_deletes {x : Result Unit} (h : Prog.Exec step (RedisStore.leaseRevoke L) w x w')
    (hb : w'.redis.counter < 2 ^ 63 - 1) (hk : OnRecord L k w.redis) : w'.redis.kv k = none := by
  rcases hk with hk | hk
  · obtain ⟨_, keys, s, hkeys, hr, hw'⟩ := RedisStore.leaseRevoke_removed h hb
    rw [hw']
    show s.kv k = none
    rw [hr.kv, if_pos ((hkeys k).mpr hk)]
  · refine stays_gone ?_ (h.mono fun _ _ _ _ => refusable_of_step) hk
    exact RedisStore.leaseRevoke_uses (fun _ => .quiet) .delete L
      ⟨.delLease L, .delLeaseKeys L, .sremLease L⟩

theorem reapLease_leaseData {id : ℤ} {x : Unit}
    (h : Prog.Exec step (RedisStore.reapLease id) w x w') (hb : w'.redis.counter < 2 ^ 63 - 1) :
    w'.redis.leaseData = w.redis.leaseData := by
  cases hdata : w.redis.leaseData id with
  | some d => rw [RedisStore.reapLease_live hdata h]
  | none =>
    obtain ⟨keys, s, _, hr, hw'⟩ := RedisStore.reapLease_removed hdata h hb
    rw [hw']
    exact hr.leaseData

/-- **A pass of the reaper deletes the keys on record of a lease that it finds expired**, whatever
other leases it handles before. -/
theorem reapLeases_deletes {ids : List ℤ} {x : Unit} (hL : L ∈ ids)
    (h : Prog.Exec step (RedisStore.reapLeases ids) w x w') (hdead : w.redis.leaseData L = none)
    (hb : w'.redis.counter < 2 ^ 63 - 1) (hk : OnRecord L k w.redis) : w'.redis.kv k = none := by
  induction ids generalizing w with
  | nil => cases hL
  | cons id ids ih =>
    obtain ⟨_, w₁, hid, hrest⟩ := Prog.exec_bind.mp h
    have hb₁ : w₁.redis.counter < 2 ^ 63 - 1 := by
      refine lt_of_le_of_lt (exec_counter_le ?_ hrest) hb
      exact RedisStore.reapLeases_uses Cmd.Quiet.issued (fun _ => trivial)
        (fun _ => ⟨trivial, trivial⟩) ids
    have hclears : ∀ id, (RedisStore.reapLease id).Uses Clears := fun id =>
      RedisStore.reapLease_uses (fun _ => .quiet) .delete id ⟨.delLeaseKeys id, .sremLease id⟩
    by_cases hne : id = L
    · subst hne
      have hgone : w₁.redis.kv k = none := by
        rcases hk with hk | hk
        · obtain ⟨keys, s, hkeys, hr, hw₁⟩ := RedisStore.reapLease_removed hdead hid hb₁
          rw [hw₁]
          show s.kv k = none
          rw [hr.kv, if_pos ((hkeys k).mpr hk)]
        · exact stays_gone (hclears id) (hid.mono fun _ _ _ _ => refusable_of_step) hk
      refine stays_gone ?_ (hrest.mono fun _ _ _ _ => refusable_of_step) hgone
      exact RedisStore.reapLeases_uses (fun _ => .quiet) .delete
        (fun id => ⟨.delLeaseKeys id, .sremLease id⟩) ids
    · have hspares : (RedisStore.reapLease id).Uses fun c => Clears c ∧ c ≠ .delLeaseKeys L := by
        refine RedisStore.reapLease_uses (fun c hc => ⟨.quiet hc, ?_⟩)
          (fun key => ⟨.delete key, by simp⟩) id
          ⟨⟨.delLeaseKeys id, by simpa using hne⟩, .sremLease id, by simp⟩
        rintro rfl
        exact hc
      refine ih ((List.mem_cons.mp hL).resolve_left (Ne.symm hne)) hrest ?_ ?_
      · rw [reapLease_leaseData hid hb₁]
        exact hdead
      · exact stays_onRecord hspares (hid.mono fun _ _ _ _ => refusable_of_step) hk

end Loops

/-- A record that has survived is enough for a later run without refusals to delete what is left. -/
theorem Survives.resumes {r : Removal} {L : ℤ} {s₀ : Redis} {w : World}
    (h : Survives r L s₀ w.redis) (r' : Removal) {x : Unit} {w' : World}
    (hrun : Prog.Exec step (r'.pass L) w x w') (hb : w'.redis.counter < 2 ^ 63 - 1)
    (hdue : r' = .reap → L ∈ w.redis.leases ∧ w.redis.leaseData L = none) :
    ∀ k ∈ s₀.leaseKeys (goDecimal L), w'.redis.kv k = none := by
  intro k hk
  have hrec : OnRecord L k w.redis := by
    rcases h with hall | ⟨_, hleft⟩
    · exact Or.inr (hall k hk)
    · cases hsome : w.redis.kv k with
      | none => exact Or.inr hsome
      | some raw => exact Or.inl (hleft k hk (by rw [hsome]; rfl))
  cases r' with
  | revoke =>
    obtain ⟨y, w₁, hrev, hrest⟩ := Prog.exec_bind.mp hrun
    obtain ⟨_, rfl⟩ := Prog.exec_ret.mp hrest
    exact leaseRevoke_deletes hrev hb hrec
  | reap =>
    obtain ⟨hin, hdead⟩ := hdue rfl
    obtain ⟨r, w₁, hs, hrun⟩ := Prog.exec_cmd.mp hrun
    obtain ⟨env, _, he⟩ := step_iff.mp hs
    rw [Cmd.run, Prod.mk.injEq] at he
    obtain ⟨rfl, rfl⟩ := he
    exact reapLeases_deletes ((env.orderIDs_perm _).mem_iff.mpr hin) hrun hdead hb hrec

/-- **When the record of a lease survives refusals.**  In a run of `LeaseRevoke` or of the reaper
whose commands may each be refused, with no other writers, every key on record is deleted or what is
left stays on record iff every such key had a delete answered, or the commands that clear the record
away were not.  A revoke always keeps to this, and if the record survives, a later run that is not
refused anything deletes the rest. -/
theorem tracking_survives_iff (r : Removal) (L : ℤ) (e : ℕ → Env) (he : Refusing e) (w : World)
    (hL : r = .reap → L ∈ w.redis.leases) :
    (Survives r L w.redis (Prog.among exec (r.pass L) (alone e) w).2.redis ↔
      (∀ k ∈ w.redis.leaseKeys (goDecimal L), (w.redis.kv k).isSome →
        Acked (deleteCmd k) (Prog.trace exec (r.pass L) (alone e) w)) ∨
      (¬ Acked (.delLeaseKeys L) (Prog.trace exec (r.pass L) (alone e) w) ∧
        (r = .reap → ¬ Acked (.sremLease L) (Prog.trace exec (r.pass L) (alone e) w)))) ∧
    (r = .revoke → Survives r L w.redis (Prog.among exec (r.pass L) (alone e) w).2.redis) ∧
    (Survives r L w.redis (Prog.among exec (r.pass L) (alone e) w).2.redis →
      ∀ r' x w', Prog.Exec step (Removal.pass L r') (Prog.among exec (r.pass L) (alone e) w).2 x w' →
        w'.redis.counter < 2 ^ 63 - 1 →
        (r' = .reap → L ∈ (Prog.among exec (r.pass L) (alone e) w).2.redis.leases ∧
          (Prog.among exec (r.pass L) (alone e) w).2.redis.leaseData L = none) →
        ∀ k ∈ w.redis.leaseKeys (goDecimal L), w'.redis.kv k = none) := by
  refine ⟨(ledger_run r L he w).survives_iff hL, ?_, ?_⟩
  · rintro rfl
    exact leaseRevoke_survives (exec_alone he _ w)
  · intro h r' x w' hrun hb hdue
    exact h.resumes r' hrun hb hdue

def expiredLease : World :=
  serveAlone (.expire 1) (serveAlone (.put ⟨[97], [1], 1, false⟩) (serveAlone (.leaseGrant 5) .empty))

def refuse (ns : List ℕ) (n : ℕ) : Env :=
  { Env.plain 6 with fault := if n ∈ ns then some ⟨"refused", false⟩ else none }

theorem refuse_refusing (ns : List ℕ) : Refusing (refuse ns) := by
  intro n f hf
  rw [refuse] at hf
  split_ifs at hf
  cases hf
  rfl

/-- The reaper's cleanup is refused, but all keys on record are gone. -/
theorem reaper_survives_refused_cleanup :
    [97] ∈ expiredLease.redis.leaseKeys (goDecimal 1) ∧
      Survives .reap 1 expiredLease.redis
        (Prog.among exec (Removal.reap.pass 1) (alone (refuse [5, 6])) expiredLease).2.redis := by
  have hset : (expiredLease.redis.leaseKeys (goDecimal 1)).toList = [[97]] := by decide
  refine ⟨by decide, ?_⟩
  refine (tracking_survives_iff .reap 1 (refuse [5, 6]) (refuse_refusing _) expiredLease
    (fun _ => by decide)).1.mpr (Or.inl fun k hk _ => ?_)
  rw [SortedSet.mem_def, hset, List.mem_singleton] at hk
  subst hk
  exact ⟨_, List.mem_cons_of_mem _ (List.mem_cons_of_mem _ (List.mem_cons_of_mem _
    List.mem_cons_self)), rfl, rfl⟩

/-- **The reaper forgets keys.**  Lease 1 has expired and lists the key `a`.  If `SMEMBERS
lease:keys:1` is refused, or the delete of `a`, and the other commands of the pass are answered, the
key is still stored, its set is gone and lease 1 is no longer in `leases`. -/
theorem reaper_forgets :
    [97] ∈ expiredLease.redis.leaseKeys (goDecimal 1) ∧ 1 ∈ expiredLease.redis.leases ∧
      ∀ n ∈ [2, 3], ∃ w,
        (Prog.among exec (Removal.reap.pass 1) (alone (refuse [n])) expiredLease).2 = w ∧
          (w.redis.kv [97]).isSome ∧ leaseOf w.redis [97] = 1 ∧
          [97] ∉ w.redis.leaseKeys (goDecimal 1) ∧ 1 ∉ w.redis.leases ∧
          ¬ Survives .reap 1 expiredLease.redis w.redis := by
  have hforgets : ∀ s : Redis, (s.kv [97]).isSome → 1 ∉ s.leases →
      ¬ Survives .reap 1 expiredLease.redis s := by
    rintro s hsome hout (hall | ⟨hin, _⟩)
    · rw [hall [97] (by decide)] at hsome
      cases hsome
    · exact hout (hin rfl)
  refine ⟨by decide, by decide, fun n hn => ?_⟩
  simp only [List.mem_cons, List.not_mem_nil, or_false] at hn
  rcases hn with rfl | rfl
  · exact ⟨_, rfl, by decide, by decide, by decide, by decide,
      hforgets _ (by decide) (by decide)⟩
  · exact ⟨_, rfl, by decide, by decide, by decide, by decide,
      hforgets _ (by decide) (by decide)⟩

end REtcd.Server
