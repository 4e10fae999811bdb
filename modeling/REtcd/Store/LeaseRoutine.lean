import REtcd.Store.LeaseIndex

/-!
# Revoking and reaping, without other clients

While the per-lease sets are right, `LeaseRevoke` deletes exactly the keys of its lease
(`leaseRevoke_exec`) and a pass of the reaper exactly the keys of the leases that have expired
(`reapExpiredLeases_exec`), and both leave the sets right: a set is dropped only after all its keys
are gone.  The counter must not reach the end of its range on the way, where a delete would fail.
-/

namespace REtcd.Store

open Base

namespace RedisStore

theorem delete_keepsLeases (key : Key) : (delete key).Uses Cmd.KeepsLeases :=
  delete_uses Cmd.Quiet.keepsLeases (by decide : (0 : ℤ) ≤ 0 ∧ (0 : ℤ) < 10 ^ 14)

theorem delete_issued (key : Key) : (delete key).Uses Cmd.Issued :=
  delete_uses Cmd.Quiet.issued trivial

/-- What a loop of deletes leaves behind: the listed keys are gone and the rest is as it was. -/
structure Removed (keys : List Key) (s s' : Redis) : Prop where
  kv : ∀ k, s'.kv k = if k ∈ keys then none else s.kv k
  leases : s'.leases = s.leases
  leaseData : s'.leaseData = s.leaseData
  index : LeaseIndex s → LeaseIndex s'

theorem removed_nil (s : Redis) : Removed [] s s := ⟨fun k => by simp, rfl, rfl, fun h => h⟩

theorem removed_cons {key : Key} {keys : List Key} {w w₁ : World} {s' : Redis}
    {x : Result (ℤ × Option KeyValue)} (h : Prog.Exec step (delete key) w x w₁)
    (hb : w₁.redis.counter < 2 ^ 63 - 1) (hr : Removed keys w₁.redis s') :
    Removed (key :: keys) w.redis s' := by
  obtain ⟨_, hkv, hleases, hdata⟩ := delete_exec h hb
  refine ⟨fun k => ?_, hr.leases.trans hleases, hr.leaseData.trans hdata, fun hi => ?_⟩
  · rw [hr.kv, hkv]
    by_cases hk : k = key
    · simp [hk]
    · simp [hk]
  · exact hr.index (Prog.exec_inv (I := fun v : World => LeaseIndex v.redis) step_leaseIndex
      (delete_keepsLeases key) h hi)

theorem revokeKeys_exec {keys : List Key} {w w' : World} {x : Result Unit}
    (h : Prog.Exec step (revokeKeys keys) w x w') (hb : w'.redis.counter < 2 ^ 63 - 1) :
    x = .ok () ∧ Removed keys w.redis w'.redis := by
  induction keys generalizing w with
  | nil =>
    obtain ⟨rfl, rfl⟩ := Prog.exec_ret.mp h
    exact ⟨rfl, removed_nil _⟩
  | cons key keys ih =>
    obtain ⟨y, w₁, hd, hrest⟩ := Prog.exec_bind.mp h
    have hle : w₁.redis.counter ≤ w'.redis.counter := by
      refine exec_counter_le ?_ hrest
      cases y with
      | error err => trivial
      | ok _ => exact revokeKeys_uses Cmd.Quiet.issued (fun _ => trivial) keys
    obtain ⟨⟨out, rfl⟩, _⟩ := delete_exec hd (by omega)
    obtain ⟨hx, hr⟩ := ih hrest
    exact ⟨hx, removed_cons hd (by omega) hr⟩

theorem reapKeys_exec {keys : List Key} {w w' : World} {x : Unit}
    (h : Prog.Exec step (reapKeys keys) w x w') (hb : w'.redis.counter < 2 ^ 63 - 1) :
    Removed keys w.redis w'.redis := by
  induction keys generalizing w with
  | nil =>
    obtain ⟨_, rfl⟩ := Prog.exec_ret.mp h
    exact removed_nil _
  | cons key keys ih =>
    obtain ⟨y, w₁, hd, hrest⟩ := Prog.exec_bind.mp h
    have hle : w₁.redis.counter ≤ w'.redis.counter :=
      exec_counter_le (reapKeys_uses Cmd.Quiet.issued (fun _ => trivial) keys) hrest
    exact removed_cons hd (by omega) (ih hrest)

theorem Removed.set_empty {keys : List Key} {s s' : Redis} (hr : Removed keys s s')
    (hi : LeaseIndex s) {id : ℤ} (hkeys : ∀ k, k ∈ s.leaseKeys (.decimal id) → k ∈ keys) (k : Key) :
    k ∉ s'.leaseKeys (.decimal id) := by
  intro hm
  obtain ⟨hid, hl⟩ := ((hr.index hi).mem_iff k id).mp hm
  rw [leaseOf, hr.kv] at hl
  split_ifs at hl with hk
  · exact hid hl.symm
  · exact hk (hkeys k ((hi.mem_iff k id).mpr ⟨hid, hl⟩))

theorem step_delLease {id : ℤ} {w w' : World} {r : Reply (.delLease id)}
    (hs : step (.delLease id) w r w') :
    r = .ok () ∧ w'.redis = { w.redis with leaseData := Function.update w.redis.leaseData id none } := by
  obtain ⟨env, _, he⟩ := step_iff.mp hs
  rw [Cmd.run, World.modify, Prod.mk.injEq] at he
  exact ⟨he.1.symm, by rw [← he.2]⟩

theorem step_delLeaseKeys {id : ℤ} {w w' : World} {r : Reply (.delLeaseKeys id)}
    (hs : step (.delLeaseKeys id) w r w') :
    r = .ok () ∧ w'.redis =
      { w.redis with leaseKeys := Function.update w.redis.leaseKeys (goDecimal id) .empty } := by
  obtain ⟨env, _, he⟩ := step_iff.mp hs
  rw [Cmd.run, World.modify, Prod.mk.injEq] at he
  exact ⟨he.1.symm, by rw [← he.2]⟩

theorem step_sremLease {id : ℤ} {w w' : World} {r : Reply (.sremLease id)}
    (hs : step (.sremLease id) w r w') :
    r = .ok () ∧ w'.redis = { w.redis with leases := w.redis.leases.erase id } := by
  obtain ⟨env, _, he⟩ := step_iff.mp hs
  rw [Cmd.run, World.modify, Prod.mk.injEq] at he
  exact ⟨he.1.symm, by rw [← he.2]⟩

theorem step_smembersLeaseKeys {id : ℤ} {w w' : World} {r : Reply (.smembersLeaseKeys id)}
    (hs : step (.smembersLeaseKeys id) w r w') :
    w' = w ∧ ∃ keys, r = .ok keys ∧ ∀ k, k ∈ keys ↔ k ∈ w.redis.leaseKeys (.decimal id) := by
  obtain ⟨env, _, he⟩ := step_iff.mp hs
  rw [Cmd.run, Prod.mk.injEq] at he
  obtain ⟨rfl, rfl⟩ := he
  refine ⟨rfl, _, rfl, fun k => ?_⟩
  rw [(env.order_perm _).mem_iff]
  exact Iff.rfl

/-- `LeaseRevoke` removes the keys that the set lists and then clears the lease away. -/
theorem leaseRevoke_removed {id : ℤ} {w w' : World} {x : Result Unit}
    (h : Prog.Exec step (leaseRevoke id) w x w') (hb : w'.redis.counter < 2 ^ 63 - 1) :
    x = .ok () ∧ ∃ keys s, (∀ k, k ∈ keys ↔ k ∈ w.redis.leaseKeys (.decimal id)) ∧
      Removed keys w.redis s ∧ w'.redis = { s with
        leaseData := Function.update s.leaseData id none
        leaseKeys := Function.update s.leaseKeys (goDecimal id) .empty
        leases := s.leases.erase id } := by
  obtain ⟨r, w₀, hs, h⟩ := Prog.exec_cmd.mp h
  obtain ⟨rfl, keys, rfl, hkeys⟩ := step_smembersLeaseKeys hs
  obtain ⟨y, w₁, hrev, hrest⟩ := Prog.exec_bind.mp h
  have hle : w₁.redis.counter ≤ w'.redis.counter := by
    refine exec_counter_le ?_ hrest
    cases y with
    | error err => trivial
    | ok _ =>
      refine Prog.uses_cmd (c := Cmd.delLease id) trivial fun r₁ =>
        Prog.uses_cmd (c := Cmd.delLeaseKeys id) trivial fun r₂ =>
        Prog.uses_cmd (c := Cmd.sremLease id) trivial fun r₃ => ?_
      cases pipeErr [r₁, r₂, r₃] <;> trivial
  obtain ⟨rfl, hr⟩ := revokeKeys_exec hrev (by omega)
  obtain ⟨r₁, w₂, hs₁, hrest⟩ := Prog.exec_cmd.mp hrest
  obtain ⟨r₂, w₃, hs₂, hrest⟩ := Prog.exec_cmd.mp hrest
  obtain ⟨r₃, w₄, hs₃, hrest⟩ := Prog.exec_cmd.mp hrest
  obtain ⟨rfl, hw₂⟩ := step_delLease hs₁
  obtain ⟨rfl, hw₃⟩ := step_delLeaseKeys hs₂
  obtain ⟨rfl, hw₄⟩ := step_sremLease hs₃
  obtain ⟨rfl, rfl⟩ := Prog.exec_ret.mp hrest
  refine ⟨rfl, keys, w₁.redis, hkeys, hr, ?_⟩
  rw [hw₄, hw₃, hw₂]

/-- **`LeaseRevoke` deletes exactly the keys of its lease**, and leaves the sets right. -/
theorem leaseRevoke_exec {id : ℤ} {w w' : World} {x : Result Unit} (hi : LeaseIndex w.redis)
    (h : Prog.Exec step (leaseRevoke id) w x w') (hb : w'.redis.counter < 2 ^ 63 - 1) :
    LeaseIndex w'.redis ∧ ∀ k, w'.redis.kv k =
      if id ≠ 0 ∧ leaseOf w.redis k = id then none else w.redis.kv k := by
  obtain ⟨_, keys, s, hkeys, hr, hw'⟩ := leaseRevoke_removed h hb
  rw [hw']
  constructor
  · exact ((hr.index hi).drop (hr.set_empty hi fun k => (hkeys k).mpr)).congr rfl rfl
  · intro k
    have := hr.kv k
    simp only [hkeys, hi.mem_iff] at this
    exact this

def Expired (ids : List ℤ) (s : Redis) (k : Key) : Prop :=
  leaseOf s k ∈ ids ∧ leaseOf s k ≠ 0 ∧ s.leaseData (leaseOf s k) = none

instance (ids : List ℤ) (s : Redis) (k : Key) : Decidable (Expired ids s k) :=
  inferInstanceAs (Decidable (_ ∧ _ ∧ _))

theorem reapLease_live {id : ℤ} {w w' : World} {x : Unit} {d : LeaseData}
    (hlive : w.redis.leaseData id = some d) (h : Prog.Exec step (reapLease id) w x w') : w' = w := by
  obtain ⟨r, w₀, hs, h⟩ := Prog.exec_cmd.mp h
  obtain ⟨env, _, he⟩ := step_iff.mp hs
  rw [Cmd.run, Prod.mk.injEq] at he
  obtain ⟨rfl, rfl⟩ := he
  rw [hlive] at h
  exact (Prog.exec_ret.mp h).2

/-- The reaper removes the keys that the set of an expired lease lists and then clears the lease
away. -/
theorem reapLease_removed {id : ℤ} {w w' : World} {x : Unit} (hdead : w.redis.leaseData id = none)
    (h : Prog.Exec step (reapLease id) w x w') (hb : w'.redis.counter < 2 ^ 63 - 1) :
    ∃ keys s, (∀ k, k ∈ keys ↔ k ∈ w.redis.leaseKeys (.decimal id)) ∧ Removed keys w.redis s ∧
      w'.redis = { s with
        leaseKeys := Function.update s.leaseKeys (goDecimal id) .empty
        leases := s.leases.erase id } := by
  obtain ⟨r, w₀, hs, h⟩ := Prog.exec_cmd.mp h
  obtain ⟨env, _, he⟩ := step_iff.mp hs
  rw [Cmd.run, Prod.mk.injEq] at he
  obtain ⟨rfl, rfl⟩ := he
  rw [hdead] at h
  obtain ⟨r, w₀, hs, h⟩ := Prog.exec_cmd.mp h
  obtain ⟨rfl, keys, rfl, hkeys⟩ := step_smembersLeaseKeys hs
  obtain ⟨_, w₁, hreap, hrest⟩ := Prog.exec_bind.mp h
  obtain ⟨r₁, w₂, hs₁, hrest⟩ := Prog.exec_cmd.mp hrest
  obtain ⟨r₂, w₃, hs₂, hrest⟩ := Prog.exec_cmd.mp hrest
  obtain ⟨_, rfl⟩ := Prog.exec_ret.mp hrest
  rw [(step_sremLease hs₂).2, (step_delLeaseKeys hs₁).2] at hb ⊢
  exact ⟨keys, w₁.redis, hkeys, reapKeys_exec hreap hb, rfl⟩

theorem reapLease_exec {id : ℤ} {w w' : World} {x : Unit} (hi : LeaseIndex w.redis)
    (h : Prog.Exec step (reapLease id) w x w') (hb : w'.redis.counter < 2 ^ 63 - 1) :
    LeaseIndex w'.redis ∧ w'.redis.leaseData = w.redis.leaseData ∧
      ∀ k, w'.redis.kv k = if Expired [id] w.redis k then none else w.redis.kv k := by
  cases hlive : w.redis.leaseData id with
  | some d =>
    rw [reapLease_live hlive h]
    refine ⟨hi, rfl, fun k => ?_⟩
    rw [if_neg]
    rintro ⟨hk, _, hdead⟩
    rw [List.mem_singleton.mp hk, hlive] at hdead
    cases hdead
  | none =>
    obtain ⟨keys, s, hkeys, hr, hw'⟩ := reapLease_removed hlive h hb
    rw [hw']
    refine ⟨((hr.index hi).drop (hr.set_empty hi fun k => (hkeys k).mpr)).congr rfl rfl,
      hr.leaseData, fun k => ?_⟩
    dsimp only
    rw [hr.kv]
    congr 1
    rw [hkeys, hi.mem_iff, Expired, List.mem_singleton, eq_iff_iff]
    constructor
    · rintro ⟨hid, hl⟩
      rw [hl]
      exact ⟨rfl, hid, hlive⟩
    · rintro ⟨hl, hid, _⟩
      exact ⟨hl ▸ hid, hl⟩

theorem reapLeases_exec {ids : List ℤ} {w w' : World} {x : Unit} (hi : LeaseIndex w.redis)
    (h : Prog.Exec step (reapLeases ids) w x w') (hb : w'.redis.counter < 2 ^ 63 - 1) :
    LeaseIndex w'.redis ∧
      ∀ k, w'.redis.kv k = if Expired ids w.redis k then none else w.redis.kv k := by
  induction ids generalizing w with
  | nil =>
    obtain ⟨_, rfl⟩ := Prog.exec_ret.mp h
    exact ⟨hi, fun k => by simp [Expired]⟩
  | cons id ids ih =>
    obtain ⟨_, w₁, hid, hrest⟩ := Prog.exec_bind.mp h
    have hle : w₁.redis.counter ≤ w'.redis.counter := by
      refine exec_counter_le ?_ hrest
      exact reapLeases_uses Cmd.Quiet.issued (fun _ => trivial) (fun _ => ⟨trivial, trivial⟩) ids
    obtain ⟨hi₁, hdata, hkv⟩ := reapLease_exec hi hid (by omega)
    obtain ⟨hi', hkv'⟩ := ih hi₁ hrest
    refine ⟨hi', fun k => ?_⟩
    rw [hkv']
    by_cases he : Expired [id] w.redis k
    · -- the key is gone after the first lease, and has no lease any more
      have hnone : w₁.redis.kv k = none := by rw [hkv, if_pos he]
      have hcons : Expired (id :: ids) w.redis k :=
        ⟨List.mem_cons.mpr (Or.inl (List.mem_singleton.mp he.1)), he.2⟩
      rw [hnone, ite_self, if_pos hcons]
    · have hsame : w₁.redis.kv k = w.redis.kv k := by rw [hkv, if_neg he]
      have hof : leaseOf w₁.redis k = leaseOf w.redis k := by rw [leaseOf, hsame, leaseOf]
      rw [hsame]
      congr 1
      rw [Expired, hof, hdata, Expired, List.mem_cons, eq_iff_iff]
      constructor
      · rintro ⟨hm, hrest⟩
        exact ⟨Or.inr hm, hrest⟩
      · rintro ⟨hm, hrest⟩
        exact ⟨hm.resolve_left fun h => he ⟨List.mem_singleton.mpr h, hrest⟩, hrest⟩

/-- **A pass of the reaper deletes exactly the keys of the leases that have expired**, and leaves
the sets right. -/
theorem reapExpiredLeases_exec {w w' : World} {x : Unit} (hi : LeaseIndex w.redis)
    (h : Prog.Exec step reapExpiredLeases w x w') (hb : w'.redis.counter < 2 ^ 63 - 1) :
    LeaseIndex w'.redis ∧ ∀ k, w'.redis.kv k =
      if Expired w.redis.leases.toList w.redis k then none else w.redis.kv k := by
  obtain ⟨r, w₀, hs, h⟩ := Prog.exec_cmd.mp h
  obtain ⟨env, _, he⟩ := step_iff.mp hs
  rw [Cmd.run, Prod.mk.injEq] at he
  obtain ⟨rfl, rfl⟩ := he
  obtain ⟨hi', hkv⟩ := reapLeases_exec hi h hb
  refine ⟨hi', fun k => ?_⟩
  rw [hkv]
  congr 1
  rw [Expired, (env.orderIDs_perm _).mem_iff, Expired]

end RedisStore

end REtcd.Store
