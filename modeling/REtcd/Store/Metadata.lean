import Mathlib.Data.List.DropRight
import REtcd.Store.History

/-!
# The numbers in a blob

A blob carries the revision in which its key was created and the number of puts since then.  Both
scripts compute them from the blob that the put overwrites (`stamp`), so they are right only if that
blob was: `Stamped s` says that every stored blob has the revision of the first and the number of
all of its key's puts since its last delete, its `lifetime`.  Every command keeps it so
(`exec_stamped`), whichever script created, overwrote, deleted and created the key again.
-/

namespace REtcd.Store

open Base

/-! ### The puts since the last delete -/

/-- The puts of a key since its last delete. -/
def lifetime (key : Key) (l : List Entry) : List Entry :=
  (l.filter (fun e => e.key = key)).rtakeWhile (fun e => e.type = .put)

theorem lifetime_concat (key : Key) (l : List Entry) (e : Entry) :
    lifetime key (l ++ [e]) =
      if e.key = key then if e.type = .put then lifetime key l ++ [e] else []
      else lifetime key l := by
  rw [lifetime, List.filter_append]
  by_cases h : e.key = key
  · rw [if_pos h, List.filter_cons_of_pos (by simpa using h), List.filter_nil,
      List.rtakeWhile_concat]
    simp only [decide_eq_true_eq]
    rfl
  · rw [if_neg h, List.filter_cons_of_neg (by simpa using h), List.filter_nil, List.append_nil]
    rfl

theorem mem_lifetime {key : Key} {l : List Entry} {e : Entry} (h : e ∈ lifetime key l) :
    e ∈ l ∧ e.key = key ∧ e.type = .put := by
  have hmem := List.mem_filter.mp ((List.rtakeWhile_suffix _ _).subset h)
  have hput := List.mem_rtakeWhile_imp h
  exact ⟨hmem.1, by simpa using hmem.2, by simpa using hput⟩

theorem lifetime_getLast {key : Key} {l : List Entry} (h : lifetime key l ≠ []) :
    (lifetime key l).getLast? = lastEntry key l := by
  obtain ⟨t, ht⟩ := List.rtakeWhile_suffix (fun e : Entry => e.type = .put)
    (l.filter (fun e => e.key = key))
  rw [lastEntry, ← ht]
  exact (List.getLast?_append_of_ne_nil t h).symm

theorem Consistent.lifetime_eq_nil {s : Redis} (h : Consistent s) {key : Key}
    (hk : s.kv key = none) : lifetime key s.events = [] := by
  by_contra hne
  obtain ⟨e, he⟩ := List.getLast?_isSome.mpr hne |> Option.isSome_iff_exists.mp
  have hput := (mem_lifetime (List.mem_of_getLast? he)).2.2
  rw [lifetime_getLast hne] at he
  rw [h.deleted_last he hk] at hput
  cases hput

/-! ### What the scripts compute -/

/-- The create revision and the version that a put at revision `rev` gives to a key with the blob
`prev`. -/
def stamp (prev : Option Blob) (rev : ℤ) : ℤ × ℤ :=
  match prev with
  | some raw => (field (some raw) 1, field (some raw) 17 + 1)
  | none => (rev, 1)

def stamped (prev : Option Blob) (rev lease : ℤ) (value : Bytes) : Blob :=
  blob (stamp prev rev).1 rev (stamp prev rev).2 lease value

theorem writePut_events (now : ℕ) {a : WriteArgs} {s : Redis} (hroom : s.counter < 2 ^ 63 - 1)
    (hlen : ∀ raw, s.kv a.key = some raw → 32 ≤ raw.length) :
    ∃ id, (writePut now a (s.kv a.key) s).2.events = s.events ++ [⟨id, .put, a.key, s.counter + 1,
      some (stamped (s.kv a.key) (s.counter + 1) a.lease a.value), s.kv a.key⟩] := by
  have hi : s.incr = some (s.counter + 1, { s with revision := some (s.counter + 1) }) :=
    if_pos hroom
  unfold writePut
  rw [hi]
  cases hraw : s.kv a.key with
  | none =>
    dsimp only
    split_ifs
    all_goals exact ⟨_, rfl⟩
  | some raw =>
    have hstamp : stamped (some raw) (s.counter + 1) a.lease a.value =
        blob (dec64 raw 1) (s.counter + 1) (dec64 raw 17 + 1) a.lease a.value := by
      simp only [stamped, stamp, field, if_pos (hlen raw hraw)]
    rw [hstamp]
    dsimp only
    rw [if_pos (hlen raw hraw)]
    dsimp only
    split_ifs
    all_goals exact ⟨_, rfl⟩

theorem txnPut_events (now : ℕ) {a : TxnArgs} {s : Redis} (hroom : s.counter < 2 ^ 63 - 1) :
    ∃ id, (txnPut now a (s.kv a.key) s).2.events = s.events ++ [⟨id, .put, a.key, s.counter + 1,
      some (stamped (s.kv a.key) (s.counter + 1) a.lease a.value), s.kv a.key⟩] := by
  have hi : s.incr = some (s.counter + 1, { s with revision := some (s.counter + 1) }) :=
    if_pos hroom
  unfold txnPut
  rw [hi]
  cases s.kv a.key with
  | none => exact ⟨_, rfl⟩
  | some raw => exact ⟨_, rfl⟩

theorem Committed.counter_ne {s s' : Redis} {e : Entry} (h : Committed s s' e) :
    s'.counter ≠ s.counter := by
  rw [h.counter]
  omega

theorem Committed.entry_eq {s s' : Redis} {e x : Entry} (h : Committed s s' e)
    (hx : s'.events = s.events ++ [x]) : e = x := by
  rw [h.events, List.append_cancel_left_eq, List.cons.injEq] at hx
  exact hx.1

/-- **Every put that commits has its blob stamped over the one before.** -/
theorem run_stamped (env : Env) {c : Cmd} (hc : c.Issued) {w : World} (h : Consistent w.redis)
    {e : Entry} (he : Committed w.redis (c.run env w).2.redis e) (ht : e.type = .put) :
    ∃ lease value, e.data = some (stamped e.prevData e.rev lease value) := by
  cases c with
  | evalWrite a =>
    have hop : a.op = .put := by
      rcases writeLua_cases env.now a w.redis with ⟨_, hl⟩ | ⟨_, _, hl⟩ | ⟨e', he', _, ht', _⟩
      · simp only [Cmd.run, hl] at he
        exact absurd rfl he.counter_ne
      · simp only [Cmd.run, hl] at he
        exact absurd rfl he.counter_ne
      · rw [← ht', ← he.entry_eq he'.events, ht]
    have hw : (Cmd.run env (.evalWrite a) w).2.redis =
        (writePut env.now a (w.redis.kv a.key) w.redis).2 := by
      simp only [Cmd.run, writeLua, hop]
    obtain ⟨id, hev⟩ := writePut_events env.now he.room fun _ => h.stored_length
    rw [← hw] at hev
    rw [he.entry_eq hev]
    exact ⟨a.lease, a.value, rfl⟩
  | evalTxn a =>
    cases hcmp : txnCompare a.expected (w.redis.kv a.key) with
    | false =>
      simp only [Cmd.run, txnLua_of_fails env.now hcmp] at he
      exact absurd rfl he.counter_ne
    | true =>
      obtain ⟨id, hev⟩ := txnPut_events env.now (a := a) he.room
      rw [← txnLua_of_holds env.now hc hcmp] at hev
      rw [he.entry_eq hev]
      exact ⟨a.lease, a.value, rfl⟩
  | incrLeaseID =>
    refine absurd ?_ he.counter_ne
    simp only [Cmd.run]
    split_ifs <;> rfl
  | _ => exact absurd rfl he.counter_ne

/-! ### The invariant -/

/-- Every stored blob has the revision of the first put since its key's last delete, and the number
of puts since then. -/
def Stamped (s : Redis) : Prop :=
  ∀ k raw, s.kv k = some raw → ∃ first m lease value,
    (lifetime k s.events).head? = some first ∧
      raw = blob first.rev m (lifetime k s.events).length lease value

theorem stamped_empty : Stamped Redis.empty := by
  intro k raw hk
  cases hk

theorem Stamped.frame {s s' : Redis} (h : Stamped s) (hf : Frame s s') : Stamped s' := by
  intro k raw hk
  rw [hf.kv] at hk
  rw [hf.events]
  exact h k raw hk

/-- What a put stamps is right if what it overwrites was. -/
theorem Stamped.stamp_eq {s : Redis} (h : Stamped s) (hs : Consistent s) (e : Entry) :
    ∃ first, (lifetime e.key s.events ++ [e]).head? = some first ∧
      stamp (s.kv e.key) e.rev = (first.rev, ((lifetime e.key s.events ++ [e]).length : ℤ)) := by
  have hb := hs.bound
  cases hk : s.kv e.key with
  | none =>
    rw [hs.lifetime_eq_nil hk]
    exact ⟨e, rfl, rfl⟩
  | some raw =>
    obtain ⟨first, m, lease, value, hfirst, rfl⟩ := h e.key raw hk
    have hmem := mem_lifetime (List.mem_of_head? hfirst)
    have hpos := hs.rev_mem hmem.1
    have hlen : (lifetime e.key s.events).length ≤ s.events.length :=
      ((List.rtakeWhile_suffix _ _).length_le).trans (List.length_filter_le _ _)
    have hcounter := hs.counter
    refine ⟨first, by rw [List.head?_append, hfirst]; rfl, ?_⟩
    simp only [stamp]
    rw [field_blob, dec64_blob_create (by omega) (by omega), field_blob,
      dec64_blob_version (by omega) (by omega), List.length_append, List.length_singleton]
    push_cast
    rfl

/-- **A commit keeps the numbers right.** -/
theorem Stamped.commit {s s' : Redis} {e : Entry} (h : Stamped s) (hs : Consistent s)
    (hc : Committed s s' e)
    (hput : e.type = .put → ∃ l value, e.data = some (stamped e.prevData e.rev l value)) :
    Stamped s' := by
  intro k raw hk
  rw [hc.kv] at hk
  rw [hc.events, lifetime_concat]
  by_cases hek : k = e.key
  · subst hek
    rw [Function.update_self] at hk
    rw [if_pos rfl]
    cases ht : e.type with
    | delete =>
      rw [(hc.delete ht).1] at hk
      cases hk
    | put =>
      obtain ⟨lease, value, hd⟩ := hput ht
      obtain ⟨first, hfirst, hstamp⟩ := h.stamp_eq hs e
      rw [hd, Option.some.injEq, hc.prev] at hk
      refine ⟨first, e.rev, lease, value, hfirst, ?_⟩
      rw [← hk, stamped, hstamp]
      rfl
  · rw [Function.update_of_ne hek] at hk
    rw [if_neg fun he => hek he.symm]
    exact h k raw hk

/-- **Every command keeps the numbers right**, also one that fails. -/
theorem exec_stamped (env : Env) {c : Cmd} (hc : c.Issued) {w : World} (hs : Consistent w.redis)
    (h : Stamped w.redis) : Stamped (exec env c w).2.redis := by
  rcases exec_world env c w with he | he
  · rw [he]
    exact h
  · rw [he]
    rcases run_effect env hc w with hf | ⟨e, hcom⟩
    · exact h.frame hf
    · exact h.commit hs hcom fun ht => run_stamped env hc hs hcom ht

/-! ### What a reader decodes -/

theorem decodeKV_createRevision {key : Key} {data : Bytes} {kv : KeyValue}
    (h : decodeKV key data = some kv) : kv.createRevision = toInt64 (field (some data) 1) := by
  rw [decodeKV] at h
  split_ifs at h with hl
  rw [Option.some.injEq] at h
  rw [← h, field, if_pos (by omega)]
  rfl

theorem decodeKV_version {key : Key} {data : Bytes} {kv : KeyValue}
    (h : decodeKV key data = some kv) : kv.version = toInt64 (field (some data) 17) := by
  rw [decodeKV] at h
  split_ifs at h with hl
  rw [Option.some.injEq] at h
  rw [← h, field, if_pos (by omega)]
  rfl

/-- **The numbers of a stored key**: the mod revision is that of its last entry, the create revision
that of the first put since its last delete, and the version the number of these puts. -/
theorem Stamped.decode {s : Redis} (h : Stamped s) (hs : Consistent s) {k : Key} {raw : Blob}
    (hk : s.kv k = some raw) :
    ∃ kv first last, decodeKV k raw = some kv ∧
      lastEntry k s.events = some last ∧ kv.modRevision = last.rev ∧
      (lifetime k s.events).head? = some first ∧ kv.createRevision = first.rev ∧
      kv.version = (lifetime k s.events).length := by
  obtain ⟨kv, hkv⟩ := Option.isSome_iff_exists.mp (hs.decode_isSome hk)
  obtain ⟨last, hlast, _, hmod⟩ := hs.field_mod hk
  obtain ⟨first, m, lease, value, hfirst, rfl⟩ := h k raw hk
  have hb := hs.bound
  have hcounter := hs.counter
  have hposf := hs.rev_mem (mem_lifetime (List.mem_of_head? hfirst)).1
  have hposl := hs.rev_mem (mem_of_lastEntry hlast).1
  have hlen : (lifetime k s.events).length ≤ s.events.length :=
    ((List.rtakeWhile_suffix _ _).length_le).trans (List.length_filter_le _ _)
  refine ⟨kv, first, last, hkv, hlast, ?_, hfirst, ?_, ?_⟩
  · rw [decodeKV_modRevision hkv, hmod, toInt64_of_lt (by omega)]
  · rw [decodeKV_createRevision hkv, field_blob, dec64_blob_create (by omega) (by omega),
      toInt64_of_lt (by omega)]
  · rw [decodeKV_version hkv, field_blob, dec64_blob_version (by omega) (by omega),
      toInt64_of_lt (by omega)]

theorem Consistent.lifetime_length {s : Redis} (hs : Consistent s) {k : Key} {first last : Entry}
    (hfirst : (lifetime k s.events).head? = some first)
    (hlast : (lifetime k s.events).getLast? = some last) :
    first.rev ≤ last.rev ∧ ((lifetime k s.events).length = 1 ↔ first.rev = last.rev) := by
  have hasc : (lifetime k s.events).Pairwise (fun a b => a.rev < b.rev) :=
    (hs.revs_pairwise.filter _).sublist (List.rtakeWhile_suffix _ _).sublist
  generalize lifetime k s.events = l at hfirst hlast hasc
  cases l with
  | nil => cases hfirst
  | cons a t =>
    have ha : a = first := by simpa using hfirst
    subst ha
    cases t with
    | nil =>
      have hal : a = last := by simpa using hlast
      rw [hal]
      exact ⟨le_rfl, by simp⟩
    | cons b t =>
      rw [List.getLast?_cons_cons] at hlast
      have hlt := (List.pairwise_cons.mp hasc).1 last (List.mem_of_getLast? hlast)
      refine ⟨hlt.le, iff_of_false ?_ hlt.ne⟩
      simp

end REtcd.Store
