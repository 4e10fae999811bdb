import REtcd.Server.ListWatch

/-!
# What DeleteRange counts

`DeleteRange` answers with the number of keys it has deleted.  For a single key this is 1 if the
script returned a pre-image, which it does iff it appended an event.  For a range every delete that
is answered counts, and a key that was found by the scan may be gone by then.  So among other
clients the number is right iff every delete of the request found its key stored
(`deleted_counts_iff`).  A key that another client deletes after the scan is counted by both
(`deleted_overcounts`).
-/

namespace REtcd.Server

open Base Store

def appended (x : Call Cmd Reply World) : List Entry :=
  x.after.redis.events.drop x.before.redis.events.length

def deletions (l : List (Call Cmd Reply World)) : ℕ :=
  (l.flatMap appended).countP fun e => e.type = .delete

def FoundStored (l : List (Call Cmd Reply World)) : Prop :=
  ∀ x ∈ l, ∀ key, x.cmd = .evalWrite ⟨key, .delete, [], 0⟩ → (x.before.redis.kv key).isSome

def Ran (l : List (Call Cmd Reply World)) : Prop :=
  ∀ x ∈ l, Consistent x.before.redis ∧ ∃ env, exec env x.cmd x.before = (x.reply, x.after)

section Counting

variable {l l₁ l₂ : List (Call Cmd Reply World)} {x : Call Cmd Reply World}

theorem deletions_append : deletions (l₁ ++ l₂) = deletions l₁ + deletions l₂ := by
  rw [deletions, List.flatMap_append, List.countP_append, deletions, deletions]

theorem foundStored_append : FoundStored (l₁ ++ l₂) ↔ FoundStored l₁ ∧ FoundStored l₂ := by
  simp only [FoundStored, List.mem_append, or_imp, forall_and]

theorem Ran.left (h : Ran (l₁ ++ l₂)) : Ran l₁ := fun x hx => h x (List.mem_append_left _ hx)

theorem Ran.right (h : Ran (l₁ ++ l₂)) : Ran l₂ := fun x hx => h x (List.mem_append_right _ hx)

theorem quiet_counts (h : Ran l) (hq : ∀ x ∈ l, x.cmd.Quiet) : deletions l = 0 ∧ FoundStored l := by
  constructor
  · have hnil : l.flatMap appended = [] := by
      rw [List.flatMap_eq_nil_iff]
      intro x hx
      obtain ⟨_, env, he⟩ := h x hx
      have hsame := (exec_world env x.cmd x.before).elim (congrArg World.redis) fun hr => by
        rw [hr]
        exact Cmd.run_quiet env (hq x hx) x.before
      rw [he] at hsame
      rw [appended, hsame, List.drop_length]
    rw [deletions, hnil]
    rfl
  · intro x hx key hk
    have := hq x hx
    rw [hk] at this
    exact this.elim

/-- **A delete that is answered appends an entry iff its key was stored**, and returns the value
then. -/
theorem delete_counts {key : Key} {out : ℤ × Option KeyValue} (h : Ran l)
    (hp : Pool.Path (RedisStore.delete key) l (.ret (.ok out))) :
    (FoundStored l ∧ deletions l = 1 ∧ out.2.isSome = true) ∨
      (¬ FoundStored l ∧ deletions l = 0 ∧ out.2.isSome = false) := by
  obtain ⟨i, r, w, w', l', q, rfl, ⟨hq, hret⟩, hrest⟩ := hp.first (RedisStore.delete_first key)
  obtain ⟨hw, env, he⟩ : Consistent w.redis ∧
      ∃ env, exec env (.evalWrite ⟨key, .delete, [], 0⟩) w = (r, w') := h _ List.mem_cons_self
  obtain ⟨hzero, hfound⟩ := quiet_counts (fun x hx => h x (List.mem_cons_of_mem _ hx))
    (hrest.uses hq)
  have hout := hrest.returns hret
  cases r with
  | error err => cases hout
  | ok res =>
    cases hout
    rw [← List.singleton_append, deletions_append, foundStored_append, hzero, and_iff_left hfound,
      add_zero]
    have hsingle : FoundStored [⟨i, .evalWrite ⟨key, .delete, [], 0⟩, .ok res, w, w'⟩] ↔
        (w.redis.kv key).isSome := by
      simp [FoundStored]
    rw [hsingle, deletions, List.flatMap_singleton, appended]
    dsimp only
    rcases evalWrite_ok he with ⟨_, hk, hw', rfl⟩ | ⟨e, hc, hek, het, rfl⟩
    · right
      have hk : w.redis.kv key = none := hk
      rw [hk, hw', List.drop_length]
      exact ⟨by simp, rfl, rfl⟩
    · left
      have hek : e.key = key := hek
      have hsome := (hc.delete het).2
      rw [hc.prev, hek] at hsome
      obtain ⟨raw, hraw⟩ := Option.isSome_iff_exists.mp hsome
      refine ⟨hsome, ?_, ?_⟩
      · rw [hc.events, List.drop_left]
        simp [show e.type = .delete from het]
      · show (RedisStore.preImage key ((w.redis.kv key).getD [])).isSome = true
        have hlen := hw.stored_length hraw
        rw [hraw, Option.getD_some, RedisStore.preImage, if_pos (by rintro rfl; simp at hlen)]
        exact decodeKV_isSome hlen

theorem deleteLoop_counts {key rangeEnd : Key} {kvs : List KeyValue} {n m : ℕ} (h : Ran l)
    (hp : Pool.Path (KVServer.deleteLoop key rangeEnd kvs n) l (.ret (.ok m))) :
    n + deletions l ≤ m ∧ (m = n + deletions l ↔ FoundStored l) := by
  induction kvs generalizing n l with
  | nil =>
    obtain ⟨hm, rfl⟩ := hp.ret
    cases hm
    exact ⟨le_rfl, iff_of_true rfl fun x hx => nomatch hx⟩
  | cons kv kvs ih =>
    rw [KVServer.deleteLoop] at hp
    split_ifs at hp with hin
    · obtain ⟨y, l₁, l₂, rfl, hdel, hrest⟩ := hp.bind
      cases y with
      | error err => cases hrest.ret.1
      | ok out =>
        obtain ⟨hle, hiff⟩ := ih h.right hrest
        rw [deletions_append, foundStored_append]
        rcases delete_counts h.left hdel with ⟨hf, hone, _⟩ | ⟨hf, hzero, _⟩
        · rw [hone]
          refine ⟨by omega, ?_⟩
          rw [and_iff_right hf, ← hiff]
          omega
        · rw [hzero]
          exact ⟨by omega, iff_of_false (by omega) fun hall => hf hall.1⟩
    · exact ih h hp

theorem deleteKeys_counts {req : DeleteRangeRequest} {m : ℕ} (h : Ran l)
    (hp : Pool.Path (KVServer.deleteKeys req) l (.ret (.ok m))) :
    m = deletions l ↔ (req.rangeEnd ≠ [] → FoundStored l) := by
  rw [KVServer.deleteKeys] at hp
  split_ifs at hp with hr
  · obtain ⟨y, l₁, l₂, rfl, hdel, hrest⟩ := hp.bind
    rcases y with err | ⟨rev, prev⟩
    · cases hrest.ret.1
    · obtain ⟨hm, rfl⟩ := hrest.ret
      cases hm
      rw [List.append_nil] at h ⊢
      refine iff_of_true ?_ fun hne => absurd hr hne
      rcases delete_counts h hdel with ⟨_, hone, hout⟩ | ⟨_, hzero, hout⟩
      · rw [hone, if_pos hout]
      · rw [hzero, if_neg (by simpa using hout)]
  · obtain ⟨y, l₁, l₂, rfl, hscan, hrest⟩ := hp.bind
    rcases y with err | ⟨rev, kvs⟩
    · cases hrest.ret.1
    · obtain ⟨hzero, hfound⟩ := quiet_counts h.left
        (hscan.uses (RedisStore.range_uses (fun _ hc => hc) _))
      have hloop := (deleteLoop_counts h.right hrest).2
      rw [deletions_append, hzero, foundStored_append, and_iff_right hfound, hloop]
      exact ⟨fun hall _ => hall, fun hall => hall hr⟩

theorem deleteRange_counts {req : DeleteRangeRequest} {resp : DeleteRangeResponse} (h : Ran l)
    (hp : Pool.Path (KVServer.deleteRange req) l (.ret (.ok resp))) :
    resp.deleted = deletions l ↔ (req.rangeEnd ≠ [] → FoundStored l) := by
  obtain ⟨y, l₁, l₂, rfl, hkeys, hrest⟩ := hp.bind
  cases y with
  | error err => cases hrest.ret.1
  | ok m =>
    obtain ⟨hd, l₃, l₄, rfl, hhead, hrest⟩ := hrest.bind
    obtain ⟨hresp, rfl⟩ := hrest.ret
    cases hresp
    rw [List.append_nil] at h ⊢
    obtain ⟨hzero, hfound⟩ := quiet_counts h.right
      (hhead.uses (KVServer.header_uses fun _ hc => hc))
    rw [deletions_append, hzero, foundStored_append, and_iff_left hfound]
    exact deleteKeys_counts h.left hkeys

end Counting

/-- **When `Deleted` is the number of deletions**: among any other clients, a `DeleteRange` that
answers counts the `DELETE` events that its own commands have appended iff it is for a single key or
every delete of its loop found its key stored. -/
theorem deleted_counts_iff (req : DeleteRangeRequest) (t : ℕ → List (Env × Cmd) × Env) (w : World)
    (hw : Consistent w.redis) (hi : ∀ n, ∀ x ∈ (t n).1, x.2.Issued) (resp : DeleteRangeResponse)
    (w' : World) (hout : Prog.among exec (KVServer.deleteRange req) t w = (.ok resp, w')) :
    resp.deleted = deletions (Prog.trace exec (KVServer.deleteRange req) t w) ↔
      (req.rangeEnd ≠ [] → FoundStored (Prog.trace exec (KVServer.deleteRange req) t w)) := by
  have hpath := Prog.trace_path exec (KVServer.deleteRange req) t w
  rw [hout] at hpath
  refine deleteRange_counts ?_ hpath
  exact Prog.trace_calls (I := fun w : World => Consistent w.redis) exec_consistent
    (KVServer.deleteRange_uses (fun _ => Cmd.Quiet.issued _) (fun _ => trivial) req) hi hw

/-- With nobody else around, the one key of the range is counted, and was found. -/
theorem deleted_counts_undisturbed :
    ∃ resp w', Prog.among exec (KVServer.deleteRange ⟨[97], [99]⟩) undisturbed oneKey =
        (.ok resp, w') ∧ resp.deleted = 1 ∧
      FoundStored (Prog.trace exec (KVServer.deleteRange ⟨[97], [99]⟩) undisturbed oneKey) := by
  refine ⟨_, _, rfl, by decide, ?_⟩
  exact (deleted_counts_iff ⟨[97], [99]⟩ undisturbed oneKey oneKey_consistent
    (fun _ x hx => nomatch hx) _ _ rfl).mp (by decide) (by decide)

def deleteAfterScan (n : ℕ) : List (Env × Cmd) × Env :=
  (if n = 3 then [(.plain 6, .evalWrite ⟨[98], .delete, [], 0⟩)] else [], .plain 6)

/-- **A key that is gone is counted**: the request answers that it has deleted one key and has
appended no event. -/
theorem deleted_overcounts :
    ∃ resp w', Prog.among exec (KVServer.deleteRange ⟨[97], [99]⟩) deleteAfterScan oneKey =
        (.ok resp, w') ∧ resp.deleted = 1 ∧
      deletions (Prog.trace exec (KVServer.deleteRange ⟨[97], [99]⟩) deleteAfterScan oneKey) = 0 :=
  ⟨_, _, rfl, by decide, by decide⟩

end REtcd.Server
