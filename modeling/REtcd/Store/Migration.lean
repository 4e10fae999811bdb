import REtcd.Store.Command

/-!
# Migrating the key index

Older databases keep the index of the stored keys, `keyindex`, as a Set; `migrateKeyIndex` turns it
into a sorted set whenever a store is opened.  It reads the Set, deletes it and writes the sorted
set, in separate commands whose errors it ignores, and it goes by the type of `keyindex`.  This is
why the deletion must not be the last thing that happens: once `keyindex` is gone, its type is
`none`, and no later start looks for the keys again.

A `Start` is one opening of the store: the surroundings of each command, and the number of commands
after which the process is stopped.  `migration_sound_iff` says after which starts, one after the
other, every key is still listed: the first of them that gets to delete the Set must write the
sorted set too (`Sound`).
-/

namespace REtcd.Store

open Base

/-! ### The database before the migration -/

/-- The members of a Set; Redis keeps no empty one. -/
structure Members where
  set : SortedSet Key
  ne : set.toList ≠ []

/-- What `keyindex` holds.  A sorted set gives its members scores. -/
inductive Index where
  | absent
  | set (m : Members)
  | zset (score : Key → Option ℤ)

inductive IndexType where
  | none
  | set
  | zset
  deriving DecidableEq, Repr

def Index.type : Index → IndexType
  | absent => .none
  | set _ => .set
  | zset _ => .zset

def Index.Lists (k : Key) : Index → Prop
  | absent => False
  | set m => k ∈ m.set
  | zset score => (score k).isSome = true

def Index.sorted (m : SortedSet Key) : Index := .zset fun k => if k ∈ m then some 0 else none

/-- The part of a database that opening a store reads and writes. -/
structure OldRedis where
  revision : Option ℤ
  keyindex : Index

/-! ### The commands -/

inductive IndexCmd where
  /-- `SET global:revision 0 NX`. -/
  | setRevisionNX
  | type
  | smembers
  | del
  | zadd (zs : List (Key × ℤ))

@[reducible] def IndexCmd.Val : IndexCmd → Type
  | type => IndexType
  | smembers => List Key
  | _ => Unit

abbrev IndexReply (c : IndexCmd) : Type := Except GoError c.Val

def wrongType : GoError := "WRONGTYPE Operation against a key holding the wrong kind of value"

def addScores (zs : List (Key × ℤ)) (score : Key → Option ℤ) : Key → Option ℤ :=
  zs.foldl (fun f z => Function.update f z.1 (some z.2)) score

def IndexCmd.run (env : Env) : (c : IndexCmd) → OldRedis → IndexReply c × OldRedis
  | setRevisionNX, s => (.ok (), { s with revision := some (s.revision.getD 0) })
  | type, s => (.ok s.keyindex.type, s)
  | smembers, s =>
    match s.keyindex with
    | .absent => (.ok [], s)
    | .set m => (.ok (env.order m.set.toList), s)
    | .zset _ => (.error wrongType, s)
  | del, s => (.ok (), { s with keyindex := .absent })
  | zadd zs, s =>
    match s.keyindex with
    | .absent => (.ok (), { s with keyindex := .zset (addScores zs fun _ => none) })
    | .set _ => (.error wrongType, s)
    | .zset score => (.ok (), { s with keyindex := .zset (addScores zs score) })

/-- A command under `env`: it may be refused, or carried out and its answer lost. -/
def indexExec (env : Env) (c : IndexCmd) (s : OldRedis) : IndexReply c × OldRedis :=
  match env.fault with
  | some f => (.error f.msg, if f.applied then (c.run env s).2 else s)
  | none => c.run env s

/-! ### Opening a store -/

namespace RedisStore

/-- The pipeline of `migrateKeyIndex`. -/
def rewriteIndex (members : List Key) : Prog IndexCmd IndexReply Unit := do
  let _ ← Prog.cmd .del
  if members ≠ [] then
    let _ ← Prog.cmd (.zadd (members.map fun member => (member, 0)))
    return ()
  else return ()

def migrateKeyIndex : Prog IndexCmd IndexReply Unit := do
  match ← Prog.cmd .type with
  | .error _ => return ()
  | .ok typ =>
    if typ ≠ IndexType.set then return ()
    else
      match ← Prog.cmd .smembers with
      | .error _ => return ()
      | .ok members => rewriteIndex members

def newRedisStoreDB : Prog IndexCmd IndexReply Unit := do
  let _ ← Prog.cmd .setRevisionNX
  migrateKeyIndex

end RedisStore

/-- One opening of the store, stopped after `stop` commands. -/
structure Start where
  env : ℕ → Env
  stop : ℕ

namespace Start

variable (st : Start)

/-- The commands of a start, by their number. -/
def typeCmd : ℕ := 1
def smembersCmd : ℕ := 2
def delCmd : ℕ := 3
def zaddCmd : ℕ := 4

def run (s : OldRedis) : OldRedis := Prog.upto indexExec RedisStore.newRedisStoreDB st.env st.stop s

def Answered (i : ℕ) : Prop := i < st.stop ∧ (st.env i).fault = none

def Done (i : ℕ) : Prop := i < st.stop ∧ carriedOut (st.env i)

def Deletes : Prop := st.Answered typeCmd ∧ st.Answered smembersCmd ∧ st.Done delCmd

def Clean : Prop := zaddCmd < st.stop ∧ ∀ i, (st.env i).fault = none

instance (i : ℕ) : Decidable (st.Answered i) := inferInstanceAs (Decidable (_ ∧ _))

instance (i : ℕ) : Decidable (st.Done i) := inferInstanceAs (Decidable (_ ∧ _))

instance : Decidable st.Deletes := inferInstanceAs (Decidable (_ ∧ _ ∧ _))

end Start

def restarts (starts : List Start) (s : OldRedis) : OldRedis := starts.foldl (fun s st => st.run s) s

/-- The first start that deletes the Set writes the sorted set as well. -/
def Sound : List Start → Prop
  | [] => True
  | st :: rest => if st.Deletes then st.Done Start.zaddCmd else Sound rest

/-! ### What the commands write -/

theorem addScores_zero (members : List Key) (score : Key → Option ℤ) (k : Key) :
    addScores (members.map fun member => (member, 0)) score k =
      if k ∈ members then some 0 else score k := by
  induction members generalizing score with
  | nil => simp [addScores]
  | cons member members ih =>
    have hstep : addScores ((member :: members).map fun member => (member, 0)) score k =
        addScores (members.map fun member => (member, 0))
          (Function.update score member (some 0)) k := rfl
    rw [hstep, ih]
    by_cases hk : k ∈ members
    · simp [hk]
    · by_cases hm : k = member
      · subst hm
        simp [hk]
      · simp [hk, hm]

theorem zset_addScores {members : List Key} {m : SortedSet Key} (hp : members.Perm m.toList) :
    Index.zset (addScores (members.map fun member => (member, 0)) fun _ => none) = .sorted m := by
  refine congrArg Index.zset (funext fun k => ?_)
  rw [addScores_zero]
  exact if_congr hp.mem_iff rfl rfl

theorem indexExec_state (env : Env) (c : IndexCmd) (s : OldRedis) :
    (indexExec env c s).2 = if carriedOut env then (c.run env s).2 else s := by
  unfold indexExec
  cases hf : env.fault with
  | none =>
    have hc : carriedOut env := by
      intro f h
      rw [hf] at h
      cases h
    rw [if_pos hc]
  | some f =>
    by_cases ha : f.applied = true
    · have hc : carriedOut env := by
        intro g h
        rw [hf] at h
        cases h
        exact ha
      simp only [ha, if_true, if_pos hc]
    · have hc : ¬ carriedOut env := fun h => ha (h f hf)
      simp only [ha, if_neg hc, Bool.false_eq_true, if_false]

/-! ### One start -/

/-- The pipeline on a Set.  Its `ZADD` finds nothing if the `DEL` was carried out, and is turned
away otherwise. -/
theorem rewriteIndex_keyindex {m : Members} {members : List Key} (hp : members.Perm m.set.toList)
    (e : ℕ → Env) (n : ℕ) {s : OldRedis} (hs : s.keyindex = .set m) :
    (Prog.upto indexExec (RedisStore.rewriteIndex members) e n s).keyindex =
      if 0 < n ∧ carriedOut (e 0) then
        if 1 < n ∧ carriedOut (e 1) then .sorted m.set else .absent
      else .set m := by
  have hne : members ≠ [] := by
    intro h
    rw [h] at hp
    exact m.ne hp.nil_eq.symm
  unfold RedisStore.rewriteIndex
  simp only [if_pos hne]
  rcases n with _ | _ | n
  · simpa using hs
  · by_cases hdel : carriedOut (e 0)
    · simp [Prog.upto, indexExec_state, hdel, IndexCmd.run]
    · simpa [Prog.upto, indexExec_state, hdel] using hs
  · by_cases hdel : carriedOut (e 0)
    · by_cases hadd : carriedOut (e 1)
      · simp [Prog.upto, indexExec_state, hdel, hadd, IndexCmd.run, zset_addScores hp]
      · simp [Prog.upto, indexExec_state, hdel, hadd, IndexCmd.run]
    · by_cases hadd : carriedOut (e 1)
      · simp [Prog.upto, indexExec_state, hdel, hadd, IndexCmd.run, hs]
      · simp [Prog.upto, indexExec_state, hdel, hadd, hs]

theorem indexExec_type (env : Env) (s : OldRedis) :
    indexExec env .type s =
      (match env.fault with
        | some f => .error f.msg
        | none => .ok s.keyindex.type, s) := by
  unfold indexExec
  cases env.fault with
  | none => rfl
  | some f => simp [IndexCmd.run]

theorem indexExec_smembers (env : Env) {m : Members} {s : OldRedis} (hs : s.keyindex = .set m) :
    indexExec env .smembers s =
      (match env.fault with
        | some f => .error f.msg
        | none => .ok (env.order m.set.toList), s) := by
  unfold indexExec
  cases env.fault with
  | none => simp [IndexCmd.run, hs]
  | some f => simp [IndexCmd.run, hs]

theorem indexExec_setRevisionNX (env : Env) (s : OldRedis) :
    (indexExec env .setRevisionNX s).2.keyindex = s.keyindex := by
  rw [indexExec_state]
  split
  · rfl
  · rfl

/-- The migration of a Set reaches its pipeline if `TYPE` and `SMEMBERS` are answered. -/
theorem migrateKeyIndex_keyindex {m : Members} (e : ℕ → Env) (n : ℕ) {s : OldRedis}
    (hs : s.keyindex = .set m) :
    (Prog.upto indexExec RedisStore.migrateKeyIndex e n s).keyindex =
      if (0 < n ∧ (e 0).fault = none) ∧ (1 < n ∧ (e 1).fault = none) ∧
          2 < n ∧ carriedOut (e 2) then
        if 3 < n ∧ carriedOut (e 3) then .sorted m.set else .absent
      else .set m := by
  unfold RedisStore.migrateKeyIndex
  cases n with
  | zero => simpa using hs
  | succ n =>
    rw [Prog.upto_cmd, indexExec_type]
    cases htype : (e 0).fault with
    | some f => simpa using hs
    | none =>
      simp only [hs, Index.type, ne_eq, not_true_eq_false, if_false]
      cases n with
      | zero => simpa using hs
      | succ n =>
        rw [Prog.upto_cmd, indexExec_smembers _ hs]
        cases hmem : (e 1).fault with
        | some f => simpa [hmem] using hs
        | none =>
          simp only
          rw [rewriteIndex_keyindex ((e 1).order_perm _) _ n hs]
          simp [Nat.lt_iff_add_one_le]

theorem migrateKeyIndex_other (e : ℕ → Env) (n : ℕ) {s : OldRedis}
    (hs : s.keyindex.type ≠ .set) :
    Prog.upto indexExec RedisStore.migrateKeyIndex e n s = s := by
  unfold RedisStore.migrateKeyIndex
  cases n with
  | zero => simp
  | succ n =>
    rw [Prog.upto_cmd, indexExec_type]
    cases (e 0).fault with
    | some f => simp
    | none => simp [hs]

namespace Start

theorem run_keyindex (st : Start) {m : Members} {s : OldRedis} (hs : s.keyindex = .set m) :
    (st.run s).keyindex =
      if st.Deletes then if st.Done zaddCmd then .sorted m.set else .absent else .set m := by
  unfold run RedisStore.newRedisStoreDB
  obtain ⟨e, n⟩ := st
  cases n with
  | zero => simpa [Deletes, Answered] using hs
  | succ n =>
    rw [Prog.upto_cmd, migrateKeyIndex_keyindex _ n ((indexExec_setRevisionNX _ s).trans hs)]
    simp [Deletes, Answered, Done, typeCmd, smembersCmd, delCmd, zaddCmd, Nat.lt_iff_add_one_le]

theorem run_other (st : Start) {s : OldRedis} (hs : s.keyindex.type ≠ .set) :
    (st.run s).keyindex = s.keyindex := by
  unfold run RedisStore.newRedisStoreDB
  cases st.stop with
  | zero => simp
  | succ n =>
    have hset := indexExec_setRevisionNX (st.env 0) s
    rw [Prog.upto_cmd, migrateKeyIndex_other _ n (by rwa [hset]), hset]

theorem Clean.deletes {st : Start} (h : st.Clean) : st.Deletes := by
  obtain ⟨hstop, hf⟩ := h
  have hlt : 4 < st.stop := hstop
  refine ⟨⟨?_, hf _⟩, ⟨?_, hf _⟩, ?_, ?_⟩
  · exact Nat.lt_trans (by decide) hlt
  · exact Nat.lt_trans (by decide) hlt
  · exact Nat.lt_trans (by decide) hlt
  · intro f h
    rw [hf] at h
    cases h

end Start

/-! ### Any number of starts -/

theorem restarts_other (starts : List Start) {s : OldRedis} (hs : s.keyindex.type ≠ .set) :
    (restarts starts s).keyindex = s.keyindex := by
  induction starts generalizing s with
  | nil => rfl
  | cons st rest ih =>
    have hrun := st.run_other hs
    calc (restarts (st :: rest) s).keyindex = (restarts rest (st.run s)).keyindex := rfl
      _ = (st.run s).keyindex := ih (by rwa [hrun])
      _ = s.keyindex := hrun

/-- The first start that deletes the Set decides. -/
theorem restarts_cases (starts : List Start) {m : Members} {s : OldRedis}
    (hs : s.keyindex = .set m) :
    (∀ st ∈ starts, ¬ st.Deletes) ∧ Sound starts ∧ (restarts starts s).keyindex = .set m ∨
      Sound starts ∧ (restarts starts s).keyindex = .sorted m.set ∨
      ¬ Sound starts ∧ (restarts starts s).keyindex = .absent := by
  induction starts generalizing s with
  | nil => exact .inl ⟨fun st h => absurd h List.not_mem_nil, trivial, hs⟩
  | cons st rest ih =>
    have hrun := st.run_keyindex hs
    have hstep : restarts (st :: rest) s = restarts rest (st.run s) := rfl
    rw [hstep]
    by_cases hdel : st.Deletes
    · by_cases hadd : st.Done Start.zaddCmd
      · rw [if_pos hdel, if_pos hadd] at hrun
        have hrest := restarts_other rest (s := st.run s) (by simp [hrun, Index.sorted, Index.type])
        exact .inr (.inl ⟨by simpa [Sound, hdel] using hadd, hrest.trans hrun⟩)
      · rw [if_pos hdel, if_neg hadd] at hrun
        have hrest := restarts_other rest (s := st.run s) (by rw [hrun]; decide)
        exact .inr (.inr ⟨by simpa [Sound, hdel] using hadd, hrest.trans hrun⟩)
    · rw [if_neg hdel] at hrun
      have hsound : Sound (st :: rest) ↔ Sound rest := by simp [Sound, hdel]
      rw [hsound]
      rcases ih hrun with ⟨hnone, hkeep⟩ | h
      · exact .inl ⟨List.forall_mem_cons.2 ⟨hdel, hnone⟩, hkeep⟩
      · exact .inr h

/-- Every key of the old Set is still listed, however often the store has been opened, just when
the first start that deleted the Set also wrote the sorted set; and after a start without a failure
`keyindex` is then the sorted set of these keys. -/
theorem migration_sound_iff (m : Members) (revision : Option ℤ) (starts : List Start) :
    ((∀ k ∈ m.set, (restarts starts ⟨revision, .set m⟩).keyindex.Lists k) ↔ Sound starts) ∧
    (Sound starts → (∃ st ∈ starts, st.Clean) →
      (restarts starts ⟨revision, .set m⟩).keyindex = .sorted m.set) := by
  rcases restarts_cases starts (s := ⟨revision, .set m⟩) rfl with
    ⟨hnone, hsound, hkeep⟩ | ⟨hsound, hsorted⟩ | ⟨hsound, habsent⟩
  · rw [hkeep]
    refine ⟨⟨fun _ => hsound, fun _ k hk => hk⟩, ?_⟩
    rintro - ⟨st, hst, hclean⟩
    exact absurd hclean.deletes (hnone st hst)
  · rw [hsorted]
    refine ⟨⟨fun _ => hsound, fun _ k hk => ?_⟩, fun _ _ => rfl⟩
    simp [Index.sorted, Index.Lists, hk]
  · rw [habsent]
    refine ⟨⟨fun hall => ?_, fun h => absurd h hsound⟩, fun h => absurd h hsound⟩
    obtain ⟨k, hk⟩ := List.exists_mem_of_ne_nil _ m.ne
    exact (hall k hk).elim

def undisturbedStart : Start := ⟨fun _ => .plain 0, 5⟩

/-- A process stopped between `DEL` and `ZADD`, or a `ZADD` that is refused, and the keys are lost:
the next start finds no `keyindex` and leaves it at that. -/
theorem migration_loses :
    let m : Members := ⟨SortedSet.empty.insert [97], by decide⟩
    let refused : Env := { Env.plain 0 with fault := some ⟨"OOM", false⟩ }
    (restarts [⟨fun _ => .plain 0, 4⟩, undisturbedStart] ⟨some 3, .set m⟩).keyindex = .absent ∧
    (restarts [⟨fun i => if i = 4 then refused else .plain 0, 5⟩, undisturbedStart]
      ⟨some 3, .set m⟩).keyindex = .absent ∧
    ¬ Index.absent.Lists [97] ∧ [97] ∈ m.set := by
  refine ⟨rfl, rfl, id, by decide⟩

end REtcd.Store
