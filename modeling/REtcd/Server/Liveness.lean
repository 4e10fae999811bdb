import REtcd.Server.Resources

/-!
# Nothing gets stuck

* Whoever calls `ingest` holds the dispatcher's lock until all that is due has been sent to the
  channels.  It never waits for a watch, unless for one that is in `seekStreamID` (the update of the
  checkpoints under `ckMu` is one step here): however slow the watches are, it is done after a number
  of its own steps that depends only on the number of subscribers and the bound of the reorder buffer
  (`ingest_returns`).
* From every state the server can be wound down: without another request, all watches can return,
  and then nothing of them is left in the dispatcher and in the streams (`winds_down`).
-/

namespace REtcd.Server

open Base Store

/-! ### The holder of the lock -/

/-- The steps that remain for the caller of `releaseLocked`, with `size` events held back and `n`
subscribers. -/
def Caller.work (size n : ℕ) : Caller → ℕ
  | drain => size * (n + 2) + 2
  | flush revs _ => revs.length * (n + 2) + 1

/-- The steps that remain for the holder of the lock. -/
def Lock.work (size n : ℕ) : Lock → ℕ
  | free => 0
  | drain => Caller.drain.work size n
  | flush revs last => (Caller.flush revs last).work size n
  | fan _ todo caller => todo.card + 1 + caller.work size n

def Feed.work (f : Feed) : ℕ := f.lock.work f.disp.pending.size f.disp.subs.card

theorem Feed.work_of_lock {f : Feed} {lock : Lock} (h : f.lock = lock) :
    f.work = lock.work f.disp.pending.size f.disp.subs.card := by rw [work, h]

theorem Caller.work_mono {size size' n n' : ℕ} (hs : size ≤ size') (hn : n ≤ n') (c : Caller) :
    c.work size n ≤ c.work size' n' := by
  cases c with
  | drain =>
    have := Nat.mul_le_mul hs (Nat.add_le_add_right hn 2)
    rw [work, work]
    omega
  | flush revs last =>
    have := Nat.mul_le_mul_left revs.length (Nat.add_le_add_right hn 2)
    rw [work, work]
    omega

/-- An event is released: what remains is a round for each subscriber, and one to go back. -/
theorem Feed.work_release (f : Feed) (r : ℤ) (ev : Event) (caller : Caller) :
    (f.release r ev caller).work =
      f.disp.subs.card + 1 + caller.work (f.disp.pending.erase r).size f.disp.subs.card := by
  obtain ⟨hsubs, _, hpending⟩ := f.release_keeps r ev caller
  rw [work, hsubs, hpending]
  rfl

/-- **Each step of the holder of the lock leaves less to do.** -/
theorem Feed.dispatch_work {f f' : Feed} {id : ℕ} (hf : f.dispatch id = some f') :
    f'.work + 1 ≤ f.work := by
  cases Feed.dispatch_iff.mp hf with
  | drained ev hl hev =>
    have hmem : f.disp.nextRev ∈ f.disp.pending := by
      rw [Std.ExtTreeMap.mem_iff_isSome_getElem?, hev]
      rfl
    have hsize : (f.disp.pending.erase f.disp.nextRev).size + 1 = f.disp.pending.size := by
      have hne : f.disp.pending.size ≠ 0 := by
        intro h0
        rw [Std.ExtTreeMap.eq_empty_iff_size_eq_zero.mpr h0] at hmem
        exact Std.ExtTreeMap.not_mem_empty hmem
      rw [Std.ExtTreeMap.size_erase, if_pos (Std.ExtTreeMap.contains_iff_mem.mpr hmem)]
      omega
    rw [Feed.work_release, work_of_lock hl, Lock.work, Caller.work, Caller.work, ← hsize,
      Nat.succ_mul]
    omega
  | flush hl _ _ =>
    rw [work_of_lock hl]
    show f.disp.pending.keys.length * (f.disp.subs.card + 2) + 1 + 1 ≤
      f.disp.pending.size * (f.disp.subs.card + 2) + 2
    rw [Std.ExtTreeMap.length_keys]
  | unlock hl _ _ =>
    rw [work_of_lock hl]
    exact Nat.le_add_left 1 _
  | next ev hl =>
    rw [work_of_lock hl, Lock.work, Finset.card_empty, Nat.zero_add, Nat.add_comm]
    exact le_rfl
  | resume ev revs last hl =>
    rw [work_of_lock hl, Lock.work, Finset.card_empty, Nat.zero_add, Nat.add_comm]
    exact le_rfl
  | deliver ev todo caller hl hid =>
    obtain ⟨hpending, hsubs⟩ := f.disp.deliver_keeps ev id
    have hle : (f.disp.deliver ev id).subs.card ≤ f.disp.subs.card := by
      rcases hsubs with h | h
      · rw [h]
      · rw [h]
        exact Finset.card_erase_le
    have hcaller := Caller.work_mono (le_refl f.disp.pending.size) hle caller
    have hcard := Finset.card_erase_add_one hid
    rw [work_of_lock hl, Lock.work]
    show (todo.erase id).card + 1 + caller.work (f.disp.deliver ev id).pending.size
      (f.disp.deliver ev id).subs.card + 1 ≤ _
    rw [hpending]
    omega
  | flushed ev r revs last hl _ =>
    rw [Feed.work_release, work_of_lock hl, Lock.work, Caller.work, Caller.work, List.length_cons,
      Nat.succ_mul]
    omega
  | skip r revs last hl _ =>
    rw [work_of_lock hl, Lock.work, Caller.work, List.length_cons, Nat.succ_mul]
    show revs.length * (f.disp.subs.card + 2) + 1 + 1 ≤ _
    omega
  | done last hl =>
    rw [work_of_lock hl]
    exact Nat.le_add_left 1 _

theorem Feed.exists_dispatch {f : Feed} (h : f.lock ≠ .free) : ∃ n, f.dispatch n ≠ none := by
  cases hl : f.lock with
  | free => exact absurd hl h
  | drain =>
    refine ⟨0, ?_⟩
    rw [dispatch, hl]
    dsimp only
    split
    · exact Option.some_ne_none _
    · split_ifs <;> exact Option.some_ne_none _
  | fan ev todo caller =>
    by_cases htodo : todo = ∅
    · refine ⟨0, ?_⟩
      rw [dispatch, hl]
      dsimp only
      rw [if_pos htodo]
      cases caller <;> exact Option.some_ne_none _
    · obtain ⟨n, hn⟩ := Finset.nonempty_iff_ne_empty.mpr htodo
      refine ⟨n, ?_⟩
      rw [dispatch, hl]
      dsimp only
      rw [if_neg htodo, if_pos hn]
      exact Option.some_ne_none _
  | flush revs last =>
    refine ⟨0, ?_⟩
    rw [dispatch, hl]
    cases revs with
    | nil => exact Option.some_ne_none _
    | cons r revs =>
      dsimp only
      split <;> exact Option.some_ne_none _

/-- The others do not give the holder of the lock more to do. -/
theorem Change.work_le {s s' : Sys} (hc : Change s s') (hl : s.feed.lock ≠ .free) :
    s'.feed.work ≤ s.feed.work := by
  cases hc with
  | feed f hf =>
    rcases hf with ⟨ev, hf⟩ | ⟨ev, hf⟩ | ⟨ev, hf⟩ | ⟨id, hf⟩
    · obtain ⟨_, rfl⟩ := Feed.commit_iff.mp hf
      exact le_rfl
    · obtain ⟨_, rfl⟩ := Feed.lose_iff.mp hf
      exact le_rfl
    · exact absurd (Feed.ingest_iff.mp hf).1 hl
    · exact Nat.le_of_succ_le (Feed.dispatch_work hf)
  | conn | spawn => exact le_rfl
  | register id w s' _ hr => exact absurd (register_eq hr).1 hl
  | finish id w s' _ hr => exact absurd (finish_eq hr).1 hl
  | own => exact le_rfl

/-- Nobody is served twice, and not more is flushed than was held back. -/
def Lock.Sized (n : ℕ) : Lock → Prop
  | free | drain => True
  | flush revs _ => revs.length ≤ maxPendingEvents + 1
  | fan _ todo caller => todo.card ≤ n ∧
    ∀ revs last, caller = .flush revs last → revs.length ≤ maxPendingEvents + 1

theorem Feed.sized_release (f : Feed) (r : ℤ) (ev : Event) {caller : Caller}
    (h : ∀ revs last, caller = .flush revs last → revs.length ≤ maxPendingEvents + 1) :
    (f.release r ev caller).lock.Sized (f.release r ev caller).disp.subs.card := by
  rw [(f.release_keeps r ev caller).1]
  exact ⟨le_rfl, h⟩

theorem Feed.sized_dispatch {f f' : Feed} {id : ℕ} (hb : f.Bounded)
    (h : f.lock.Sized f.disp.subs.card) (hf : f.dispatch id = some f') :
    f'.lock.Sized f'.disp.subs.card := by
  cases Feed.dispatch_iff.mp hf with
  | drained ev hl _ => exact f.sized_release _ ev fun revs last h => by cases h
  | flush hl _ _ =>
    show f.disp.pending.keys.length ≤ _
    rw [Std.ExtTreeMap.length_keys]
    exact hb.pending.size_le
  | unlock | next | done => trivial
  | resume ev revs last hl =>
    rw [hl] at h
    exact h.2 revs last rfl
  | deliver ev todo caller hl hid =>
    rw [hl] at h
    refine ⟨?_, h.2⟩
    have hcard := Finset.card_erase_add_one hid
    have hle := h.1
    rcases (f.disp.deliver_keeps ev id).2 with hsubs | hsubs
    · dsimp only
      rw [hsubs]
      omega
    · have := Finset.pred_card_le_card_erase (s := f.disp.subs) (a := id)
      dsimp only
      rw [hsubs]
      omega
  | flushed ev r revs last hl _ =>
    rw [hl] at h
    refine f.sized_release r ev fun revs' last' heq => ?_
    cases heq
    exact Nat.le_of_succ_le h
  | skip r revs last hl _ =>
    rw [hl] at h
    exact Nat.le_of_succ_le h

theorem Change.sized {s s' : Sys} (hc : Change s s') (hb : s.feed.Bounded)
    (h : s.feed.lock.Sized s.feed.disp.subs.card) :
    s'.feed.lock.Sized s'.feed.disp.subs.card := by
  cases hc with
  | feed f hf =>
    rcases hf with ⟨ev, hf⟩ | ⟨ev, hf⟩ | ⟨ev, hf⟩ | ⟨id, hf⟩
    · obtain ⟨_, rfl⟩ := Feed.commit_iff.mp hf
      exact h
    · obtain ⟨_, rfl⟩ := Feed.lose_iff.mp hf
      exact h
    · obtain ⟨hl, _, ⟨_, rfl⟩ | ⟨d, _, rfl⟩⟩ := Feed.ingest_iff.mp hf
      · dsimp only
        rw [hl]
        trivial
      · trivial
    · exact Feed.sized_dispatch hb h hf
  | conn | spawn | own => exact h
  | register id w s' _ hr =>
    obtain ⟨hl, _, rfl⟩ := register_eq hr
    show s.feed.lock.Sized _
    rw [hl]
    trivial
  | finish id w s' _ hr =>
    obtain ⟨hl, _, rfl⟩ := finish_eq hr
    show s.feed.lock.Sized _
    rw [hl]
    trivial

theorem Feed.work_le {f : Feed} (hb : f.Bounded) (h : f.lock.Sized f.disp.subs.card) :
    f.work ≤ (maxPendingEvents + 2) * (f.disp.subs.card + 2) + 2 := by
  have hsize := hb.pending.size_le
  have hmul : ∀ n ≤ maxPendingEvents + 1, n * (f.disp.subs.card + 2) + (f.disp.subs.card + 2) ≤
      (maxPendingEvents + 2) * (f.disp.subs.card + 2) := by
    intro n hn
    rw [← Nat.succ_mul]
    exact Nat.mul_le_mul_right _ (Nat.succ_le_succ hn)
  cases hl : f.lock with
  | free =>
    rw [work_of_lock hl]
    exact Nat.zero_le _
  | drain =>
    have := hmul _ hsize
    rw [work_of_lock hl, Lock.work, Caller.work]
    omega
  | flush revs last =>
    rw [hl] at h
    have := hmul _ h
    rw [work_of_lock hl, Lock.work, Caller.work]
    omega
  | fan ev todo caller =>
    rw [hl] at h
    have htodo := h.1
    cases caller with
    | drain =>
      have := hmul _ hsize
      rw [work_of_lock hl, Lock.work, Caller.work]
      omega
    | flush revs last =>
      have := hmul _ (h.2 revs last rfl)
      rw [work_of_lock hl, Lock.work, Caller.work]
      omega

def Act.isDispatch : Act → Bool
  | dispatch _ => true
  | _ => false

/-- **`ingest` returns.**  From any state that a run can reach, as long as the lock is held its holder
takes at most a number of steps that depends only on the number of subscribers and the bound of the
reorder buffer, whatever the others do meanwhile, and it can always take the next one. -/
theorem ingest_returns {l : List Event} {current raw : Except GoError ℤ} {s s' : Sys}
    (hs : Reach Sys.step (fun _ => True) (.primed l current raw) s) {as : List Act}
    (hrun : run (guarded (fun s _ => s.feed.lock ≠ .free) Sys.step) (fun _ => True) as s = some s') :
    as.countP Act.isDispatch ≤ (maxPendingEvents + 2) * (s.feed.disp.subs.card + 2) + 2 ∧
      (s'.feed.lock ≠ .free → ∃ n, s'.step (.dispatch n) ≠ none) := by
  have hinv : s.feed.Bounded ∧ s.feed.lock.Sized s.feed.disp.subs.card := by
    refine hs.inv (I := fun s => s.feed.Bounded ∧ s.feed.lock.Sized s.feed.disp.subs.card)
      ⟨⟨fun _ => Nat.zero_le _, Nat.zero_le _⟩, trivial⟩ ?_
    exact fun _ _ _ h hstep _ =>
      ⟨(step_change hstep).bounded h.1, (step_change hstep).sized h.1 h.2⟩
  constructor
  · have hcount := run_countP (fun s : Sys => s.feed.work) Act.isDispatch ?_ hrun
    · have hle := Feed.work_le hinv.1 hinv.2
      omega
    · intro t act t' hstep
      obtain ⟨hheld, hstep⟩ := guarded_eq_some hstep
      cases act with
      | dispatch n =>
        obtain ⟨f, hf, rfl⟩ := Option.map_eq_some_iff.mp hstep
        exact Feed.dispatch_work hf
      | _ => exact (step_change hstep).work_le hheld
  · intro hheld
    obtain ⟨n, hn⟩ := Feed.exists_dispatch hheld
    refine ⟨n, fun hnone => hn ?_⟩
    rwa [Sys.step, Option.map_eq_none_iff] at hnone

def midIngest : List Act :=
  [.create 0 ⟨[97], [], 0⟩, .revision 0 true, .confirm 0 true, .register 1, .create 0 ⟨[98], [], 0⟩,
    .commit (createEvent [97] 1), .commit (createEvent [97] 2), .ingest (createEvent [97] 1)]

/-- The event is sent to the watch, whatever the watch does. -/
theorem midIngest_returns :
    ∃ s s', Reach Sys.step (fun _ => True) (.primed [] (.ok 1) (.ok 0)) s ∧
      run (guarded (fun s _ => s.feed.lock ≠ .free) Sys.step) (fun _ => True)
        [.dispatch 0, .watch 1 .tick, .dispatch 1] s = some s' ∧
      2 ≤ (maxPendingEvents + 2) * (s.feed.disp.subs.card + 2) + 2 ∧
      ∃ n, s'.step (.dispatch n) ≠ none := by
  obtain ⟨s, hs, hp⟩ := exists_of_run Sys.step (fun _ => True) (.primed [] (.ok 1) (.ok 0)) midIngest
    (fun s : Sys => (run (guarded (fun (s : Sys) _ => s.feed.lock ≠ .free) Sys.step) (fun _ => True)
      [.dispatch 0, .watch 1 .tick, .dispatch 1] s).any fun s' : Sys =>
        decide (s'.feed.lock ≠ .free)) (by decide +kernel)
  obtain ⟨s', hrun, hp⟩ := (Option.any_eq_true _ _).mp hp
  have hreturns := ingest_returns hs hrun
  exact ⟨s, s', hs, hrun, hreturns.1, hreturns.2 (of_decide_eq_true hp)⟩

/-! ### Winding down -/

/-- What happens without another request and without another write. -/
def Act.winds : Act → Bool
  | dispatch _ | revision _ _ | confirm _ _ | hangUp _ | register _ | watch _ _ | finish _ => true
  | _ => false

def Winds (s s' : Sys) : Prop :=
  Reach (guarded (fun _ act => act.winds = true) Sys.step) (fun _ => True) s s'

/-- Nothing is said about the watch `id`; all others are as they were, and no other is about to
start that was not. -/
structure Only (id : ℤ) (s s' : Sys) : Prop where
  watchID : s'.watchID = s.watchID
  watches : ∀ id' ≠ id, s'.watches id' = s.watches id'
  newID : ∀ c, ∀ id' ≠ id, (s'.conns c).pc.newID = some id' → (s.conns c).pc.newID = some id'

/-- The watch is gone, or there was none and none is about to start. -/
def Gone (s : Sys) (id : ℤ) : Prop :=
  (∀ w, s.watches id = some w → w.pc = .gone) ∧ ∀ c, (s.conns c).pc.newID ≠ some id

section Winding

variable {s s' s'' : Sys} {id : ℤ} {w : Watch}

theorem Winds.one {act : Act} (hs : s.step act = some s') (hact : act.winds = true) :
    Winds s s' := by
  refine .tail act .refl ?_ trivial
  rw [guarded, if_pos hact]
  exact hs

theorem Winds.trans (h : Winds s s') (h' : Winds s' s'') : Winds s s'' := Reach.trans h h'

theorem Only.refl (id : ℤ) (s : Sys) : Only id s s := ⟨rfl, fun _ _ => rfl, fun _ _ _ h => h⟩

theorem Only.trans (h : Only id s s') (h' : Only id s' s'') : Only id s s'' where
  watchID := h'.watchID.trans h.watchID
  watches id' hne := (h'.watches id' hne).trans (h.watches id' hne)
  newID c id' hne hnew := h.newID c id' hne (h'.newID c id' hne hnew)

theorem Only.gone (h : Only id s s') {id' : ℤ} (hne : id' ≠ id) (hgone : Gone s id') :
    Gone s' id' := by
  refine ⟨fun w hw => ?_, fun c hnew => hgone.2 c (h.newID c id' hne hnew)⟩
  rw [h.watches id' hne] at hw
  exact hgone.1 w hw

/-- The lock can be released, and nothing but the feed changes. -/
theorem exists_unlocked (s : Sys) : ∃ f, Winds s { s with feed := f } ∧ f.lock = .free := by
  induction hn : s.feed.work using Nat.strong_induction_on generalizing s with
  | _ n ih =>
    by_cases hl : s.feed.lock = .free
    · exact ⟨s.feed, .refl, hl⟩
    · obtain ⟨k, hk⟩ := Feed.exists_dispatch hl
      obtain ⟨f, hf⟩ := Option.ne_none_iff_exists'.mp hk
      have hless := Feed.dispatch_work hf
      have hstep : s.step (.dispatch k) = some { s with feed := f } := by
        rw [Sys.step, hf]
        rfl
      obtain ⟨f', hwind, hfree⟩ := ih f.work (by omega) { s with feed := f } rfl
      exact ⟨f', (Winds.one hstep rfl).trans hwind, hfree⟩

/-! ### One watch -/

/-- The steps that take a watch out of `tailWatch` when its context is done. -/
def Pc.out (ch : List Event) : Pc → ℕ
  | collecting _ => ch.length + 3
  | seeking | stamping _ _ _ => 2
  | reading _ _ | selecting | sending _ _ => 1
  | _ => 0

theorem exists_step_out (sh : Shared) (id : ℤ) (w : Watch) (sub : WatchSub)
    (hdone : sh.ctxDone = true) (hrun : w.Running) (hpc : w.pc ≠ .returning) :
    ∃ a pc ch out, w.step sh id sub a = some (pc, ch, out) ∧ pc.out ch < w.pc.out sub.ch ∧
      pc ≠ .spawned ∧ pc ≠ .gone := by
  cases hw : w.pc with
  | spawned => exact absurd hw hrun.1
  | gone => exact absurd hw hrun.2
  | returning => exact absurd hw hpc
  | seeking =>
    refine ⟨.go, .reading (Dispatcher.seekStreamID sh.checkpoints w.startRevision) 0, sub.ch, [],
      ?_, by simp [Pc.out], by simp, by simp⟩
    simp only [Watch.step, hw]
  | reading lastID n =>
    refine ⟨.done, .returning, sub.ch, [], ?_, by simp [Pc.out], by simp, by simp⟩
    simp only [Watch.step, hw, hdone, if_true]
  | selecting =>
    refine ⟨.done, .returning, sub.ch, [], ?_, by simp [Pc.out], by simp, by simp⟩
    simp only [Watch.step, hw, hdone, if_true]
  | stamping matched canceled next =>
    refine ⟨.go, .sending (watchResponse id sh.latestRev canceled matched) next, sub.ch, [], ?_,
      by simp [Pc.out], by simp, by simp⟩
    simp only [Watch.step, hw]
  | sending resp next =>
    -- the client is gone, so `Send` fails
    refine ⟨.send false, .returning, sub.ch, [], ?_, by simp [Pc.out], by simp, by simp⟩
    simp only [Watch.step, hw]
    rfl
  | collecting matched =>
    have hcollected : ∀ ch : List Event, (Watch.collected matched).out ch < ch.length + 3 ∧
        Watch.collected matched ≠ .spawned ∧ Watch.collected matched ≠ .gone := by
      intro ch
      rw [Watch.collected]
      split_ifs
      · exact ⟨by rw [Pc.out]; omega, by simp, by simp⟩
      · exact ⟨by rw [Pc.out]; omega, by simp, by simp⟩
    by_cases hfull : matched.length < maxSendBatch
    · cases hch : sub.ch with
      | nil =>
        refine ⟨.go, Watch.collected matched, [], [], ?_, hcollected []⟩
        simp only [Watch.step, hw, hch, if_pos hfull]
      | cons ev ch =>
        refine ⟨.go, .collecting (w.add matched ev), ch, [], ?_, Nat.lt_succ_self _, by simp,
          by simp⟩
        simp only [Watch.step, hw, hch, if_pos hfull]
    · refine ⟨.go, Watch.collected matched, sub.ch, [], ?_, hcollected sub.ch⟩
      simp only [Watch.step, hw, if_neg hfull]

structure Stays (id : ℤ) (s s' : Sys) : Prop where
  watchID : s'.watchID = s.watchID
  watches : ∀ id' ≠ id, s'.watches id' = s.watches id'
  conns : s'.conns = s.conns
  lock : s'.feed.lock = s.feed.lock

theorem Stays.trans (h : Stays id s s') (h' : Stays id s' s'') : Stays id s s'' where
  watchID := h'.watchID.trans h.watchID
  watches id' hne := (h'.watches id' hne).trans (h.watches id' hne)
  conns := h'.conns.trans h.conns
  lock := h'.lock.trans h.lock

theorem Stays.only (h : Stays id s s') : Only id s s' where
  watchID := h.watchID
  watches := h.watches
  newID c id' _ hnew := by
    rw [h.conns] at hnew
    exact hnew

/-- **A watch whose context is done can return.** -/
theorem exists_returning (hw : s.watches id = some w) (hdone : (s.shared w).ctxDone = true)
    (hrun : w.Running) :
    ∃ s', Winds s s' ∧ Stays id s s' ∧ s'.watches id = some { w with pc := .returning } := by
  induction hn : w.pc.out (s.feed.disp.sub w.sub).ch using Nat.strong_induction_on
    generalizing s w with
  | _ n ih =>
    by_cases hpc : w.pc = .returning
    · refine ⟨s, .refl, ⟨rfl, fun _ _ => rfl, rfl, rfl⟩, ?_⟩
      rw [hw, ← hpc]
    · obtain ⟨a, pc, ch, out, hstep, hless, hne⟩ :=
        exists_step_out (s.shared w) id w (s.feed.disp.sub w.sub) hdone hrun hpc
      set s₁ := ({ s with
        feed := { s.feed with
          disp := { s.feed.disp with
            sub := Function.update s.feed.disp.sub w.sub { s.feed.disp.sub w.sub with ch := ch } } }
        sent := s.sent ++ out.map (w.conn, ·) } : Sys).setWatch id { w with pc := pc } with hs₁
      have hone : s.step (.watch id a) = some s₁ := by
        rw [Sys.step, hw, Option.bind_some, Sys.watchStep, hstep]
        rfl
      have hw₁ : s₁.watches id = some { w with pc := pc } := Function.update_self ..
      have hch : (s₁.feed.disp.sub w.sub).ch = ch := by
        show (Function.update s.feed.disp.sub w.sub _ w.sub).ch = ch
        rw [Function.update_self]
      obtain ⟨s', hwind, hstays, hw'⟩ :=
        ih (pc.out ch) (by omega) hw₁ hdone hne (by dsimp only; rw [hch])
      have hstays₁ : Stays id s s₁ := ⟨rfl, fun id' hid' => Function.update_of_ne hid' .., rfl, rfl⟩
      exact ⟨s', (Winds.one hone rfl).trans hwind, hstays₁.trans hstays, hw'⟩

theorem exists_hungUp (s : Sys) (c : ℕ) :
    ∃ s', Winds s s' ∧ s'.watchID = s.watchID ∧ s'.watches = s.watches ∧
      (∀ c', (s'.conns c').pc = (s.conns c').pc) ∧ (s'.conns c).done = true ∧
      s'.feed.lock = .free := by
  obtain ⟨f, hunlock, hfree⟩ := exists_unlocked { s with
    conns := Function.update s.conns c { s.conns c with done := true } }
  have hhang : s.step (.hangUp c) = some { s with
      conns := Function.update s.conns c { s.conns c with done := true } } := rfl
  refine ⟨_, (Winds.one hhang rfl).trans hunlock, rfl, rfl, apply_update_of_eq Conn.pc rfl, ?_, hfree⟩
  dsimp only
  rw [Function.update_self]

theorem exists_running (hw : s.watches id = some w) (hfree : s.feed.lock = .free)
    (hpc : w.pc ≠ .gone) :
    ∃ s' v, Winds s s' ∧ Stays id s s' ∧ s'.watches id = some v ∧ v.conn = w.conn ∧ v.Running := by
  by_cases hspawned : w.pc = .spawned
  · cases hr : s.register id w with
    | none =>
      rw [Sys.register, hfree, hspawned] at hr
      cases hr
    | some s' =>
      obtain ⟨_, _, hs'⟩ := register_eq hr
      have hstep : s.step (.register id) = some s' := by
        rw [Sys.step, hw, Option.bind_some, hr]
      refine ⟨s', { w with
        sub := s.feed.disp.nextID + 1
        boundary := s.feed.disp.latestRev
        pc := if w.startRevision ≤ s.feed.disp.latestRev then .seeking else .selecting },
        .one hstep rfl, ?_, ?_, rfl, ?_⟩
      · subst hs'
        exact ⟨rfl, fun id' hid' => Function.update_of_ne hid' .., rfl, rfl⟩
      · subst hs'
        exact Function.update_self ..
      · rw [Watch.Running]
        dsimp only
        split_ifs
        · exact ⟨by simp, by simp⟩
        · exact ⟨by simp, by simp⟩
  · exact ⟨s, w, .refl, ⟨rfl, fun _ _ => rfl, rfl, rfl⟩, hw, rfl, hspawned, hpc⟩

theorem exists_gone (hw : s.watches id = some w) (hfree : s.feed.lock = .free)
    (hpc : w.pc = .returning) (hnew : ∀ c, (s.conns c).pc.newID ≠ some id) :
    ∃ s', Winds s s' ∧ Only id s s' ∧ Gone s' id := by
  cases hr : s.finish id w with
  | none =>
    rw [Sys.finish, hfree, hpc] at hr
    cases hr
  | some s' =>
    obtain ⟨_, _, hs'⟩ := finish_eq hr
    have hstep : s.step (.finish id) = some s' := by
      rw [Sys.step, hw, Option.bind_some, hr]
    have hconn : ∀ c, (s'.conns c).pc = (s.conns c).pc := by
      subst hs'
      exact apply_update_of_eq Conn.pc rfl
    refine ⟨s', .one hstep rfl, ⟨?_, fun id' hid' => ?_, fun c id' _ h => ?_⟩, fun v hv => ?_,
      fun c => ?_⟩
    · subst hs'
      rfl
    · subst hs'
      exact Function.update_of_ne hid' ..
    · rw [← hconn c]
      exact h
    · subst hs'
      have hv : Function.update s.watches id _ id = some v := hv
      rw [Function.update_self] at hv
      cases hv
      rfl
    · rw [hconn c]
      exact hnew c

/-- **A watch can be ended**, if none with its ID is about to start. -/
theorem exists_ended (hw : s.watches id = some w) (hnew : ∀ c, (s.conns c).pc.newID ≠ some id) :
    ∃ s', Winds s s' ∧ Only id s s' ∧ Gone s' id := by
  by_cases hpc : w.pc = .gone
  · refine ⟨s, .refl, .refl id s, fun v hv => ?_, hnew⟩
    rw [hw] at hv
    cases hv
    exact hpc
  obtain ⟨s₁, hwind₁, hid₁, hwatches₁, hconns₁, hdone₁, hfree₁⟩ := exists_hungUp s w.conn
  have honly₁ : Only id s s₁ := by
    refine ⟨hid₁, fun id' _ => by rw [hwatches₁], fun c id' _ h => ?_⟩
    rw [← hconns₁ c]
    exact h
  have hw₁ : s₁.watches id = some w := by rw [hwatches₁, hw]
  obtain ⟨s₂, v, hwind₂, hstays₂, hw₂, hconn, hrun⟩ := exists_running hw₁ hfree₁ hpc
  have hdone₂ : (s₂.shared v).ctxDone = true := by
    show (v.cancelled || (s₂.conns v.conn).done) = true
    rw [hstays₂.conns, hconn, hdone₁, Bool.or_true]
  obtain ⟨s₃, hwind₃, hstays₃, hw₃⟩ := exists_returning hw₂ hdone₂ hrun
  have hstays := hstays₂.trans hstays₃
  have hfree₃ : s₃.feed.lock = .free := by rw [hstays.lock, hfree₁]
  have hnew₃ : ∀ c, (s₃.conns c).pc.newID ≠ some id := by
    intro c
    rw [hstays.conns, hconns₁ c]
    exact hnew c
  obtain ⟨s₄, hwind₄, honly₄, hgone⟩ := exists_gone hw₃ hfree₃ rfl hnew₃
  exact ⟨s₄, ((hwind₁.trans hwind₂).trans hwind₃).trans hwind₄,
    (honly₁.trans hstays.only).trans honly₄, hgone⟩

/-! ### All watches -/

theorem exists_confirmed (hwired : Wired s) {c : ℕ} {cr : WatchCreateRequest} {rev : ℤ}
    (hpc : (s.conns c).pc = .confirming id cr rev) :
    ∃ s' w, Winds s s' ∧ Only id s s' ∧ s'.watches id = some w ∧
      ∀ c', (s'.conns c').pc.newID ≠ some id := by
  set w : Watch := ⟨c, cr.key, cr.rangeEnd, effectiveStartRevision cr.startRevision rev, false, 0, 0,
    .spawned⟩ with hw
  have hstep : s.step (.confirm c false) = some ((s.setConn c .receiving).setWatch id w) := by
    rw [Sys.step, Sys.connStep, hpc]
    rfl
  -- the stream is at `Recv` again, the others are where they were
  have hconn : ∀ c', (((s.setConn c .receiving).setWatch id w).conns c').pc.newID =
      if c' = c then none else (s.conns c').pc.newID := by
    intro c'
    show (Function.update s.conns c _ c').pc.newID = _
    split_ifs with hc
    · subst hc
      rw [Function.update_self]
      rfl
    · rw [Function.update_of_ne hc]
  refine ⟨_, w, .one hstep rfl, ⟨rfl, fun id' hid' => Function.update_of_ne hid' .., ?_⟩,
    Function.update_self .., fun c' => ?_⟩
  · intro c' id' _ hnew
    rw [hconn] at hnew
    split_ifs at hnew with hc
    exact hnew
  · rw [hconn]
    split_ifs with hc
    · exact Option.some_ne_none id ∘ Eq.symm
    · exact fun hnew => hc (hwired.newID_inj c' c id hnew (by rw [hpc]; rfl))

theorem exists_started (hwired : Wired s) {c : ℕ} (hc : (s.conns c).pc.newID = some id) :
    ∃ s' w, Winds s s' ∧ Only id s s' ∧ s'.watches id = some w ∧
      ∀ c', (s'.conns c').pc.newID ≠ some id := by
  cases hpc : (s.conns c).pc with
  | confirming id' cr rev =>
    rw [hpc] at hc
    cases hc
    exact exists_confirmed hwired hpc
  | creating id' cr =>
    rw [hpc] at hc
    cases hc
    set s₁ := s.setConn c (.confirming id cr (Sys.currentRevision s.feed.stream)) with hs₁
    have hstep : s.step (.revision c true) = some s₁ := by
      rw [Sys.step, Sys.connStep, hpc]
      rfl
    have hpc₁ : (s₁.conns c).pc = .confirming id cr (Sys.currentRevision s.feed.stream) := by
      show (Function.update s.conns c _ c).pc = _
      rw [Function.update_self]
    have honly₁ : Only id s s₁ := by
      refine ⟨rfl, fun _ _ => rfl, fun c' id' hne hnew => ?_⟩
      by_cases hc' : c' = c
      · subst hc'
        rw [hpc₁] at hnew
        exact absurd (Option.some.inj hnew).symm hne
      · have hnew : (Function.update s.conns c _ c').pc.newID = some id' := hnew
        rw [Function.update_of_ne hc'] at hnew
        exact hnew
    obtain ⟨s', w, hwind, honly, hw, hnew⟩ :=
      exists_confirmed (hwired.change (step_change hstep)) hpc₁
    exact ⟨s', w, (Winds.one hstep rfl).trans hwind, honly₁.trans honly, hw, hnew⟩
  | receiving | canceling | progressing | closed =>
    rw [hpc] at hc
    cases hc

/-- For each ID the watch can be ended, and the others stay as they are. -/
theorem exists_settled (hwired : Wired s) (id : ℤ) :
    ∃ s', Winds s s' ∧ Only id s s' ∧ Gone s' id := by
  by_cases hnew : ∃ c, (s.conns c).pc.newID = some id
  · obtain ⟨c, hc⟩ := hnew
    obtain ⟨s₁, w, hwind₁, honly₁, hw, hnew₁⟩ := exists_started hwired hc
    obtain ⟨s₂, hwind₂, honly₂, hgone⟩ := exists_ended hw hnew₁
    exact ⟨s₂, hwind₁.trans hwind₂, honly₁.trans honly₂, hgone⟩
  · have hnew : ∀ c, (s.conns c).pc.newID ≠ some id := fun c hc => hnew ⟨c, hc⟩
    cases hw : s.watches id with
    | none =>
      refine ⟨s, .refl, .refl id s, fun w h => ?_, hnew⟩
      rw [hw] at h
      cases h
    | some w => exact exists_ended hw hnew

theorem Winds.wired (h : Winds s s') (hwired : Wired s) : Wired s' :=
  Reach.inv (I := Wired) hwired (fun _ _ _ hw hs _ => hw.change (step_change hs)) h.of_guarded

theorem exists_all_gone (hwired : Wired s) (n : ℕ) :
    ∃ s', Winds s s' ∧ s'.watchID = s.watchID ∧ ∀ id : ℤ, 1 ≤ id → id ≤ n → Gone s' id := by
  induction n with
  | zero => exact ⟨s, .refl, rfl, fun id h h' => by omega⟩
  | succ n ih =>
    obtain ⟨s₁, hwind₁, hid₁, hgone₁⟩ := ih
    obtain ⟨s₂, hwind₂, honly, hgone⟩ := exists_settled (hwind₁.wired hwired) (n + 1 : ℕ)
    refine ⟨s₂, hwind₁.trans hwind₂, honly.watchID.trans hid₁, fun id h h' => ?_⟩
    by_cases hid : id = (n + 1 : ℕ)
    · rw [hid]
      exact hgone
    · exact honly.gone hid (hgone₁ id h (by omega))

end Winding

structure Numbered (s : Sys) : Prop where
  watchID : 0 ≤ s.watchID
  watches : ∀ id w, s.watches id = some w → 1 ≤ id
  newID : ∀ c id, (s.conns c).pc.newID = some id → 1 ≤ id

theorem numbered_primed (l : List Event) (current raw : Except GoError ℤ) :
    Numbered (.primed l current raw) where
  watchID := le_rfl
  watches id w h := by cases h
  newID c id h := by cases h

theorem Numbered.change {s s' : Sys} (h : Numbered s) (hc : Change s s') : Numbered s' := by
  -- a watch that was there before, or the one that the step is about
  have hupdate : ∀ {id : ℤ} {w : Watch}, 1 ≤ id →
      ∀ id' v, Function.update s.watches id (some w) id' = some v → 1 ≤ id' := by
    intro id w hid id' v hv
    by_cases hne : id' = id
    · rw [hne]
      exact hid
    · rw [Function.update_of_ne hne] at hv
      exact h.watches id' v hv
  have hconns : ∀ {c : ℕ} {conn : Conn}, (∀ id, conn.pc.newID = some id → 1 ≤ id) →
      ∀ c' id, (Function.update s.conns c conn c').pc.newID = some id → 1 ≤ id := by
    intro c conn hconn c' id hnew
    by_cases hc : c' = c
    · subst hc
      rw [Function.update_self] at hnew
      exact hconn id hnew
    · rw [Function.update_of_ne hc] at hnew
      exact h.newID c' id hnew
  cases hc with
  | feed f hf => exact ⟨h.watchID, h.watches, h.newID⟩
  | conn c conn watchID watches out hw _ hid _ =>
    have hpos := h.watchID
    refine ⟨?_, fun id w hv => ?_, hconns fun id hnew => ?_⟩
    · rcases hid with ⟨rfl, _⟩ | ⟨rfl, _⟩
      · exact hpos
      · exact Int.add_nonneg hpos Int.one_nonneg
    · rcases hw id with heq | heq
      · exact h.watches id w (heq.symm.trans hv)
      · obtain ⟨v, hv, _⟩ := Option.map_eq_some_iff.mp (heq.symm.trans hv)
        exact h.watches id v hv
    · rcases hid with ⟨_, hnone | hsame⟩ | ⟨rfl, hnext⟩
      · rw [hnone] at hnew
        cases hnew
      · exact h.newID c id (hsame.symm.trans hnew)
      · rw [hnext, Option.some.injEq] at hnew
        omega
  | spawn c conn id w out hnew hpc _ _ _ =>
    refine ⟨h.watchID, hupdate (h.newID c id hnew), hconns fun id' hnew' => ?_⟩
    rw [hpc] at hnew'
    cases hnew'
  | register id w s' hw hr =>
    obtain ⟨_, _, rfl⟩ := register_eq hr
    exact ⟨h.watchID, hupdate (h.watches id w hw), h.newID⟩
  | finish id w s' hw hr =>
    obtain ⟨_, _, rfl⟩ := finish_eq hr
    exact ⟨h.watchID, hupdate (h.watches id w hw), hconns (h.newID w.conn)⟩
  | own id w pc ch out hw _ => exact ⟨h.watchID, hupdate (h.watches id w hw), h.newID⟩

/-- **The server can always be wound down.**  From every state that a run can reach, without another
request and without another write, steps of the server lead to a state in which every watch is gone,
the dispatcher has no subscriber and no stream has a cancel function. -/
theorem winds_down {l : List Event} {current raw : Except GoError ℤ} {s : Sys}
    (hs : Reach Sys.step (fun _ => True) (.primed l current raw) s) :
    ∃ s', Winds s s' ∧ (∀ id w, s'.watches id = some w → w.pc = .gone) ∧
      s'.feed.disp.subs = ∅ ∧ ∀ c, (s'.conns c).cancels = ∅ := by
  obtain ⟨s', hwind, hid, hgone⟩ := exists_all_gone (wired_of_primed hs) s.watchID.toNat
  have hs' := hs.trans hwind.of_guarded
  have hwired := wired_of_primed hs'
  have hnumbered : Numbered s' :=
    hs'.inv (I := Numbered) (numbered_primed l current raw)
      fun _ _ _ h hstep _ => h.change (step_change hstep)
  have hle : ∀ id, id ≤ s'.watchID → id ≤ s.watchID.toNat := by
    intro id h
    have := hnumbered.watchID
    rw [hid] at h this
    omega
  have hall : ∀ id w, s'.watches id = some w → w.pc = .gone := fun id w hw =>
    (hgone id (hnumbered.watches id w hw) (hle id (hwired.le_watchID id w hw))).1 w hw
  have hnone : ∀ c, (s'.conns c).pc.newID = none := by
    intro c
    cases hnew : (s'.conns c).pc.newID with
    | none => rfl
    | some id =>
      exact absurd hnew ((hgone id (hnumbered.newID c id hnew)
        (hle id (hwired.fresh c id hnew).1)).2 c)
  exact ⟨s', hwind, hall, (tidy_reach hs').empty hall hnone⟩

/-- In the middle of `ingest`, with a watch that runs and one that is about to start. -/
theorem midIngest_winds_down :
    ∃ s s', Reach Sys.step (fun _ => True) (.primed [] (.ok 1) (.ok 0)) s ∧
      s.feed.lock ≠ .free ∧ s.feed.disp.subs = {1} ∧ (s.conns 0).pc.newID = some 2 ∧
      Winds s s' ∧ s'.feed.disp.subs = ∅ ∧ (s'.conns 0).cancels = ∅ := by
  obtain ⟨s, hs, hp⟩ := exists_of_run Sys.step (fun _ => True) (.primed [] (.ok 1) (.ok 0)) midIngest
    (fun s => decide (s.feed.lock ≠ .free ∧ s.feed.disp.subs = {1} ∧
      (s.conns 0).pc.newID = some 2)) (by decide +kernel)
  obtain ⟨hlock, hsubs, hnew⟩ := of_decide_eq_true hp
  obtain ⟨s', hwinds, _, hempty, hcancels⟩ := winds_down hs
  exact ⟨s, s', hs, hlock, hsubs, hnew, hwinds, hempty, hcancels 0⟩

end REtcd.Server
