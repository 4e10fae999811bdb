import REtcd.Base.Machine
import REtcd.Server.Change

/-!
# What one watch sees

A watch sees little of the system: the stream, what the dispatcher has released, its own
subscription, and the responses with its own ID.  `View` collects this, and `View.Step` lists what
can happen to it.  `step_view` says that every step of the system is one of these for every watch,
so that a property of one watch is proved from `View.Step` alone (`view_inv`).
-/

namespace REtcd.Server

open Base Store

/-- The event that is being released and that the subscriber `k` is still to get. -/
def Lock.owed (lock : Lock) (k : ℕ) : Option Event :=
  match lock with
  | .fan ev todo _ => if k ∈ todo then some ev else none
  | _ => none

/-- What one watch sees. `listed` says that the dispatcher still has its subscription. -/
structure View where
  stream : List Event
  released : List Event
  latestRev : ℤ
  checkpoints : List Checkpoint
  w : Watch
  sub : WatchSub
  listed : Bool
  owed : Option Event
  sent : List WatchResponse

def Sys.view (s : Sys) (id : ℤ) (w : Watch) : View where
  stream := s.feed.stream
  released := s.feed.released
  latestRev := s.feed.disp.latestRev
  checkpoints := s.feed.disp.checkpoints
  w := w
  sub := s.feed.disp.sub w.sub
  listed := decide (w.sub ∈ s.feed.disp.subs)
  owed := s.feed.lock.owed w.sub
  sent := s.sentTo id

namespace View

inductive Step (id : ℤ) : View → View → Prop
  | idle (v : View) : Step id v v
  | commit (v : View) (ev : Event) : Feed.Appends v.stream ev →
      Step id v { v with stream := v.stream ++ [ev] }
  | release (v : View) (ev : Event) (cks : List Checkpoint) : v.owed = none →
      Step id v { v with
        released := v.released ++ [ev]
        latestRev := if v.latestRev < ev.rev then ev.rev else v.latestRev
        checkpoints := cks
        owed := if v.listed then some ev else none }
  /-- The released event is not in the range of the watch. -/
  | pass (v : View) (ev : Event) : v.owed = some ev →
      matchesWatch ev.key v.sub.key v.sub.rangeEnd = false → Step id v { v with owed := none }
  | deliver (v : View) (ev : Event) : v.owed = some ev →
      matchesWatch ev.key v.sub.key v.sub.rangeEnd = true → v.sub.ch.length < subChanBuffer →
      Step id v { v with owed := none, sub := { v.sub with ch := v.sub.ch ++ [ev] } }
  /-- The watch is cut loose. -/
  | cut (v : View) (ev : Event) : v.owed = some ev →
      matchesWatch ev.key v.sub.key v.sub.rangeEnd = true → ¬ v.sub.ch.length < subChanBuffer →
      Step id v { v with owed := none, listed := false, sub := { v.sub with cancelled := true } }
  | register (v : View) (k : ℕ) : v.w.pc = .spawned →
      Step id v { v with
        w := { v.w with
          sub := k
          boundary := v.latestRev
          pc := if v.w.startRevision ≤ v.latestRev then .seeking else .selecting }
        sub := ⟨v.w.key, v.w.rangeEnd, [], false⟩
        listed := true
        owed := none }
  /-- A step of the watch itself. -/
  | own (v : View) (ctxDone : Bool) (pc : Pc) (ch : List Event) (out : List WatchResponse) :
      v.w.Move ⟨v.stream, v.latestRev, v.checkpoints, ctxDone⟩ id v.sub pc ch out →
      Step id v { v with
        w := { v.w with pc := pc }
        sub := { v.sub with ch := ch }
        sent := v.sent ++ out }
  | finish (v : View) : v.w.pc = .returning → v.owed = none →
      Step id v { v with w := { v.w with cancelled := true, pc := .gone }, listed := false }
  /-- The stream sends responses with the ID of the watch, which have no events; it may call the
  cancel function of the watch. -/
  | reply (v : View) (out : List WatchResponse) (cancelled : Bool) : (∀ r ∈ out, r.events = []) →
      Step id v { v with w := { v.w with cancelled := cancelled }, sent := v.sent ++ out }

end View

section Steps

variable {s s' : Sys}

theorem sentTo_append (s : Sys) (id : ℤ) (c : ℕ) (out : List WatchResponse) :
    { s with sent := s.sent ++ out.map (c, ·) }.sentTo id =
      s.sentTo id ++ out.filter (·.watchId = id) := by
  rw [Sys.sentTo, Sys.sentTo, List.map_append, List.filter_append, List.map_map]
  congr 2
  exact List.map_id out

theorem deliver_view {k : ℕ} {ev : Event} {todo : Finset ℕ} {caller : Caller}
    (hl : s.feed.lock = .fan ev todo caller) (hk : k ∈ todo) (id : ℤ) (w : Watch) :
    View.Step id (s.view id w)
      ({ s with feed := { s.feed with
        disp := s.feed.disp.deliver ev k
        lock := .fan ev (todo.erase k) caller } }.view id w) := by
  by_cases hkw : k = w.sub
  · subst hkw
    have howed : (s.view id w).owed = some ev := by simp [Sys.view, hl, Lock.owed, hk]
    rw [Dispatcher.deliver]
    split_ifs with hm hroom
    · simpa [Sys.view, Sys.sentTo, Lock.owed] using
        @View.Step.deliver id (s.view id w) ev howed hm hroom
    · simpa [Sys.view, Sys.sentTo, Lock.owed] using
        @View.Step.cut id (s.view id w) ev howed hm hroom
    · simpa [Sys.view, Sys.sentTo, Lock.owed] using
        @View.Step.pass id (s.view id w) ev howed (Bool.eq_false_iff.mpr hm)
  · have hsub : (s.feed.disp.deliver ev k).sub w.sub = s.feed.disp.sub w.sub ∧
        (w.sub ∈ (s.feed.disp.deliver ev k).subs ↔ w.sub ∈ s.feed.disp.subs) := by
      rw [Dispatcher.deliver]
      split_ifs
      · exact ⟨Function.update_of_ne (Ne.symm hkw) _ _, Iff.rfl⟩
      · refine ⟨Function.update_of_ne (Ne.symm hkw) _ _, ?_⟩
        rw [Finset.mem_erase]
        exact ⟨And.right, fun h => ⟨Ne.symm hkw, h⟩⟩
      · exact ⟨rfl, Iff.rfl⟩
    have hcks : (s.feed.disp.deliver ev k).latestRev = s.feed.disp.latestRev ∧
        (s.feed.disp.deliver ev k).checkpoints = s.feed.disp.checkpoints := by
      obtain ⟨subs, sub, heq⟩ := Dispatcher.deliver_eq ev k s.feed.disp
      rw [heq]
      exact ⟨rfl, rfl⟩
    have hsame : ({ s with feed := { s.feed with
        disp := s.feed.disp.deliver ev k
        lock := .fan ev (todo.erase k) caller } }.view id w) = s.view id w := by
      simp [Sys.view, Sys.sentTo, Lock.owed, hl, hsub, hcks, Ne.symm hkw]
    rw [hsame]
    exact .idle _

theorem release_view (s : Sys) (id : ℤ) (w : Watch) (r : ℤ) (ev : Event) (caller : Caller)
    (howed : s.feed.lock.owed w.sub = none) :
    View.Step id (s.view id w) ({ s with feed := s.feed.release r ev caller }.view id w) := by
  obtain ⟨n, cks, heq, _⟩ :=
    Dispatcher.release_eq ev { s.feed.disp with pending := s.feed.disp.pending.erase r }
  have := @View.Step.release id (s.view id w) ev cks howed
  rw [Feed.release, heq]
  by_cases hk : w.sub ∈ s.feed.disp.subs
  · simpa [Sys.view, Sys.sentTo, Lock.owed, hk] using this
  · simpa [Sys.view, Sys.sentTo, Lock.owed, hk] using this

theorem feed_view {f : Feed} (h : FeedStep s.feed f) (id : ℤ) (w : Watch) :
    View.Step id (s.view id w) ({ s with feed := f }.view id w) := by
  have hidle : { s with feed := f }.view id w = s.view id w →
      View.Step id (s.view id w) ({ s with feed := f }.view id w) := by
    intro he
    rw [he]
    exact .idle _
  rcases h with ⟨ev, h⟩ | ⟨ev, h⟩ | ⟨ev, h⟩ | ⟨k, h⟩
  · obtain ⟨ha, rfl⟩ := Feed.commit_iff.mp h
    exact .commit (s.view id w) ev ha
  · obtain ⟨_, rfl⟩ := Feed.lose_iff.mp h
    exact hidle rfl
  · obtain ⟨hl, _, ⟨_, rfl⟩ | ⟨d, hd, rfl⟩⟩ := Feed.ingest_iff.mp h
    · exact hidle rfl
    · rw [Dispatcher.hold] at hd
      dsimp only at hd
      split_ifs at hd <;> cases hd <;> refine hidle ?_ <;>
        simp [Sys.view, Sys.sentTo, hl, Lock.owed]
  · -- only a release and a delivery show; where else the lock stands, nothing is owed
    cases Feed.dispatch_iff.mp h with
    | drained ev hl _ => exact release_view s id w _ ev _ (by rw [hl]; rfl)
    | flushed ev r revs last hl _ => exact release_view s id w r ev _ (by rw [hl]; rfl)
    | deliver ev todo caller hl hk => exact deliver_view hl hk id w
    | flush hl _ _ => exact hidle (by simp [Sys.view, Sys.sentTo, hl, Lock.owed, Feed.flush])
    | unlock hl _ _ => exact hidle (by simp [Sys.view, Sys.sentTo, hl, Lock.owed])
    | next ev hl => exact hidle (by simp [Sys.view, Sys.sentTo, hl, Lock.owed])
    | resume ev revs last hl => exact hidle (by simp [Sys.view, Sys.sentTo, hl, Lock.owed])
    | skip r revs last hl _ => exact hidle (by simp [Sys.view, Sys.sentTo, hl, Lock.owed])
    | done last hl => exact hidle (by simp [Sys.view, Sys.sentTo, hl, Lock.owed])

theorem View.Step.stream {id : ℤ} {v v' : View} (h : View.Step id v v') :
    v'.stream = v.stream ∨
      ∃ ev, Feed.Appends v.stream ev ∧ v'.stream = v.stream ++ [ev] := by
  cases h with
  | commit ev ha => exact Or.inr ⟨ev, ha, rfl⟩
  | _ => exact Or.inl rfl

theorem Change.stream (h : Change s s') :
    s'.feed.stream = s.feed.stream ∨
      ∃ ev, Feed.Appends s.feed.stream ev ∧ s'.feed.stream = s.feed.stream ++ [ev] := by
  rcases h.feed_cases with hf | ⟨subs, sub, nextID, heq⟩
  · -- as any watch sees it
    exact (feed_view hf 0 ⟨0, [], [], 0, false, 0, 0, .gone⟩).stream
  · rw [heq]
    exact Or.inl rfl

/-- **Every step of the system is a step of every watch's view.** -/
theorem step_view (h : Wired s) (hc : Change s s') {id : ℤ} {w : Watch}
    (hw : s.watches id = some w) :
    ∃ w', s'.watches id = some w' ∧ View.Step id (s.view id w) (s'.view id w') := by
  have hidle : ∀ v, s'.view id v = s.view id v → View.Step id (s.view id v) (s'.view id v) := by
    intro v he
    rw [he]
    exact .idle _
  cases hc with
  | feed f hf => exact ⟨w, hw, feed_view hf id w⟩
  | conn c conn watchID watches out hwatches hout hid _ =>
    have hfilter : ∀ r ∈ out.filter (·.watchId = id), r.events = [] :=
      fun r hr => (hout r (List.mem_filter.mp hr).1).1
    have hsent := sentTo_append s id c out
    rcases hwatches id with he | he
    · refine ⟨w, he.trans hw, ?_⟩
      have := @View.Step.reply id (s.view id w) _ w.cancelled hfilter
      rw [Sys.view, ← hsent] at this
      exact this
    · rw [hw] at he
      refine ⟨_, he, ?_⟩
      have := @View.Step.reply id (s.view id w) _ true hfilter
      rw [Sys.view, ← hsent] at this
      exact this
  | spawn c conn id' w' out hnew hconn hpc hsub hout =>
    have hne : id ≠ id' := by
      rintro rfl
      rw [(h.fresh c id hnew).2] at hw
      cases hw
    refine ⟨w, (Function.update_of_ne hne _ _).trans hw, ?_⟩
    have := @View.Step.reply id (s.view id w) (out.filter (·.watchId = id)) w.cancelled
      fun r hr => (hout r (List.mem_filter.mp hr).1).1
    rw [Sys.view, ← sentTo_append s id c out] at this
    exact this
  | register id' w' s' hw' hr =>
    obtain ⟨hl, hpc, rfl⟩ := register_eq hr
    by_cases hid : id = id'
    · subst hid
      rw [hw, Option.some.injEq] at hw'
      subst hw'
      refine ⟨_, Function.update_self .., ?_⟩
      have := @View.Step.register id (s.view id w) (s.feed.disp.nextID + 1) hpc
      simpa [Sys.view, Sys.sentTo, Sys.setWatch, Dispatcher.register, hl, Lock.owed] using this
    · refine ⟨w, (Function.update_of_ne hid _ _).trans hw, ?_⟩
      have hne : w.sub ≠ s.feed.disp.nextID + 1 := by
        have := h.le_nextID id w hw
        omega
      refine hidle w ?_
      simp [Sys.view, Sys.sentTo, Sys.setWatch, Dispatcher.register, hne]
  | finish id' w' s' hw' hr =>
    obtain ⟨hl, hpc, rfl⟩ := finish_eq hr
    by_cases hid : id = id'
    · subst hid
      rw [hw, Option.some.injEq] at hw'
      subst hw'
      refine ⟨_, Function.update_self .., ?_⟩
      have := @View.Step.finish id (s.view id w) hpc (by simp [Sys.view, hl, Lock.owed])
      simpa [Sys.view, Sys.sentTo, Sys.setWatch, Dispatcher.deregister] using this
    · refine ⟨w, (Function.update_of_ne hid _ _).trans hw, ?_⟩
      have hsub : w'.sub ≠ 0 := by
        intro h0
        rw [(h.spawned id' w' hw').mpr h0] at hpc
        cases hpc
      have hne : w.sub ≠ w'.sub := fun he => hid (h.sub_inj id id' w w' hw hw' he (he ▸ hsub))
      refine hidle w ?_
      simp [Sys.view, Sys.sentTo, Sys.setWatch, Dispatcher.deregister, hne]
  | own id' w' pc ch out hw' hm =>
    have hout : ∀ r ∈ out, r.watchId = id' := by
      intro r hr
      rcases hm.out_cases with rfl | ⟨resp, next, hp, rfl⟩
      · cases hr
      · rw [List.mem_singleton.mp hr]
        exact h.sending id' w' resp next hw' hp
    by_cases hid : id = id'
    · subst hid
      rw [hw, Option.some.injEq] at hw'
      subst hw'
      refine ⟨_, Function.update_self .., ?_⟩
      have hall : out.filter (·.watchId = id) = out :=
        List.filter_eq_self.mpr fun r hr => by simpa using hout r hr
      have := @View.Step.own id (s.view id w) _ pc ch out hm
      rw [← hall] at this
      simpa [Sys.view, Sys.sentTo] using this
    · refine ⟨w, (Function.update_of_ne hid _ _).trans hw, ?_⟩
      have hsub : w'.sub ≠ 0 := fun h0 => hm.ne_spawned.1 ((h.spawned id' w' hw').mpr h0)
      have hne : w.sub ≠ w'.sub := fun he => hid (h.sub_inj id id' w w' hw hw' he (he ▸ hsub))
      have hnone : out.filter (·.watchId = id) = [] := by
        refine List.filter_eq_nil_iff.mpr fun r hr => ?_
        rw [hout r hr]
        simpa using Ne.symm hid
      refine hidle w ?_
      have := sentTo_append s id w'.conn out
      rw [hnone, List.append_nil] at this
      rw [Sys.view, Sys.view, View.mk.injEq]
      exact ⟨rfl, rfl, rfl, rfl, rfl, Function.update_of_ne hne _ _, rfl, rfl, this⟩

theorem Wired.sentTo_of_none (h : Wired s) {id : ℤ} (hnone : s.watches id = none) :
    ∀ r ∈ s.sentTo id, r.events = [] := by
  intro r hr
  rw [Sys.sentTo, List.mem_filter, List.mem_map] at hr
  obtain ⟨⟨x, hx, rfl⟩, hid⟩ := hr
  by_contra hne
  exact h.events x hx hne (by rw [of_decide_eq_true hid]; exact hnone)

theorem new_view (h : Wired s) (hc : Change s s') {id : ℤ} {w : Watch}
    (hnone : s.watches id = none) (hw : s'.watches id = some w) :
    w.pc = .spawned ∧ ∀ r ∈ s'.sentTo id, r.events = [] := by
  have hold := h.sentTo_of_none hnone
  have hupdate : ∀ {id' : ℤ} {v v' : Watch}, s.watches id' = some v →
      Function.update s.watches id' (some v') id ≠ some w := by
    intro id' v v' hv he
    rcases update_eq_some he with ⟨rfl, _⟩ | ⟨_, he⟩
    · rw [hv] at hnone
      cases hnone
    · rw [he] at hnone
      cases hnone
  cases hc with
  | feed f hf =>
    rw [hnone] at hw
    cases hw
  | conn c conn watchID watches out hwatches hout hid _ =>
    dsimp only at hw
    rcases hwatches id with he | he <;> rw [he, hnone] at hw <;> cases hw
  | spawn c conn id' w' out hnew hconn hpc hsub hout =>
    rcases update_eq_some hw with ⟨rfl, rfl⟩ | ⟨_, hw⟩
    · refine ⟨hpc, fun r hr => ?_⟩
      have hr : r ∈ s.sentTo id ++ out.filter (·.watchId = id) := by
        rw [← sentTo_append s id c out]
        exact hr
      rcases List.mem_append.mp hr with hr | hr
      · exact hold r hr
      · exact (hout r (List.mem_filter.mp hr).1).1
    · rw [hw] at hnone
      cases hnone
  | register id' w' s' hw' hr =>
    obtain ⟨_, _, rfl⟩ := register_eq hr
    exact absurd hw (hupdate hw')
  | finish id' w' s' hw' hr =>
    obtain ⟨_, _, rfl⟩ := finish_eq hr
    exact absurd hw (hupdate hw')
  | own id' w' pc ch out hw' hm => exact absurd hw (hupdate hw')

end Steps

/-! ### Runs -/

section Runs

variable {ok : Sys → Prop} {s : Sys}

theorem wired_primed (l : List Event) (current raw : Except GoError ℤ) :
    Wired (.primed l current raw) :=
  ⟨fun _ _ h => (nomatch h), fun _ _ h => (nomatch h), fun _ _ _ h => (nomatch h),
    fun _ _ h => (nomatch h), fun _ _ h => (nomatch h), fun _ _ _ _ h => (nomatch h),
    fun _ _ _ _ h => (nomatch h), fun _ h => (nomatch h)⟩

/-- The invariant of the feed is kept by every step. -/
theorem FeedInv.change {N : ℤ} {s' : Sys} (h : FeedInv N s.feed) (hc : Change s s') :
    FeedInv N s'.feed := by
  rcases hc.feed_cases with (⟨ev, hf⟩ | ⟨ev, hf⟩ | ⟨ev, hf⟩ | ⟨id, hf⟩) | ⟨subs, sub, nextID, heq⟩
  · exact h.commit hf
  · exact h.lose hf
  · exact h.ingest hf
  · exact h.dispatch hf
  · rw [heq]
    exact h.resub subs sub nextID

theorem start_nextRev (l : List Event) : (Sys.start l).feed.disp.nextRev = l.length + 1 := by
  change (if (l.length : ℤ) + 1 < 1 then 1 else (l.length : ℤ) + 1) = _
  rw [if_neg (by omega)]

theorem start_latestRev (l : List Event) :
    (Sys.start l).feed.disp.latestRev = max 1 (l.length : ℤ) := by
  change (if Sys.currentRevision l < 1 then 1 else Sys.currentRevision l) = _
  rw [Sys.currentRevision]
  split_ifs <;> omega

theorem feedInv_start {l : List Event} (hl : Logged l) : FeedInv l.length (Sys.start l).feed := by
  have hnext := start_nextRev l
  have hinv : FeedInv ((Sys.start l).feed.disp.nextRev - 1) (Sys.start l).feed := by
    refine feedInv_new hl (by omega) (by omega) (fun e he hle => ?_) (fun r => rfl) rfl ?_
    · have hrev := (hl.revs e he).2
      change (Sys.start l).feed.disp.nextRev ≤ e.rev at hle
      omega
    · rw [start_latestRev, hnext, add_sub_cancel_right]
  rwa [hnext, add_sub_cancel_right] at hinv

theorem wired_of_primed {l : List Event} {current raw : Except GoError ℤ}
    (h : Reach Sys.step ok (.primed l current raw) s) : Wired s :=
  h.inv (wired_primed l current raw) fun _ _ _ hw hs _ => hw.change (step_change hs)

theorem wired_reach {l : List Event} (h : Reach Sys.step ok (.start l) s) : Wired s :=
  wired_of_primed h

theorem feedInv_reach {l : List Event} (hl : Logged l) (h : Reach Sys.step ok (.start l) s) :
    FeedInv l.length s.feed :=
  h.inv (I := fun s => FeedInv l.length s.feed) (feedInv_start hl)
    fun _ _ _ hf hs _ => hf.change (step_change hs)

/-- What a watch may rely on: the stream is a log, the released events are ascending events of it
up to `latestRev`, the one that is owed is the last of them, and the checkpoints are entries of the
stream. -/
structure View.Fed (N : ℤ) (v : View) : Prop where
  logged : Logged v.stream
  base : N ≤ v.latestRev
  released : ∀ e ∈ v.released, e ∈ v.stream ∧ N < e.rev ∧ e.rev ≤ v.latestRev
  ascending : Ascending Event.rev v.released
  owed : ∀ ev, v.owed = some ev → ev ∈ v.released ∧ ∀ e ∈ v.released, e.rev ≤ ev.rev
  pos : 1 ≤ v.latestRev
  checkpoint : ∀ ck ∈ v.checkpoints, ∃ e ∈ v.stream, e.rev = ck.rev ∧ ck.id ∈ e.id
  checkpoints : Ascending Checkpoint.rev v.checkpoints

theorem FeedCore.mem_released {N : ℤ} {f : Feed} (h : FeedCore N f) {e : Event} :
    e ∈ f.released ↔ e ∈ f.stream ∧ N < e.rev ∧ e.rev ∉ f.skipped ∧ e.rev ≤ f.frontier := by
  rw [h.released]
  simp [Feed.live, and_assoc]

theorem FeedInv.fan {N : ℤ} {f : Feed} (h : FeedInv N f) {ev : Event} {todo : Finset ℕ}
    {caller : Caller} (hl : f.lock = .fan ev todo caller) : ev ∈ f.released ∧ ev.rev = f.frontier := by
  have hlock := h.lock
  rw [LockInv, hl] at hlock
  cases caller with
  | drain => exact hlock.2.2
  | flush revs last => exact hlock.2

theorem FeedInv.fed {N : ℤ} (h : FeedInv N s.feed) (id : ℤ) (w : Watch) : (s.view id w).Fed N := by
  have hfr : ∀ e ∈ s.feed.released, e.rev ≤ s.feed.frontier :=
    fun e he => (h.toFeedCore.mem_released.mp he).2.2.2
  refine ⟨h.logged, ?_, ?_, ?_, ?_, ?_, h.checkpoint, h.checkpoints⟩
  · change N ≤ s.feed.disp.latestRev
    have := h.above
    rw [h.latest]
    omega
  · intro e he
    obtain ⟨hs, hN, _, hle⟩ := h.toFeedCore.mem_released.mp he
    refine ⟨hs, hN, ?_⟩
    change e.rev ≤ s.feed.disp.latestRev
    rw [h.latest]
    omega
  · change Ascending Event.rev s.feed.released
    rw [h.released]
    exact h.logged.ascending.filter _
  · intro ev hev
    change s.feed.lock.owed w.sub = some ev at hev
    unfold Lock.owed at hev
    split at hev
    · rename_i ev' todo caller hl
      split_ifs at hev
      cases hev
      obtain ⟨hmem, hrev⟩ := h.fan hl
      exact ⟨hmem, fun e he => hrev ▸ hfr e he⟩
    · cases hev
  · change 1 ≤ s.feed.disp.latestRev
    rw [h.latest]
    omega

/-- **Invariants of one watch**: what holds of a watch that has sent no events and is kept by the
steps of its view, of those that lead to where `ok` holds, holds of the watch all along.  `J` is an
invariant of the system that these steps may rely on. -/
theorem view_run {step : Sys → Act → Option Sys}
    (hsub : ∀ s a s', step s a = some s' → s.step a = some s') {J : Sys → Prop}
    (hJ : ∀ s a s', Wired s → J s → step s a = some s' → J s') {s₀ : Sys} {id : ℤ} (hwired : Wired s₀)
    (h₀ : J s₀) (hnone : s₀.watches id = none) {P : View → Prop}
    (hnew : ∀ (s : Sys) (w : Watch), J s → s.watches id = some w → w.pc = .spawned →
      (∀ r ∈ s.sentTo id, r.events = []) → P (s.view id w))
    (hstep : ∀ (s s' : Sys) (w w' : Watch), J s → J s' → ok s' → s.watches id = some w →
      s'.watches id = some w' → P (s.view id w) → View.Step id (s.view id w) (s'.view id w') →
      P (s'.view id w'))
    (h : Reach step ok s₀ s) : ∀ w, s.watches id = some w → P (s.view id w) := by
  have hinv := h.inv (I := fun s => Wired s ∧ J s ∧ ∀ w, s.watches id = some w → P (s.view id w))
    ⟨hwired, h₀, fun w hw => by rw [hnone] at hw; cases hw⟩ ?_
  · exact hinv.2.2
  · rintro s a s' ⟨hwired, hj, ih⟩ hs hok
    have hc := step_change (hsub s a s' hs)
    have hj' := hJ s a s' hwired hj hs
    refine ⟨hwired.change hc, hj', fun w' hw' => ?_⟩
    cases hw : s.watches id with
    | none =>
      obtain ⟨hpc, hsent⟩ := new_view hwired hc hw hw'
      exact hnew s' w' hj' hw' hpc hsent
    | some w =>
      obtain ⟨v, hv, hview⟩ := step_view hwired hc hw
      rw [hw', Option.some.injEq] at hv
      subst hv
      exact hstep s s' w w' hj hj' hok hw hw' (ih w hw) hview

/-- What holds of a watch that has sent no events and is kept by the steps of its view holds of
every watch all along. -/
theorem view_inv {l : List Event} (hl : Logged l) {P : ℤ → View → Prop}
    (hnew : ∀ id v, v.Fed l.length → v.w.pc = .spawned → (∀ r ∈ v.sent, r.events = []) → P id v)
    (hstep : ∀ id v v', v.Fed l.length → v'.Fed l.length → P id v → View.Step id v v' → P id v')
    (h : Reach Sys.step ok (.start l) s) : ∀ id w, s.watches id = some w → P id (s.view id w) := by
  intro id
  refine view_run (fun _ _ _ hs => hs) (J := fun s => FeedInv l.length s.feed) ?_
    (wired_primed l _ _) (feedInv_start hl) rfl ?_ ?_ h
  · exact fun _ _ _ _ hf hs => hf.change (step_change hs)
  · exact fun s w hf _ hpc hsent => hnew id _ (hf.fed id w) hpc hsent
  · exact fun s s' w w' hf hf' _ _ _ hv hs => hstep id _ _ (hf.fed id w) (hf'.fed id w') hv hs

end Runs

end REtcd.Server
