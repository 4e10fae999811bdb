import REtcd.Base.Reorder
import REtcd.Server.Watch

/-!
# What the dispatcher releases

`Logged l`: the stream `l` was written by committing scripts, so its revisions are 1, 2, 3, ... and
its IDs ascend with them.  `FeedInv N f` holds in every feed that starts with the first `N`
revisions released: the dispatcher has released exactly the events above `N` up to its frontier,
in order, except the ones a flush has given up (`released`), and every event above the frontier is
held back or still with its writer (`cover`).

`Feed.Turn` lists what a step of the holder of the dispatcher's lock can be (`Feed.dispatch_iff`), so
that no proof has to take `Feed.dispatch` apart again.
-/

namespace REtcd.Server

open Base Store

/-! ### Streams -/

/-- A stream that committing scripts have written. -/
inductive Logged : List Event → Prop
  | nil : Logged []
  | commit {l : List Event} {ev : Event} : Logged l → Feed.Appends l ev → Logged (l ++ [ev])

theorem Feed.Appends.proto_rev {l : List Event} {ev : Event} (h : Feed.Appends l ev) :
    (eventToProto ev).rev = ev.rev := by
  rw [eventToProto, ProtoEvent.rev]
  split
  · rename_i hput
    rw [h.2.2 hput]
    rfl
  · rfl

namespace Logged

variable {l : List Event}

theorem revs (h : Logged l) : ∀ e ∈ l, 1 ≤ e.rev ∧ e.rev ≤ l.length := by
  induction h with
  | nil => exact fun e he => nomatch he
  | @commit l ev _ ha ih =>
    intro e he
    rw [List.length_append, List.length_singleton]
    push_cast
    rcases List.mem_append.mp he with he | he
    · have := ih e he
      omega
    · rw [List.mem_singleton.mp he, ha.1]
      omega

theorem ascending (h : Logged l) : Ascending Event.rev l := by
  induction h with
  | nil => exact List.Pairwise.nil
  | commit hl ha ih =>
    refine ascending_concat.mpr ⟨ih, fun e he => ?_⟩
    have := (hl.revs e he).2
    rw [ha.1]
    omega

theorem exists_rev (h : Logged l) : ∀ r : ℤ, 1 ≤ r → r ≤ l.length → ∃ e ∈ l, e.rev = r := by
  induction h with
  | nil =>
    intro r h1 h2
    rw [List.length_nil] at h2
    omega
  | @commit l ev _ ha ih =>
    intro r h1 h2
    rw [List.length_append, List.length_singleton] at h2
    by_cases hr : r = l.length + 1
    · exact ⟨ev, by simp, ha.1.trans hr.symm⟩
    · obtain ⟨e, he, her⟩ := ih r h1 (by omega)
      exact ⟨e, by simp [he], her⟩

theorem id_pos (h : Logged l) : ∀ e ∈ l, ∃ i ∈ e.id, StreamID.zero < i := by
  induction h with
  | nil => exact fun e he => nomatch he
  | commit _ ha ih =>
    intro e he
    rcases List.mem_append.mp he with he | he
    · exact ih e he
    · obtain ⟨i, hi, hpos, _⟩ := ha.2.1
      rw [List.mem_singleton.mp he]
      exact ⟨i, hi, hpos⟩

theorem id_lt (h : Logged l) : ∀ a ∈ l, ∀ b ∈ l, a.rev < b.rev → ∀ i ∈ a.id, ∀ j ∈ b.id, i < j := by
  induction h with
  | nil => exact fun a ha => nomatch ha
  | @commit l ev hl hev ih =>
    intro a ha b hb hlt i hi j hj
    rcases List.mem_append.mp hb with hbl | hb
    · rcases List.mem_append.mp ha with ha | ha
      · exact ih a ha b hbl hlt i hi j hj
      · have := (hl.revs b hbl).2
        rw [List.mem_singleton.mp ha, hev.1] at hlt
        omega
    · rw [List.mem_singleton.mp hb] at hlt hj
      rcases List.mem_append.mp ha with ha | ha
      · obtain ⟨k, hk, _, hall⟩ := hev.2.1
        rw [Option.mem_unique hj hk]
        exact hall a ha i hi
      · rw [List.mem_singleton.mp ha] at hlt
        exact absurd hlt (lt_irrefl _)

theorem proto_rev (h : Logged l) : ∀ e ∈ l, (eventToProto e).rev = e.rev := by
  induction h with
  | nil => exact fun e he => nomatch he
  | commit _ ha ih =>
    intro e he
    rcases List.mem_append.mp he with he | he
    · exact ih e he
    · rw [List.mem_singleton.mp he]
      exact ha.proto_rev

end Logged

/-! ### What a step can be -/

namespace Feed

variable {f f' : Feed} {ev : Event}

theorem commit_iff : f.commit ev = some f' ↔ Appends f.stream ev ∧
    f' = { f with stream := f.stream ++ [ev], inflight := ev :: f.inflight } := by
  rw [commit, Option.ite_none_right_eq_some, Option.some.injEq, eq_comm]

theorem lose_iff : f.lose ev = some f' ↔ ev ∈ f.inflight ∧
    f' = { f with inflight := f.inflight.erase ev, lost := ev :: f.lost } := by
  rw [lose, Option.ite_none_right_eq_some, Option.some.injEq, eq_comm]

theorem ingest_iff : f.ingest ev = some f' ↔ f.lock = .free ∧ ev ∈ f.inflight ∧
    (f.disp.hold ev = none ∧ f' = { f with inflight := f.inflight.erase ev } ∨
      ∃ d, f.disp.hold ev = some d ∧
        f' = { f with inflight := f.inflight.erase ev, disp := d, lock := .drain }) := by
  unfold ingest
  cases hl : f.lock with
  | free =>
    rw [Option.ite_none_right_eq_some]
    cases f.disp.hold ev with
    | none => simp [eq_comm]
    | some d => simp [eq_comm]
  | _ => simp

inductive Turn (f : Feed) (id : ℕ) : Feed → Prop
  | drained (ev : Event) : f.lock = .drain → f.disp.pending[f.disp.nextRev]? = some ev →
      Turn f id (f.release f.disp.nextRev ev .drain)
  | flush : f.lock = .drain → f.disp.pending[f.disp.nextRev]? = none →
      maxPendingEvents < f.disp.pending.size → Turn f id f.flush
  | unlock : f.lock = .drain → f.disp.pending[f.disp.nextRev]? = none →
      ¬ maxPendingEvents < f.disp.pending.size → Turn f id { f with lock := .free }
  | next (ev : Event) : f.lock = .fan ev ∅ .drain → Turn f id
      { f with disp := { f.disp with nextRev := f.disp.nextRev + 1 }, lock := .drain }
  | resume (ev : Event) (revs : List ℤ) (last : ℤ) : f.lock = .fan ev ∅ (.flush revs last) →
      Turn f id { f with lock := .flush revs last }
  | deliver (ev : Event) (todo : Finset ℕ) (caller : Caller) : f.lock = .fan ev todo caller →
      id ∈ todo → Turn f id
        { f with disp := f.disp.deliver ev id, lock := .fan ev (todo.erase id) caller }
  | flushed (ev : Event) (r : ℤ) (revs : List ℤ) (last : ℤ) : f.lock = .flush (r :: revs) last →
      f.disp.pending[r]? = some ev → Turn f id (f.release r ev (.flush revs last))
  | skip (r : ℤ) (revs : List ℤ) (last : ℤ) : f.lock = .flush (r :: revs) last →
      f.disp.pending[r]? = none → Turn f id { f with lock := .flush revs last }
  | done (last : ℤ) : f.lock = .flush [] last → Turn f id
      { f with
        disp := { f.disp with
          nextRev := last + 1
          reorderFlushes := f.disp.reorderFlushes + 1 }
        lock := .free }

theorem dispatch_iff {id : ℕ} : f.dispatch id = some f' ↔ f.Turn id f' := by
  constructor
  · intro h
    unfold dispatch at h
    split at h
    next => cases h
    next hl =>
      split at h
      next ev hev =>
        cases h
        exact .drained ev hl hev
      next hnone =>
        split_ifs at h with hmany <;> cases h
        · exact .flush hl hnone hmany
        · exact .unlock hl hnone hmany
    next ev todo caller hl =>
      split_ifs at h with htodo hid
      · subst htodo
        cases caller with
        | drain =>
          cases h
          exact .next ev hl
        | flush revs last =>
          cases h
          exact .resume ev revs last hl
      · cases h
        exact .deliver ev todo caller hl hid
    next r revs last hl =>
      split at h
      next ev hev =>
        cases h
        exact .flushed ev r revs last hl hev
      next hnone =>
        cases h
        exact .skip r revs last hl hnone
    next last hl =>
      cases h
      exact .done last hl
  · intro h
    unfold dispatch
    cases h with
    | drained ev hl hev => simp only [hl, hev]
    | flush hl hnone hmany => simp only [hl, hnone, if_pos hmany]
    | unlock hl hnone hmany => simp only [hl, hnone, if_neg hmany]
    | next ev hl => simp only [hl, if_true]
    | resume ev revs last hl => simp only [hl, if_true]
    | deliver ev todo caller hl hid =>
      simp only [hl, if_neg (Finset.ne_empty_of_mem hid), if_pos hid]
    | flushed ev r revs last hl hev => simp only [hl, hev]
    | skip r revs last hl hnone => simp only [hl, hnone]
    | done last hl => simp only [hl]

end Feed

/-! ### The invariant -/

namespace Feed

def live (N : ℤ) (f : Feed) (e : Event) : Bool :=
  decide (N < e.rev) && !decide (e.rev ∈ f.skipped)

end Feed

structure FeedCore (N : ℤ) (f : Feed) : Prop where
  logged : Logged f.stream
  inflight : ∀ e ∈ f.inflight, e ∈ f.stream
  base : 0 ≤ N
  above : N ≤ f.frontier
  below : f.frontier ≤ f.stream.length
  pending : ∀ r e, f.disp.pending[r]? = some e →
    e.rev = r ∧ e ∈ f.stream ∧ f.frontier < r ∧ r ∉ f.skipped
  cover : ∀ e ∈ f.stream, f.frontier < e.rev →
    e ∈ f.inflight ∨ e ∈ f.lost ∨ f.disp.pending[e.rev]? = some e
  released : f.released = f.stream.filter fun e => f.live N e && decide (e.rev ≤ f.frontier)
  latest : f.disp.latestRev = max 1 f.frontier
  checkpoint : ∀ ck ∈ f.disp.checkpoints, ∃ e ∈ f.stream, e.rev = ck.rev ∧ ck.id ∈ e.id
  checkpoints : Ascending Checkpoint.rev f.disp.checkpoints

structure Flushing (pending : Std.ExtTreeMap ℤ Event) (frontier : ℤ) (skipped revs : List ℤ)
    (last : ℤ) : Prop where
  sorted : revs.Pairwise (· < ·)
  held : ∀ r, r ∈ revs ↔ (pending[r]?).isSome
  le_last : ∀ r ∈ revs, r ≤ last
  skipped_le : ∀ r ∈ skipped, r ≤ last
  gap : ∀ r, frontier < r → r ≤ last → r ∈ revs ∨ r ∈ skipped
  ends : frontier = last ∨ last ∈ revs

def LockInv (f : Feed) : Prop :=
  match f.lock with
  | .free =>
    f.disp.nextRev = f.frontier + 1 ∧ (∀ r ∈ f.skipped, r ≤ f.frontier) ∧
      f.disp.pending[f.disp.nextRev]? = none
  | .drain => f.disp.nextRev = f.frontier + 1 ∧ ∀ r ∈ f.skipped, r ≤ f.frontier
  | .fan ev _ .drain =>
    f.disp.nextRev = f.frontier ∧ (∀ r ∈ f.skipped, r ≤ f.frontier) ∧
      ev ∈ f.released ∧ ev.rev = f.frontier
  | .fan ev _ (.flush revs last) =>
    Flushing f.disp.pending f.frontier f.skipped revs last ∧
      ev ∈ f.released ∧ ev.rev = f.frontier
  | .flush revs last => Flushing f.disp.pending f.frontier f.skipped revs last

/-- **The invariant of the feed.** -/
structure FeedInv (N : ℤ) (f : Feed) : Prop extends FeedCore N f where
  lock : LockInv f

/-- It holds before anything is ingested, if the events that are waited for in vain are lost. -/
theorem feedInv_new {l lost : List Event} {d : Dispatcher} (hl : Logged l) (hpos : 1 ≤ d.nextRev)
    (hlen : d.nextRev ≤ l.length + 1) (hlost : ∀ e ∈ l, d.nextRev ≤ e.rev → e ∈ lost)
    (hpending : ∀ r : ℤ, d.pending[r]? = none) (hcks : d.checkpoints = [])
    (hlatest : d.latestRev = max 1 (d.nextRev - 1)) :
    FeedInv (d.nextRev - 1) ⟨l, [], lost, d, .free, [], d.nextRev - 1, []⟩ := by
  refine ⟨⟨hl, fun e he => absurd he List.not_mem_nil, by omega, le_rfl, by dsimp only; omega, ?_, ?_,
    ?_, hlatest, ?_, ?_⟩, (sub_add_cancel _ _).symm, fun r hr => absurd hr List.not_mem_nil,
    hpending _⟩
  · intro r e he
    rw [hpending] at he
    cases he
  · intro e he hlt
    dsimp only at hlt
    exact Or.inr (Or.inl (hlost e he (by omega)))
  · symm
    dsimp only
    rw [List.filter_eq_nil_iff]
    intro e _
    simp only [Feed.live, Bool.and_eq_true, decide_eq_true_eq, not_and]
    intro hlive hle
    exact absurd hlive.1 (not_lt.mpr hle)
  · intro ck hck
    dsimp only at hck
    rw [hcks] at hck
    cases hck
  · dsimp only
    rw [hcks]
    exact List.Pairwise.nil

/-! ### Releasing an event -/

section Release

variable {N : ℤ} {f : Feed} {r : ℤ} {ev : Event}

theorem Dispatcher.release_eq (ev : Event) (d : Dispatcher) :
    ∃ n cks, d.release ev =
        { d with
          latestRev := if d.latestRev < ev.rev then ev.rev else d.latestRev
          ckCounter := n
          checkpoints := cks } ∧
      (cks = d.checkpoints ∨ ∃ id ∈ ev.id,
        (∀ ck ∈ d.checkpoints.getLast?, ck.rev < ev.rev) ∧ cks = d.checkpoints ++ [⟨ev.rev, id⟩]) := by
  rw [release, maybeCheckpoint]
  cases hid : ev.id with
  | none => exact ⟨_, _, rfl, Or.inl rfl⟩
  | some id =>
    dsimp only
    by_cases hfew : d.checkpoints ≠ [] ∧ d.ckCounter + 1 < checkpointEvery
    · rw [if_pos hfew]
      exact ⟨_, _, rfl, Or.inl rfl⟩
    · rw [if_neg hfew]
      by_cases hlast : ∀ ck ∈ d.checkpoints.getLast?, ck.rev < ev.rev
      · rw [if_pos hlast]
        exact ⟨_, _, rfl, Or.inr ⟨id, rfl, hlast, rfl⟩⟩
      · rw [if_neg hlast]
        exact ⟨_, _, rfl, Or.inl rfl⟩

/-- **Releasing the next event keeps the invariant**: between the frontier and the event everything
has been given up. -/
theorem FeedCore.release (h : FeedCore N f) (hr : f.disp.pending[r]? = some ev)
    (hgap : ∀ e ∈ f.stream, f.frontier < e.rev → e.rev < r → e.rev ∈ f.skipped)
    (caller : Caller) : FeedCore N (f.release r ev caller) := by
  obtain ⟨hev, hmem, hlt, hns⟩ := h.pending r ev hr
  obtain ⟨n, cks, heq, hcks⟩ :=
    Dispatcher.release_eq ev { f.disp with pending := f.disp.pending.erase r }
  rw [Feed.release, heq]
  refine ⟨h.logged, h.inflight, h.base, ?_, ?_, ?_, ?_, ?_, ?_, ?_, ?_⟩
  · exact h.above.trans (hlt.le.trans hev.ge)
  · exact (h.logged.revs ev hmem).2
  · intro r' e he
    dsimp only at he ⊢
    rw [getElem?_erase] at he
    split_ifs at he with hne
    obtain ⟨her, hes, hlt', hns'⟩ := h.pending r' e he
    refine ⟨her, hes, ?_, hns'⟩
    by_contra hle
    exact hns' (her ▸ hgap e hes (her ▸ hlt') (by omega))
  · intro e he hfr
    dsimp only at hfr ⊢
    rw [getElem?_erase, if_neg (by omega)]
    exact h.cover e he (by omega)
  · dsimp only
    have hlive : f.live N ev = true := by
      have habove := h.above
      rw [← hev] at hns hlt
      simp only [Feed.live, Bool.and_eq_true, decide_eq_true_eq, Bool.not_eq_true',
        decide_eq_false_iff_not]
      exact ⟨by omega, hns⟩
    rw [h.released]
    refine (h.logged.ascending.filter_le_concat hmem hlive (hev ▸ hlt) ?_).symm
    intro e he hl hfr
    by_contra hlt'
    have := hgap e he hfr (by omega)
    simp [Feed.live, this] at hl
  · have hl := h.latest
    dsimp only
    split_ifs with hle
    · omega
    · omega
  · intro ck hck
    dsimp only at hck
    rcases hcks with rfl | ⟨id, hid, _, rfl⟩
    · exact h.checkpoint ck hck
    · rcases List.mem_append.mp hck with hck | hck
      · exact h.checkpoint ck hck
      · rw [List.mem_singleton.mp hck]
        exact ⟨ev, hmem, rfl, hid⟩
  · rcases hcks with rfl | ⟨id, hid, hlast, rfl⟩
    · exact h.checkpoints
    · refine ascending_concat.mpr ⟨h.checkpoints, fun ck hck => ?_⟩
      obtain ⟨x, hx, hle⟩ := le_getLast h.checkpoints hck
      exact lt_of_le_of_lt hle (hlast x hx)

end Release

/-! ### The steps -/

section Steps

variable {N : ℤ} {f f' : Feed} {ev : Event}

theorem FeedInv.commit (h : FeedInv N f) (hs : f.commit ev = some f') : FeedInv N f' := by
  obtain ⟨ha, rfl⟩ := Feed.commit_iff.mp hs
  have hnew : f.frontier < ev.rev := by
    have := h.below
    rw [ha.1]
    omega
  refine ⟨⟨.commit h.logged ha, ?_, h.base, h.above, ?_, ?_, ?_, ?_, h.latest, ?_, h.checkpoints⟩,
    h.lock⟩
  · intro e he
    rcases List.mem_cons.mp he with rfl | he
    · simp
    · exact List.mem_append_left _ (h.inflight e he)
  · have := h.below
    rw [List.length_append]
    push_cast
    omega
  · intro r e he
    obtain ⟨her, hes, hrest⟩ := h.pending r e he
    exact ⟨her, List.mem_append_left _ hes, hrest⟩
  · intro e he hfr
    rcases List.mem_append.mp he with he | he
    · exact (h.cover e he hfr).imp_left (List.mem_cons_of_mem _)
    · exact Or.inl (List.mem_cons.mpr (Or.inl (List.mem_singleton.mp he)))
  · dsimp only
    rw [List.filter_append, h.released, List.filter_cons_of_neg]
    · simp [Feed.live]
    · simp [hnew]
  · intro ck hck
    obtain ⟨e, he, hrest⟩ := h.checkpoint ck hck
    exact ⟨e, List.mem_append_left _ he, hrest⟩

theorem FeedInv.lose (h : FeedInv N f) (hs : f.lose ev = some f') : FeedInv N f' := by
  obtain ⟨hin, rfl⟩ := Feed.lose_iff.mp hs
  refine ⟨⟨h.logged, fun e he => h.inflight e (List.mem_of_mem_erase he), h.base, h.above, h.below,
    h.pending, ?_, h.released, h.latest, h.checkpoint, h.checkpoints⟩, h.lock⟩
  intro e he hfr
  by_cases hev : e = ev
  · exact Or.inr (Or.inl (List.mem_cons.mpr (Or.inl hev)))
  · rcases h.cover e he hfr with hi | hl | hp
    · exact Or.inl ((List.mem_erase_of_ne hev).mpr hi)
    · exact Or.inr (Or.inl (List.mem_cons_of_mem _ hl))
    · exact Or.inr (Or.inr hp)

/-- A primed dispatcher drops an event that it has released and holds back any other. -/
theorem Dispatcher.hold_eq {d : Dispatcher} (hpos : 0 < ev.rev) (hnext : d.nextRev ≠ 0) :
    d.hold ev = if ev.rev < d.nextRev then none
      else some { d with pending := d.pending.insert ev.rev ev } := by
  rw [hold, if_neg (by omega)]
  dsimp only
  rw [if_neg hnext]

theorem FeedInv.ingest (h : FeedInv N f) (hs : f.ingest ev = some f') : FeedInv N f' := by
  obtain ⟨hl, hin, hcase⟩ := Feed.ingest_iff.mp hs
  have hlock := h.lock
  rw [LockInv, hl] at hlock
  obtain ⟨hnext, hskip, hnone⟩ := hlock
  have hmem := h.inflight ev hin
  have hpos := (h.logged.revs ev hmem).1
  have hbase := h.base
  have habove := h.above
  rw [Dispatcher.hold_eq (by omega) (by omega)] at hcase
  have hinf : ∀ e ∈ f.inflight.erase ev, e ∈ f.stream :=
    fun e he => h.inflight e (List.mem_of_mem_erase he)
  rcases hcase with ⟨hd, rfl⟩ | ⟨d, hd, rfl⟩
  · split_ifs at hd with hlate
    refine ⟨⟨h.logged, hinf, hbase, habove, h.below, h.pending, ?_, h.released, h.latest,
      h.checkpoint, h.checkpoints⟩, by rw [LockInv, hl]; exact ⟨hnext, hskip, hnone⟩⟩
    -- the dropped event is at or below the frontier
    intro e he hfr
    have hne : e ≠ ev := by
      rintro rfl
      dsimp only at hfr
      omega
    exact (h.cover e he hfr).imp_left (List.mem_erase_of_ne hne).mpr
  · split_ifs at hd with hlate
    cases hd
    refine ⟨⟨h.logged, hinf, hbase, habove, h.below, ?_, ?_, h.released, h.latest, h.checkpoint,
      h.checkpoints⟩, hnext, hskip⟩
    · intro r e he
      dsimp only at he
      rw [getElem?_insert] at he
      split_ifs at he with hr
      · rw [Option.some.injEq] at he
        subst he hr
        refine ⟨rfl, hmem, by dsimp only; omega, fun hsk => ?_⟩
        have := hskip _ hsk
        omega
      · exact h.pending r e he
    · intro e he hfr
      dsimp only
      rw [getElem?_insert]
      split_ifs with hr
      · exact Or.inr (Or.inr (congrArg some (h.logged.ascending.eq_of_eq hmem he hr)))
      · have hne : e ≠ ev := by
          rintro rfl
          exact hr rfl
        exact (h.cover e he hfr).imp_left (List.mem_erase_of_ne hne).mpr

theorem FeedInv.resub (h : FeedInv N f) (subs : Finset ℕ) (sub : ℕ → WatchSub) (nextID : ℕ) :
    FeedInv N { f with disp := { f.disp with subs := subs, sub := sub, nextID := nextID } } :=
  ⟨⟨h.logged, h.inflight, h.base, h.above, h.below, h.pending, h.cover, h.released, h.latest,
    h.checkpoint, h.checkpoints⟩, h.lock⟩

theorem Dispatcher.deliver_eq (ev : Event) (id : ℕ) (d : Dispatcher) :
    ∃ subs sub, d.deliver ev id = { d with subs := subs, sub := sub } := by
  rw [deliver]
  split_ifs
  · exact ⟨_, _, rfl⟩
  · exact ⟨_, _, rfl⟩
  · exact ⟨_, _, rfl⟩

/-- The revisions that entering a flush gives up. -/
theorem mem_skipped_flush {r : ℤ} :
    r ∈ f.flush.skipped ↔ r ∈ f.skipped ∨ f.disp.nextRev ≤ r ∧
      r ≤ f.disp.pending.keys.getLast?.getD (f.disp.nextRev - 1) ∧ r ∉ f.disp.pending := by
  rw [Feed.flush, List.mem_append, List.mem_filter, List.mem_map, decide_eq_true_eq, and_assoc.symm]
  refine or_congr_right (and_congr_left' ⟨?_, ?_⟩)
  · rintro ⟨i, hi, rfl⟩
    rw [List.mem_range] at hi
    exact ⟨by omega, by omega⟩
  · rintro ⟨hle, hlast⟩
    exact ⟨(r - f.disp.nextRev).toNat, List.mem_range.mpr (by omega), by omega⟩

/-- **Entering a flush keeps the invariant**: what is given up is above the frontier and not held
back. -/
theorem FeedInv.flush (h : FeedInv N f) (hl : f.lock = .drain)
    (hmany : maxPendingEvents < f.disp.pending.size) : FeedInv N f.flush := by
  have hlock := h.lock
  rw [LockInv, hl] at hlock
  obtain ⟨hnext, hskip⟩ := hlock
  obtain ⟨last, hlast⟩ : ∃ last, f.disp.pending.keys.getLast? = some last := by
    rw [← Option.isSome_iff_exists, List.getLast?_isSome]
    rintro hnil
    rw [← Std.ExtTreeMap.length_keys, hnil] at hmany
    exact absurd hmany (by simp)
  have hkeys : ∀ r, r ∈ f.disp.pending.keys ↔ (f.disp.pending[r]?).isSome :=
    fun r => mem_keys_iff_getElem?
  have hsorted : f.disp.pending.keys.Pairwise (· < ·) := keys_sorted _
  have hup : ∀ r ∈ f.disp.pending.keys, r ≤ last := by
    intro r hr
    obtain ⟨e, he, hle⟩ := le_getLast (f := fun r : ℤ => r) hsorted hr
    rw [hlast, Option.some.injEq] at he
    exact he ▸ hle
  have hheld : ∀ r ∈ f.disp.pending.keys, f.frontier < r := by
    intro r hr
    obtain ⟨e, he⟩ := Option.isSome_iff_exists.mp ((hkeys r).mp hr)
    exact (h.pending r e he).2.2.1
  have hsk : ∀ r, r ∈ f.flush.skipped ↔
      r ∈ f.skipped ∨ f.disp.nextRev ≤ r ∧ r ≤ last ∧ r ∉ f.disp.pending := by
    intro r
    rw [mem_skipped_flush, hlast, Option.getD_some]
  have hlastmem : last ∈ f.disp.pending.keys := List.mem_of_getLast? hlast
  have hfl := hheld last hlastmem
  refine ⟨⟨h.logged, h.inflight, h.base, h.above, h.below, ?_, h.cover, ?_, h.latest, h.checkpoint,
    h.checkpoints⟩, ?_⟩
  · intro r e he
    obtain ⟨her, hes, hlt, hns⟩ := h.pending r e he
    refine ⟨her, hes, hlt, fun hr => ?_⟩
    rcases (hsk r).mp hr with hr | ⟨_, _, hr⟩
    · exact hns hr
    · exact hr (mem_iff_getElem?.mpr (Option.isSome_iff_exists.mpr ⟨e, he⟩))
  · change f.released = _
    rw [h.released]
    refine List.filter_congr fun e _ => ?_
    change _ = (Feed.live N f.flush e && decide (e.rev ≤ f.frontier))
    by_cases hle : e.rev ≤ f.frontier
    · have : e.rev ∈ f.flush.skipped ↔ e.rev ∈ f.skipped := by
        rw [hsk]
        exact ⟨fun hr => hr.resolve_right fun hr => by omega, Or.inl⟩
      simp [Feed.live, hle, this]
    · simp [hle]
  · change Flushing f.disp.pending f.frontier f.flush.skipped f.disp.pending.keys
      (f.disp.pending.keys.getLast?.getD (f.disp.nextRev - 1))
    rw [hlast, Option.getD_some]
    refine ⟨hsorted, hkeys, hup, ?_, ?_, Or.inr hlastmem⟩
    · intro r hr
      rcases (hsk r).mp hr with hr | ⟨_, hle, _⟩
      · exact (hskip r hr).trans hfl.le
      · exact hle
    · intro r hfr hle
      by_cases hp : r ∈ f.disp.pending
      · exact Or.inl ((hkeys r).mpr (mem_iff_getElem?.mp hp))
      · exact Or.inr ((hsk r).mpr (Or.inr ⟨by omega, hle, hp⟩))

/-- The next event of a flush can be released, and the flush goes on with the rest. -/
theorem Flushing.next {r last : ℤ} {revs : List ℤ} (h : FeedCore N f)
    (hf : Flushing f.disp.pending f.frontier f.skipped (r :: revs) last)
    (hr : f.disp.pending[r]? = some ev) :
    (∀ e ∈ f.stream, f.frontier < e.rev → e.rev < r → e.rev ∈ f.skipped) ∧
      Flushing (f.disp.pending.erase r) ev.rev f.skipped revs last := by
  obtain ⟨hlt, hsorted⟩ := List.pairwise_cons.mp hf.sorted
  have hrl := hf.le_last r List.mem_cons_self
  obtain ⟨hev, _, hfr, _⟩ := h.pending r ev hr
  refine ⟨fun e _ hfe her => ?_, hsorted, fun x => ?_, ?_, hf.skipped_le, ?_, ?_⟩
  · rcases hf.gap e.rev hfe (by omega) with hm | hs
    · rcases List.mem_cons.mp hm with hm | hm
      · omega
      · have := hlt _ hm
        omega
    · exact hs
  · rw [getElem?_erase]
    have hx := hf.held x
    rw [List.mem_cons] at hx
    split_ifs with hrx
    · subst hrx
      refine iff_of_false (fun hm => ?_) (by simp)
      exact absurd (hlt r hm) (lt_irrefl r)
    · rw [← hx]
      exact ⟨Or.inr, fun ho => ho.resolve_left fun he => hrx he.symm⟩
  · exact fun x hx => hf.le_last x (List.mem_cons_of_mem _ hx)
  · intro x hx hxl
    rcases hf.gap x (by omega) hxl with hm | hs
    · rcases List.mem_cons.mp hm with rfl | hm
      · omega
      · exact Or.inl hm
    · exact Or.inr hs
  · rcases hf.ends with he | he
    · omega
    · rcases List.mem_cons.mp he with he | he
      · exact Or.inl (hev.trans he.symm)
      · exact Or.inr he

theorem FeedCore.relock (h : FeedCore N f) (lock : Lock) (nextRev : ℤ) (flushes : ℕ) :
    FeedCore N { f with
      disp := { f.disp with nextRev := nextRev, reorderFlushes := flushes }
      lock := lock } :=
  ⟨h.logged, h.inflight, h.base, h.above, h.below, h.pending, h.cover, h.released, h.latest,
    h.checkpoint, h.checkpoints⟩

/-- **Every step of the holder of the lock keeps the invariant.** -/
theorem FeedInv.dispatch {id : ℕ} (h : FeedInv N f) (hs : f.dispatch id = some f') :
    FeedInv N f' := by
  have hlock := h.lock
  rw [LockInv] at hlock
  cases Feed.dispatch_iff.mp hs with
  | drained ev hl hp =>
    rw [hl] at hlock
    obtain ⟨hnext, hskip⟩ := hlock
    obtain ⟨hev, _⟩ := h.pending _ _ hp
    refine ⟨h.toFeedCore.release hp (fun e _ h1 h2 => by omega) .drain, ?_⟩
    obtain ⟨n, cks, heq, _⟩ :=
      Dispatcher.release_eq ev { f.disp with pending := f.disp.pending.erase f.disp.nextRev }
    rw [LockInv, Feed.release, heq]
    refine ⟨hev.symm, fun r hr => ?_, by simp, rfl⟩
    have := hskip r hr
    dsimp only
    omega
  | flush hl _ hmany => exact h.flush hl hmany
  | unlock hl hp _ =>
    rw [hl] at hlock
    exact ⟨h.toFeedCore.relock .free _ _, hlock.1, hlock.2, hp⟩
  | next ev hl =>
    rw [hl] at hlock
    refine ⟨h.toFeedCore.relock .drain _ _, ?_, hlock.2.1⟩
    have := hlock.1
    dsimp only
    omega
  | resume ev revs last hl =>
    rw [hl] at hlock
    exact ⟨h.toFeedCore.relock (.flush revs last) _ _, hlock.1⟩
  | deliver ev todo caller hl _ =>
    rw [hl] at hlock
    obtain ⟨subs, sub, heq⟩ := Dispatcher.deliver_eq ev id f.disp
    rw [heq]
    refine ⟨⟨h.logged, h.inflight, h.base, h.above, h.below, h.pending, h.cover, h.released,
      h.latest, h.checkpoint, h.checkpoints⟩, ?_⟩
    cases caller with
    | drain => exact hlock
    | flush revs last => exact hlock
  | flushed ev r revs last hl hp =>
    rw [hl] at hlock
    obtain ⟨hgap, hf⟩ := Flushing.next h.toFeedCore hlock hp
    refine ⟨h.toFeedCore.release hp hgap _, ?_⟩
    obtain ⟨n, cks, heq, _⟩ :=
      Dispatcher.release_eq ev { f.disp with pending := f.disp.pending.erase r }
    rw [LockInv, Feed.release, heq]
    exact ⟨hf, by simp, rfl⟩
  | skip r revs last hl hp =>
    -- what a flush has to release is held back
    rw [hl] at hlock
    have hheld := (hlock.held r).mp List.mem_cons_self
    rw [hp] at hheld
    cases hheld
  | done last hl =>
    rw [hl] at hlock
    have hf : Flushing f.disp.pending f.frontier f.skipped [] last := hlock
    have hend : f.frontier = last := hf.ends.resolve_right (by simp)
    refine ⟨h.toFeedCore.relock .free _ _, ?_, ?_, ?_⟩
    · dsimp only
      omega
    · exact fun r hr => hend ▸ hf.skipped_le r hr
    · have := hf.held (last + 1)
      simpa using this

end Steps

end REtcd.Server
