import REtcd.Server.Drain

/-!
# A watch misses nothing

With a reorder buffer that never overflows, what is sent on a watch is at every moment a beginning of
the wanted events of the stream, in ascending order; no response has a header below its events; and
a watch that is idle when nothing is under way any more has sent everything (`watch_complete`).
-/

namespace REtcd.Server

open Base Store

def Buffered (s : Sys) : Prop := s.feed.disp.pending.size ≤ maxPendingEvents

instance : DecidablePred Buffered := fun s =>
  inferInstanceAs (Decidable (s.feed.disp.pending.size ≤ maxPendingEvents))

theorem skipped_eq_nil {l : List Event} {s : Sys} (h : Reach Sys.step Buffered (.start l) s) :
    s.feed.skipped = [] := by
  refine h.inv (I := fun s => s.feed.skipped = []) rfl fun s a s' hnil hs hb => ?_
  rcases (step_change hs).skipped with heq | ⟨heq, hmany⟩
  · exact heq.trans hnil
  · rw [Buffered, heq] at hb
    exact absurd hb (not_le.mpr hmany)

/-! ### Headers -/

def Covers (r : WatchResponse) : Prop := ∀ e ∈ r.events, e.rev ≤ r.header.revision

/-- The responses of a watch, sent or about to be sent, cover their events; the header of the one
that is about to be sent is a revision of the past. -/
def HeaderInv (v : View) : Prop :=
  (∀ r ∈ v.sent, Covers r) ∧ ∀ resp next, v.w.pc = .sending resp next →
    Covers resp ∧ resp.header.revision ≤ v.latestRev

theorem Tail.hand_le {N n c d : ℤ} {v : View} (h : Tail N v n c d) (hfed : v.Fed N) :
    ∀ e ∈ v.w.pc.hand, e.rev ≤ v.latestRev := by
  obtain ⟨rest, heq, _⟩ := h.sent
  intro e he
  have hmem : e ∈ (v.caughtUp n ++ v.taken c).map eventToProto := by
    rw [← heq]
    exact List.mem_append_left _ (List.mem_append_right _ he)
  obtain ⟨x, hx, rfl⟩ := List.mem_map.mp hmem
  rcases List.mem_append.mp hx with hx | hx
  · rw [View.caughtUp, List.mem_filter] at hx
    simp only [Bool.and_eq_true, decide_eq_true_eq] at hx
    rw [hfed.logged.proto_rev x hx.1]
    exact hx.2.1.2.trans h.boundary.2
  · rw [View.taken, List.mem_filter] at hx
    obtain ⟨hs, _, hle⟩ := hfed.released x hx.1
    rw [hfed.logged.proto_rev x hs]
    exact hle

theorem HeaderInv.step {N : ℤ} {id : ℤ} {v v' : View} (hfed : v.Fed N) (ht : TailInv N v)
    (h : HeaderInv v) (hs : View.Step id v v') : HeaderInv v' := by
  obtain ⟨hsent, hsending⟩ := h
  cases hs with
  | idle => exact ⟨hsent, hsending⟩
  | commit ev ha => exact ⟨hsent, hsending⟩
  | release ev cks howed =>
    refine ⟨hsent, fun resp next hp => ⟨(hsending resp next hp).1, ?_⟩⟩
    have := (hsending resp next hp).2
    dsimp only
    split_ifs <;> omega
  | pass ev howed hm => exact ⟨hsent, hsending⟩
  | deliver ev howed hm _ => exact ⟨hsent, hsending⟩
  | cut ev _ _ _ => exact ⟨hsent, hsending⟩
  | register k hpc =>
    refine ⟨hsent, fun resp next hp => ?_⟩
    dsimp only at hp
    split_ifs at hp
  | finish hpc howed => exact ⟨hsent, fun resp next hp => nomatch hp⟩
  | reply out cancelled hout =>
    refine ⟨fun r hr => ?_, hsending⟩
    rcases List.mem_append.mp hr with hr | hr
    · exact hsent r hr
    · intro e he
      rw [hout r hr] at he
      cases he
  | own ctxDone pc ch out hm =>
    constructor
    · intro r hr
      rcases List.mem_append.mp hr with hr | hr
      · exact hsent r hr
      · rcases hm.out_cases with rfl | ⟨resp, next, hpc, rfl⟩
        · cases hr
        · rw [List.mem_singleton.mp hr]
          exact (hsending resp next hpc).1
    · intro resp next hpc
      obtain ⟨hne, _⟩ := hm.ne_spawned
      obtain ⟨n, c, d, ht⟩ := (ht.resolve_left fun h => hne h.1).2
      dsimp only at hpc
      obtain ⟨matched, canceled, hstamp, rfl⟩ := hm.stamped hpc
      have hle := ht.hand_le hfed
      rw [hstamp] at hle
      exact ⟨hle, le_rfl⟩

theorem header_reach {ok : Sys → Prop} {l : List Event} (hl : Logged l) {s : Sys}
    (h : Reach Sys.step ok (.start l) s) {id : ℤ} {w : Watch} (hw : s.watches id = some w) :
    HeaderInv (s.view id w) := by
  refine (view_inv (P := fun _ v => TailInv l.length v ∧ HeaderInv v) hl ?_ ?_ h id w hw).2
  · intro _ v _ hpc hsent
    refine ⟨Or.inl ⟨hpc, eventsOf_eq_nil hsent⟩, fun r hr e he => ?_, fun _ _ hp => ?_⟩
    · rw [hsent r hr] at he
      cases he
    · rw [hpc] at hp
      cases hp
  · exact fun _ v v' hfed hfed' hv hs => ⟨hv.1.step hfed hfed' hs, hv.2.step hfed hv.1 hs⟩

/-! ### Completeness -/

section Complete

variable {N n c d : ℤ} {s : Sys} {id : ℤ} {w : Watch}

/-- If nothing was given up, what a watch has taken is everything it wants up to some revision. -/
theorem Tail.upTo (h : Tail N (s.view id w) n c d) (hf : FeedInv N s.feed)
    (hskip : s.feed.skipped = []) :
    ∃ m, (s.view id w).caughtUp n ++ (s.view id w).taken c =
      s.feed.stream.filter (fun e => w.wants e && decide (e.rev ≤ m)) := by
  have hasc := hf.logged.ascending
  by_cases hb : w.boundary ≤ n
  · -- the released events continue where the boundary is
    refine ⟨max w.boundary c, ?_⟩
    have hd : d ≤ s.feed.frontier := by
      rcases h.mark with rfl | ⟨e, he, rfl⟩
      · exact hf.above
      · exact (hf.toFeedCore.mem_released.mp he).2.2.2
    have hc := h.le
    have hNb := h.boundary.1
    rw [← hasc.filter_append (fun e => w.wants e && decide (e.rev ≤ max w.boundary c)) w.boundary]
    congr 1
    · refine List.filter_congr fun e _ => ?_
      change ((w.wants e && decide (e.rev ≤ w.boundary)) && decide (e.rev ≤ n)) = _
      by_cases he : e.rev ≤ w.boundary
      · simp [he, he.trans hb]
      · simp [he]
    · change s.feed.released.filter _ = _
      rw [hf.released, List.filter_filter]
      refine List.filter_congr fun e _ => ?_
      change (((w.wants e && decide (w.boundary < e.rev)) && decide (e.rev ≤ c)) &&
        (s.feed.live N e && decide (e.rev ≤ s.feed.frontier))) = _
      rw [Feed.live, hskip]
      change N ≤ w.boundary at hNb
      by_cases he : w.boundary < e.rev
      · by_cases hec : e.rev ≤ c
        · have h1 : N < e.rev := by omega
          have h2 : e.rev ≤ s.feed.frontier := by omega
          simp [he, hec, h1, h2]
        · simp [he, hec]
      · simp [he]
  · -- the watch is still catching up
    have hlow : c ≤ w.boundary := h.order.resolve_right hb
    refine ⟨n, ?_⟩
    rw [taken_eq_nil hlow, List.append_nil]
    refine List.filter_congr fun e _ => ?_
    change ((w.wants e && decide (e.rev ≤ w.boundary)) && decide (e.rev ≤ n)) = _
    by_cases he : e.rev ≤ n
    · have : e.rev ≤ w.boundary := by omega
      simp [he, this]
    · simp [he]

/-- When every writer has called `ingest` and the lock is free, everything has been released. -/
theorem FeedInv.settled {f : Feed} (h : FeedInv N f) (hin : f.inflight = []) (hlost : f.lost = [])
    (hl : f.lock = .free) : f.frontier = f.stream.length := by
  have hlock := h.lock
  rw [LockInv, hl] at hlock
  obtain ⟨hnext, _, hnone⟩ := hlock
  by_contra hne
  have hbelow := h.below
  have hbase := h.base
  have habove := h.above
  obtain ⟨e, he, her⟩ := h.logged.exists_rev (f.frontier + 1) (by omega) (by omega)
  rcases h.cover e he (by omega) with hi | hi | hp
  · rw [hin] at hi
    cases hi
  · rw [hlost] at hi
    cases hi
  · rw [her, ← hnext, hnone] at hp
    cases hp

end Complete

section Idle

variable {N : ℤ} {s : Sys} {id : ℤ} {w : Watch}

/-- What is sent on a watch is a beginning of what it wants. -/
theorem TailInv.prefix_wanted (h : TailInv N (s.view id w)) (hf : FeedInv N s.feed)
    (hskip : s.feed.skipped = []) :
    s.eventsSent id <+: (s.feed.stream.filter w.wants).map eventToProto := by
  rcases h with ⟨_, hsent⟩ | ⟨_, n, c, d, ht⟩
  · rw [show s.eventsSent id = [] from hsent]
    exact List.nil_prefix
  · obtain ⟨m, hm⟩ := ht.upTo hf hskip
    obtain ⟨rest, heq, _⟩ := ht.sent
    rw [hm] at heq
    refine List.IsPrefix.trans ⟨w.pc.hand ++ rest, ?_⟩
      (List.IsPrefix.map eventToProto ⟨_, hf.logged.ascending.filter_append w.wants m⟩)
    rw [← List.append_assoc]
    exact heq

/-- A watch that waits at the end of the stream has sent everything. -/
theorem TailInv.eventsSent_of_waits (h : TailInv N (s.view id w)) (hl : Logged s.feed.stream)
    (hwaits : w.Waits s.feed.stream) :
    s.eventsSent id = (s.feed.stream.filter w.wants).map eventToProto := by
  obtain ⟨lastID, consecErr, hpc, hend⟩ := hwaits
  rw [blockReadEvents_eq_none (by decide)] at hend
  have hview : (s.view id w).w.pc = .reading lastID consecErr := hpc
  obtain ⟨n, c, d, ht⟩ := h.tail (by simp [hview])
  have hst := ht.stage
  rw [hview] at hst
  obtain ⟨hm, hc, hn⟩ := hst
  have heq := ht.sent_eq (by rw [hview]; rfl) (by rw [hview]; exact fun h => nomatch h)
  rw [taken_eq_nil hc, List.append_nil, View.caughtUp] at heq
  refine heq.trans ?_
  congr 1
  refine List.filter_congr fun e he => ?_
  change e ∈ s.feed.stream at he
  -- it has read this event, and nothing above the boundary
  have hle : e.rev ≤ n := not_lt.mp fun hlt => hend e he ((hm.lt_iff hl he).mpr hlt)
  simp only [hle, hle.trans hn, decide_true, Bool.and_true]
  rfl

theorem TailInv.eventsSent_of_idle (h : TailInv N (s.view id w)) (hf : FeedInv N s.feed)
    (hskip : s.feed.skipped = []) (hin : s.feed.inflight = []) (hlost : s.feed.lost = [])
    (hlock : s.feed.lock = .free) (hcut : (s.feed.disp.sub w.sub).cancelled = false)
    (hidle : w.Idle s.feed.stream (s.feed.disp.sub w.sub).ch) :
    s.eventsSent id = (s.feed.stream.filter w.wants).map eventToProto := by
  rcases hidle with ⟨hpc, hch⟩ | hwaits
  · have hview : (s.view id w).w.pc = .selecting := hpc
    obtain ⟨n, c, d, ht⟩ := h.tail (by simp [hview])
    obtain ⟨m, hm⟩ := ht.upTo hf hskip
    -- nothing is on its way to the watch any more
    have hall : ∀ e ∈ s.feed.stream, w.wants e = true → e.rev ≤ m := by
      intro e he hwe
      have hle : e.rev ≤ s.feed.disp.latestRev := by
        have := (hf.logged.revs e he).2
        rw [hf.latest, hf.settled hin hlost hlock]
        omega
      have hmem := (ht.mem_iff hf (by rw [hpc]; exact fun h => nomatch h) hcut he hwe
        hle).mpr (by simp [Watch.unread, Sys.inTransit, Lock.owed, Pc.stage, hpc, hch, hlock, hskip])
      rw [hm, List.mem_filter, Bool.and_eq_true, decide_eq_true_eq] at hmem
      exact hmem.2.2
    have heq := ht.sent_eq (by rw [hview]; rfl) (by rw [hview]; exact fun h => nomatch h)
    rw [hm] at heq
    refine heq.trans ?_
    congr 1
    refine List.filter_congr fun e he => ?_
    cases hwe : w.wants e with
    | false => rfl
    | true => simp [hall e he hwe]
  · exact h.eventsSent_of_waits hf.logged hwaits

end Idle

theorem buffered_reach {l : List Event} {s : Sys} (hs : Reach Sys.step Buffered (.start l) s) :
    Buffered s := by
  cases hs with
  | refl => exact Nat.zero_le _
  | tail a _ _ hb => exact hb

/-- What is sent on the watch is a beginning of what it wants, in ascending order and below the
headers.  Once every writer has called `ingest` and the dispatcher is idle, the watch has sent
everything when it is idle too, and its own steps take it there. -/
def Sys.MissesNothing (s : Sys) (id : ℤ) (w : Watch) : Prop :=
  s.eventsSent id <+: (s.feed.stream.filter w.wants).map eventToProto ∧
    ((s.eventsSent id).map ProtoEvent.rev).Pairwise (· < ·) ∧
    (∀ r ∈ s.sentTo id, ∀ e ∈ r.events, e.rev ≤ r.header.revision) ∧
    (s.feed.inflight = [] → s.feed.lost = [] → s.feed.lock = .free →
      (s.feed.disp.sub w.sub).cancelled = false →
      (w.Idle s.feed.stream (s.feed.disp.sub w.sub).ch →
        s.eventsSent id = (s.feed.stream.filter w.wants).map eventToProto) ∧
      (w.pc.Running → ∃ s', Reach (Sys.own id) Buffered s s' ∧
        s'.feed.stream = s.feed.stream ∧
        s'.eventsSent id = (s.feed.stream.filter w.wants).map eventToProto))

/-- **A watch misses nothing**, if the reorder buffer stays within its bound. -/
theorem missesNothing {l : List Event} (hl : Logged l) {s : Sys}
    (hs : Reach Sys.step Buffered (.start l) s) {id : ℤ} {w : Watch}
    (hw : s.watches id = some w) : s.MissesNothing id w := by
  have hf := feedInv_reach hl hs
  have ht := tail_reach hl hs hw
  have hskip := skipped_eq_nil hs
  have hpre := ht.prefix_wanted hf hskip
  refine ⟨hpre, ?_, fun r hr => (header_reach hl hs hw).1 r hr, ?_⟩
  · refine List.Pairwise.sublist (hpre.map ProtoEvent.rev).sublist ?_
    rw [hf.logged.map_proto_rev fun e he => (List.mem_filter.mp he).1]
    exact List.pairwise_map.mpr (hf.logged.ascending.filter w.wants)
  · intro hin hlost hlock hcut
    refine ⟨ht.eventsSent_of_idle hf hskip hin hlost hlock hcut, fun hrun => ?_⟩
    have hstill : ∀ s', OnlyChannels s.feed s'.feed → Buffered s' := by
      rintro s' ⟨sub, hfeed⟩
      rw [Buffered, hfeed]
      exact buffered_reach hs
    obtain ⟨s', pc, hs', hw', hidle, hcut', ⟨sub, hfeed⟩⟩ := watch_drains hf.logged hstill hw hrun
    have hs₁ := hs.trans (reach_own hs')
    have hstream : s'.feed.stream = s.feed.stream := by rw [hfeed]
    have hsent := (tail_reach hl hs₁ hw').eventsSent_of_idle (feedInv_reach hl hs₁)
      (by rw [hfeed]; exact hskip) (by rw [hfeed]; exact hin) (by rw [hfeed]; exact hlost)
      (by rw [hfeed]; exact hlock) (hcut'.trans hcut) (by rw [hstream]; exact hidle)
    rw [hstream] at hsent
    exact ⟨s', hs', hstream, hsent⟩

/-- **A watch misses nothing.**  As long as the reorder buffer stays within its bound, what is sent
on a watch is at every moment a beginning of the wanted events of the stream, in strictly ascending
order, and no header is below the events it comes with.  When every writer has called `ingest` and
the dispatcher is idle, a watch that is not cut loose has sent everything it wants once it is idle,
at its `select` with an empty channel or waiting at the end of the stream, and as long as it runs its
own steps take it there. -/
theorem watch_complete (l : List Event) (hl : Logged l) (s : Sys)
    (hs : Reach Sys.step Buffered (.start l) s) (id : ℤ) (w : Watch)
    (hw : s.watches id = some w) :
    s.eventsSent id <+: (s.feed.stream.filter w.wants).map eventToProto ∧
      ((s.eventsSent id).map ProtoEvent.rev).Pairwise (· < ·) ∧
      (∀ r ∈ s.sentTo id, ∀ e ∈ r.events, e.rev ≤ r.header.revision) ∧
      (s.feed.inflight = [] → s.feed.lost = [] → s.feed.lock = .free →
        (s.feed.disp.sub w.sub).cancelled = false →
        (w.Idle s.feed.stream (s.feed.disp.sub w.sub).ch →
          s.eventsSent id = (s.feed.stream.filter w.wants).map eventToProto) ∧
        (w.pc.Running → ∃ s', Reach (Sys.own id) Buffered s s' ∧
          s'.feed.stream = s.feed.stream ∧
          s'.eventsSent id = (s.feed.stream.filter w.wants).map eventToProto)) :=
  missesNothing hl hs hw

def createEvent (key : Key) (rev : ℤ) : Event where
  type := .put
  key := key
  rev := rev
  kv := some ⟨key, [], rev, rev, 1, 0⟩
  prevKV := none
  createdMs := 0
  id := some ⟨0, rev.toNat⟩

/-- A watch is asked for, an event is committed before it registers and handed to the dispatcher
while it catches up. -/
def handOff : List Act :=
  [.create 0 ⟨[97], [0], 1⟩, .revision 0 true, .confirm 0 true, .commit (createEvent [98] 2),
    .register 1, .watch 1 .go, .watch 1 (.read readBatchSize), .ingest (createEvent [98] 2),
    .dispatch 0, .dispatch 1, .dispatch 0, .dispatch 0, .watch 1 .go, .watch 1 (.send true),
    .watch 1 .recv, .watch 1 .go, .watch 1 .go, .watch 1 (.send true)]

theorem logged_first : Logged [createEvent [97] 1] := .commit (l := []) .nil (by decide)

/-- Both events are sent, the first from the stream and the second from the channel. -/
theorem handOff_complete :
    ∃ s w, Reach Sys.step Buffered (.start [createEvent [97] 1]) s ∧ s.watches 1 = some w ∧
      s.eventsSent 1 = (s.feed.stream.filter w.wants).map eventToProto ∧
      (s.eventsSent 1).map ProtoEvent.rev = [1, 2] := by
  obtain ⟨s, hs, hp⟩ := exists_of_run Sys.step Buffered (.start [createEvent [97] 1]) handOff
    (fun s => (s.watches 1).any fun w : Watch => decide
      (s.feed.inflight = [] ∧ s.feed.lost = [] ∧ s.feed.lock = .free ∧ w.pc = .selecting ∧
        (s.feed.disp.sub w.sub).ch = [] ∧ (s.feed.disp.sub w.sub).cancelled = false ∧
        (s.eventsSent 1).map ProtoEvent.rev = [1, 2])) (by decide +kernel)
  obtain ⟨w, hw, hp⟩ := (Option.any_eq_true _ _).mp hp
  obtain ⟨hin, hlost, hlock, hpc, hch, hcut, hrevs⟩ := of_decide_eq_true hp
  have hall := (watch_complete _ logged_first s hs 1 w hw).2.2.2 hin hlost hlock hcut
  exact ⟨s, w, hs, hw, hall.1 (Or.inl ⟨hpc, hch⟩), hrevs⟩

end REtcd.Server
