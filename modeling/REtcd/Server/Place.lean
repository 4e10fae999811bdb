import REtcd.Server.Tail

/-!
# Where an event is

A wanted event that the dispatcher has released, or that was there before, is either sent or on its
way to the watch.  `Sys.Awaits` lists the places where it can be on its way, and
`sent_iff_not_awaits` says that there are no others.
-/

namespace REtcd.Server

open Base Store

/-- What a watch has still to read from the stream before it is live. -/
def Watch.unread (w : Watch) (stream : List Event) : List Event :=
  match w.pc.stage with
  | .spawned => stream
  | .seeking => stream.filter fun e => e.rev ≤ w.boundary
  | .catching lastID => stream.filter fun e => e.rev ≤ w.boundary ∧ ∀ i ∈ e.id, lastID < i
  | .live => []
  | .ended => []

/-- What a live watch is still to take from the dispatcher. -/
def Sys.inTransit (s : Sys) (w : Watch) : List Event :=
  ((s.feed.disp.sub w.sub).ch ++ (s.feed.lock.owed w.sub).toList).filter fun e => w.boundary < e.rev

/-- An event that the watch has not sent: it is still to be read, or in hand, or in the channel or
about to be put there, or it was given up. -/
def Sys.Awaits (s : Sys) (w : Watch) (e : Event) : Prop :=
  e ∈ w.unread s.feed.stream ∨ eventToProto e ∈ w.pc.hand ∨ e ∈ s.inTransit w ∨
    w.boundary < e.rev ∧ e.rev ∈ s.feed.skipped

instance (s : Sys) (w : Watch) : DecidablePred (s.Awaits w) := fun _ =>
  inferInstanceAs (Decidable (_ ∨ _ ∨ _ ∨ _ ∧ _))

section Places

variable {N n c d : ℤ} {s : Sys} {id : ℤ} {w : Watch} {e : Event}

/-- What has been read is not unread, and what is neither is above the boundary. -/
theorem Tail.mem_unread (h : Tail N (s.view id w) n c d) (hl : Logged s.feed.stream)
    (hrun : w.pc.stage ≠ .ended) (he : e ∈ s.feed.stream) :
    e ∈ w.unread s.feed.stream ↔ e.rev ≤ w.boundary ∧ n < e.rev := by
  have hst := h.stage
  change StageInv (s.view id w) n c w.pc.stage at hst
  rw [Watch.unread]
  cases hp : w.pc.stage with
  | spawned =>
    rw [hp] at hst
    exact hst.elim
  | seeking =>
    rw [hp] at hst
    obtain ⟨rfl, _⟩ := hst
    have := (hl.revs e he).1
    simp only [List.mem_filter, decide_eq_true_eq]
    exact ⟨fun hm => ⟨hm.2, by omega⟩, fun hm => ⟨he, hm.1⟩⟩
  | catching lastID =>
    rw [hp] at hst
    have hm : Marks s.feed.stream lastID n := hst.1
    simp only [List.mem_filter, decide_eq_true_eq]
    rw [hm.lt_iff hl he]
    exact and_iff_right he
  | live =>
    rw [hp] at hst
    have hb : w.boundary ≤ n := hst
    refine iff_of_false (List.not_mem_nil) ?_
    omega
  | ended => exact absurd hp hrun

theorem Tail.mem_caughtUp (he : e ∈ s.feed.stream) (hw : w.wants e = true) :
    e ∈ (s.view id w).caughtUp n ↔ e.rev ≤ w.boundary ∧ e.rev ≤ n := by
  rw [View.caughtUp, List.mem_filter]
  change e ∈ s.feed.stream ∧ ((w.wants e && decide (e.rev ≤ w.boundary)) && decide (e.rev ≤ n)) = true
    ↔ _
  simp [he, hw]

theorem Tail.mem_taken (hw : w.wants e = true) :
    e ∈ (s.view id w).taken c ↔ e ∈ s.feed.released ∧ w.boundary < e.rev ∧ e.rev ≤ c := by
  rw [View.taken, List.mem_filter]
  change e ∈ s.feed.released ∧ ((w.wants e && decide (w.boundary < e.rev)) && decide (e.rev ≤ c)) = true
    ↔ _
  simp [hw]

/-- A released event above the boundary is in transit until it is taken. -/
theorem Tail.mem_inTransit (h : Tail N (s.view id w) n c d) (hlisted : (s.view id w).listed = true)
    (hw : w.wants e = true) (hb : w.boundary < e.rev) (he : e ∈ s.feed.released) :
    e ∈ s.inTransit w ↔ c < e.rev := by
  rw [Watch.wants, Bool.and_eq_true] at hw
  have hch : (s.feed.disp.sub w.sub).ch = (s.view id w).queued c d := h.chan
  have hqueued : e ∈ (s.view id w).queued c d ↔ e.rev ≤ d ∧ c < e.rev := by
    rw [View.queued, List.mem_filter]
    change e ∈ s.feed.released ∧ ((matchesWatch e.key w.key w.rangeEnd && decide (e.rev ≤ d)) &&
      decide (c < e.rev)) = true ↔ _
    simp [he, hw.2]
  have hle := h.le
  have howed : s.feed.lock.owed w.sub = some e → d < e.rev := fun ho => (h.owed e ho).2
  have hfed : e.rev ≤ d ∨ s.feed.lock.owed w.sub = some e := h.fed hlisted e he
  rw [Sys.inTransit, List.mem_filter, List.mem_append, hch, hqueued, Option.mem_toList,
    and_iff_left (by simpa using hb)]
  constructor
  · rintro (hq | ho)
    · exact hq.2
    · have := howed ho
      omega
  · exact fun hlt => hfed.imp_left fun hd => ⟨hd, hlt⟩

theorem Tail.listed (h : Tail N (s.view id w) n c d) (hrun : w.pc.stage ≠ .ended)
    (hcut : (s.feed.disp.sub w.sub).cancelled = false) : (s.view id w).listed = true := by
  by_contra hl
  rcases h.unlisted (Bool.eq_false_iff.mpr hl) with hc | hg
  · rw [show (s.view id w).sub.cancelled = false from hcut] at hc
    cases hc
  · rw [show w.pc = .gone from hg] at hrun
    exact hrun rfl

/-- **A wanted event has been taken exactly if it is not on its way to the watch.** -/
theorem Tail.mem_iff (h : Tail N (s.view id w) n c d) (hf : FeedInv N s.feed)
    (hrun : w.pc.stage ≠ .ended)
    (hcut : (s.feed.disp.sub w.sub).cancelled = false) (he : e ∈ s.feed.stream)
    (hw : w.wants e = true) (hle : e.rev ≤ s.feed.disp.latestRev) :
    e ∈ (s.view id w).caughtUp n ++ (s.view id w).taken c ↔
      ¬ (e ∈ w.unread s.feed.stream ∨ e ∈ s.inTransit w ∨
        w.boundary < e.rev ∧ e.rev ∈ s.feed.skipped) := by
  rw [List.mem_append, Tail.mem_caughtUp he hw, Tail.mem_taken hw,
    h.mem_unread hf.logged hrun he]
  by_cases hb : e.rev ≤ w.boundary
  · have htransit : e ∉ s.inTransit w := by
      rw [Sys.inTransit, List.mem_filter, decide_eq_true_eq]
      omega
    simp only [hb, not_lt.mpr hb, htransit, true_and, false_and, and_false, or_false,
      not_lt]
  · rw [not_le] at hb
    by_cases hsk : e.rev ∈ s.feed.skipped
    · refine iff_of_false ?_ fun hn => hn (Or.inr (Or.inr ⟨hb, hsk⟩))
      rintro (hc | ht)
      · omega
      · exact (hf.toFeedCore.mem_released.mp ht.1).2.2.1 hsk
    · have hNb : N ≤ w.boundary := h.boundary.1
      have hpos : 1 ≤ w.boundary := h.pos
      have hrel : e ∈ s.feed.released := by
        have := hf.above
        rw [hf.latest] at hle
        exact hf.toFeedCore.mem_released.mpr ⟨he, by omega, hsk, by omega⟩
      rw [h.mem_inTransit (h.listed hrun hcut) hw hb hrel]
      simp only [hb, not_le.mpr hb, hrel, hsk, true_and, false_and, and_false, or_false, false_or,
        not_lt]

theorem View.Fed.subset_stream {v : View} (hfed : v.Fed N) (n c : ℤ) :
    ∀ e ∈ v.caughtUp n ++ v.taken c, e ∈ v.stream := by
  intro e he
  rcases List.mem_append.mp he with he | he
  · exact (List.mem_filter.mp he).1
  · exact (hfed.released e (List.mem_filter.mp he).1).1

theorem Tail.subset_stream (hf : FeedInv N s.feed) (id : ℤ) (w : Watch) (n c : ℤ) :
    ∀ e ∈ (s.view id w).caughtUp n ++ (s.view id w).taken c, e ∈ s.feed.stream :=
  (hf.fed id w).subset_stream n c

theorem Tail.ascending (hf : FeedInv N s.feed) (id : ℤ) (w : Watch) (n c : ℤ) :
    Ascending Event.rev ((s.view id w).caughtUp n ++ (s.view id w).taken c) := by
  have hfed := hf.fed id w
  refine List.pairwise_append.mpr
    ⟨hfed.logged.ascending.filter _, hfed.ascending.filter _, fun x hx y hy => ?_⟩
  have hxb := (List.mem_filter.mp hx).2
  have hyb := (List.mem_filter.mp hy).2
  simp only [Bool.and_eq_true, decide_eq_true_eq] at hxb hyb
  omega

theorem Logged.mem_map_proto {l m : List Event} (hl : Logged l) (hm : ∀ x ∈ m, x ∈ l)
    (he : e ∈ l) : eventToProto e ∈ m.map eventToProto ↔ e ∈ m := by
  refine ⟨fun h => ?_, List.mem_map_of_mem⟩
  obtain ⟨x, hx, heq⟩ := List.mem_map.mp h
  have hrev : x.rev = e.rev := by
    rw [← hl.proto_rev x (hm x hx), ← hl.proto_rev e he, heq]
  exact hl.ascending.eq_of_eq (hm x hx) he hrev ▸ hx

theorem Logged.map_proto_rev {l m : List Event} (hl : Logged l) (hm : ∀ x ∈ m, x ∈ l) :
    (m.map eventToProto).map ProtoEvent.rev = m.map Event.rev := by
  rw [List.map_map]
  exact List.map_congr_left fun x hx => hl.proto_rev x (hm x hx)

end Places

/-- **A wanted event up to `latestRev` is sent or on its way**, and not both, as long as the watch
runs and is not cut loose. -/
theorem sent_iff_not_awaits {ok : Sys → Prop} {l : List Event} (hl : Logged l) {s : Sys}
    (hs : Reach Sys.step ok (.start l) s) {id : ℤ} {w : Watch}
    (hw : s.watches id = some w) (hrun : w.pc.stage ≠ .ended)
    (hcut : (s.feed.disp.sub w.sub).cancelled = false) {e : Event} (he : e ∈ s.feed.stream)
    (hwe : w.wants e = true) (hle : e.rev ≤ s.feed.disp.latestRev) :
    eventToProto e ∈ s.eventsSent id ↔ ¬ s.Awaits w e := by
  have hf := feedInv_reach hl hs
  rcases tail_reach hl hs hw with ⟨hpc, hsent⟩ | ⟨_, n, c, d, ht⟩
  · rw [show s.eventsSent id = [] from hsent]
    refine iff_of_false List.not_mem_nil fun hn => hn (Or.inl ?_)
    rw [Watch.unread, show w.pc = .spawned from hpc]
    exact he
  · have hmem := ht.mem_iff hf hrun hcut he hwe hle
    obtain ⟨rest, heq, hover⟩ := ht.sent
    rw [hover hrun, List.append_nil] at heq
    change s.eventsSent id ++ w.pc.hand = _ at heq
    have hsub := Tail.subset_stream hf id w n c
    rw [← hf.logged.mem_map_proto hsub he, ← heq, List.mem_append] at hmem
    -- nothing is both sent and in hand
    have hdisj : eventToProto e ∈ s.eventsSent id → eventToProto e ∉ w.pc.hand := by
      have hasc : ((s.eventsSent id ++ w.pc.hand).map ProtoEvent.rev).Pairwise (· < ·) := by
        rw [heq, hf.logged.map_proto_rev hsub]
        exact List.pairwise_map.mpr (Tail.ascending hf id w n c)
      rw [List.pairwise_map, List.pairwise_append] at hasc
      exact fun h1 h2 => lt_irrefl _ (hasc.2.2 _ h1 _ h2)
    rw [Sys.Awaits]
    tauto

end REtcd.Server
