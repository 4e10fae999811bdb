import REtcd.Server.Complete

/-!
# What the dispatcher skips

A revision whose event does not arrive is given up when too many later events are held back.  This
is the only way for a live watch to miss an event: `no_silent_skip` says that a wanted event below
one that was sent has been sent as well, or the reorder buffer overflowed while it was missing.

An event that was given up is never sent (`skipped_unsent`), and the watch is not told
(`flush_skips`).
-/

namespace REtcd.Server

open Base Store

/-! ### Given up -/

section Runs

variable {ok : Sys → Prop} {s₀ s s' : Sys}

/-- A revision was given up because the reorder buffer overflowed while its event was missing. -/
theorem skipped_cause (hs : Reach Sys.step ok s₀ s) (h₀ : s₀.feed.skipped = []) {r : ℤ}
    (hr : r ∈ s.feed.skipped) :
    ∃ s₁, Reach Sys.step ok s₀ s₁ ∧ Reach Sys.step ok s₁ s ∧
      maxPendingEvents < s₁.feed.disp.pending.size ∧ s₁.feed.disp.nextRev ≤ r ∧
      r ∉ s₁.feed.disp.pending := by
  induction hs with
  | refl =>
    rw [h₀] at hr
    cases hr
  | @tail s s' a hs hstep hok ih =>
    -- it was given up before, or just now
    have hold : r ∈ s.feed.skipped → ∃ s₁, Reach Sys.step ok s₀ s₁ ∧ Reach Sys.step ok s₁ s' ∧
        maxPendingEvents < s₁.feed.disp.pending.size ∧ s₁.feed.disp.nextRev ≤ r ∧
        r ∉ s₁.feed.disp.pending := by
      intro hr
      obtain ⟨s₁, h₁, h₂, h₃⟩ := ih hr
      exact ⟨s₁, h₁, .tail a h₂ hstep hok, h₃⟩
    rcases (step_change hstep).skipped with heq | ⟨heq, hmany⟩
    · exact hold (heq ▸ hr)
    · rw [heq, mem_skipped_flush] at hr
      rcases hr with hr | ⟨hle, _, hnot⟩
      · exact hold hr
      · exact ⟨s, hs, .tail a .refl hstep hok, hmany, hle, hnot⟩

theorem skipped_mono (hs : Reach Sys.step ok s s') {r : ℤ} (hr : r ∈ s.feed.skipped) :
    r ∈ s'.feed.skipped := by
  refine hs.inv (I := fun s => r ∈ s.feed.skipped) hr fun s a s' hr hstep _ => ?_
  rcases (step_change hstep).skipped with heq | ⟨heq, _⟩
  · exact heq ▸ hr
  · rw [heq, mem_skipped_flush]
    exact Or.inl hr

theorem View.Step.keeps {id : ℤ} {v v' : View} (h : View.Step id v v') (hpc : v.w.pc ≠ .spawned) :
    v'.w.boundary = v.w.boundary ∧ v'.w.pc ≠ .spawned ∧ ∀ e ∈ v.stream, e ∈ v'.stream := by
  cases h with
  | commit ev _ => exact ⟨rfl, hpc, fun e he => List.mem_append_left _ he⟩
  | register k hp => exact absurd hp hpc
  | own ctxDone pc ch out hm => exact ⟨rfl, hm.ne_spawned.2, fun e he => he⟩
  | finish hp _ => exact ⟨rfl, fun h => (nomatch h), fun e he => he⟩
  | _ => exact ⟨rfl, hpc, fun e he => he⟩

/-- What the steps of its view keep of a watch holds of it from then on. -/
theorem view_reach (hwired : Wired s) (hs : Reach Sys.step ok s s') {id : ℤ} {w : Watch}
    (hw : s.watches id = some w) {P : View → Prop} (h : P (s.view id w))
    (hstep : ∀ v v', P v → View.Step id v v' → P v') :
    ∃ w', s'.watches id = some w' ∧ P (s'.view id w') := by
  refine (hs.inv (I := fun s' => Wired s' ∧ ∃ w', s'.watches id = some w' ∧ P (s'.view id w'))
    ⟨hwired, w, hw, h⟩ ?_).2
  rintro s₁ a s₂ ⟨hwired, v, hv, h⟩ hs _
  have hc := step_change hs
  obtain ⟨v', hv', hview⟩ := step_view hwired hc hv
  exact ⟨hwired.change hc, v', hv', hstep _ _ h hview⟩

theorem boundary_reach (hwired : Wired s) (hs : Reach Sys.step ok s s') {id : ℤ} {w : Watch}
    (hw : s.watches id = some w) (hpc : w.pc ≠ .spawned) :
    ∃ w', s'.watches id = some w' ∧ w'.boundary = w.boundary ∧ w'.pc ≠ .spawned ∧
      ∀ e ∈ s.feed.stream, e ∈ s'.feed.stream := by
  refine view_reach hwired hs hw (P := fun v => v.w.boundary = w.boundary ∧ v.w.pc ≠ .spawned ∧
    ∀ e ∈ s.feed.stream, e ∈ v.stream) ⟨rfl, hpc, fun e he => he⟩ ?_
  rintro v v' ⟨hb, hp, hsub⟩ hview
  obtain ⟨hb', hp', hsub'⟩ := hview.keeps hp
  exact ⟨hb'.trans hb, hp', fun e he => hsub' e (hsub e he)⟩

/-- **What was given up is never sent.** -/
theorem skipped_unsent {l : List Event} (hl : Logged l) (hs : Reach Sys.step ok (.start l) s)
    {id : ℤ} {w : Watch} (hw : s.watches id = some w) (hpc : w.pc ≠ .spawned) {e : Event}
    (he : e ∈ s.feed.stream) (hb : w.boundary < e.rev) (hr : e.rev ∈ s.feed.skipped) :
    eventToProto e ∉ s.eventsSent id := by
  have hf := feedInv_reach hl hs
  rcases tail_reach hl hs hw with ⟨hsp, _⟩ | ⟨_, n, c, d, ht⟩
  · exact absurd hsp hpc
  · intro hmem
    have hmem' := ht.mem_of_sent hmem
    rw [hf.logged.mem_map_proto (Tail.subset_stream hf id w n c) he, List.mem_append] at hmem'
    rcases hmem' with hc | ht
    · have hle := (List.mem_filter.mp hc).2
      simp only [Bool.and_eq_true, decide_eq_true_eq] at hle
      exact absurd hle.1.2 (not_le.mpr hb)
    · exact (hf.toFeedCore.mem_released.mp (List.mem_filter.mp ht).1).2.2.1 hr

end Runs

/-- **No silent skip but by overflow.**  If a live watch has been sent an event, it has been sent
every earlier event above its boundary that it wants, unless at some moment more than
`maxPendingEvents` events were held back and this one had not arrived. -/
theorem no_silent_skip (l : List Event) (hl : Logged l) (s : Sys)
    (hs : Reach Sys.step (fun _ => True) (.start l) s) (id : ℤ) (w : Watch)
    (hw : s.watches id = some w) (p : ProtoEvent) (hp : p ∈ s.eventsSent id) (e : Event)
    (he : e ∈ s.feed.stream) (hwe : w.wants e = true) (hb : w.boundary < e.rev)
    (hlt : e.rev < p.rev) :
    eventToProto e ∈ s.eventsSent id ∨
      ∃ s₁, Reach Sys.step (fun _ => True) (.start l) s₁ ∧ Reach Sys.step (fun _ => True) s₁ s ∧
        maxPendingEvents < s₁.feed.disp.pending.size ∧ s₁.feed.disp.nextRev ≤ e.rev ∧
        e.rev ∉ s₁.feed.disp.pending := by
  have hf := feedInv_reach hl hs
  by_cases hsk : e.rev ∈ s.feed.skipped
  · exact Or.inr (skipped_cause hs rfl hsk)
  rcases tail_reach hl hs hw with ⟨_, hsent⟩ | ⟨_, n, c, d, ht⟩
  · rw [show s.eventsSent id = [] from hsent] at hp
    cases hp
  obtain ⟨rest, heq, _⟩ := ht.sent
  change s.eventsSent id ++ w.pc.hand ++ rest = _ at heq
  rw [List.append_assoc] at heq
  have hsub := Tail.subset_stream hf id w n c
  -- the event that was sent came through the channel
  have hpmem : p ∈ ((s.view id w).caughtUp n ++ (s.view id w).taken c).map eventToProto := by
    rw [← heq]
    exact List.mem_append_left _ hp
  obtain ⟨x, hx, rfl⟩ := List.mem_map.mp hpmem
  rw [hf.logged.proto_rev x (hsub x hx)] at hlt
  have hxtaken : x ∈ s.feed.released ∧ x.rev ≤ c := by
    rcases List.mem_append.mp hx with hx | hx
    · have hle := (List.mem_filter.mp hx).2
      simp only [Bool.and_eq_true, decide_eq_true_eq] at hle
      have : x.rev ≤ w.boundary := hle.1.2
      omega
    · have hle := (List.mem_filter.mp hx).2
      simp only [Bool.and_eq_true, decide_eq_true_eq] at hle
      exact ⟨(List.mem_filter.mp hx).1, hle.2⟩
  -- so the earlier one did too
  have hrel : e ∈ s.feed.released := by
    have hN : (l.length : ℤ) ≤ w.boundary := ht.boundary.1
    have := (hf.toFeedCore.mem_released.mp hxtaken.1).2.2.2
    exact hf.toFeedCore.mem_released.mpr ⟨he, by omega, hsk, by omega⟩
  have hemem : eventToProto e ∈ s.eventsSent id ++ (w.pc.hand ++ rest) := by
    rw [heq]
    refine List.mem_map_of_mem (List.mem_append_right _ ((Tail.mem_taken hwe).mpr ⟨hrel, hb, ?_⟩))
    omega
  refine Or.inl ((List.mem_append.mp hemem).resolve_right fun hlate => ?_)
  have hasc : ((s.eventsSent id ++ (w.pc.hand ++ rest)).map ProtoEvent.rev).Pairwise (· < ·) := by
    rw [heq, hf.logged.map_proto_rev hsub]
    exact List.pairwise_map.mpr (Tail.ascending hf id w n c)
  rw [List.pairwise_map, List.pairwise_append] at hasc
  have hord := hasc.2.2 _ hp _ hlate
  rw [hf.logged.proto_rev x (hsub x hx), hf.logged.proto_rev e he] at hord
  omega

def outOfOrder : List Act :=
  [.create 0 ⟨[97], [0], 2⟩, .revision 0 true, .confirm 0 true, .register 1,
    .commit (createEvent [98] 2), .commit (createEvent [99] 3), .ingest (createEvent [99] 3),
    .dispatch 0, .ingest (createEvent [98] 2), .dispatch 0, .dispatch 1, .dispatch 0, .dispatch 0,
    .dispatch 1, .watch 1 .recv, .watch 1 .go, .watch 1 .go, .watch 1 .go, .watch 1 (.send true)]

theorem outOfOrder_sent :
    ∃ s w, Reach Sys.step (fun _ => True) (.start [createEvent [97] 1]) s ∧
      s.watches 1 = some w ∧ eventToProto (createEvent [99] 3) ∈ s.eventsSent 1 ∧
      (eventToProto (createEvent [98] 2) ∈ s.eventsSent 1 ∨
        ∃ s₁, Reach Sys.step (fun _ => True) (.start [createEvent [97] 1]) s₁ ∧
          Reach Sys.step (fun _ => True) s₁ s ∧ maxPendingEvents < s₁.feed.disp.pending.size ∧
          s₁.feed.disp.nextRev ≤ 2 ∧ 2 ∉ s₁.feed.disp.pending) := by
  obtain ⟨s, hs, h⟩ := exists_of_run Sys.step (fun _ => True) (.start [createEvent [97] 1])
    outOfOrder (fun s => (s.watches 1).any fun w : Watch => decide
      (eventToProto (createEvent [99] 3) ∈ s.eventsSent 1 ∧ createEvent [98] 2 ∈ s.feed.stream ∧
        w.wants (createEvent [98] 2) = true ∧ w.boundary < 2)) (by decide +kernel)
  obtain ⟨w, hw, h⟩ := (Option.any_eq_true _ _).mp h
  obtain ⟨hp, he, hwe, hb⟩ := of_decide_eq_true h
  exact ⟨s, w, hs, hw, hp, no_silent_skip _ logged_first s hs 1 w hw _ hp _ he hwe hb (by decide)⟩

/-! ### An overflow -/

def fromTwo (pc : Pc) : Watch := ⟨0, [97], [0], 2, false, 1, 1, pc⟩

/-- The writer of revision 2 has not called `ingest`, and the `k` events after it are held back; a
watch is live and has been sent nothing. -/
structure Stalled (lock : Lock) (k : ℕ) (s : Sys) : Prop where
  reach : Reach Sys.step (fun _ => True) (.start [createEvent [98] 1]) s
  stream : ∀ e ∈ s.feed.stream, e = createEvent [98] e.rev
  length : s.feed.stream.length = k + 2
  lock : s.feed.lock = lock
  nextRev : s.feed.disp.nextRev = 2
  missing : s.feed.disp.pending[(2 : ℤ)]? = none
  size : s.feed.disp.pending.size = k
  watch : s.watches 1 = some (fromTwo .selecting)
  subs : s.feed.disp.subs = {1}
  sub : s.feed.disp.sub 1 = ⟨[97], [0], [], false⟩
  sent : s.sentTo 1 = [⟨headerAt 1, 1, true, false, "", []⟩]

theorem logged_one : Logged [createEvent [98] 1] := .commit (l := []) .nil (by decide)

theorem stalled_zero : ∃ s, Stalled .free 0 s := by
  obtain ⟨s, hs, h⟩ := exists_of_run Sys.step (fun _ => True) (.start [createEvent [98] 1])
    [.create 0 ⟨[97], [0], 2⟩, .revision 0 true, .confirm 0 true, .register 1,
      .commit (createEvent [98] 2)]
    (fun s => decide ((∀ e ∈ s.feed.stream, e = createEvent [98] e.rev) ∧
      s.feed.stream.length = 0 + 2 ∧ s.feed.lock = .free ∧ s.feed.disp.nextRev = 2 ∧
      s.feed.disp.pending[(2 : ℤ)]? = none ∧ s.feed.disp.pending.size = 0 ∧
      s.watches 1 = some (fromTwo .selecting) ∧ s.feed.disp.subs = {1} ∧
      s.feed.disp.sub 1 = ⟨[97], [0], [], false⟩ ∧
      s.sentTo 1 = [⟨headerAt 1, 1, true, false, "", []⟩])) (by decide +kernel)
  obtain ⟨h1, h2, h3, h4, h5, h6, h7, h8, h9, h10⟩ := of_decide_eq_true h
  exact ⟨s, hs, h1, h2, h3, h4, h5, h6, h7, h8, h9, h10⟩

namespace Stalled

variable {lock : Lock} {k : ℕ} {s : Sys}

theorem appends (h : Stalled lock k s) : Feed.Appends s.feed.stream (createEvent [98] (k + 3)) := by
  have hlogged := (feedInv_reach logged_one h.reach).logged
  have hlen := h.length
  refine ⟨by rw [hlen]; push_cast; rfl, ⟨_, rfl, ?_, fun e he i hi => ?_⟩, fun _ => rfl⟩
  · exact StreamID.lt_iff.mpr (Or.inr ⟨rfl, by dsimp only [StreamID.zero]; omega⟩)
  · have hle := (hlogged.revs e he).2
    rw [h.stream e he] at hi
    cases hi
    exact StreamID.lt_iff.mpr (Or.inr ⟨rfl, by dsimp only; omega⟩)

theorem not_held (h : Stalled lock k s) : (k + 3 : ℤ) ∉ s.feed.disp.pending := by
  have hf := feedInv_reach logged_one h.reach
  have hlen := h.length
  rw [mem_iff_getElem?]
  intro hheld
  obtain ⟨e, he⟩ := Option.isSome_iff_exists.mp hheld
  obtain ⟨hrev, hmem, _⟩ := hf.pending _ e he
  have := (hf.logged.revs e hmem).2
  omega

theorem ingest (h : Stalled .free k s) : ∃ s', Stalled .drain (k + 1) s' := by
  obtain ⟨ev, hev⟩ : ∃ ev, ev = createEvent [98] (k + 3) := ⟨_, rfl⟩
  have hrev : ev.rev = k + 3 := by rw [hev]; rfl
  have happ : Feed.Appends s.feed.stream ev := hev ▸ h.appends
  have hhold : s.feed.disp.hold ev =
      some { s.feed.disp with pending := s.feed.disp.pending.insert ev.rev ev } := by
    rw [Dispatcher.hold_eq (by omega) (by rw [h.nextRev]; decide), if_neg]
    rw [h.nextRev]
    omega
  have hcommit : s.step (.commit ev) = some { s with feed := { s.feed with
      stream := s.feed.stream ++ [ev]
      inflight := ev :: s.feed.inflight } } := by
    simp [Sys.step, Feed.commit, happ]
  have hingest : Sys.step { s with feed := { s.feed with
      stream := s.feed.stream ++ [ev]
      inflight := ev :: s.feed.inflight } } (.ingest ev) = some { s with feed := { s.feed with
        stream := s.feed.stream ++ [ev]
        inflight := s.feed.inflight
        disp := { s.feed.disp with pending := s.feed.disp.pending.insert ev.rev ev }
        lock := .drain } } := by
    simp [Sys.step, Feed.ingest, h.lock, hhold]
  refine ⟨_, (h.reach.tail _ hcommit trivial).tail _ hingest trivial, fun e he => ?_, ?_, rfl,
    h.nextRev, ?_, ?_, h.watch, h.subs, h.sub, h.sent⟩
  · rcases List.mem_append.mp he with he | he
    · exact h.stream e he
    · rw [List.mem_singleton.mp he, hrev, hev]
  · rw [List.length_append, h.length]
    rfl
  · dsimp only
    rw [getElem?_insert, if_neg (by omega)]
    exact h.missing
  · dsimp only
    rw [Std.ExtTreeMap.size_insert, if_neg (by rw [hrev]; exact h.not_held), h.size]

theorem drain (h : Stalled .drain k s) (hk : k ≤ maxPendingEvents) : ∃ s', Stalled .free k s' := by
  have hstep : s.step (.dispatch 0) = some { s with feed := { s.feed with lock := .free } } := by
    simp [Sys.step, Feed.dispatch, h.lock, h.nextRev, h.missing, h.size, not_lt.mpr hk]
  exact ⟨_, h.reach.tail _ hstep trivial, h.stream, h.length, rfl, h.nextRev, h.missing, h.size,
    h.watch, h.subs, h.sub, h.sent⟩

end Stalled

theorem stalled_full (k : ℕ) (hk : k ≤ maxPendingEvents) : ∃ s, Stalled .free k s := by
  induction k with
  | zero => exact stalled_zero
  | succ k ih =>
    obtain ⟨s, hs⟩ := ih (by omega)
    obtain ⟨s₁, hs₁⟩ := hs.ingest
    exact hs₁.drain hk

theorem step_deliver (s : Sys) {ev : Event} (todo : Finset ℕ) {caller : Caller} {k : ℕ}
    (hl : s.feed.lock = .fan ev todo caller) (hk : k ∈ todo) :
    s.step (.dispatch k) = some { s with feed := { s.feed with
      disp := s.feed.disp.deliver ev k
      lock := .fan ev (todo.erase k) caller } } := by
  simp [Sys.step, Feed.dispatch, hl, hk, Finset.ne_empty_of_mem hk]

/-- The buffer overflows: revision 2 is given up, and an event after it is put into the channel. -/
theorem Stalled.flush {k : ℕ} {s : Sys} (h : Stalled .drain k s) (hk : maxPendingEvents < k) :
    ∃ s' ev, Reach Sys.step (fun _ => True) (.start [createEvent [98] 1]) s' ∧
      s'.watches 1 = some (fromTwo .selecting) ∧
      s'.feed.disp.sub 1 = ⟨[97], [0], [ev], false⟩ ∧
      s'.sentTo 1 = [⟨headerAt 1, 1, true, false, "", []⟩] ∧ 2 ∈ s'.feed.skipped ∧
      createEvent [98] 2 ∈ s'.feed.stream ∧ (eventToProto ev).rev = ev.rev ∧ 2 < ev.rev := by
  have hf := feedInv_reach logged_one h.reach
  have hlock := hf.lock
  rw [LockInv, h.lock, h.nextRev] at hlock
  -- what is held back is above revision 2
  have hheld : ∀ r ∈ s.feed.disp.pending.keys, ∃ e, s.feed.disp.pending[r]? = some e ∧ 2 < r := by
    intro r hr
    rw [mem_keys_iff_getElem?] at hr
    obtain ⟨e, he⟩ := Option.isSome_iff_exists.mp hr
    obtain ⟨_, _, hlt, _⟩ := hf.pending r e he
    refine ⟨e, he, ?_⟩
    have hne : r ≠ 2 := by
      rintro rfl
      rw [h.missing] at he
      cases he
    omega
  obtain ⟨r, revs, hkeys⟩ : ∃ r revs, s.feed.disp.pending.keys = r :: revs := by
    refine List.exists_cons_of_length_pos ?_
    rw [Std.ExtTreeMap.length_keys, h.size]
    omega
  obtain ⟨ev, hev, hr⟩ := hheld r (by rw [hkeys]; exact List.mem_cons_self)
  obtain ⟨hrev, hmem, _⟩ := hf.pending r ev hev
  have hflush : s.step (.dispatch 0) = some { s with feed := s.feed.flush } := by
    simp [Sys.step, Feed.dispatch, h.lock, h.nextRev, h.missing, h.size, hk]
  obtain ⟨last, hgl⟩ : ∃ last, s.feed.disp.pending.keys.getLast? = some last :=
    Option.isSome_iff_exists.mp (by rw [hkeys]; rfl)
  have hlast : s.feed.flush.lock = .flush (r :: revs) last := by
    rw [Feed.flush, hgl, hkeys]
    rfl
  have hrelease : Sys.step { s with feed := s.feed.flush } (.dispatch 0) =
      some { s with feed := s.feed.flush.release r ev (.flush revs last) } := by
    have hpending : s.feed.flush.disp.pending[r]? = some ev := hev
    simp [Sys.step, Feed.dispatch, hlast, hpending]
  have hdeliver := step_deliver { s with feed := s.feed.flush.release r ev (.flush revs last) }
    s.feed.disp.subs (k := 1) rfl (by rw [h.subs]; exact Finset.mem_singleton_self 1)
  refine ⟨_, ev, ((h.reach.tail _ hflush trivial).tail _ hrelease trivial).tail _ hdeliver trivial,
    h.watch, ?_, h.sent, ?_, ?_, hf.logged.proto_rev ev hmem, hrev ▸ hr⟩
  · have hm : matchesWatch ev.key [97] [0] = true := by
      rw [h.stream ev hmem]
      rfl
    have hsub : (s.feed.flush.release r ev (.flush revs last)).disp.sub 1 =
        ⟨[97], [0], [], false⟩ := by
      obtain ⟨n, cks, heq, _⟩ := Dispatcher.release_eq ev
        { s.feed.disp with pending := s.feed.disp.pending.erase r }
      change ({ s.feed.disp with pending := s.feed.disp.pending.erase r }.release ev).sub 1 = _
      rw [heq]
      exact h.sub
    change ((s.feed.flush.release r ev (.flush revs last)).disp.deliver ev 1).sub 1 = _
    rw [Dispatcher.deliver, hsub]
    dsimp only
    rw [if_pos hm, if_pos (by decide)]
    simp only [Function.update_self]
    rfl
  · change (2 : ℤ) ∈ s.feed.flush.skipped
    refine mem_skipped_flush.mpr (Or.inr ⟨h.nextRev.le, ?_, ?_⟩)
    · obtain ⟨_, _, hlt⟩ := hheld last (List.mem_of_getLast? hgl)
      rw [hgl]
      exact hlt.le
    · rw [mem_iff_getElem?, h.missing]
      simp
  · change createEvent [98] 2 ∈ s.feed.stream
    have hlen := h.length
    obtain ⟨e, he, her⟩ := hf.logged.exists_rev 2 (by decide) (by omega)
    rw [← her, ← h.stream e he]
    exact he

theorem exists_send_one {s : Sys} {id : ℤ} {w : Watch} (ev : Event) (hw : s.watches id = some w)
    (hpc : w.pc = .selecting) (hch : (s.feed.disp.sub w.sub).ch = [ev])
    (hb : w.boundary < ev.rev) (hstart : w.startRevision ≤ ev.rev) :
    ∃ s' rev, Reach (Sys.own id) (fun _ => True) s s' ∧ s'.watches id = some w ∧
      OnlyChannels s.feed s'.feed ∧
      s'.sent = s.sent ++ [(w.conn, watchResponse id rev false [eventToProto ev])] := by
  have hadd : w.add [] ev = [eventToProto ev] := by
    rw [Watch.add, if_neg (by omega)]
    rfl
  obtain ⟨s₁, h₁, hw₁, hsub₁, hf₁, hsent₁⟩ := exists_own hw
    (show w.step (s.shared w) id (s.feed.disp.sub w.sub) .recv =
      some (.collecting [eventToProto ev], [], []) by simp [Watch.step, hpc, hch, hadd])
  obtain ⟨s₂, h₂, hw₂, _, hf₂, hsent₂⟩ := exists_own hw₁
    (show Watch.step (s₁.shared _) id { w with pc := .collecting [eventToProto ev] }
      (s₁.feed.disp.sub w.sub) .go = some (.stamping [eventToProto ev] false .live, [], []) by
      simp [Watch.step, hsub₁, Watch.collected, maxSendBatch])
  obtain ⟨s₃, h₃, hw₃, _, hf₃, hsent₃⟩ := exists_own hw₂
    (show Watch.step (s₂.shared _) id { w with pc := .stamping [eventToProto ev] false .live }
      (s₂.feed.disp.sub w.sub) .go = some (.sending (watchResponse id s₂.feed.disp.latestRev false
        [eventToProto ev]) .live, (s₂.feed.disp.sub w.sub).ch, []) from rfl)
  obtain ⟨s₄, h₄, hw₄, _, hf₄, hsent₄⟩ := exists_own hw₃
    (show Watch.step (s₃.shared _) id { w with pc := .sending (watchResponse id
      s₂.feed.disp.latestRev false [eventToProto ev]) .live } (s₃.feed.disp.sub w.sub)
      (.send true) = some (.selecting, (s₃.feed.disp.sub w.sub).ch, [watchResponse id
        s₂.feed.disp.latestRev false [eventToProto ev]]) from rfl)
  refine ⟨s₄, s₂.feed.disp.latestRev, .tail _ (.tail _ (.tail _ (.tail _ .refl h₁ trivial) h₂ trivial)
    h₃ trivial) h₄ trivial, ?_, ((hf₁.trans hf₂).trans hf₃).trans hf₄, ?_⟩
  · rw [hw₄, ← hpc]
  · rw [hsent₄, hsent₃, hsent₂, hsent₁]
    simp

/-- **The overflow skips an event silently**: with one event missing and `maxPendingEvents + 1`
later ones held back, the later ones are released, and a live watch is sent one of them.  The
missing event is in the range of the watch and committed, but it is not sent then or later, and the
watch is not canceled. -/
theorem flush_skips :
    ∃ s w p, Reach Sys.step (fun _ => True) (.start [createEvent [98] 1]) s ∧
      s.watches 1 = some w ∧ w.pc = .selecting ∧ p ∈ s.eventsSent 1 ∧
      createEvent [98] 2 ∈ s.feed.stream ∧ w.wants (createEvent [98] 2) = true ∧
      w.boundary < 2 ∧ 2 < p.rev ∧ (∀ r ∈ s.sentTo 1, r.canceled = false) ∧
      ∀ s', Reach Sys.step (fun _ => True) s s' →
        eventToProto (createEvent [98] 2) ∉ s'.eventsSent 1 := by
  obtain ⟨s₀, h₀⟩ := stalled_full maxPendingEvents le_rfl
  obtain ⟨s₁, h₁⟩ := h₀.ingest
  obtain ⟨s₂, ev, hs₂, hw₂, hsub, hsent₂, hskip, hmem, hproto, hlt⟩ := h₁.flush (Nat.lt_succ_self _)
  obtain ⟨s, rev, hs, hw, ⟨sub, hfeed⟩, hsent⟩ := exists_send_one ev hw₂ rfl
    (by rw [show (fromTwo .selecting).sub = 1 from rfl, hsub])
    (show (1 : ℤ) < ev.rev by omega) (show (2 : ℤ) ≤ ev.rev by omega)
  have hreach := hs₂.trans (reach_own hs)
  have hto : s.sentTo 1 = s₂.sentTo 1 ++ [watchResponse 1 rev false [eventToProto ev]] := by
    rw [Sys.sentTo, hsent, List.map_append, List.filter_append]
    rfl
  rw [hsent₂] at hto
  refine ⟨s, _, eventToProto ev, hreach, hw, rfl, ?_, ?_, by decide, by decide, by omega, ?_, ?_⟩
  · rw [Sys.eventsSent, hto]
    simp [watchResponse]
  · rw [hfeed]
    exact hmem
  · rw [hto]
    simp [watchResponse]
  · intro s' hs'
    obtain ⟨w', hw', hb', hpc', hsub'⟩ :=
      boundary_reach (wired_reach hreach) hs' hw (by simp [fromTwo])
    have hmem' : createEvent [98] 2 ∈ s.feed.stream := by
      rw [hfeed]
      exact hmem
    have hskip' : (2 : ℤ) ∈ s.feed.skipped := by
      rw [hfeed]
      exact hskip
    refine skipped_unsent logged_one (hreach.trans hs') hw' hpc' (hsub' _ hmem') ?_
      (skipped_mono hs' hskip')
    rw [hb']
    decide

end REtcd.Server
