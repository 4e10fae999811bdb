import REtcd.Server.FromNow

/-!
# The revisions in the headers of a watch

The response that confirms a watch has the revision of the Redis counter in its header, the later
ones that of the dispatcher, which has to release a write first.  So the revision falls if a watch
is confirmed while a write is committed and not released, and then sends something
(`headers_fall`).

The revisions rise as long as no watch stamps a response while a write that its confirmation has
counted is still to be released (`headers_rising`).
-/

namespace REtcd.Server

open Base Store

/-- The revisions in the headers do not fall; a Canceled response is left out. -/
def Rising (rs : List WatchResponse) : Prop :=
  ((rs.filter fun r => r.canceled = false).map (·.header.revision)).Pairwise (· ≤ ·)

instance (rs : List WatchResponse) : Decidable (Rising rs) :=
  inferInstanceAs (Decidable (List.Pairwise _ _))

/-- The event is still to be released: its writer has not called `ingest`, or never will, or it is
held back, and nothing after it has been released. -/
def Feed.awaited (f : Feed) (e : Event) : Bool :=
  decide (e ∈ f.inflight ∨ e ∈ f.lost ∨ f.disp.pending[e.rev]? = some e) &&
    f.released.all fun x => x.rev < e.rev

/-- A watch stamps an event or progress response only if no write that its Created response has
counted is still to be released. -/
def stampsReleased (s : Sys) : Act → Bool
  | .watch id .go =>
    match (s.watches id).map Watch.pc with
    | some (.stamping _ false _) =>
      (s.sentTo id).all fun r => !r.created ||
        s.feed.stream.all fun e => !(decide (e.rev ≤ r.header.revision) && s.feed.awaited e)
    | _ => true
  | _ => true

/-! ### One more response -/

section Rising

variable {rs : List WatchResponse} {r : WatchResponse}

theorem rising_append_singleton : Rising (rs ++ [r]) ↔
    Rising rs ∧ (r.canceled = false →
      ∀ r' ∈ rs, r'.canceled = false → r'.header.revision ≤ r.header.revision) := by
  rw [Rising, Rising, List.filter_append, List.map_append, List.pairwise_append,
    List.forall_mem_map]
  cases hr : r.canceled
  · simp [hr]
  · simp [hr]

end Rising

/-! ### The invariant -/

/-- Every event and progress response has a revision of the past, and what a watch is about to send
is not below what it has sent.  Before the watch starts, nothing but answers to cancel requests is
sent. -/
structure RisingInv (t : Talk) : Prop where
  rising : Rising t.sent
  silent : t.watch = none → ∀ r ∈ t.sent, r.canceled = true
  past : ∀ r ∈ t.sent, r.canceled = false → r.created = false → r.header.revision ≤ t.latestRev
  sending : ∀ c r next, t.watch = some (c, .sending r next) → r.created = false ∧
    r.header.revision ≤ t.latestRev ∧ (r.canceled = false →
      ∀ r' ∈ t.sent, r'.canceled = false → r'.header.revision ≤ r.header.revision)

namespace RisingInv

variable {t t' u : Talk} {id : ℤ}

theorem within (h : RisingInv u) (hw : t.Within u) : RisingInv t := by
  have hrev := hw.latestRev
  refine ⟨hw.sent ▸ h.rising, ?_, ?_, ?_⟩
  · rw [hw.sent, hw.watch]
    exact h.silent
  · rw [hw.sent]
    exact fun r hr hc hn => (h.past r hr hc hn).trans hrev
  · rw [hw.sent, hw.watch]
    intro c r next hpc
    obtain ⟨hcreated, hle, hall⟩ := h.sending c r next hpc
    exact ⟨hcreated, hle.trans hrev, hall⟩

theorem streams (h : RisingInv t) (holds acks making : Set ℕ) :
    RisingInv { t with holds := holds, acks := acks, making := making } :=
  ⟨h.rising, h.silent, h.past, h.sending⟩

theorem move (h : RisingInv t) (c : ℕ) (pc : Pc) (holds : Set ℕ)
    (hpc : ∀ r next, pc = .sending r next → r.created = false ∧ r.header.revision ≤ t.latestRev ∧
      (r.canceled = false →
        ∀ r' ∈ t.sent, r'.canceled = false → r'.header.revision ≤ r.header.revision)) :
    RisingInv { t with watch := some (c, pc), holds := holds } := by
  refine ⟨h.rising, fun hnone => (by cases hnone), h.past, ?_⟩
  intro c' r next heq
  obtain ⟨_, rfl⟩ := Prod.mk.inj (Option.some.inj heq)
  exact hpc r next rfl

theorem confirm (h : RisingInv t) (hnone : t.watch = none) (c : ℕ) (ok : Bool) (rev : ℤ)
    (making : Set ℕ) :
    RisingInv { t with
      sent := t.sent ++ sendOut ok ⟨headerAt rev, id, true, false, "", []⟩
      watch := some (c, .spawned)
      making := making } := by
  have hsilent := h.silent hnone
  refine ⟨?_, fun hnone => (by cases hnone), ?_, fun c' r next heq => (by cases heq)⟩
  · cases ok with
    | false => simpa [sendOut] using h.rising
    | true =>
      refine rising_append_singleton.mpr ⟨h.rising, fun _ r' hr' hc => ?_⟩
      rw [hsilent r' hr'] at hc
      cases hc
  · intro r hr hc hn
    rcases List.mem_append.mp hr with hr | hr
    · exact h.past r hr hc hn
    · exact absurd hn (by simp [forall_sendOut (P := fun r => r.created = true) rfl r hr])

theorem reply (h : RisingInv t) (ok : Bool) (acks : Set ℕ) :
    RisingInv { t with
      sent := t.sent ++ sendOut ok ⟨headerAt 0, id, false, true, "", []⟩
      acks := acks } := by
  have hout : ∀ r ∈ sendOut ok ⟨headerAt 0, id, false, true, "", []⟩, r.canceled = true :=
    forall_sendOut rfl
  -- an answer to a cancel request does not count
  have hmem : ∀ r ∈ t.sent ++ sendOut ok ⟨headerAt 0, id, false, true, "", []⟩,
      r.canceled = false → r ∈ t.sent := by
    intro r hr hc
    rcases List.mem_append.mp hr with hr | hr
    · exact hr
    · rw [hout r hr] at hc
      cases hc
  refine ⟨?_, ?_, fun r hr hc => h.past r (hmem r hr hc) hc, ?_⟩
  · cases ok with
    | false => simpa [sendOut] using h.rising
    | true => exact rising_append_singleton.mpr ⟨h.rising, fun hc => (by cases hc)⟩
  · intro hnone r hr
    rcases List.mem_append.mp hr with hr | hr
    · exact h.silent hnone r hr
    · exact hout r hr
  · intro c r next hpc
    obtain ⟨hcreated, hle, hall⟩ := h.sending c r next hpc
    exact ⟨hcreated, hle, fun hc r' hr' hc' => hall hc r' (hmem r' hr' hc') hc'⟩

theorem send (h : RisingInv t) {c : ℕ} {r : WatchResponse} {next : Next}
    (hpc : t.watch = some (c, .sending r next)) :
    RisingInv { t with sent := t.sent ++ [r], watch := some (c, next.pc) } := by
  obtain ⟨hcreated, hle, hall⟩ := h.sending c r next hpc
  refine ⟨rising_append_singleton.mpr ⟨h.rising, hall⟩, fun hnone => (by cases hnone), ?_, ?_⟩
  · intro r' hr' hc hn
    rcases List.mem_append.mp hr' with hr' | hr'
    · exact h.past r' hr' hc hn
    · rw [List.mem_singleton.mp hr']
      exact hle
  · intro c' r' next' heq
    obtain ⟨_, heq⟩ := Prod.mk.inj (Option.some.inj heq)
    exact absurd heq (Next.pc_ne_sending next next' r')

end RisingInv

/-! ### What a confirmation has counted -/

/-- A revision that the counter has had is the dispatcher's, or a write up to it is still to be
released. -/
theorem FeedInv.le_latestRev {N rev : ℤ} {f : Feed} (h : FeedInv N f)
    (hrev : rev ≤ max 1 f.stream.length)
    (hreleased : ∀ e ∈ f.stream, e.rev ≤ rev → f.awaited e = false) : rev ≤ f.disp.latestRev := by
  by_contra hlt
  rw [h.latest] at hlt
  have hbase := h.base
  have habove := h.above
  obtain ⟨e, he, her⟩ := h.logged.exists_rev rev (by omega) (by omega)
  have hfrontier : f.frontier < e.rev := by omega
  have hawaited : f.awaited e = true := by
    rw [Feed.awaited, Bool.and_eq_true, decide_eq_true_eq, List.all_eq_true]
    refine ⟨h.cover e he hfrontier, fun x hx => decide_eq_true ?_⟩
    exact (h.toFeedCore.mem_released.mp hx).2.2.2.trans_lt hfrontier
  rw [hreleased e he her.le] at hawaited
  cases hawaited

theorem stampsReleased_stamping {s : Sys} {id : ℤ} {c : ℕ} {matched : List ProtoEvent} {next : Next}
    (hg : stampsReleased s (.watch id .go) = true)
    (hpc : (s.talk id).watch = some (c, .stamping matched false next)) :
    ∀ r ∈ s.sentTo id, r.created = true → ∀ e ∈ s.feed.stream, e.rev ≤ r.header.revision →
      s.feed.awaited e = false := by
  obtain ⟨w, hw, heq⟩ := Option.map_eq_some_iff.mp hpc
  have hwpc : w.pc = .stamping matched false next := (Prod.mk.inj heq).2
  rw [stampsReleased, hw, Option.map_some, hwpc] at hg
  intro r hr hcreated e he hle
  have hall := List.all_eq_true.mp hg r hr
  rw [hcreated, Bool.not_true, Bool.false_or] at hall
  have hnot := List.all_eq_true.mp hall e he
  rw [decide_eq_true hle, Bool.true_and] at hnot
  exact Bool.not_eq_true' _ ▸ hnot

theorem confirm_sent {s s' : Sys} {id : ℤ} {c : ℕ} {ok : Bool} (hs : s.step (.confirm c ok) = some s')
    {r : WatchResponse} (hr : r ∈ s'.sentTo id) :
    r ∈ s.sentTo id ∨ ∃ id' cr, (s.conns c).pc = .confirming id' cr r.header.revision := by
  rw [Sys.step, Sys.connStep] at hs
  split at hs
  · rename_i id' cr rev hpc
    rw [send_eq] at hs
    cases hs
    change r ∈ Sys.sentTo { s with sent := s.sent ++ List.map _ _ } id at hr
    rw [sentTo_append, List.mem_append, List.mem_filter] at hr
    refine hr.imp_right fun hout => ⟨id', cr, ?_⟩
    rw [hpc, forall_sendOut (P := fun r => r.header.revision = rev) rfl r hout.1]
  · cases hs

/-- No revision that is read for a new watch, or is in a Created response, is above the counter, and
the revisions on the watch `id` rise. -/
structure HeadersInv (N id : ℤ) (s : Sys) : Prop where
  feed : FeedInv N s.feed
  confirming : ∀ c id cr rev, (s.conns c).pc = .confirming id cr rev →
    rev ≤ max 1 s.feed.stream.length
  created : ∀ r ∈ s.sentTo id, r.created = true → r.header.revision ≤ max 1 s.feed.stream.length
  rising : RisingInv (s.talk id)

section Steps

variable {N id : ℤ} {s s' : Sys} {act : Act}

/-- **One step keeps the revisions rising**, if the guard lets it through. -/
theorem HeadersInv.talk_step (h : HeadersInv N id s) (hg : stampsReleased s act = true) {t' : Talk}
    (hstep : Talk.Step id (s.talk id) act t') : RisingInv t' := by
  have hr := h.rising
  cases hstep with
  | quiet _ _ hw => exact hr.within hw
  | create c cr _ _ _ hw => exact (hr.streams _ _ _).within hw
  | confirm c ok rev _ hnone _ hw => exact (hr.confirm hnone c ok rev ∅).within hw
  | cancel c _ _ _ hw => exact (hr.streams _ _ _).within hw
  | reply c ok _ _ hw => exact (hr.reply ok _).within hw
  | register c pc _ _ hpc hw =>
    refine (hr.move c pc _ fun r next heq => ?_).within hw
    rcases hpc with rfl | rfl <;> cases heq
  | finish c _ _ hw =>
    exact (hr.move c .gone _ fun r next heq => (by cases heq)).within hw
  | own w sh sub a pc ch out _ hwatch hrev hs hw =>
    rcases Watch.step_sent hs with rfl | ⟨_, r, next, hpc, rfl, rfl⟩
    · rw [List.append_nil] at hw
      refine (hr.move w.conn pc _ fun r next heq => ?_).within hw
      obtain ⟨rfl, matched, canceled, hst, rfl⟩ := Watch.step_stamped hs heq
      refine ⟨rfl, hrev.le, fun hc r' hr' hc' => ?_⟩
      obtain rfl : canceled = false := hc
      change r'.header.revision ≤ sh.latestRev
      rw [hrev]
      -- what a Created response has counted is released by the guard, the others are below anyway
      cases hcreated : r'.created with
      | false => exact hr.past r' hr' hc' hcreated
      | true =>
        exact h.feed.le_latestRev (h.created r' hr' hcreated)
          (stampsReleased_stamping hg (hst ▸ hwatch) r' hr' hcreated)
    · exact (hr.send (hpc ▸ hwatch)).within hw

theorem HeadersInv.created_step (h : HeadersInv N id s) (hs : s.step act = some s')
    (hstep : Talk.Step id (s.talk id) act (s'.talk id)) {r : WatchResponse} (hr : r ∈ s'.sentTo id)
    (hcreated : r.created = true) : r.header.revision ≤ max 1 s.feed.stream.length := by
  have hsame : ∀ {t : Talk}, (s'.talk id).Within t → t.sent = s.sentTo id →
      r.header.revision ≤ max 1 s.feed.stream.length := by
    intro t hw ht
    refine h.created r ?_ hcreated
    rw [← ht, ← hw.sent]
    exact hr
  cases hstep with
  | quiet _ _ hw => exact hsame hw rfl
  | create c cr _ _ _ hw => exact hsame hw rfl
  | confirm c ok rev _ _ _ _ =>
    rcases confirm_sent hs hr with hr | ⟨id', cr, hpc⟩
    · exact h.created r hr hcreated
    · exact h.confirming c id' cr _ hpc
  | cancel c _ _ _ hw => exact hsame hw rfl
  | reply c ok _ _ hw =>
    rw [show s'.sentTo id = _ from hw.sent] at hr
    rcases List.mem_append.mp hr with hr | hr
    · exact h.created r hr hcreated
    · rw [forall_sendOut (P := fun r => r.created = false) rfl r hr] at hcreated
      cases hcreated
  | register c pc _ _ _ hw => exact hsame hw rfl
  | finish c _ _ hw => exact hsame hw rfl
  | own w sh sub a pc ch out _ hwatch _ hown hw =>
    rw [show s'.sentTo id = _ from hw.sent] at hr
    rcases List.mem_append.mp hr with hr | hr
    · exact h.created r hr hcreated
    · rcases Watch.step_sent hown with rfl | ⟨_, r', next, hpc, _, rfl⟩
      · cases hr
      · rw [List.mem_singleton.mp hr, (h.rising.sending w.conn r' next (hpc ▸ hwatch)).1] at hcreated
        cases hcreated

theorem HeadersInv.step (h : HeadersInv N id s) (hid : id ≠ invalidWatchID) (hwired : Wired s)
    (hg : stampsReleased s act = true) (hs : s.step act = some s') : HeadersInv N id s' := by
  have hc := step_change hs
  have hstep := step_talk hwired hid hs
  have hlen : (s.feed.stream.length : ℤ) ≤ s'.feed.stream.length := by
    rcases hc.stream with heq | ⟨ev, _, heq⟩ <;> rw [heq]
    rw [List.length_append]
    push_cast
    omega
  refine ⟨h.feed.change hc, fun c id' cr rev hpc => ?_, fun r hr hcreated => ?_, h.talk_step hg hstep⟩
  · rcases (step_requests hs).1 c with heq | hnone | ⟨cr', heq⟩ | ⟨id', cr', ok, _, _, heq⟩
    · have := h.confirming c id' cr rev (heq ▸ hpc)
      omega
    · rw [hpc] at hnone
      cases hnone
    · rw [hpc] at heq
      cases heq
    · rw [hpc] at heq
      cases heq
      split_ifs with hok
      · rw [Sys.currentRevision]
        split_ifs <;> omega
      · omega
  · have := h.created_step hs hstep hr hcreated
    omega

end Steps

/-- **The revisions in the headers of a watch rise**, in every interleaving in which no watch stamps an
event or progress response while a write that its Created response has counted is still to be
released: not ingested, or held back, with nothing released after it. -/
theorem headers_rising (l : List Event) (hl : Logged l) (s : Sys)
    (hs : Reach (guarded (fun s act => stampsReleased s act = true) Sys.step) (fun _ => True)
      (.start l) s) (id : ℤ) (hid : id ≠ invalidWatchID) : Rising (s.sentTo id) := by
  refine (hs.inv (I := fun s => Wired s ∧ HeadersInv l.length id s) ⟨wired_primed l _ _, ?_⟩
    ?_).2.rising.rising
  · refine ⟨feedInv_start hl, fun c id cr rev hpc => (nomatch hpc), fun r hr => (nomatch hr),
      ⟨List.Pairwise.nil, fun _ r hr => (nomatch hr), fun r hr => (nomatch hr),
        fun c r next h => (nomatch h)⟩⟩
  · rintro s act s' ⟨hwired, h⟩ hgs _
    obtain ⟨hg, hs⟩ := guarded_eq_some hgs
    exact ⟨hwired.change (step_change hs), h.step hid hwired hg hs⟩

/-- A write is committed, and before it is released a watch is created, confirmed and registered. -/
def confirmAhead : List Act :=
  [.commit (createEvent [98] 2), .create 0 ⟨[97], [], 0⟩, .revision 0 true, .confirm 0 true,
    .register 1]

theorem headers_rising_released : ∃ s,
    Reach (guarded (fun s act => stampsReleased s act = true) Sys.step) (fun _ => True)
      (.start [createEvent [97] 1]) s ∧
    (s.sentTo 1).map (·.header.revision) = [2, 2] ∧ Rising (s.sentTo 1) := by
  obtain ⟨s, hs, hp⟩ := exists_of_run (guarded (fun s act => stampsReleased s act = true) Sys.step)
    (fun _ => True) (.start [createEvent [97] 1])
    (confirmAhead ++ [.ingest (createEvent [98] 2), .dispatch 0, .watch 1 .tick, .watch 1 .go,
      .watch 1 (.send true)])
    (fun s => decide ((s.sentTo 1).map (·.header.revision) = [2, 2])) (by decide +kernel)
  exact ⟨s, hs, of_decide_eq_true hp, headers_rising _ logged_first s hs 1 (by decide)⟩

/-- **The revision falls**: the watch is confirmed with the revision of a write that is committed,
and its first progress response has the one before. -/
theorem headers_fall : ∃ s,
    Reach Sys.step (fun _ => True) (.start [createEvent [97] 1]) s ∧
    (s.sentTo 1).map (·.header.revision) = [2, 1] ∧ ¬ Rising (s.sentTo 1) := by
  obtain ⟨s, hs, hp⟩ := exists_of_run Sys.step (fun _ => True) (.start [createEvent [97] 1])
    (confirmAhead ++ [.watch 1 .tick, .watch 1 .go, .watch 1 (.send true)])
    (fun s => decide ((s.sentTo 1).map (·.header.revision) = [2, 1] ∧ ¬ Rising (s.sentTo 1)))
    (by decide +kernel)
  exact ⟨s, hs, of_decide_eq_true hp⟩

end REtcd.Server
