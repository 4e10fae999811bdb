import REtcd.Server.FromNow
import REtcd.Server.Skip

/-!
# Starting up without the backend

`prime` asks the backend for two revisions and guesses 1 for what it does not get: for `latestRev`,
the boundary that watches get, and for `nextRev`, the event that the dispatcher waits for.

Such a server differs from one that was primed well only in the watermark that it shows until the
first release, and in what it waits for in vain.  `Feed.repair` puts both right, and every step of
the real feed is a step of the repaired one (`Guessed.change`), so the invariant of the feed holds
of the latter.

A watch sends the history up to its boundary and then what is released (`Replays.step`).  So it is
sent the stored history exactly if the part that it wants lies up to its boundary, which is so if
`CurrentRevision` was answered (`startup_history`).  If it was not, a watch that registers before
the first release gets the boundary 1, and the history above is lost (`history_lost`).
-/

namespace REtcd.Server

open Base Store

/-! ### The repaired feed -/

/-- The feed as if `latestRev` had been primed from what the dispatcher waits for, and the events in
`extra` had been lost by their writers. -/
def Feed.repair (extra : List Event) (f : Feed) : Feed :=
  { f with
    lost := f.lost ++ extra
    disp := { f.disp with latestRev := max 1 f.frontier } }

/-- The repaired feed keeps its invariant, and the watermark is wrong at most until the first
release. -/
structure Guessed (M : ℤ) (extra : List Event) (f : Feed) : Prop where
  repaired : FeedInv M (f.repair extra)
  latest : f.released = [] ∧ f.disp.latestRev = 1 ∨ f.disp.latestRev = max 1 f.frontier

section Repair

variable {M : ℤ} {extra : List Event} {f f' : Feed} {ev : Event}

theorem maybeCheckpoint_latestRev (ev : Event) (d : Dispatcher) (x : ℤ) :
    { d with latestRev := x }.maybeCheckpoint ev =
      { d.maybeCheckpoint ev with latestRev := x } := by
  unfold Dispatcher.maybeCheckpoint
  cases ev.id with
  | none => rfl
  | some id =>
    dsimp only
    split_ifs <;> rfl

theorem deliver_latestRev (ev : Event) (id : ℕ) (d : Dispatcher) (x : ℤ) :
    { d with latestRev := x }.deliver ev id = { d.deliver ev id with latestRev := x } := by
  unfold Dispatcher.deliver
  dsimp only
  split_ifs <;> rfl

theorem hold_latestRev (ev : Event) (d : Dispatcher) (x : ℤ) :
    { d with latestRev := x }.hold ev = (d.hold ev).map fun d => { d with latestRev := x } := by
  unfold Dispatcher.hold
  dsimp only
  split_ifs <;> rfl

theorem release_latestRev (ev : Event) (d : Dispatcher) (x : ℤ) :
    { d with latestRev := x }.release ev =
      { d.maybeCheckpoint ev with latestRev := if x < ev.rev then ev.rev else x } := by
  rw [Dispatcher.release]
  exact maybeCheckpoint_latestRev ev d _

theorem Guessed.release (h : Guessed M extra f) {r : ℤ} (hr : f.disp.pending[r]? = some ev)
    (caller : Caller) :
    (f.repair extra).release r ev caller = (f.release r ev caller).repair extra ∧
      (f.release r ev caller).disp.latestRev = max 1 (f.release r ev caller).frontier := by
  obtain ⟨hev, hmem, hlt, _⟩ := h.repaired.pending r ev hr
  have hpos := (h.repaired.logged.revs ev hmem).1
  have hlt : f.frontier < ev.rev := hev ▸ hlt
  have hreal : { f.disp with pending := f.disp.pending.erase r }.release ev =
      { { f.disp with pending := f.disp.pending.erase r }.maybeCheckpoint ev with
        latestRev := max 1 ev.rev } := by
    refine (release_latestRev ev { f.disp with pending := f.disp.pending.erase r }
      f.disp.latestRev).trans ?_
    have hmax : (if f.disp.latestRev < ev.rev then ev.rev else f.disp.latestRev) =
        max 1 ev.rev := by
      rcases h.latest with ⟨_, hl⟩ | hl <;> rw [hl] <;> split_ifs <;> omega
    rw [hmax]
  have hrepaired : { (f.repair extra).disp with
      pending := f.disp.pending.erase r }.release ev =
      { { f.disp with pending := f.disp.pending.erase r }.maybeCheckpoint ev with
        latestRev := max 1 ev.rev } := by
    refine (release_latestRev ev { f.disp with pending := f.disp.pending.erase r }
      (max 1 f.frontier)).trans ?_
    have hmax : (if max 1 f.frontier < ev.rev then ev.rev else max 1 f.frontier) =
        max 1 ev.rev := by
      split_ifs <;> omega
    rw [hmax]
  rw [Feed.release, Feed.release, hreal]
  refine ⟨?_, rfl⟩
  show ({ f.repair extra with disp := _, lock := _, released := _, frontier := _ } : Feed) = _
  rw [show (f.repair extra).disp.pending = f.disp.pending from rfl, hrepaired]
  rfl

theorem Guessed.keep (h : Guessed M extra f) (hinv : FeedInv M (f'.repair extra))
    (hreleased : f'.released = f.released) (hfrontier : f'.frontier = f.frontier)
    (hlatest : f'.disp.latestRev = f.disp.latestRev) : Guessed M extra f' := by
  refine ⟨hinv, ?_⟩
  rw [hreleased, hfrontier, hlatest]
  exact h.latest

theorem Guessed.commit (h : Guessed M extra f) (hs : f.commit ev = some f') :
    Guessed M extra f' := by
  obtain ⟨ha, rfl⟩ := Feed.commit_iff.mp hs
  exact h.keep (h.repaired.commit (Feed.commit_iff.mpr ⟨ha, rfl⟩)) rfl rfl rfl

theorem Guessed.lose (h : Guessed M extra f) (hs : f.lose ev = some f') : Guessed M extra f' := by
  obtain ⟨hin, rfl⟩ := Feed.lose_iff.mp hs
  exact h.keep (h.repaired.lose (Feed.lose_iff.mpr ⟨hin, rfl⟩)) rfl rfl rfl

theorem Guessed.ingest (h : Guessed M extra f) (hs : f.ingest ev = some f') :
    Guessed M extra f' := by
  have hhold := hold_latestRev ev f.disp (max 1 f.frontier)
  obtain ⟨hl, hin, ⟨hd, rfl⟩ | ⟨d, hd, rfl⟩⟩ := Feed.ingest_iff.mp hs <;> rw [hd] at hhold
  · exact h.keep (h.repaired.ingest (Feed.ingest_iff.mpr ⟨hl, hin, Or.inl ⟨hhold, rfl⟩⟩)) rfl rfl rfl
  · refine h.keep (h.repaired.ingest (Feed.ingest_iff.mpr ⟨hl, hin, Or.inr ⟨_, hhold, rfl⟩⟩))
      rfl rfl ?_
    obtain ⟨_, _, _, heq⟩ := Dispatcher.hold_some hd
    rw [heq]
    rfl

/-- **A step of the holder of the lock is a step of the repaired feed.** -/
theorem Guessed.dispatch {id : ℕ} (h : Guessed M extra f) (hs : f.dispatch id = some f') :
    Guessed M extra f' := by
  have hturn : ∀ {g : Feed}, (f.repair extra).Turn id g → FeedInv M g :=
    fun ht => h.repaired.dispatch (Feed.dispatch_iff.mpr ht)
  have hrelease : ∀ {r : ℤ} {ev : Event} {caller : Caller}, f.disp.pending[r]? = some ev →
      (f.repair extra).Turn id ((f.repair extra).release r ev caller) →
      Guessed M extra (f.release r ev caller) := by
    intro r ev caller hr ht
    obtain ⟨heq, hlatest⟩ := h.release hr caller
    exact ⟨heq ▸ hturn ht, Or.inr hlatest⟩
  cases Feed.dispatch_iff.mp hs with
  | drained ev hl hev => exact hrelease hev (.drained ev hl hev)
  | flushed ev r revs last hl hev => exact hrelease hev (.flushed ev r revs last hl hev)
  | deliver ev todo caller hl hid =>
    have heq := deliver_latestRev ev id f.disp (max 1 f.frontier)
    refine h.keep ?_ rfl rfl ?_
    · have hinv := hturn (.deliver ev todo caller hl hid)
      rw [show (f.repair extra).disp.deliver ev id =
        { f.disp.deliver ev id with latestRev := max 1 f.frontier } from heq] at hinv
      exact hinv
    · obtain ⟨subs, sub, heq⟩ := Dispatcher.deliver_eq ev id f.disp
      rw [heq]
  | flush hl hnone hmany => exact h.keep (hturn (.flush hl hnone hmany)) rfl rfl rfl
  | unlock hl hnone hfew => exact h.keep (hturn (.unlock hl hnone hfew)) rfl rfl rfl
  | next ev hl => exact h.keep (hturn (.next ev hl)) rfl rfl rfl
  | resume ev revs last hl => exact h.keep (hturn (.resume ev revs last hl)) rfl rfl rfl
  | skip r revs last hl hnone => exact h.keep (hturn (.skip r revs last hl hnone)) rfl rfl rfl
  | done last hl => exact h.keep (hturn (.done last hl)) rfl rfl rfl

/-- **Every step of the system is a step of the repaired feed.** -/
theorem Guessed.change {s s' : Sys} (h : Guessed M extra s.feed) (hc : Change s s') :
    Guessed M extra s'.feed := by
  rcases hc.feed_cases with (⟨ev, hf⟩ | ⟨ev, hf⟩ | ⟨ev, hf⟩ | ⟨id, hf⟩) | ⟨subs, sub, nextID, heq⟩
  · exact h.commit hf
  · exact h.lose hf
  · exact h.ingest hf
  · exact h.dispatch hf
  · rw [heq]
    exact h.keep (h.repaired.resub subs sub nextID) rfl rfl rfl

theorem Guessed.fed {s : Sys} (h : Guessed M extra s.feed) (id : ℤ) (w : Watch) :
    (s.view id w).Fed 0 := by
  have hfed := h.repaired.fed (s := { s with feed := s.feed.repair extra }) id w
  have hbase := h.repaired.base
  have hpos : 1 ≤ s.feed.disp.latestRev := by
    rcases h.latest with ⟨_, hl⟩ | hl <;> omega
  refine ⟨hfed.logged, ?_, ?_, hfed.ascending, hfed.owed, hpos, hfed.checkpoint,
    hfed.checkpoints⟩
  · show 0 ≤ s.feed.disp.latestRev
    omega
  · intro e he
    obtain ⟨hmem, hlt, hle⟩ := hfed.released e he
    refine ⟨hmem, by omega, ?_⟩
    show e.rev ≤ s.feed.disp.latestRev
    rcases h.latest with ⟨hnil, _⟩ | hl
    · rw [show (s.view id w).released = [] from hnil] at he
      cases he
    · rw [hl]
      exact hle

end Repair

/-! ### The stored history -/

/-- The first entries of the stream are `l`, everything that is ingested comes after them, and the
watermark is at `b` or above. -/
structure Stored (M : ℤ) (l : List Event) (b : ℤ) (s : Sys) : Prop where
  guessed : Guessed M l s.feed
  carries : s.feed.Carries fun e => (l.length : ℤ) < e.rev
  stream : l <+: s.feed.stream
  latest : b ≤ s.feed.disp.latestRev

section Stored

variable {M b : ℤ} {l : List Event} {s s' : Sys} {current raw : Except GoError ℤ}

theorem currentRevision_eq (hN : 1 ≤ l.length) : Sys.currentRevision l = l.length := by
  rw [Sys.currentRevision, if_neg (by omega)]

theorem primeLatest_eq (hN : 1 ≤ l.length) :
    Dispatcher.primeLatest (.ok (Sys.currentRevision l)) = l.length := by
  rw [Dispatcher.primeLatest, currentRevision_eq hN, if_neg (by omega)]

theorem prime_cases (hN : 1 ≤ l.length)
    (hcurrent : ∀ rev, current = .ok rev → rev = Sys.currentRevision l)
    (hraw : ∀ rev, raw = .ok rev → rev = l.length) :
    Dispatcher.primeNext current raw = l.length + 1 ∧
        (Dispatcher.primeLatest current = 1 ∨ Dispatcher.primeLatest current = l.length) ∨
      Dispatcher.primeNext current raw = 1 ∧ Dispatcher.primeLatest current = 1 := by
  cases current with
  | ok rev =>
    obtain rfl := hcurrent rev rfl
    refine Or.inl ⟨?_, Or.inr (primeLatest_eq hN)⟩
    cases raw with
    | ok next => rw [Dispatcher.primeNext, hraw next rfl, if_neg (by omega)]
    | error err => rw [Dispatcher.primeNext, currentRevision_eq hN, if_neg (by omega)]
  | error err =>
    cases raw with
    | ok next =>
      refine Or.inl ⟨?_, Or.inl rfl⟩
      rw [Dispatcher.primeNext, hraw next rfl, if_neg (by omega)]
    | error err' => exact Or.inr ⟨rfl, rfl⟩

/-- Whatever `prime` has guessed, it can be repaired: the stored events count as lost. -/
theorem stored_primed (hl : Logged l) (hN : 1 ≤ l.length)
    (hcurrent : ∀ rev, current = .ok rev → rev = Sys.currentRevision l)
    (hraw : ∀ rev, raw = .ok rev → rev = l.length) :
    Stored (Dispatcher.primeNext current raw - 1) l (Dispatcher.primeLatest current)
      (.primed l current raw) := by
  have hprime := prime_cases hN hcurrent hraw
  refine ⟨⟨?_, ?_⟩, carries_primed _, List.prefix_rfl, le_rfl⟩
  · refine feedInv_new (d := ((Sys.primed l current raw).feed.repair l).disp) hl ?_ ?_
      (fun e he _ => he) (fun r => rfl) rfl rfl
    · change 1 ≤ Dispatcher.primeNext current raw
      omega
    · change Dispatcher.primeNext current raw ≤ l.length + 1
      omega
  · change [] = [] ∧ Dispatcher.primeLatest current = 1 ∨
      Dispatcher.primeLatest current = max 1 (Dispatcher.primeNext current raw - 1)
    rcases hprime with ⟨hnext, hone | hall⟩ | ⟨_, hone⟩
    · exact Or.inl ⟨rfl, hone⟩
    · right
      omega
    · exact Or.inl ⟨rfl, hone⟩

theorem Stored.change (h : Stored M l b s) (hc : Change s s') : Stored M l b s' := by
  refine ⟨h.guessed.change hc, h.carries.change (fun ev ha => ?_) hc, ?_,
    h.latest.trans hc.latestRev_le⟩
  · have := h.stream.length_le
    rw [ha.1]
    omega
  · rcases hc.stream with heq | ⟨ev, _, heq⟩ <;> rw [heq]
    · exact h.stream
    · exact h.stream.trans (List.prefix_append _ _)

end Stored

/-! ### A watch -/

theorem Pc.stage_ne_spawned {pc : Pc} (h : pc ≠ .spawned) : pc.stage ≠ .spawned := by
  cases pc with
  | spawned => exact absurd rfl h
  | stamping matched canceled next => exact next.stage_ne_spawned
  | sending resp next => exact next.stage_ne_spawned
  | _ => exact fun h => nomatch h

/-- How far a watch has come, whatever was primed; when it registers, its boundary is at `b` or
above. -/
structure Replays (b : ℤ) (v : View) : Prop where
  tail : TailInv 0 v
  boundary : v.w.pc ≠ .spawned → b ≤ v.w.boundary

theorem Replays.step {b id : ℤ} {v v' : View} (h : Replays b v) (hfed : v.Fed 0)
    (hfed' : v'.Fed 0) (hb : b ≤ v.latestRev) (hs : View.Step id v v') : Replays b v' := by
  refine ⟨h.tail.step hfed hfed' hs, fun hpc' => ?_⟩
  by_cases hpc : v.w.pc = .spawned
  · obtain ⟨_, hsent⟩ := h.tail.resolve_right fun ht => ht.1 hpc
    rcases Tail.start hfed hpc hsent hs with ⟨hsp, _⟩ | ⟨_, hbound, _⟩
    · exact absurd hsp hpc'
    · rw [hbound]
      exact hb
  · rw [(hs.keeps hpc).1]
    exact h.boundary hpc

def Sys.HistorySent (s : Sys) (l : List Event) (id : ℤ) (w : Watch) : Prop :=
  ∀ e ∈ l, w.wants e = true → eventToProto e ∈ s.eventsSent id

/-- The part of `l` that the watch wants is up to its boundary. -/
def Watch.Covers (w : Watch) (l : List Event) : Prop :=
  ∀ e ∈ l, w.wants e = true → e.rev ≤ w.boundary

section Watch

variable {M b : ℤ} {l : List Event} {s : Sys} {id : ℤ} {w : Watch}

/-- **Of the history only what is up to the boundary is sent**: what is released comes after it. -/
theorem Replays.le_boundary (h : Replays b (s.view id w)) (hl : Logged l)
    (hstored : Stored M l b s) {e : Event} (he : e ∈ l)
    (hsent : eventToProto e ∈ s.eventsSent id) : e.rev ≤ w.boundary := by
  rcases h.tail with ⟨_, hnil⟩ | ⟨_, n, c, d, ht⟩
  · rw [show s.eventsSent id = [] from hnil] at hsent
    cases hsent
  · have hfed := hstored.guessed.fed id w
    have htaken := ht.mem_of_sent hsent
    rw [hfed.logged.mem_map_proto (hfed.subset_stream n c) (hstored.stream.subset he),
      List.mem_append] at htaken
    rcases htaken with hread | hreleased
    · have hle := (List.mem_filter.mp hread).2
      simp only [Bool.and_eq_true, decide_eq_true_eq] at hle
      exact hle.1.2
    · have hlate := hstored.carries.released e (List.mem_filter.mp hreleased).1
      have hrev := (hl.revs e he).2
      omega

/-- **A live watch has sent the history up to its boundary.** -/
theorem Replays.sent_of_live (h : Replays b (s.view id w)) (hstored : Stored M l b s)
    (hpc : w.pc = .selecting) (hcovers : w.Covers l) : s.HistorySent l id w := by
  have hview : (s.view id w).w.pc = .selecting := hpc
  obtain ⟨n, c, d, ht⟩ := h.tail.tail (by simp [hview])
  -- it has nothing in hand, and has read up to the boundary
  have heq := ht.sent_eq (by rw [hview]; rfl) (by rw [hview]; exact fun h => nomatch h)
  have hn := ht.stage
  rw [hview] at hn
  change w.boundary ≤ n at hn
  intro e he hwe
  have hmem : e ∈ s.feed.stream := hstored.stream.subset he
  have hb := hcovers e he hwe
  rw [show s.eventsSent id = eventsOf (s.view id w).sent from rfl, heq]
  refine List.mem_map_of_mem (List.mem_append_left _ ?_)
  exact (Tail.mem_caughtUp hmem hwe).mpr ⟨hb, hb.trans hn⟩

/-- **A watch that waits at the end of the stream has sent the history.** -/
theorem Replays.sent_of_waits (h : Replays b (s.view id w)) (hstored : Stored M l b s)
    (hwaits : w.Waits s.feed.stream) : s.HistorySent l id w := by
  intro e he hwe
  rw [h.tail.eventsSent_of_waits (hstored.guessed.fed id w).logged hwaits]
  exact List.mem_map_of_mem (List.mem_filter.mpr ⟨hstored.stream.subset he, hwe⟩)

end Watch

/-! ### A watch that gives up -/

def Sys.CanceledSent (s : Sys) (id : ℤ) : Prop := ∃ r ∈ s.sentTo id, r.canceled = true

/-- The client reads what it is sent and stays connected: the watch `id` does not find its context
done, and nothing that it sends fails. -/
def unhindered (id : ℤ) : Act → Bool
  | .watch id' .done => id' ≠ id
  | .watch id' (.send false) => id' ≠ id
  | _ => true

/-- A watch that returns has sent a Canceled response, or is about to. -/
def Pc.Warned (sent : List WatchResponse) : Pc → Prop
  | stamping _ canceled .stop => canceled = true
  | sending r .stop => r.canceled = true
  | returning => ∃ r ∈ sent, r.canceled = true
  | gone => ∃ r ∈ sent, r.canceled = true
  | _ => True

section GiveUp

variable {sh : Shared} {id : ℤ} {w : Watch} {sub : WatchSub} {a : WatchAct} {pc : Pc}
  {ch : List Event} {out sent sent' : List WatchResponse}

theorem Pc.Warned.mono (h : pc.Warned sent) (hsub : ∀ r ∈ sent, r ∈ sent') : pc.Warned sent' := by
  have hex : (∃ r ∈ sent, r.canceled = true) → ∃ r ∈ sent', r.canceled = true :=
    fun ⟨r, hr, hc⟩ => ⟨r, hsub r hr, hc⟩
  unfold Pc.Warned at h ⊢
  split at h
  · exact h
  · exact h
  · exact hex h
  · exact hex h
  · trivial

theorem Pc.warned_of_stage (h : pc.stage ≠ .ended) : pc.Warned sent := by
  unfold Pc.Warned
  split
  · exact absurd rfl h
  · exact absurd rfl h
  · exact absurd rfl h
  · exact absurd rfl h
  · trivial

theorem Watch.caught_stage (w : Watch) (events : List Event) (lastID : StreamID) :
    (w.caught events lastID).stage ≠ .ended := by
  have hnext : (w.afterBatch events lastID).stage ≠ .ended := by
    rw [Watch.afterBatch]
    split_ifs
    · simp [Next.stage]
    · simp [Next.stage]
  rcases w.caught_cases events lastID with ⟨_, hc⟩ | ⟨_, _, hc⟩ | ⟨_, _, hc⟩ <;> rw [hc]
  · simp [Pc.stage]
  · rw [Next.stage_pc]
    exact hnext
  · exact hnext

theorem Watch.collected_stage (matched : List ProtoEvent) :
    (Watch.collected matched).stage = .live := by
  rcases Watch.collected_cases matched with ⟨_, hc⟩ | ⟨_, hc⟩ <;> rw [hc] <;> rfl

theorem Watch.readFailed_ended {lastID : StreamID} {consecErr : ℕ}
    (h : (Watch.readFailed lastID consecErr).stage = .ended) :
    Watch.readFailed lastID consecErr = .stamping [] true .stop ∧
      maxReaderErrors ≤ consecErr + 1 := by
  rw [Watch.readFailed] at h ⊢
  split_ifs at h ⊢ with hfew
  · cases h
  · exact ⟨rfl, not_lt.mp hfew⟩

theorem Watch.collected_ne_ended (matched : List ProtoEvent) :
    (Watch.collected matched).stage ≠ .ended := by
  rw [Watch.collected_stage]
  exact fun h => nomatch h

/-- **How a watch ends**: its context is done, it cannot send, it gives up, or it goes on with its
last response. -/
theorem Watch.step_ended (h : w.step sh id sub a = some (pc, ch, out)) (hend : pc.stage = .ended) :
    a = .done ∨ a = .send false ∨
      pc = .stamping [] true .stop ∧ (a = .cut ∨ (a = .readErr ∨ a = .timeout) ∧
        ∃ lastID consecErr, w.pc = .reading lastID consecErr ∧ maxReaderErrors ≤ consecErr + 1) ∨
      (∃ matched canceled, w.pc = .stamping matched canceled .stop ∧
        pc = .sending (watchResponse id sh.latestRev canceled matched) .stop) ∨
      ∃ r, w.pc = .sending r .stop ∧ pc = .returning ∧ out = [r] := by
  unfold Watch.step at h
  split at h
  next =>
    cases h
    cases hend
  next => exact Or.inl rfl
  next =>
    split_ifs at h
    split at h <;> cases h
    exact absurd hend (w.caught_stage _ _)
  next hpc =>
    cases h
    obtain ⟨hstop, hmany⟩ := Watch.readFailed_ended hend
    exact Or.inr (Or.inr (Or.inl ⟨hstop, Or.inr ⟨Or.inl rfl, _, _, hpc, hmany⟩⟩))
  next hpc =>
    split at h <;> cases h
    obtain ⟨hstop, hmany⟩ := Watch.readFailed_ended hend
    exact Or.inr (Or.inr (Or.inl ⟨hstop, Or.inr ⟨Or.inr rfl, _, _, hpc, hmany⟩⟩))
  next => exact Or.inl rfl
  next =>
    split_ifs at h
    cases h
    exact Or.inr (Or.inr (Or.inl ⟨rfl, Or.inl rfl⟩))
  next =>
    split at h <;> cases h
    cases hend
  next =>
    cases h
    cases hend
  next matched _ =>
    split_ifs at h
    · split at h <;> cases h
      · exact absurd hend (Watch.collected_ne_ended matched)
      · cases hend
    · cases h
      exact absurd hend (Watch.collected_ne_ended matched)
  next matched canceled next hpc =>
    cases h
    cases next with
    | stop => exact Or.inr (Or.inr (Or.inr (Or.inl ⟨matched, canceled, hpc, rfl⟩)))
    | _ => cases hend
  next resp next ok hpc =>
    cases ok with
    | false => exact Or.inr (Or.inl rfl)
    | true =>
      cases h
      cases next with
      | stop => exact Or.inr (Or.inr (Or.inr (Or.inr ⟨resp, hpc, rfl, rfl⟩)))
      | _ => cases hend
  next => cases h

/-- A watch gives up only with a Canceled response. -/
theorem Watch.step_warned (h : w.step sh id sub a = some (pc, ch, out)) (hdone : a ≠ .done)
    (hsend : a ≠ .send false) (hw : w.pc.Warned sent) : pc.Warned (sent ++ out) := by
  by_cases hend : pc.stage = .ended
  · rcases Watch.step_ended h hend with ha | ha | ⟨rfl, _⟩ | ⟨matched, canceled, hpc, rfl⟩ |
      ⟨r, hpc, rfl, rfl⟩
    · exact absurd ha hdone
    · exact absurd ha hsend
    · rfl
    · rw [hpc] at hw
      exact hw
    · rw [hpc] at hw
      exact ⟨r, by simp, hw⟩
  · exact Pc.warned_of_stage hend

end GiveUp

structure Counted (s : Sys) : Prop where
  watchID : 0 ≤ s.watchID
  newID : ∀ c id, (s.conns c).pc.newID = some id → 1 ≤ id
  watch : ∀ id w, s.watches id = some w → 1 ≤ id

theorem Counted.change {s s' : Sys} (h : Counted s) (hc : Change s s') : Counted s' := by
  -- a watch that there was has its ID
  have hupdate : ∀ {id' : ℤ} {v v' : Watch}, s.watches id' = some v → ∀ id w,
      Function.update s.watches id' (some v') id = some w → 1 ≤ id := by
    intro id' v v' hv id w heq
    rcases update_eq_some heq with ⟨rfl, _⟩ | ⟨_, hw⟩
    · exact h.watch _ v hv
    · exact h.watch id w hw
  have hconn : ∀ {c : ℕ} {conn : Conn}, (∀ id, conn.pc.newID = some id → 1 ≤ id) → ∀ c' id,
      (Function.update s.conns c conn c').pc.newID = some id → 1 ≤ id := by
    intro c conn hnew c' id heq
    rcases (update_conn_iff (·.pc.newID = some id) s.conns c c' conn).mp heq with
      ⟨_, hid⟩ | ⟨_, hid⟩
    · exact hnew id hid
    · exact h.newID c' id hid
  cases hc with
  | feed f _ => exact ⟨h.watchID, h.newID, h.watch⟩
  | conn c conn watchID watches out hwatches _ hid _ =>
    have hpos := h.watchID
    refine ⟨?_, hconn fun id hnew => ?_, fun id w hw => ?_⟩
    · rcases hid with ⟨rfl, _⟩ | ⟨rfl, _⟩ <;> dsimp only <;> omega
    · rcases hid with ⟨_, hnone | hold⟩ | ⟨rfl, hnext⟩
      · rw [hnone] at hnew
        cases hnew
      · exact h.newID c id (hold ▸ hnew)
      · rw [hnext, Option.some.injEq] at hnew
        omega
    · dsimp only at hw
      rcases hwatches id with heq | heq <;> rw [heq] at hw
      · exact h.watch id w hw
      · obtain ⟨v, hv, _⟩ := Option.map_eq_some_iff.mp hw
        exact h.watch id v hv
  | spawn c conn id' w' out hnew hrecv _ _ _ =>
    refine ⟨h.watchID, hconn fun id hid => ?_, fun id w hw => ?_⟩
    · rw [hrecv] at hid
      cases hid
    · rcases update_eq_some hw with ⟨rfl, _⟩ | ⟨_, hw⟩
      · exact h.newID c _ hnew
      · exact h.watch id w hw
  | register id' w' s' hw' hr =>
    obtain ⟨_, _, rfl⟩ := register_eq hr
    exact ⟨h.watchID, h.newID, hupdate hw'⟩
  | finish id' w' s' hw' hr =>
    obtain ⟨_, _, rfl⟩ := finish_eq hr
    exact ⟨h.watchID, hconn (h.newID w'.conn), hupdate hw'⟩
  | own id' w' pc ch out hw' _ => exact ⟨h.watchID, h.newID, hupdate hw'⟩

section Runs

variable {ok : Sys → Prop} {l : List Event} {current raw : Except GoError ℤ} {s : Sys} {id : ℤ}
  {w : Watch}

theorem watch_pos (hs : Reach Sys.step ok (.primed l current raw) s) (hw : s.watches id = some w) :
    1 ≤ id := by
  refine (hs.inv (I := Counted) ?_ fun _ _ _ h hs _ => h.change (step_change hs)).watch id w hw
  exact ⟨le_rfl, fun _ _ h => (nomatch h), fun _ _ h => (nomatch h)⟩

/-- **Invariants of the place of a watch**: what holds of a watch that has just been spawned or has
registered, and is kept by its own steps, of those that the guard lets through, holds all along. -/
theorem place_inv {g : Sys → Act → Prop} [∀ s a, Decidable (g s a)]
    {P : List WatchResponse → Pc → Prop}
    (hmono : ∀ sent out pc, P sent pc → P (sent ++ out) pc) (hspawned : ∀ sent, P sent .spawned)
    (hseeking : ∀ sent, P sent .seeking) (hselecting : ∀ sent, P sent .selecting)
    (hgone : ∀ sent, P sent .returning → P sent .gone)
    (hown : ∀ (s : Sys) (v w : Watch) sh sub a pc ch out, g s (.watch id a) →
      s.watches id = some v → v.pc = w.pc → w.step sh id sub a = some (pc, ch, out) →
      P (s.sentTo id) w.pc → P (s.sentTo id ++ out) pc)
    (hs : Reach (guarded g Sys.step) ok (.primed l current raw) s) (hw : s.watches id = some w) :
    P (s.sentTo id) w.pc := by
  have hid : id ≠ invalidWatchID := by
    have := watch_pos hs.of_guarded hw
    rw [invalidWatchID]
    omega
  refine talk_inv hid (I := fun t => ∀ c pc, t.watch = some (c, pc) → P t.sent pc)
    (fun _ _ h => (nomatch h)) ?_ hs w.conn w.pc ?_
  · intro s act t' hg h hstep
    cases hstep with
    | quiet act _ ht =>
      rw [ht.sent, ht.watch]
      exact h
    | create c cr _ hnone _ ht =>
      rw [ht.sent, ht.watch]
      exact h
    | confirm c ok rev _ hnone _ ht =>
      rw [ht.sent, ht.watch]
      intro c' pc heq
      cases heq
      exact hspawned _
    | cancel c _ _ _ ht =>
      rw [ht.sent, ht.watch]
      exact h
    | reply c ok _ _ ht =>
      rw [ht.sent, ht.watch]
      exact fun c' pc heq => hmono _ _ _ (h c' pc heq)
    | register c pc _ _ hpc ht =>
      rw [ht.sent, ht.watch]
      intro c' pc' heq
      cases heq
      rcases hpc with rfl | rfl
      · exact hseeking _
      · exact hselecting _
    | own v sh sub a pc ch out _ hwatch _ hv ht =>
      rw [ht.sent, ht.watch]
      intro c' pc' heq
      cases heq
      obtain ⟨v', hv', hpc⟩ := Option.map_eq_some_iff.mp hwatch
      exact hown s v' v sh sub a pc ch out hg hv' (Prod.mk.inj hpc).2 hv (h _ _ hwatch)
    | finish c _ hwatch ht =>
      rw [ht.sent, ht.watch]
      intro c' pc heq
      cases heq
      exact hgone _ (h c .returning hwatch)
  · rw [Sys.talk, hw]
    rfl

/-- **A watch whose client stays gives up only with a Canceled response.** -/
theorem warned_reach (hs : Reach (guarded (fun _ act => unhindered id act = true) Sys.step) ok
    (.primed l current raw) s) (hw : s.watches id = some w) : w.pc.Warned (s.sentTo id) := by
  refine place_inv (P := fun sent pc => pc.Warned sent) ?_ (fun _ => trivial) (fun _ => trivial)
    (fun _ => trivial) (fun _ h => h) ?_ hs hw
  · exact fun sent out pc h => h.mono fun r hr => List.mem_append_left _ hr
  · intro s _ v sh sub a pc ch out hg _ _ hv h
    refine Watch.step_warned hv ?_ ?_ h
    · rintro rfl
      simp [unhindered] at hg
    · rintro rfl
      simp [unhindered] at hg

theorem exists_last {r : WatchResponse} (hw : s.watches id = some w)
    (hpc : w.pc = .sending r .stop) (hid : r.watchId = id) (hc : r.canceled = true) :
    ∃ s', Reach (Sys.own id) (fun _ => True) s s' ∧ s'.CanceledSent id := by
  obtain ⟨s', hs', _, _, _, hsent⟩ := exists_own hw
    (show w.step (s.shared w) id (s.feed.disp.sub w.sub) (.send true) =
      some (.returning, (s.feed.disp.sub w.sub).ch, [r]) by simp [Watch.step, hpc, Next.pc])
  refine ⟨s', .tail _ .refl hs' trivial, r, ?_, hc⟩
  rw [Sys.sentTo, hsent]
  simp [hid]

/-- **A watch that has given up sends its Canceled response.** -/
theorem exists_canceled (hwired : Wired s) (hw : s.watches id = some w)
    (hended : w.pc.stage = .ended) (hwarned : w.pc.Warned (s.sentTo id)) :
    ∃ s', Reach (Sys.own id) (fun _ => True) s s' ∧ s'.CanceledSent id := by
  cases hpc : w.pc with
  | stamping matched canceled next =>
    rw [hpc] at hended hwarned
    cases next with
    | stop =>
      obtain ⟨s₁, hs₁, hw₁, _, _, _⟩ := exists_own hw
        (show w.step (s.shared w) id (s.feed.disp.sub w.sub) .go =
          some (.sending (watchResponse id s.feed.disp.latestRev canceled matched) .stop,
            (s.feed.disp.sub w.sub).ch, []) by
          simp [Watch.step, hpc, Sys.shared, Dispatcher.currentRev])
      obtain ⟨s', hs', hsent⟩ := exists_last hw₁ rfl rfl hwarned
      exact ⟨s', (Reach.tail _ .refl hs₁ trivial).trans hs', hsent⟩
    | _ => cases hended
  | sending r next =>
    rw [hpc] at hended hwarned
    cases next with
    | stop => exact exists_last hw hpc (hwired.sending id w r .stop hw hpc) hwarned
    | _ => cases hended
  | returning =>
    rw [hpc] at hwarned
    exact ⟨s, .refl, hwarned⟩
  | gone =>
    rw [hpc] at hwarned
    exact ⟨s, .refl, hwarned⟩
  | _ =>
    rw [hpc] at hended
    cases hended

theorem replays_reach (hl : Logged l) (hN : 1 ≤ l.length)
    (hcurrent : ∀ rev, current = .ok rev → rev = Sys.currentRevision l)
    (hraw : ∀ rev, raw = .ok rev → rev = l.length)
    (hs : Reach Sys.step ok (.primed l current raw) s) (hw : s.watches id = some w) :
    Stored (Dispatcher.primeNext current raw - 1) l (Dispatcher.primeLatest current) s ∧
      Replays (Dispatcher.primeLatest current) (s.view id w) := by
  have hstored := stored_primed hl hN hcurrent hraw
  refine ⟨hs.inv hstored fun _ _ _ h hs _ => h.change (step_change hs), ?_⟩
  refine view_run (fun _ _ _ hs => hs)
    (J := Stored (Dispatcher.primeNext current raw - 1) l (Dispatcher.primeLatest current))
    (fun _ _ _ _ h hs => h.change (step_change hs)) (wired_primed l current raw) hstored rfl
    ?_ ?_ hs w hw
  · exact fun s w _ _ hpc hsent => ⟨Or.inl ⟨hpc, eventsOf_eq_nil hsent⟩, fun h => absurd hpc h⟩
  · intro s s' w w' hj hj' _ _ _ hv hview
    exact hv.step (hj.guessed.fed id w) (hj'.guessed.fed id w') hj.latest hview

end Runs

/-- **Startup without the backend.**  Whether the reads of `prime` were answered or not, a watch
that has registered is sent the part of the stored history that it wants, or a Canceled response, if
that part lies up to its boundary: the one has happened when it is at its `select` or waits at the
end of the stream, the other when it has returned, and its own steps lead to one of them.  If the
part does not lie there, it is not sent.  It does if `CurrentRevision` was answered, or if there is
only one revision. -/
theorem startup_history (l : List Event) (hl : Logged l) (hN : 1 ≤ l.length)
    (current raw : Except GoError ℤ)
    (hcurrent : ∀ rev, current = .ok rev → rev = Sys.currentRevision l)
    (hraw : ∀ rev, raw = .ok rev → rev = l.length) (id : ℤ) (s : Sys)
    (hs : Reach (guarded (fun _ act => unhindered id act = true) Sys.step) (fun _ => True)
      (.primed l current raw) s) (w : Watch) (hw : s.watches id = some w) (hpc : w.pc ≠ .spawned) :
    (w.Covers l →
      (w.pc = .selecting → s.HistorySent l id w) ∧
      (w.Waits s.feed.stream → s.HistorySent l id w) ∧
      (w.pc = .returning ∨ w.pc = .gone → s.CanceledSent id) ∧
      ∃ s', Reach (Sys.own id) (fun _ => True) s s' ∧
        (s'.HistorySent l id w ∨ s'.CanceledSent id)) ∧
    (s.HistorySent l id w → w.Covers l) ∧
    ((∃ rev, current = .ok rev) ∨ l.length = 1 → w.Covers l) := by
  have hreach := hs.of_guarded
  obtain ⟨hstored, hreplays⟩ := replays_reach hl hN hcurrent hraw hreach hw
  have hwarned := warned_reach hs hw
  refine ⟨fun hcovers => ⟨fun hlive => hreplays.sent_of_live hstored hlive hcovers,
      hreplays.sent_of_waits hstored, fun hend => ?_, ?_⟩,
    fun hsent e he hwe => hreplays.le_boundary hl hstored he (hsent e he hwe),
    fun hanswered e he _ => ?_⟩
  · rcases hend with hend | hend <;> rw [hend] at hwarned <;> exact hwarned
  · by_cases hended : w.pc.stage = .ended
    · obtain ⟨s', hs', hsent⟩ := exists_canceled (wired_of_primed hreach) hw hended hwarned
      exact ⟨s', hs', Or.inr hsent⟩
    · obtain ⟨s', pc, hs', hw', hidle, _, ⟨sub, hfeed⟩⟩ : ∃ s' pc,
          Reach (Sys.own id) (fun _ => True) s s' ∧ s'.watches id = some { w with pc := pc } ∧ _ :=
        watch_drains (hstored.guessed.fed id w).logged (fun _ _ => trivial) hw
          ⟨Pc.stage_ne_spawned hpc, hended⟩
      obtain ⟨hstored', hreplays'⟩ :=
        replays_reach hl hN hcurrent hraw (hreach.trans (reach_own hs')) hw'
      refine ⟨s', hs', Or.inl ?_⟩
      rcases hidle with ⟨hlive, _⟩ | hwaits
      · exact hreplays'.sent_of_live hstored' hlive hcovers
      · exact hreplays'.sent_of_waits hstored' (by rw [hfeed]; exact hwaits)
  · have hb : Dispatcher.primeLatest current ≤ w.boundary := hreplays.boundary hpc
    have hrev := (hl.revs e he).2
    rcases hanswered with ⟨rev, rfl⟩ | hone
    · rw [hcurrent rev rfl, primeLatest_eq hN] at hb
      omega
    · have hprime := prime_cases hN hcurrent hraw
      omega

def storedTwo : List Event := [createEvent [97] 1, createEvent [98] 2]

theorem logged_storedTwo : Logged storedTwo := .commit logged_first (by decide)

def startedBlind : Sys := .primed storedTwo (.error "connection refused") (.ok 2)

theorem startedBlind_answers :
    (∀ rev : ℤ, (.error "connection refused" : Except GoError ℤ) = .ok rev →
      rev = Sys.currentRevision storedTwo) ∧
    ∀ rev : ℤ, (.ok 2 : Except GoError ℤ) = .ok rev → rev = storedTwo.length := by
  refine ⟨fun rev h => (nomatch h), fun rev h => ?_⟩
  cases h
  rfl

def createFromTwo : List Act :=
  [.create 0 ⟨[97], [0], 2⟩, .revision 0 true, .confirm 0 true, .register 1]

def releaseThird : List Act :=
  [.commit (createEvent [99] 3), .ingest (createEvent [99] 3), .dispatch 0]

/-- A watch that registers after the first release is sent the history; an entry above its boundary
ends its reads. -/
theorem startup_history_released :
    ∃ s w, Reach (guarded (fun _ act => unhindered 1 act = true) Sys.step) (fun _ => True)
        startedBlind s ∧
      s.watches 1 = some w ∧ w.startRevision = 2 ∧ s.HistorySent storedTwo 1 w := by
  obtain ⟨s, hs, h⟩ := exists_of_run (guarded (fun _ act => unhindered 1 act = true) Sys.step)
    (fun _ => True) startedBlind
    (releaseThird ++ [.dispatch 0, .dispatch 0] ++ createFromTwo ++
      [.watch 1 .go, .commit (createEvent [100] 4), .watch 1 (.read readBatchSize), .watch 1 .go,
        .watch 1 (.send true)])
    (fun s => (s.watches 1).any fun w : Watch => decide (w.pc = .selecting ∧ w.startRevision = 2 ∧
      ∀ e ∈ storedTwo, w.wants e = true → e.rev ≤ w.boundary)) (by decide +kernel)
  obtain ⟨w, hw, h⟩ := (Option.any_eq_true _ _).mp h
  obtain ⟨hpc, hstart, hcovers⟩ := of_decide_eq_true h
  have hsent := startup_history storedTwo logged_storedTwo (by decide) _ _ startedBlind_answers.1
    startedBlind_answers.2 1 s hs w hw (by rw [hpc]; exact fun h => nomatch h)
  exact ⟨s, w, hs, hw, hstart, (hsent.1 hcovers).1 hpc⟩

/-- **History is lost silently**: `CurrentRevision` fails at the start, and a watch from revision 2
on registers before the first release.  Its boundary is 1, so revision 2 is not read, and it is not
released either.  Revision 3 is sent, revision 2 is not sent then or later, and the watch is not
canceled. -/
theorem history_lost :
    ∃ s w, Reach (guarded (fun _ act => unhindered 1 act = true) Sys.step) (fun _ => True)
        startedBlind s ∧
      s.watches 1 = some w ∧ w.pc = .selecting ∧ w.startRevision = 2 ∧
      createEvent [98] 2 ∈ storedTwo ∧ w.wants (createEvent [98] 2) = true ∧
      (s.eventsSent 1).map ProtoEvent.rev = [3] ∧ (∀ r ∈ s.sentTo 1, r.canceled = false) ∧
      ∀ s', Reach Sys.step (fun _ => True) s s' →
        eventToProto (createEvent [98] 2) ∉ s'.eventsSent 1 := by
  obtain ⟨s, hs, h⟩ := exists_of_run (guarded (fun _ act => unhindered 1 act = true) Sys.step)
    (fun _ => True) startedBlind
    (createFromTwo ++ releaseThird ++ [.dispatch 1, .watch 1 .recv, .watch 1 .go, .watch 1 .go,
      .watch 1 (.send true)])
    (fun s => (s.watches 1).any fun w : Watch => decide (w.pc = .selecting ∧ w.startRevision = 2 ∧
      w.boundary = 1 ∧ w.wants (createEvent [98] 2) = true ∧
      (s.eventsSent 1).map ProtoEvent.rev = [3] ∧ ∀ r ∈ s.sentTo 1, r.canceled = false))
    (by decide +kernel)
  obtain ⟨w, hw, h⟩ := (Option.any_eq_true _ _).mp h
  obtain ⟨hpc, hstart, hb, hwants, hrevs, hcanceled⟩ := of_decide_eq_true h
  have hmem : createEvent [98] 2 ∈ storedTwo := by decide
  refine ⟨s, w, hs, hw, hpc, hstart, hmem, hwants, hrevs, hcanceled, fun s' hs' hsent => ?_⟩
  obtain ⟨w', hw', hb', _⟩ := boundary_reach (wired_of_primed hs.of_guarded) hs' hw
    (by rw [hpc]; exact fun h => nomatch h)
  obtain ⟨hstored, hreplays⟩ := replays_reach logged_storedTwo (by decide)
    startedBlind_answers.1 startedBlind_answers.2 (hs.of_guarded.trans hs') hw'
  have hle : (2 : ℤ) ≤ w'.boundary := hreplays.le_boundary logged_storedTwo hstored hmem hsent
  omega

end REtcd.Server
