import REtcd.Server.Place

/-!
# A watch drains its channel

A watch that runs is never stuck: as long as it has something to read, to take from its channel or
to send, one of its own steps lowers its `backlog` (`exists_step_lt`).  So its own steps lead it to
where it is idle, at its `select` with an empty channel or in a read at the end of the stream
(`watch_drains`), whatever the others do meanwhile.
-/

namespace REtcd.Server

open Base Store

/-! ### The steps of one watch -/

def Sys.own (id : ℤ) (s : Sys) (a : WatchAct) : Option Sys := s.step (.watch id a)

theorem reach_own {id : ℤ} {ok : Sys → Prop} {s s' : Sys} (h : Reach (Sys.own id) ok s s') :
    Reach Sys.step ok s s' := by
  induction h with
  | refl => exact .refl
  | tail a _ hs hok ih => exact .tail (.watch id a) ih hs hok

def OnlyChannels (f f' : Feed) : Prop :=
  ∃ sub, f' = { f with disp := { f.disp with sub := sub } }

theorem OnlyChannels.trans {f g h : Feed} (hfg : OnlyChannels f g) (hgh : OnlyChannels g h) :
    OnlyChannels f h := by
  obtain ⟨_, rfl⟩ := hfg
  obtain ⟨sub, rfl⟩ := hgh
  exact ⟨sub, rfl⟩

theorem exists_own {s : Sys} {id : ℤ} {w : Watch} {a : WatchAct} {pc : Pc} {ch : List Event}
    {out : List WatchResponse} (hw : s.watches id = some w)
    (h : w.step (s.shared w) id (s.feed.disp.sub w.sub) a = some (pc, ch, out)) :
    ∃ s', Sys.own id s a = some s' ∧ s'.watches id = some { w with pc := pc } ∧
      s'.feed.disp.sub w.sub = { s.feed.disp.sub w.sub with ch := ch } ∧
      OnlyChannels s.feed s'.feed ∧ s'.sent = s.sent ++ out.map (w.conn, ·) := by
  have hstep : Sys.own id s a = some ({ s with
      feed := { s.feed with
        disp := { s.feed.disp with
          sub := Function.update s.feed.disp.sub w.sub { s.feed.disp.sub w.sub with ch := ch } } }
      sent := s.sent ++ out.map (w.conn, ·) }.setWatch id { w with pc := pc }) := by
    rw [Sys.own, Sys.step, hw, Option.bind_some, Sys.watchStep, h]
    rfl
  exact ⟨_, hstep, Function.update_self .., Function.update_self .., ⟨_, rfl⟩, rfl⟩

/-! ### The backlog -/

/-- A watch that has registered and has not ended. -/
def Pc.Running (pc : Pc) : Prop := pc.stage ≠ .spawned ∧ pc.stage ≠ .ended

/-- The watch has read all of the stream and waits in its read for more. -/
def Watch.Waits (w : Watch) (stream : List Event) : Prop :=
  ∃ lastID consecErr, w.pc = .reading lastID consecErr ∧
    blockReadEvents stream lastID readBatchSize = none

/-- A watch with nothing to do: at its `select` with an empty channel, or at the end of the
stream. -/
def Watch.Idle (w : Watch) (stream ch : List Event) : Prop :=
  w.pc = .selecting ∧ ch = [] ∨ w.Waits stream

def Stage.entries (stream : List Event) : Stage → ℕ
  | .seeking => stream.length + 1
  | .catching lastID => (stream.filter fun e => ∀ i ∈ e.id, lastID < i).length
  | _ => 0

def Pc.rank : Pc → ℕ
  | collecting _ => 4
  | stamping _ _ _ => 3
  | sending _ _ => 2
  | reading _ _ => 1
  | _ => 0

/-- What is ahead of a watch: what it has to read, what is in its channel, and the steps that each
of these may take. -/
def Pc.backlog (stream ch : List Event) (pc : Pc) : ℕ :=
  5 * (pc.stage.entries stream + ch.length) + pc.rank

theorem Next.running_pc {next : Next} (h : next.stage ≠ .ended) : next.pc.Running := by
  cases next with
  | catchUp lastID => simp [Pc.Running, Next.pc, Pc.stage]
  | live => simp [Pc.Running, Next.pc, Pc.stage]
  | stop => exact absurd rfl h

theorem Next.stage_ne_spawned (next : Next) : next.stage ≠ .spawned := by
  cases next <;> simp [Next.stage]

theorem Next.rank_pc (next : Next) : next.pc.rank ≤ 1 := by
  cases next <;> simp [Next.pc, Pc.rank]

/-- A read that brings something leaves fewer entries to read. -/
theorem entries_lt {stream events : List Event} {lastID newLastID : StreamID} {n : ℕ}
    (hl : Logged stream) (hread : xread stream lastID n = (events, newLastID))
    (hne : events ≠ []) :
    (Stage.catching newLastID).entries stream < (Stage.catching lastID).entries stream := by
  obtain ⟨hn, hleft⟩ : n ≠ 0 ∧ (stream.filter fun e => decide (∀ i ∈ e.id, lastID < i)) ≠ [] := by
    have hevents : (xread stream lastID n).1 = events := by rw [hread]
    rw [← hevents, xread, ne_eq, List.take_eq_nil_iff, not_or] at hne
    exact hne
  have hdrop := read_drop hl.streamed lastID (Nat.one_le_iff_ne_zero.mpr hn)
  rw [hread] at hdrop
  have hpos := List.length_pos_iff.mpr hleft
  rw [Stage.entries, Stage.entries, hdrop, List.length_drop]
  omega

theorem exists_read_lt (sh : Shared) (id : ℤ) (w : Watch) (sub : WatchSub) (hl : Logged sh.stream)
    {lastID newLastID : StreamID} {consecErr : ℕ} {events : List Event}
    (hpc : w.pc = .reading lastID consecErr)
    (hread : blockReadEvents sh.stream lastID readBatchSize = some (events, newLastID)) :
    ∃ pc, w.step sh id sub (.read readBatchSize) = some (pc, sub.ch, []) ∧ pc.Running ∧
      pc.backlog sh.stream sub.ch < w.pc.backlog sh.stream sub.ch := by
  have hstep : w.step sh id sub (.read readBatchSize) =
      some (w.caught events newLastID, sub.ch, []) := by
    have hsize : 1 ≤ readBatchSize := by decide
    simp [Watch.step, hpc, hread, hsize]
  obtain ⟨hne, hread⟩ := blockReadEvents_some.mp hread
  -- what was read is not read again
  have hnext : (w.afterBatch events newLastID).stage ≠ .ended ∧
      (w.afterBatch events newLastID).stage.entries sh.stream <
        (Stage.catching lastID).entries sh.stream := by
    have hlt := entries_lt hl hread hne
    rw [Watch.afterBatch]
    split_ifs
    · exact ⟨by simp [Next.stage], lt_of_le_of_lt (Nat.zero_le _) hlt⟩
    · exact ⟨by simp [Next.stage], hlt⟩
  refine ⟨_, hstep, ?_⟩
  rw [hpc]
  obtain ⟨hover, hlt⟩ := hnext
  rcases w.caught_cases events newLastID with ⟨hnil, _⟩ | ⟨_, _, hc⟩ | ⟨_, _, hc⟩
  · exact absurd hnil hne
  · rw [hc]
    refine ⟨Next.running_pc hover, ?_⟩
    have hrank := (w.afterBatch events newLastID).rank_pc
    rw [Pc.backlog, Pc.backlog, Next.stage_pc]
    change _ < 5 * ((Stage.catching lastID).entries sh.stream + _) + 1
    omega
  · rw [hc]
    refine ⟨⟨Next.stage_ne_spawned _, hover⟩, ?_⟩
    change 5 * ((w.afterBatch events newLastID).stage.entries sh.stream + _) + 3 <
      5 * ((Stage.catching lastID).entries sh.stream + _) + 1
    omega

theorem exists_collect_lt (sh : Shared) (id : ℤ) (w : Watch) (sub : WatchSub)
    {matched : List ProtoEvent} (hpc : w.pc = .collecting matched) :
    ∃ pc ch, w.step sh id sub .go = some (pc, ch, []) ∧ pc.Running ∧
      pc.backlog sh.stream ch < w.pc.backlog sh.stream sub.ch := by
  have hstop : (Watch.collected matched).Running ∧
      (Watch.collected matched).backlog sh.stream sub.ch < w.pc.backlog sh.stream sub.ch := by
    rw [hpc]
    rcases Watch.collected_cases matched with ⟨_, hc⟩ | ⟨_, hc⟩
    · rw [hc]
      refine ⟨by simp [Pc.Running, Pc.stage], ?_⟩
      simp only [Pc.backlog, Pc.stage, Pc.rank]
      omega
    · rw [hc]
      refine ⟨by simp [Pc.Running, Pc.stage, Next.stage], ?_⟩
      simp only [Pc.backlog, Pc.stage, Next.stage, Pc.rank]
      omega
  by_cases hfew : matched.length < maxSendBatch
  · cases hch : sub.ch with
    | nil =>
      rw [hch] at hstop
      exact ⟨_, [], by simp [Watch.step, hpc, hfew, hch], hstop⟩
    | cons ev ch =>
      refine ⟨.collecting (w.add matched ev), ch, by simp [Watch.step, hpc, hfew, hch],
        by simp [Pc.Running, Pc.stage], ?_⟩
      rw [hpc]
      simp only [Pc.backlog, Pc.stage, Pc.rank, List.length_cons]
      omega
  · exact ⟨_, sub.ch, by simp [Watch.step, hpc, hfew], hstop⟩

/-- **A watch that runs is never stuck**: unless it is idle, one of its own steps lowers its
backlog. -/
theorem exists_step_lt (sh : Shared) (id : ℤ) (w : Watch) (sub : WatchSub) (hl : Logged sh.stream)
    (hrun : w.pc.Running) (hbusy : ¬ w.Idle sh.stream sub.ch) :
    ∃ a pc ch out, w.step sh id sub a = some (pc, ch, out) ∧ pc.Running ∧
      pc.backlog sh.stream ch < w.pc.backlog sh.stream sub.ch := by
  cases hpc : w.pc with
  | spawned => exact absurd (by rw [hpc]; rfl) hrun.1
  | seeking =>
    refine ⟨.go, .reading (Dispatcher.seekStreamID sh.checkpoints w.startRevision) 0, sub.ch, [],
      by simp [Watch.step, hpc], by simp [Pc.Running, Pc.stage], ?_⟩
    have := List.length_filter_le (fun e => decide (∀ i ∈ e.id,
      Dispatcher.seekStreamID sh.checkpoints w.startRevision < i)) sh.stream
    simp only [Pc.backlog, Pc.stage, Pc.rank, Stage.entries]
    omega
  | reading lastID consecErr =>
    cases hread : blockReadEvents sh.stream lastID readBatchSize with
    | none => exact absurd (Or.inr ⟨lastID, consecErr, hpc, hread⟩) hbusy
    | some x =>
      obtain ⟨pc, hstep, hpc', hlt⟩ := exists_read_lt sh id w sub hl hpc hread
      exact ⟨_, pc, _, _, hstep, hpc', hpc ▸ hlt⟩
  | selecting =>
    cases hch : sub.ch with
    | nil => exact absurd (Or.inl ⟨hpc, hch⟩) hbusy
    | cons ev ch =>
      refine ⟨.recv, .collecting (w.add [] ev), ch, [], by simp [Watch.step, hpc, hch],
        by simp [Pc.Running, Pc.stage], ?_⟩
      simp only [Pc.backlog, Pc.stage, Pc.rank, List.length_cons]
      omega
  | collecting matched =>
    obtain ⟨pc, ch, hstep, hpc', hlt⟩ := exists_collect_lt sh id w sub hpc
    exact ⟨_, pc, ch, _, hstep, hpc', hpc ▸ hlt⟩
  | stamping matched canceled next =>
    rw [hpc] at hrun
    refine ⟨.go, .sending (watchResponse id sh.latestRev canceled matched) next, sub.ch, [],
      by simp [Watch.step, hpc], hrun, ?_⟩
    simp only [Pc.backlog, Pc.stage, Pc.rank]
    omega
  | sending resp next =>
    rw [hpc] at hrun
    refine ⟨.send true, next.pc, sub.ch, [resp], by simp [Watch.step, hpc],
      Next.running_pc hrun.2, ?_⟩
    have hrank := next.rank_pc
    rw [Pc.backlog, Pc.backlog, Next.stage_pc]
    change _ < 5 * (next.stage.entries sh.stream + _) + 2
    omega
  | returning => exact absurd (by rw [hpc]; rfl) hrun.2
  | gone => exact absurd (by rw [hpc]; rfl) hrun.2

/-- **A watch drains its channel**: its own steps lead it to where it is idle. -/
theorem watch_drains {ok : Sys → Prop} {s : Sys} (hl : Logged s.feed.stream)
    (hok : ∀ s', OnlyChannels s.feed s'.feed → ok s') {id : ℤ} {w : Watch}
    (hw : s.watches id = some w) (hrun : w.pc.Running) :
    ∃ s' pc, Reach (Sys.own id) ok s s' ∧ s'.watches id = some { w with pc := pc } ∧
      { w with pc := pc }.Idle s.feed.stream (s'.feed.disp.sub w.sub).ch ∧
      (s'.feed.disp.sub w.sub).cancelled = (s.feed.disp.sub w.sub).cancelled ∧
      OnlyChannels s.feed s'.feed := by
  -- by induction on the backlog
  obtain ⟨b, hb⟩ : ∃ b, w.pc.backlog s.feed.stream (s.feed.disp.sub w.sub).ch = b := ⟨_, rfl⟩
  induction b using Nat.strongRecOn generalizing s w with
  | ind b ih =>
    by_cases hidle : w.Idle s.feed.stream (s.feed.disp.sub w.sub).ch
    · exact ⟨s, w.pc, .refl, hw, hidle, rfl, ⟨_, rfl⟩⟩
    · obtain ⟨a, pc, ch, out, hstep, hrun', hlt⟩ :=
        exists_step_lt (s.shared w) id w (s.feed.disp.sub w.sub) hl hrun hidle
      obtain ⟨s₁, hs₁, hw₁, hsub₁, ⟨sub, hfeed₁⟩, _⟩ := exists_own hw hstep
      have hstream : s₁.feed.stream = s.feed.stream := by rw [hfeed₁]
      obtain ⟨s', pc', hs', hw', hidle', hcut, hfeed⟩ := ih
        (pc.backlog s₁.feed.stream (s₁.feed.disp.sub w.sub).ch)
        (by rw [hstream, hsub₁, ← hb]; exact hlt) (hstream ▸ hl)
        (fun s₂ h => hok s₂ (OnlyChannels.trans ⟨sub, hfeed₁⟩ h)) hw₁ hrun' rfl
      rw [hstream] at hidle'
      refine ⟨s', pc', (Reach.tail a .refl hs₁ (hok s₁ ⟨sub, hfeed₁⟩)).trans hs', hw', hidle', ?_,
        OnlyChannels.trans ⟨sub, hfeed₁⟩ hfeed⟩
      rw [show (s'.feed.disp.sub w.sub).cancelled = (s₁.feed.disp.sub w.sub).cancelled from hcut,
        hsub₁]

end REtcd.Server
