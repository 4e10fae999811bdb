import REtcd.Server.Startup

/-!
# The first write on an empty store

On an empty store `prime` sets `latestRev` to 1, since no revision below that is ever shown, and
`nextRev` to 1, since the first write has this revision.  So a watch that registers before the first
write is released gets the boundary 1, and is to read the first event from the stream, where it
waits for it.

A watch that stays misses nothing, whether it registers before or after the first write is released
(`first_write_complete`).  But it stays only if the write comes in time: the client library gives up
a read that waits for too long, and `maxReaderErrors` such reads in a row end the watch, though
nothing has failed (`first_write_unsent`).
-/

namespace REtcd.Server

open Base Store

/-! ### A watch that stays -/

/-- The next read of the watch that fails or is given up is the last. -/
def Sys.lastTry (s : Sys) (id : ℤ) : Bool :=
  (s.watches id).any fun w =>
    match w.pc with
    | .reading _ consecErr => maxReaderErrors ≤ consecErr + 1
    | _ => false

/-- Nothing ends the watch `id`: its client reads what it is sent and stays connected, its channel
is not cut off, and fewer than `maxReaderErrors` of its reads in a row fail or wait for too long. -/
def stays (id : ℤ) (s : Sys) (act : Act) : Bool :=
  unhindered id act &&
    match act with
    | .watch id' .cut => id' ≠ id
    | .watch id' .readErr => id' ≠ id || !s.lastTry id
    | .watch id' .timeout => id' ≠ id || !s.lastTry id
    | _ => true

section Stays

variable {ok : Sys → Prop} {l : List Event} {current raw : Except GoError ℤ} {s : Sys} {id : ℤ}
  {w : Watch}

theorem lastTry_eq {v : Watch} (hv : s.watches id = some v) {lastID : StreamID} {consecErr : ℕ}
    (hpc : v.pc = .reading lastID consecErr) (hmany : maxReaderErrors ≤ consecErr + 1) :
    s.lastTry id = true := by
  rw [Sys.lastTry, hv, Option.any_some, hpc]
  exact decide_eq_true hmany

/-- **A watch that stays does not end.** -/
theorem running_reach (hs : Reach (guarded (fun s act => stays id s act = true) Sys.step) ok
    (.primed l current raw) s) (hw : s.watches id = some w) : w.pc.stage ≠ .ended := by
  refine place_inv (P := fun _ pc => pc.stage ≠ .ended) (fun _ _ _ h => h) ?_ ?_ ?_
    (fun _ h => absurd rfl h) ?_ hs hw
  · exact fun _ h => nomatch h
  · exact fun _ h => nomatch h
  · exact fun _ h => nomatch h
  · intro s v w sh sub a pc ch out hg hv hpc hstep hrun hend
    rcases Watch.step_ended hstep hend with rfl | rfl |
      ⟨_, rfl | ⟨ha, lastID, consecErr, hread, hmany⟩⟩ | ⟨_, _, hlast, _⟩ | ⟨_, hlast, _⟩
    · simp [stays, unhindered] at hg
    · simp [stays, unhindered] at hg
    · simp [stays] at hg
    · have hlast := lastTry_eq hv (hpc.trans hread) hmany
      rcases ha with rfl | rfl <;> simp [stays, hlast] at hg
    · exact hrun (by rw [hlast]; rfl)
    · exact hrun (by rw [hlast]; rfl)

end Stays

/-- **The first writes on an empty store reach a watch**, whether it registers before or after the
first of them is released, if nothing ends the watch and the reorder buffer stays within its bound:
it misses nothing, and once it has registered it runs. -/
theorem first_write_complete (id : ℤ) (s : Sys)
    (hs : Reach (guarded (fun s act => stays id s act = true) Sys.step) Buffered (.start []) s)
    (w : Watch) (hw : s.watches id = some w) :
    s.MissesNothing id w ∧ (w.pc = .spawned ∨ w.pc.Running) := by
  refine ⟨missesNothing .nil hs.of_guarded hw, ?_⟩
  by_cases hpc : w.pc = .spawned
  · exact Or.inl hpc
  · exact Or.inr ⟨Pc.stage_ne_spawned hpc, running_reach hs hw⟩

/-- A watch on all keys registers, and is about to read the stream from its beginning. -/
def registerFirst : List Act :=
  [.create 0 ⟨[97], [0], 1⟩, .revision 0 true, .confirm 0 true, .register 1, .watch 1 .go]

/-- The writer of an event hands it to the dispatcher, which puts it into the channel of the first
subscriber. -/
def handIn (ev : Event) : List Act :=
  [.ingest ev, .dispatch 0, .dispatch 1, .dispatch 0, .dispatch 0]

/-- The watch waits for the first write, in vain at first, and then for the second, which ends its
reads.  Both are sent, the second from the channel. -/
theorem first_write_read :
    ∃ s w, Reach (guarded (fun s act => stays 1 s act = true) Sys.step) Buffered (.start []) s ∧
      s.watches 1 = some w ∧ w.startRevision = 1 ∧ w.pc.Running ∧
      s.eventsSent 1 = (s.feed.stream.filter w.wants).map eventToProto ∧
      (s.eventsSent 1).map ProtoEvent.rev = [1, 2] := by
  obtain ⟨s, hs, hp⟩ := exists_of_run (guarded (fun s act => stays 1 s act = true) Sys.step) Buffered
    (.start [])
    (registerFirst ++ [.watch 1 .timeout, .commit (createEvent [97] 1),
      .watch 1 (.read readBatchSize), .watch 1 .go, .watch 1 (.send true), .watch 1 .timeout] ++
      handIn (createEvent [97] 1) ++
      [.commit (createEvent [98] 2), .watch 1 (.read readBatchSize)] ++
      handIn (createEvent [98] 2) ++
      [.watch 1 .recv, .watch 1 .go, .watch 1 .go, .watch 1 .go, .watch 1 (.send true)])
    (fun s => (s.watches 1).any fun w : Watch => decide
      (s.feed.inflight = [] ∧ s.feed.lost = [] ∧ s.feed.lock = .free ∧ w.pc = .selecting ∧
        (s.feed.disp.sub w.sub).ch = [] ∧ (s.feed.disp.sub w.sub).cancelled = false ∧
        w.startRevision = 1 ∧ (s.eventsSent 1).map ProtoEvent.rev = [1, 2])) (by decide +kernel)
  obtain ⟨w, hw, hp⟩ := (Option.any_eq_true _ _).mp hp
  obtain ⟨hin, hlost, hlock, hpc, hch, hcut, hstart, hrevs⟩ := of_decide_eq_true hp
  obtain ⟨hmisses, hrun⟩ := first_write_complete 1 s hs w hw
  have hspawned : w.pc ≠ .spawned := by
    rw [hpc]
    exact fun h => nomatch h
  exact ⟨s, w, hs, hw, hstart, hrun.resolve_left hspawned,
    (hmisses.2.2.2 hin hlost hlock hcut).1 (Or.inl ⟨hpc, hch⟩), hrevs⟩

/-! ### A watch that is given up -/

theorem View.Step.gone {id : ℤ} {v v' : View} (h : View.Step id v v') (hpc : v.w.pc = .gone) :
    v'.w.pc = .gone ∧ eventsOf v'.sent = eventsOf v.sent := by
  cases h with
  | register k hp =>
    rw [hpc] at hp
    cases hp
  | own ctxDone pc ch out hm => cases hm <;> simp_all
  | finish hp _ =>
    rw [hpc] at hp
    cases hp
  | reply out cancelled hout =>
    refine ⟨hpc, ?_⟩
    dsimp only
    rw [eventsOf_append, eventsOf_eq_nil hout, List.append_nil]
  | _ => exact ⟨hpc, rfl⟩

theorem eventsSent_of_gone {ok : Sys → Prop} {s s' : Sys} (hwired : Wired s)
    (hs : Reach Sys.step ok s s') {id : ℤ} {w : Watch} (hw : s.watches id = some w)
    (hpc : w.pc = .gone) : s'.eventsSent id = s.eventsSent id := by
  obtain ⟨_, _, _, heq⟩ := view_reach hwired hs hw
    (P := fun v => v.w.pc = .gone ∧ eventsOf v.sent = s.eventsSent id) ⟨hpc, rfl⟩
    fun v v' ⟨hp, hsent⟩ hview => ⟨(hview.gone hp).1, (hview.gone hp).2.trans hsent⟩
  exact heq

/-- The client of the watch `id` stays, and no read fails. -/
def faultless (id : ℤ) (act : Act) : Bool :=
  unhindered id act &&
    match act with
    | .watch _ .readErr => false
    | _ => true

/-- **The first write comes too late**: nobody writes while the watch waits, `maxReaderErrors` of
its reads are given up, and it ends with a Canceled response.  No read has failed, the client is
there, and the channel has room; the first write is not sent then or later. -/
theorem first_write_unsent :
    ∃ s w, Reach (guarded (fun _ act => faultless 1 act = true) Sys.step) Buffered (.start []) s ∧
      s.watches 1 = some w ∧ w.startRevision = 1 ∧ s.CanceledSent 1 ∧
      (s.feed.disp.sub w.sub).cancelled = false ∧
      s.feed.stream.filter w.wants = [createEvent [97] 1] ∧
      ∀ s', Reach Sys.step (fun _ => True) s s' → s'.eventsSent 1 = [] := by
  obtain ⟨s, hs, hp⟩ := exists_of_run
    (guarded (fun _ act => faultless 1 act = true) Sys.step) Buffered (.start [])
    (registerFirst ++ List.replicate maxReaderErrors (.watch 1 .timeout) ++
      [.watch 1 .go, .watch 1 (.send true), .finish 1, .commit (createEvent [97] 1),
        .ingest (createEvent [97] 1), .dispatch 0])
    (fun s => (s.watches 1).any fun w : Watch => decide
      (w.pc = .gone ∧ w.startRevision = 1 ∧ (∃ r ∈ s.sentTo 1, r.canceled = true) ∧
        (s.feed.disp.sub w.sub).cancelled = false ∧
        s.feed.stream.filter w.wants = [createEvent [97] 1] ∧ s.eventsSent 1 = []))
    (by decide +kernel)
  obtain ⟨w, hw, hp⟩ := (Option.any_eq_true _ _).mp hp
  obtain ⟨hpc, hstart, hcanceled, hcut, hwanted, hnone⟩ := of_decide_eq_true hp
  refine ⟨s, w, hs, hw, hstart, hcanceled, hcut, hwanted, fun s' hs' => ?_⟩
  rw [eventsSent_of_gone (wired_reach hs.of_guarded) hs' hw hpc]
  exact hnone

end REtcd.Server
