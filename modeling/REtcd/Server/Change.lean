import REtcd.Server.Feed

/-!
# What a step of the system changes

`Watch.Move` and `Change` list what a step of a watch and of the system can be, as relations to
reason with; `step_move` and `step_change` say that nothing else happens.

`Wired` says that the IDs of watches and subscriptions are used once, so that the step of one watch
leaves the others alone.  Every step keeps it (`Wired.change`).
-/

namespace REtcd.Server

open Base Store

/-! ### The steps of a watch -/

/-- What a step of a watch with ID `id` and channel `ch` can be: where it stands then, what is left
in its channel, and what it has sent. -/
inductive Watch.Move (sh : Shared) (id : ℤ) (w : Watch) (sub : WatchSub) :
    Pc → List Event → List WatchResponse → Prop
  | seek : w.pc = .seeking →
      Move sh id w sub (.reading (Dispatcher.seekStreamID sh.checkpoints w.startRevision) 0) sub.ch []
  | read (lastID : StreamID) (consecErr n : ℕ) : w.pc = .reading lastID consecErr → 1 ≤ n →
      (xread sh.stream lastID n).1 ≠ [] →
      Move sh id w sub (w.caught (xread sh.stream lastID n).1 (xread sh.stream lastID n).2) sub.ch []
  | retry (lastID : StreamID) (consecErr : ℕ) : w.pc = .reading lastID consecErr →
      consecErr + 1 < maxReaderErrors →
      Move sh id w sub (.reading lastID (consecErr + 1)) sub.ch []
  | outage (lastID : StreamID) (consecErr : ℕ) : w.pc = .reading lastID consecErr →
      ¬ consecErr + 1 < maxReaderErrors → Move sh id w sub (.stamping [] true .stop) sub.ch []
  | quit (lastID : StreamID) (consecErr : ℕ) : w.pc = .reading lastID consecErr →
      sh.ctxDone = true → Move sh id w sub .returning sub.ch []
  | done : w.pc = .selecting → sh.ctxDone = true → Move sh id w sub .returning sub.ch []
  | cut : w.pc = .selecting → sub.cancelled = true →
      Move sh id w sub (.stamping [] true .stop) sub.ch []
  | recv (ev : Event) (ch : List Event) : w.pc = .selecting → sub.ch = ev :: ch →
      Move sh id w sub (.collecting (w.add [] ev)) ch []
  | tick : w.pc = .selecting → Move sh id w sub (.stamping [] false .live) sub.ch []
  | more (matched : List ProtoEvent) (ev : Event) (ch : List Event) :
      w.pc = .collecting matched → sub.ch = ev :: ch →
      Move sh id w sub (.collecting (w.add matched ev)) ch []
  | collected (matched : List ProtoEvent) : w.pc = .collecting matched →
      Move sh id w sub (Watch.collected matched) sub.ch []
  | stamp (matched : List ProtoEvent) (canceled : Bool) (next : Next) :
      w.pc = .stamping matched canceled next →
      Move sh id w sub (.sending (watchResponse id sh.latestRev canceled matched) next) sub.ch []
  | sent (resp : WatchResponse) (next : Next) : w.pc = .sending resp next →
      Move sh id w sub next.pc sub.ch [resp]
  | failed (resp : WatchResponse) (next : Next) : w.pc = .sending resp next →
      Move sh id w sub .returning sub.ch []

theorem Watch.Move.readFailed {sh : Shared} {id : ℤ} {w : Watch} {sub : WatchSub}
    {lastID : StreamID} {consecErr : ℕ} (hpc : w.pc = .reading lastID consecErr) :
    w.Move sh id sub (Watch.readFailed lastID consecErr) sub.ch [] := by
  rw [Watch.readFailed]
  split_ifs with hfew
  · exact .retry _ _ hpc hfew
  · exact .outage _ _ hpc hfew

theorem Watch.step_move {sh : Shared} {id : ℤ} {w : Watch} {sub : WatchSub} {a : WatchAct} {pc : Pc}
    {ch : List Event} {out : List WatchResponse} (h : w.step sh id sub a = some (pc, ch, out)) :
    w.Move sh id sub pc ch out := by
  unfold Watch.step at h
  split at h
  · rename_i hpc
    cases h
    exact .seek hpc
  · rename_i hpc
    split_ifs at h with hd
    cases h
    exact .quit _ _ hpc hd
  · rename_i hpc
    split_ifs at h with hn
    split at h
    · rename_i hread
      obtain ⟨hne, hread⟩ := blockReadEvents_some.mp hread
      cases h
      have hmove : w.Move sh id sub _ _ _ := .read _ _ _ hpc hn.1 (by rwa [hread])
      rwa [hread] at hmove
    · cases h
  · rename_i hpc
    cases h
    exact .readFailed hpc
  · rename_i hpc
    split at h
    · cases h
    · cases h
      exact .readFailed hpc
  · rename_i hpc
    split_ifs at h with hd
    cases h
    exact .done hpc hd
  · rename_i hpc
    split_ifs at h with hc
    cases h
    exact .cut hpc hc
  · rename_i hpc
    split at h
    · cases h
    · rename_i ev ch' hch
      cases h
      exact .recv ev _ hpc hch
  · rename_i hpc
    cases h
    exact .tick hpc
  · rename_i matched hpc
    split_ifs at h
    · split at h
      · rename_i hch
        cases h
        rw [← hch]
        exact .collected matched hpc
      · rename_i ev ch' hch
        cases h
        exact .more matched ev _ hpc hch
    · cases h
      exact .collected matched hpc
  · rename_i hpc
    cases h
    exact .stamp _ _ _ hpc
  · rename_i hpc
    split_ifs at h
    · cases h
      exact .sent _ _ hpc
    · cases h
      exact .failed _ _ hpc
  · cases h

/-! ### The wiring -/

/-- The ID of the watch that a stream is about to start. -/
def ConnPc.newID : ConnPc → Option ℤ
  | creating id _ => some id
  | confirming id _ _ => some id
  | _ => none

/-- The IDs of watches and subscriptions are used once. -/
structure Wired (s : Sys) : Prop where
  le_watchID : ∀ id w, s.watches id = some w → id ≤ s.watchID
  fresh : ∀ c id, (s.conns c).pc.newID = some id → id ≤ s.watchID ∧ s.watches id = none
  newID_inj : ∀ c c' id, (s.conns c).pc.newID = some id → (s.conns c').pc.newID = some id → c = c'
  le_nextID : ∀ id w, s.watches id = some w → w.sub ≤ s.feed.disp.nextID
  spawned : ∀ id w, s.watches id = some w → (w.pc = .spawned ↔ w.sub = 0)
  sub_inj : ∀ i j v w, s.watches i = some v → s.watches j = some w → v.sub = w.sub → v.sub ≠ 0 →
    i = j
  sending : ∀ id w resp next, s.watches id = some w → w.pc = .sending resp next → resp.watchId = id
  events : ∀ x ∈ s.sent, x.2.events ≠ [] → s.watches x.2.watchId ≠ none

/-! ### What a step changes -/

/-- A step of the writers or of the holder of the dispatcher's lock. -/
def FeedStep (f f' : Feed) : Prop :=
  (∃ ev, f.commit ev = some f') ∨ (∃ ev, f.lose ev = some f') ∨ (∃ ev, f.ingest ev = some f') ∨
    ∃ id, f.dispatch id = some f'

inductive Change (s : Sys) : Sys → Prop
  | feed (f : Feed) : FeedStep s.feed f → Change s { s with feed := f }
  /-- A step of a stream: it may give out a new watch ID, call cancel functions, read the revision
  for a progress response, and answer a cancel or progress request. -/
  | conn (c : ℕ) (conn : Conn) (watchID : ℤ) (watches : ℤ → Option Watch)
      (out : List WatchResponse) :
      (∀ id, watches id = s.watches id ∨
        watches id = (s.watches id).map fun w => { w with cancelled := true }) →
      (∀ r ∈ out, r.events = [] ∧
        (r.canceled = true ∨ (s.conns c).pc = .progressing r.header.revision)) →
      (watchID = s.watchID ∧
          (conn.pc.newID = none ∨ conn.pc.newID = (s.conns c).pc.newID) ∨
        watchID = s.watchID + 1 ∧ conn.pc.newID = some watchID) →
      (∀ rev, conn.pc = .progressing rev →
        (s.conns c).pc = .progressing rev ∨ rev = s.feed.disp.latestRev) →
      Change s { s with
        watchID := watchID
        watches := watches
        conns := Function.update s.conns c conn
        sent := s.sent ++ out.map (c, ·) }
  /-- A stream starts a watch. -/
  | spawn (c : ℕ) (conn : Conn) (id : ℤ) (w : Watch) (out : List WatchResponse) :
      (s.conns c).pc.newID = some id → conn.pc = .receiving → w.pc = .spawned → w.sub = 0 →
      (∀ r ∈ out, r.events = [] ∧ r.created = true) →
      Change s { s with
        watches := Function.update s.watches id (some w)
        conns := Function.update s.conns c conn
        sent := s.sent ++ out.map (c, ·) }
  | register (id : ℤ) (w : Watch) (s' : Sys) : s.watches id = some w →
      s.register id w = some s' → Change s s'
  | finish (id : ℤ) (w : Watch) (s' : Sys) : s.watches id = some w →
      s.finish id w = some s' → Change s s'
  | own (id : ℤ) (w : Watch) (pc : Pc) (ch : List Event) (out : List WatchResponse) :
      s.watches id = some w → w.Move (s.shared w) id (s.feed.disp.sub w.sub) pc ch out →
      Change s { s with
        feed := { s.feed with
          disp := { s.feed.disp with
            sub := Function.update s.feed.disp.sub w.sub
              { s.feed.disp.sub w.sub with ch := ch } } }
        watches := Function.update s.watches id (some { w with pc := pc })
        sent := s.sent ++ out.map (w.conn, ·) }

section Change

variable {s s' : Sys}

theorem callCancels_watches (s : Sys) (ids : Finset ℤ) (id : ℤ) :
    (s.callCancels ids).watches id = s.watches id ∨
      (s.callCancels ids).watches id =
        (s.watches id).map fun w => { w with cancelled := true } := by
  rw [Sys.callCancels]
  dsimp only
  split_ifs
  · exact Or.inr rfl
  · exact Or.inl rfl

def sendOut (ok : Bool) (resp : WatchResponse) : List WatchResponse := if ok then [resp] else []

theorem send_eq (s : Sys) (c : ℕ) (ok : Bool) (resp : WatchResponse) :
    s.send c ok resp = { s with sent := s.sent ++ (sendOut ok resp).map (c, ·) } := by
  cases ok
  · simp [Sys.send, sendOut]
  · rfl

theorem forall_sendOut {P : WatchResponse → Prop} {ok : Bool} {resp : WatchResponse} (h : P resp) :
    ∀ r ∈ sendOut ok resp, P r := by
  intro r hr
  rw [sendOut] at hr
  split_ifs at hr
  · rw [List.mem_singleton.mp hr]
    exact h
  · cases hr

theorem connStep_change (c : ℕ) (act : Act) (h : s.connStep c act = some s') : Change s s' := by
  have hkeep : ∀ id, s.watches id = s.watches id ∨
      s.watches id = (s.watches id).map fun w => { w with cancelled := true } :=
    fun _ => Or.inl rfl
  -- a step that sends nothing and gives out no ID
  have hquiet : ∀ (conn : Conn) (watches : ℤ → Option Watch),
      (∀ id, watches id = s.watches id ∨
        watches id = (s.watches id).map fun w => { w with cancelled := true }) →
      (conn.pc.newID = none ∨ conn.pc.newID = (s.conns c).pc.newID) →
      (∀ rev, conn.pc = .progressing rev →
        (s.conns c).pc = .progressing rev ∨ rev = s.feed.disp.latestRev) →
      Change s { s with watches := watches, conns := Function.update s.conns c conn } := by
    intro conn watches hw hn hrev
    have := Change.conn c conn s.watchID watches [] hw (by simp) (Or.inl ⟨rfl, hn⟩) hrev
    simpa using this
  cases act with
  | create c' cr =>
    rw [Sys.connStep] at h
    split at h
    · rw [Option.some.injEq] at h
      subst h
      have := Change.conn (s := s) c
        { s.conns c with
          pc := .creating (s.watchID + 1) cr
          cancels := insert (s.watchID + 1) (s.conns c).cancels }
        (s.watchID + 1) s.watches [] hkeep (by simp) (Or.inr ⟨rfl, rfl⟩) (fun _ h => nomatch h)
      simpa using this
    · cases h
  | revision c' ok =>
    rw [Sys.connStep] at h
    split at h
    · rename_i id cr hpc
      rw [Option.some.injEq] at h
      subst h
      refine hquiet _ s.watches hkeep (Or.inr ?_) fun _ h => (nomatch h)
      rw [hpc]
      rfl
    · cases h
  | confirm c' ok =>
    rw [Sys.connStep] at h
    split at h
    · rename_i id cr rev hpc
      rw [Option.some.injEq, send_eq] at h
      subst h
      refine Change.spawn c _ id _ (sendOut ok _) ?_ rfl rfl rfl (forall_sendOut ⟨rfl, rfl⟩)
      rw [hpc]
      rfl
    · cases h
  | cancel c' id =>
    rw [Sys.connStep] at h
    split at h
    · rw [Option.some.injEq] at h
      subst h
      dsimp only
      split_ifs
      · exact hquiet _ _ (callCancels_watches s {id}) (Or.inl rfl) fun _ h => (nomatch h)
      · exact hquiet _ s.watches hkeep (Or.inl rfl) fun _ h => (nomatch h)
    · cases h
  | progress c' =>
    rw [Sys.connStep] at h
    split at h
    · rw [Option.some.injEq] at h
      subst h
      refine hquiet _ s.watches hkeep (Or.inl rfl) fun rev hr => Or.inr ?_
      cases hr
      rfl
    · cases h
  | reply c' ok =>
    rw [Sys.connStep] at h
    split at h
    · rw [Option.some.injEq, send_eq] at h
      subst h
      exact Change.conn c _ s.watchID s.watches _ hkeep (forall_sendOut ⟨rfl, Or.inl rfl⟩)
        (Or.inl ⟨rfl, Or.inl rfl⟩) fun _ h => (nomatch h)
    · rename_i rev hpc
      rw [Option.some.injEq, send_eq] at h
      subst h
      exact Change.conn c _ s.watchID s.watches _ hkeep (forall_sendOut ⟨rfl, Or.inr hpc⟩)
        (Or.inl ⟨rfl, Or.inl rfl⟩) fun _ h => (nomatch h)
    · cases h
  | hangUp c' =>
    rw [Sys.connStep, Option.some.injEq] at h
    subst h
    exact hquiet _ s.watches hkeep (Or.inr rfl) fun _ h => Or.inl h
  | close c' =>
    rw [Sys.connStep] at h
    split at h
    · rw [Option.some.injEq] at h
      subst h
      exact hquiet _ _ (callCancels_watches s _) (Or.inl rfl) fun _ h => (nomatch h)
    · cases h
  | _ => cases h

/-- **Every step is one of the changes.** -/
theorem step_change {act : Act} (h : s.step act = some s') : Change s s' := by
  have hfeed : ∀ {o : Option Feed}, (o.map fun f => { s with feed := f }) = some s' →
      (∀ f, o = some f → FeedStep s.feed f) → Change s s' := by
    intro o ho hstep
    obtain ⟨f, hf, rfl⟩ := Option.map_eq_some_iff.mp ho
    exact Change.feed f (hstep f hf)
  cases act with
  | commit ev => exact hfeed h fun f hf => Or.inl ⟨ev, hf⟩
  | lose ev => exact hfeed h fun f hf => Or.inr (Or.inl ⟨ev, hf⟩)
  | ingest ev => exact hfeed h fun f hf => Or.inr (Or.inr (Or.inl ⟨ev, hf⟩))
  | dispatch id => exact hfeed h fun f hf => Or.inr (Or.inr (Or.inr ⟨id, hf⟩))
  | register id =>
    obtain ⟨w, hw, hr⟩ := Option.bind_eq_some_iff.mp h
    exact Change.register id w s' hw hr
  | finish id =>
    obtain ⟨w, hw, hr⟩ := Option.bind_eq_some_iff.mp h
    exact Change.finish id w s' hw hr
  | watch id a =>
    obtain ⟨w, hw, hr⟩ := Option.bind_eq_some_iff.mp h
    obtain ⟨⟨pc, ch, out⟩, hs, rfl⟩ := Option.map_eq_some_iff.mp hr
    exact Change.own id w pc ch out hw (Watch.step_move hs)
  | create c cr => exact connStep_change c (.create c cr) h
  | revision c ok => exact connStep_change c (.revision c ok) h
  | confirm c ok => exact connStep_change c (.confirm c ok) h
  | cancel c id => exact connStep_change c (.cancel c id) h
  | progress c => exact connStep_change c (.progress c) h
  | reply c ok => exact connStep_change c (.reply c ok) h
  | hangUp c => exact connStep_change c (.hangUp c) h
  | close c => exact connStep_change c (.close c) h

end Change

/-! ### The wiring is kept -/

section Wiring

variable {s s' : Sys}

theorem FeedStep.nextID {f f' : Feed} (h : FeedStep f f') : f'.disp.nextID = f.disp.nextID := by
  rcases h with ⟨ev, h⟩ | ⟨ev, h⟩ | ⟨ev, h⟩ | ⟨id, h⟩
  · obtain ⟨_, rfl⟩ := Feed.commit_iff.mp h
    rfl
  · obtain ⟨_, rfl⟩ := Feed.lose_iff.mp h
    rfl
  · obtain ⟨_, _, ⟨_, rfl⟩ | ⟨d, hd, rfl⟩⟩ := Feed.ingest_iff.mp h
    · rfl
    · rw [Dispatcher.hold] at hd
      dsimp only at hd
      split_ifs at hd <;> rw [← Option.some.inj hd]
  · have hrel : ∀ r ev caller, (f.release r ev caller).disp.nextID = f.disp.nextID := by
      intro r ev caller
      obtain ⟨n, cks, heq, _⟩ :=
        Dispatcher.release_eq ev { f.disp with pending := f.disp.pending.erase r }
      rw [Feed.release, heq]
    cases Feed.dispatch_iff.mp h with
    | drained ev _ _ => exact hrel _ ev _
    | flushed ev r _ _ _ _ => exact hrel r ev _
    | deliver ev todo caller _ _ =>
      obtain ⟨subs, sub, heq⟩ := Dispatcher.deliver_eq ev id f.disp
      rw [heq]
    | _ => rfl

/-- Revisions are given up only when a flush is entered. -/
theorem FeedStep.skipped {f f' : Feed} (h : FeedStep f f') :
    f'.skipped = f.skipped ∨ f' = f.flush ∧ maxPendingEvents < f.disp.pending.size := by
  rcases h with ⟨ev, h⟩ | ⟨ev, h⟩ | ⟨ev, h⟩ | ⟨id, h⟩
  · obtain ⟨_, rfl⟩ := Feed.commit_iff.mp h
    exact Or.inl rfl
  · obtain ⟨_, rfl⟩ := Feed.lose_iff.mp h
    exact Or.inl rfl
  · obtain ⟨_, _, ⟨_, rfl⟩ | ⟨d, _, rfl⟩⟩ := Feed.ingest_iff.mp h <;> exact Or.inl rfl
  · cases Feed.dispatch_iff.mp h with
    | flush _ _ hmany => exact Or.inr ⟨rfl, hmany⟩
    | _ => exact Or.inl rfl

@[simp] theorem Next.pc_ne_spawned (next : Next) : next.pc ≠ .spawned := by
  cases next <;> exact fun h => nomatch h

@[simp] theorem Next.pc_ne_sending (next next' : Next) (resp : WatchResponse) :
    next.pc ≠ .sending resp next' := by
  cases next <;> exact fun h => nomatch h

def Watch.afterBatch (w : Watch) (events : List Event) (lastID : StreamID) : Next :=
  if (w.scan events).2 then .live else .catchUp lastID

theorem Watch.caught_cases (w : Watch) (events : List Event) (lastID : StreamID) :
    events = [] ∧ w.caught events lastID = .selecting ∨
      events ≠ [] ∧ (w.scan events).1 = [] ∧
        w.caught events lastID = (w.afterBatch events lastID).pc ∨
      events ≠ [] ∧ (w.scan events).1 ≠ [] ∧
        w.caught events lastID =
          .stamping (w.scan events).1 false (w.afterBatch events lastID) := by
  rw [caught]
  by_cases he : events = []
  · exact Or.inl ⟨he, if_pos he⟩
  · rw [if_neg he]
    by_cases hm : (w.scan events).1 = []
    · exact Or.inr (Or.inl ⟨he, hm, if_pos hm⟩)
    · exact Or.inr (Or.inr ⟨he, hm, if_neg hm⟩)

theorem Watch.collected_cases (matched : List ProtoEvent) :
    matched = [] ∧ Watch.collected matched = .selecting ∨
      matched ≠ [] ∧ Watch.collected matched = .stamping matched false .live := by
  rw [collected]
  split_ifs with h
  · exact Or.inl ⟨h, rfl⟩
  · exact Or.inr ⟨h, rfl⟩

section Move

variable {sh : Shared} {id : ℤ} {w : Watch} {sub : WatchSub} {pc : Pc} {ch : List Event}
  {out : List WatchResponse}

theorem Watch.Move.ne_spawned (h : w.Move sh id sub pc ch out) :
    w.pc ≠ .spawned ∧ pc ≠ .spawned := by
  cases h with
  | read lastID consecErr n hpc _ _ =>
    refine ⟨by simp [hpc], ?_⟩
    rcases w.caught_cases (xread sh.stream lastID n).1 (xread sh.stream lastID n).2 with
      ⟨_, hc⟩ | ⟨_, _, hc⟩ | ⟨_, _, hc⟩ <;> simp [hc]
  | collected matched hpc =>
    refine ⟨by simp [hpc], ?_⟩
    rcases collected_cases matched with ⟨_, hc⟩ | ⟨_, hc⟩ <;> simp [hc]
  | _ => simp_all

/-- What a watch is about to send has just been stamped with the revision that it read. -/
theorem Watch.Move.stamped {resp : WatchResponse} {next : Next} (h : w.Move sh id sub pc ch out)
    (hpc : pc = .sending resp next) :
    ∃ matched canceled, w.pc = .stamping matched canceled next ∧
      resp = watchResponse id sh.latestRev canceled matched := by
  cases h with
  | read lastID consecErr n _ _ _ =>
    rcases w.caught_cases (xread sh.stream lastID n).1 (xread sh.stream lastID n).2 with
      ⟨_, hc⟩ | ⟨_, _, hc⟩ | ⟨_, _, hc⟩ <;> simp [hc] at hpc
  | collected matched _ =>
    rcases collected_cases matched with ⟨_, hc⟩ | ⟨_, hc⟩ <;> simp [hc] at hpc
  | stamp matched canceled next' hst =>
    cases hpc
    exact ⟨matched, canceled, hst, rfl⟩
  | _ => simp at hpc

theorem Watch.Move.sending {resp : WatchResponse} {next : Next}
    (h : w.Move sh id sub pc ch out) (hpc : pc = .sending resp next) : resp.watchId = id := by
  obtain ⟨matched, canceled, _, rfl⟩ := h.stamped hpc
  rfl

theorem Watch.Move.out_cases (h : w.Move sh id sub pc ch out) :
    out = [] ∨ ∃ resp next, w.pc = .sending resp next ∧ out = [resp] := by
  cases h with
  | sent resp next hpc => exact Or.inr ⟨resp, next, hpc, rfl⟩
  | _ => exact Or.inl rfl

end Move

theorem register_eq {id : ℤ} {w : Watch} (h : s.register id w = some s') :
    s.feed.lock = .free ∧ w.pc = .spawned ∧
      s' = { s with feed := { s.feed with
        disp := (s.feed.disp.register w.key w.rangeEnd).1 } }.setWatch id
        { w with
          sub := s.feed.disp.nextID + 1
          boundary := s.feed.disp.latestRev
          pc := if w.startRevision ≤ s.feed.disp.latestRev then .seeking else .selecting } := by
  rw [Sys.register] at h
  split at h
  · rename_i hl hpc
    exact ⟨hl, hpc, (Option.some.inj h).symm⟩
  · cases h

theorem finish_eq {id : ℤ} {w : Watch} (h : s.finish id w = some s') :
    s.feed.lock = .free ∧ w.pc = .returning ∧
      s' = { s with
        feed := { s.feed with disp := s.feed.disp.deregister w.sub }
        conns := Function.update s.conns w.conn
          { s.conns w.conn with cancels := (s.conns w.conn).cancels.erase id } }.setWatch id
        { w with cancelled := true, pc := .gone } := by
  rw [Sys.finish] at h
  split at h
  · rename_i hl hpc
    exact ⟨hl, hpc, (Option.some.inj h).symm⟩
  · cases h

/-- **What a step does to the feed**: it is a step of the feed, or only the subscribers change. -/
theorem Change.feed_cases (h : Change s s') :
    FeedStep s.feed s'.feed ∨ ∃ subs sub nextID, s'.feed =
      { s.feed with disp := { s.feed.disp with subs := subs, sub := sub, nextID := nextID } } := by
  cases h with
  | feed f hf => exact Or.inl hf
  | register id w s' _ hr =>
    obtain ⟨_, _, rfl⟩ := register_eq hr
    exact Or.inr ⟨_, _, _, rfl⟩
  | finish id w s' _ hr =>
    obtain ⟨_, _, rfl⟩ := finish_eq hr
    exact Or.inr ⟨_, _, _, rfl⟩
  | _ => exact Or.inr ⟨_, _, _, rfl⟩

theorem Change.skipped (h : Change s s') :
    s'.feed.skipped = s.feed.skipped ∨
      s'.feed = s.feed.flush ∧ maxPendingEvents < s.feed.disp.pending.size := by
  rcases h.feed_cases with hf | ⟨subs, sub, nextID, heq⟩
  · exact hf.skipped
  · rw [heq]
    exact Or.inl rfl

theorem Change.watchID_le (h : Change s s') : s.watchID ≤ s'.watchID := by
  cases h with
  | conn c conn watchID watches out _ _ hid _ =>
    rcases hid with ⟨rfl, _⟩ | ⟨rfl, _⟩
    · exact le_rfl
    · show s.watchID ≤ s.watchID + 1
      omega
  | register id w s' _ hr =>
    obtain ⟨_, _, rfl⟩ := register_eq hr
    exact le_rfl
  | finish id w s' _ hr =>
    obtain ⟨_, _, rfl⟩ := finish_eq hr
    exact le_rfl
  | _ => exact le_rfl

theorem update_eq_some {watches : ℤ → Option Watch} {id j : ℤ} {w v : Watch}
    (h : Function.update watches id (some w) j = some v) :
    j = id ∧ v = w ∨ j ≠ id ∧ watches j = some v := by
  by_cases hj : j = id
  · subst hj
    rw [Function.update_self, Option.some.injEq] at h
    exact Or.inl ⟨rfl, h.symm⟩
  · rw [Function.update_of_ne hj] at h
    exact Or.inr ⟨hj, h⟩

theorem update_ne_none {watches : ℤ → Option Watch} {id j : ℤ} {w : Watch}
    (h : watches j ≠ none) : Function.update watches id (some w) j ≠ none := by
  by_cases hj : j = id
  · subst hj
    simp
  · rwa [Function.update_of_ne hj]

/-- A step of one watch keeps the wiring, if the watch keeps its subscription or gets a new one. -/
theorem Wired.update (h : Wired s) {id : ℤ} {w w' : Watch} {feed : Feed} {conns : ℕ → Conn}
    {sent : List (ℕ × WatchResponse)} (hw : s.watches id = some w)
    (hconns : ∀ c, (conns c).pc = (s.conns c).pc)
    (hnext : s.feed.disp.nextID ≤ feed.disp.nextID)
    (hsub : w'.sub = w.sub ∨ s.feed.disp.nextID < w'.sub ∧ w'.sub ≤ feed.disp.nextID)
    (hspawned : w'.pc = .spawned ↔ w'.sub = 0)
    (hsending : ∀ resp next, w'.pc = .sending resp next → resp.watchId = id)
    (hsent : ∀ x ∈ sent, x ∈ s.sent ∨ x.2.watchId = id) :
    Wired { s with
      feed := feed
      watches := Function.update s.watches id (some w')
      conns := conns
      sent := sent } := by
  have hbound := h.le_nextID
  refine ⟨?_, ?_, ?_, ?_, ?_, ?_, ?_, ?_⟩
  · intro j v hv
    rcases update_eq_some hv with ⟨rfl, _⟩ | ⟨_, hv⟩
    · exact h.le_watchID _ w hw
    · exact h.le_watchID j v hv
  · intro c j hj
    dsimp only at hj ⊢
    rw [hconns] at hj
    obtain ⟨hle, hnone⟩ := h.fresh c j hj
    refine ⟨hle, ?_⟩
    rw [Function.update_of_ne]
    · exact hnone
    · rintro rfl
      rw [hw] at hnone
      cases hnone
  · intro c c' j hj hj'
    dsimp only at hj hj'
    rw [hconns] at hj hj'
    exact h.newID_inj c c' j hj hj'
  · intro j v hv
    dsimp only
    rcases update_eq_some hv with ⟨rfl, rfl⟩ | ⟨_, hv⟩
    · have := hbound _ w hw
      omega
    · exact (hbound j v hv).trans hnext
  · intro j v hv
    rcases update_eq_some hv with ⟨rfl, rfl⟩ | ⟨_, hv⟩
    · exact hspawned
    · exact h.spawned j v hv
  · intro i j u v hu hv he hne
    rcases update_eq_some hu with ⟨rfl, rfl⟩ | ⟨_, hu'⟩
    · rcases update_eq_some hv with ⟨rfl, rfl⟩ | ⟨_, hv'⟩
      · rfl
      · rcases hsub with hs | ⟨hlt, _⟩
        · exact h.sub_inj _ j w v hw hv' (hs ▸ he) (hs ▸ hne)
        · have := hbound j v hv'
          omega
    · rcases update_eq_some hv with ⟨rfl, rfl⟩ | ⟨_, hv'⟩
      · rcases hsub with hs | ⟨hlt, _⟩
        · exact h.sub_inj i _ u w hu' hw (he.trans hs) hne
        · have := hbound i u hu'
          omega
      · exact h.sub_inj i j u v hu' hv' he hne
  · intro j v resp next hv hpc
    rcases update_eq_some hv with ⟨rfl, rfl⟩ | ⟨_, hv⟩
    · exact hsending resp next hpc
    · exact h.sending j v resp next hv hpc
  · intro x hx hne
    rcases hsent x hx with hx | hx
    · exact update_ne_none (h.events x hx hne)
    · rw [hx]
      simp

theorem Wired.conn (h : Wired s) {c : ℕ} {conn : Conn} {watchID : ℤ} {watches : ℤ → Option Watch}
    {out : List WatchResponse}
    (hwatches : ∀ id, watches id = s.watches id ∨
      watches id = (s.watches id).map fun w => { w with cancelled := true })
    (hout : ∀ r ∈ out, r.events = [])
    (hid : watchID = s.watchID ∧
        (conn.pc.newID = none ∨ conn.pc.newID = (s.conns c).pc.newID) ∨
      watchID = s.watchID + 1 ∧ conn.pc.newID = some watchID) :
    Wired { s with
      watchID := watchID
      watches := watches
      conns := Function.update s.conns c conn
      sent := s.sent ++ out.map (c, ·) } := by
  have hback : ∀ id w', watches id = some w' →
      ∃ w, s.watches id = some w ∧ w'.sub = w.sub ∧ w'.pc = w.pc := by
    intro id w' hw'
    rcases hwatches id with he | he
    · exact ⟨w', he ▸ hw', rfl, rfl⟩
    · rw [he, Option.map_eq_some_iff] at hw'
      obtain ⟨w, hw, rfl⟩ := hw'
      exact ⟨w, hw, rfl, rfl⟩
  have hnone : ∀ id, watches id = none ↔ s.watches id = none := by
    intro id
    rcases hwatches id with he | he <;> rw [he]
    exact Option.map_eq_none_iff
  have hle : s.watchID ≤ watchID := by
    rcases hid with ⟨he, _⟩ | ⟨he, _⟩ <;> omega
  -- a new ID is above all the others
  have hnew : ∀ c' id, (Function.update s.conns c conn c').pc.newID = some id →
      (s.conns c').pc.newID = some id ∨ c' = c ∧ id = watchID ∧ s.watchID < watchID := by
    intro c' id hn
    by_cases hcc : c' = c
    · subst hcc
      rw [Function.update_self] at hn
      rcases hid with ⟨_, hn' | hn'⟩ | ⟨he, hn'⟩
      · rw [hn'] at hn
        cases hn
      · exact Or.inl (hn' ▸ hn)
      · rw [hn', Option.some.injEq] at hn
        exact Or.inr ⟨rfl, hn.symm, by omega⟩
    · rw [Function.update_of_ne hcc] at hn
      exact Or.inl hn
  refine ⟨?_, ?_, ?_, ?_, ?_, ?_, ?_, ?_⟩
  · intro id w' hw'
    obtain ⟨w, hw, _⟩ := hback id w' hw'
    exact (h.le_watchID id w hw).trans hle
  · intro c' id hn
    dsimp only
    rw [hnone]
    rcases hnew c' id hn with hold | ⟨_, rfl, hlt⟩
    · obtain ⟨hle', hn'⟩ := h.fresh c' id hold
      exact ⟨hle'.trans hle, hn'⟩
    · refine ⟨le_rfl, ?_⟩
      by_contra hsome
      obtain ⟨w, hw⟩ := Option.ne_none_iff_exists'.mp hsome
      have := h.le_watchID _ w hw
      omega
  · intro c₁ c₂ id h₁ h₂
    rcases hnew c₁ id h₁ with hold₁ | ⟨he₁, hid₁, hlt⟩
    · rcases hnew c₂ id h₂ with hold₂ | ⟨_, hid₂, hlt⟩
      · exact h.newID_inj c₁ c₂ id hold₁ hold₂
      · have := (h.fresh c₁ id hold₁).1
        omega
    · rcases hnew c₂ id h₂ with hold₂ | ⟨he₂, _, _⟩
      · have := (h.fresh c₂ id hold₂).1
        omega
      · exact he₁.trans he₂.symm
  · intro id w' hw'
    obtain ⟨w, hw, hs, _⟩ := hback id w' hw'
    exact hs ▸ h.le_nextID id w hw
  · intro id w' hw'
    obtain ⟨w, hw, hs, hp⟩ := hback id w' hw'
    rw [hs, hp]
    exact h.spawned id w hw
  · intro i j v' w' hv' hw' he hne
    obtain ⟨v, hv, hs, _⟩ := hback i v' hv'
    obtain ⟨w, hw, hs', _⟩ := hback j w' hw'
    rw [hs, hs'] at he
    exact h.sub_inj i j v w hv hw he (hs ▸ hne)
  · intro id w' resp next hw' hpc
    obtain ⟨w, hw, _, hp⟩ := hback id w' hw'
    exact h.sending id w resp next hw (hp ▸ hpc)
  · intro x hx hne
    dsimp only
    rw [Ne, hnone]
    rcases List.mem_append.mp hx with hx | hx
    · exact h.events x hx hne
    · obtain ⟨r, hr, rfl⟩ := List.mem_map.mp hx
      exact absurd (hout r hr) hne

theorem Wired.spawn (h : Wired s) {c : ℕ} {conn : Conn} {id : ℤ} {w : Watch}
    {out : List WatchResponse} (hnew : (s.conns c).pc.newID = some id)
    (hconn : conn.pc = .receiving) (hpc : w.pc = .spawned) (hsub : w.sub = 0)
    (hout : ∀ r ∈ out, r.events = []) :
    Wired { s with
      watches := Function.update s.watches id (some w)
      conns := Function.update s.conns c conn
      sent := s.sent ++ out.map (c, ·) } := by
  obtain ⟨hle, hnone⟩ := h.fresh c id hnew
  have hconns : ∀ c' id', (Function.update s.conns c conn c').pc.newID = some id' →
      c' ≠ c ∧ (s.conns c').pc.newID = some id' := by
    intro c' id' hn
    by_cases hcc : c' = c
    · subst hcc
      rw [Function.update_self, hconn] at hn
      cases hn
    · rw [Function.update_of_ne hcc] at hn
      exact ⟨hcc, hn⟩
  refine ⟨?_, ?_, ?_, ?_, ?_, ?_, ?_, ?_⟩
  · intro j v hv
    rcases update_eq_some hv with ⟨rfl, _⟩ | ⟨_, hv⟩
    · exact hle
    · exact h.le_watchID j v hv
  · intro c' id' hn
    obtain ⟨hcc, hold⟩ := hconns c' id' hn
    obtain ⟨hle', hnone'⟩ := h.fresh c' id' hold
    refine ⟨hle', ?_⟩
    dsimp only
    rw [Function.update_of_ne]
    · exact hnone'
    · intro he
      exact hcc (h.newID_inj c' c id (he ▸ hold) hnew)
  · intro c₁ c₂ id' h₁ h₂
    exact h.newID_inj c₁ c₂ id' (hconns c₁ id' h₁).2 (hconns c₂ id' h₂).2
  · intro j v hv
    rcases update_eq_some hv with ⟨rfl, rfl⟩ | ⟨_, hv⟩
    · rw [hsub]
      exact Nat.zero_le _
    · exact h.le_nextID j v hv
  · intro j v hv
    rcases update_eq_some hv with ⟨rfl, rfl⟩ | ⟨_, hv⟩
    · exact iff_of_true hpc hsub
    · exact h.spawned j v hv
  · intro i j u v hu hv he hne
    rcases update_eq_some hu with ⟨rfl, rfl⟩ | ⟨_, hu⟩
    · exact absurd hsub hne
    · rcases update_eq_some hv with ⟨rfl, rfl⟩ | ⟨_, hv⟩
      · exact absurd (he.trans hsub) hne
      · exact h.sub_inj i j u v hu hv he hne
  · intro j v resp next hv hp
    rcases update_eq_some hv with ⟨rfl, rfl⟩ | ⟨_, hv⟩
    · rw [hpc] at hp
      cases hp
    · exact h.sending j v resp next hv hp
  · intro x hx hne
    rcases List.mem_append.mp hx with hx | hx
    · exact update_ne_none (h.events x hx hne)
    · obtain ⟨r, hr, rfl⟩ := List.mem_map.mp hx
      exact absurd (hout r hr) hne

/-- **Every step keeps the wiring.** -/
theorem Wired.change (h : Wired s) (hc : Change s s') : Wired s' := by
  cases hc with
  | feed f hf =>
    refine ⟨h.le_watchID, h.fresh, h.newID_inj, ?_, h.spawned, h.sub_inj, h.sending, h.events⟩
    intro id w hw
    dsimp only
    rw [hf.nextID]
    exact h.le_nextID id w hw
  | conn c conn watchID watches out hwatches hout hid _ =>
    exact h.conn hwatches (fun r hr => (hout r hr).1) hid
  | spawn c conn id w out hnew hconn hpc hsub hout =>
    exact h.spawn hnew hconn hpc hsub fun r hr => (hout r hr).1
  | register id w s' hw hr =>
    obtain ⟨_, hpc, rfl⟩ := register_eq hr
    refine h.update hw (fun _ => rfl) (Nat.le_succ _) (Or.inr ⟨Nat.lt_succ_self _, le_rfl⟩) ?_ ?_
      (fun x hx => Or.inl hx)
    · refine iff_of_false ?_ (Nat.succ_ne_zero _)
      dsimp only
      split_ifs <;> exact fun h => nomatch h
    · intro resp next hp
      dsimp only at hp
      split_ifs at hp
  | finish id w s' hw hr =>
    obtain ⟨_, hpc, rfl⟩ := finish_eq hr
    refine h.update hw ?_ le_rfl (Or.inl rfl) ?_ (fun _ _ hp => nomatch hp) (fun x hx => Or.inl hx)
    · intro c
      dsimp only
      by_cases hcc : c = w.conn
      · subst hcc
        rw [Function.update_self]
      · rw [Function.update_of_ne hcc]
    · refine iff_of_false (fun h => nomatch h) fun hs => ?_
      rw [(h.spawned id w hw).mpr hs] at hpc
      cases hpc
  | own id w pc ch out hw hm =>
    refine h.update hw (fun _ => rfl) le_rfl (Or.inl rfl) ?_ (fun _ _ hp => hm.sending hp) ?_
    · obtain ⟨hne, hne'⟩ := hm.ne_spawned
      refine iff_of_false hne' fun hs => hne ((h.spawned id w hw).mpr hs)
    · intro x hx
      rcases List.mem_append.mp hx with hx | hx
      · exact Or.inl hx
      · obtain ⟨r, hr, rfl⟩ := List.mem_map.mp hx
        rcases hm.out_cases with rfl | ⟨resp, next, hp, rfl⟩
        · cases hr
        · rw [List.mem_singleton.mp hr]
          exact Or.inr (h.sending id w resp next hw hp)

end Wiring

end REtcd.Server
