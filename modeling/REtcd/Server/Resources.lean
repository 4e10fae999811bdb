import REtcd.Server.Complete

/-!
# What the server holds on to

The dispatcher has a map of subscribers, each stream a map of cancel functions, each subscriber a
channel, and the dispatcher a buffer for events that came too early.  In every state of every run:

* a subscriber belongs to a watch that runs, and so does a cancel function, if its stream is not
  about to start the watch; a watch without a cancel function was cancelled; and when the client is
  gone, all its watches are cancelled.  So when no watch runs, both maps are empty (`no_leaks`).
* a channel has at most `subChanBuffer` events, and the buffer between two calls of `ingest` at most
  `maxPendingEvents` (`buffers_bounded`).
-/

namespace REtcd.Server

open Base Store

/-! ### Maps -/

def Watch.Running (w : Watch) : Prop := w.pc ≠ .spawned ∧ w.pc ≠ .gone

/-- Whatever is in the maps of the dispatcher and the streams is there for a watch. -/
structure Tidy (s : Sys) : Prop where
  subs : ∀ n ∈ s.feed.disp.subs, ∃ id w, s.watches id = some w ∧ w.sub = n ∧ w.Running
  cancels : ∀ c, ∀ id ∈ (s.conns c).cancels, (s.conns c).pc.newID = some id ∨
    ∃ w, s.watches id = some w ∧ w.conn = c ∧ w.pc ≠ .gone
  starting : ∀ c id, (s.conns c).pc.newID = some id → id ∈ (s.conns c).cancels
  held : ∀ id w, s.watches id = some w → id ∈ (s.conns w.conn).cancels ∨ w.cancelled = true
  closed : ∀ id w, s.watches id = some w → (s.conns w.conn).pc = .closed → w.cancelled = true

theorem tidy_primed (l : List Event) (current raw : Except GoError ℤ) :
    Tidy (.primed l current raw) where
  subs n hn := absurd hn (Finset.notMem_empty n)
  cancels c id hid := absurd hid (Finset.notMem_empty id)
  starting c id h := by cases h
  held id w h := by cases h
  closed id w h := by cases h

theorem Feed.release_keeps (f : Feed) (r : ℤ) (ev : Event) (caller : Caller) :
    (f.release r ev caller).disp.subs = f.disp.subs ∧
      (f.release r ev caller).disp.sub = f.disp.sub ∧
      (f.release r ev caller).disp.pending = f.disp.pending.erase r := by
  obtain ⟨n, cks, heq, _⟩ :=
    Dispatcher.release_eq ev { f.disp with pending := f.disp.pending.erase r }
  rw [Feed.release, heq]
  exact ⟨rfl, rfl, rfl⟩

theorem Dispatcher.deliver_keeps (ev : Event) (id : ℕ) (d : Dispatcher) :
    (d.deliver ev id).pending = d.pending ∧
      ((d.deliver ev id).subs = d.subs ∨ (d.deliver ev id).subs = d.subs.erase id) := by
  rw [deliver]
  split_ifs
  · exact ⟨rfl, Or.inl rfl⟩
  · exact ⟨rfl, Or.inr rfl⟩
  · exact ⟨rfl, Or.inl rfl⟩

theorem FeedStep.subs {f f' : Feed} (h : FeedStep f f') : f'.disp.subs ⊆ f.disp.subs := by
  rcases h with ⟨ev, h⟩ | ⟨ev, h⟩ | ⟨ev, h⟩ | ⟨id, h⟩
  · obtain ⟨_, rfl⟩ := Feed.commit_iff.mp h
    exact subset_rfl
  · obtain ⟨_, rfl⟩ := Feed.lose_iff.mp h
    exact subset_rfl
  · obtain ⟨_, _, ⟨_, rfl⟩ | ⟨d, hd, rfl⟩⟩ := Feed.ingest_iff.mp h
    · exact subset_rfl
    · rw [Dispatcher.hold] at hd
      dsimp only at hd
      split_ifs at hd <;> rw [← Option.some.inj hd]
  · cases Feed.dispatch_iff.mp h with
    | drained ev _ _ => exact (f.release_keeps _ ev _).1.subset
    | flushed ev r _ _ _ _ => exact (f.release_keeps r ev _).1.subset
    | deliver ev todo caller _ _ =>
      show (f.disp.deliver ev id).subs ⊆ _
      rcases (f.disp.deliver_keeps ev id).2 with hsubs | hsubs
      · rw [hsubs]
      · rw [hsubs]
        exact Finset.erase_subset _ _
    | _ => exact subset_rfl

theorem apply_update_of_eq {α β γ : Type} [DecidableEq α] (f : β → γ) {g : α → β} {a : α} {b : β}
    (h : f b = f (g a)) (a' : α) : f (Function.update g a b a') = f (g a') := by
  by_cases ha : a' = a
  · subst ha
    rw [Function.update_self, h]
  · rw [Function.update_of_ne ha]

section Steps

variable {s s' : Sys}

theorem Tidy.feed (h : Tidy s) {f : Feed} (hf : f.disp.subs ⊆ s.feed.disp.subs) :
    Tidy { s with feed := f } :=
  ⟨fun n hn => h.subs n (hf hn), h.cancels, h.starting, h.held, h.closed⟩

/-- Some watches may have been cancelled. -/
def Cancels (watches watches' : ℤ → Option Watch) : Prop :=
  ∀ id, watches' id = watches id ∨
    watches' id = (watches id).map fun w => { w with cancelled := true }

theorem Cancels.before {watches watches' : ℤ → Option Watch} (h : Cancels watches watches') {id : ℤ}
    {w' : Watch} (hw' : watches' id = some w') :
    ∃ w, watches id = some w ∧ w'.conn = w.conn ∧ (w.cancelled = true → w'.cancelled = true) := by
  rcases h id with he | he
  · exact ⟨w', he ▸ hw', rfl, fun h => h⟩
  · rw [he, Option.map_eq_some_iff] at hw'
    obtain ⟨w, hw, rfl⟩ := hw'
    exact ⟨w, hw, rfl, fun _ => rfl⟩

theorem Cancels.after {watches watches' : ℤ → Option Watch} (h : Cancels watches watches') {id : ℤ}
    {w : Watch} (hw : watches id = some w) :
    ∃ w', watches' id = some w' ∧ w'.conn = w.conn ∧ w'.sub = w.sub ∧ w'.pc = w.pc := by
  rcases h id with he | he
  · exact ⟨w, he ▸ hw, rfl, rfl, rfl⟩
  · rw [hw] at he
    exact ⟨_, he, rfl, rfl, rfl⟩

theorem Tidy.conn (h : Tidy s) {c : ℕ} (conn : Conn) {watchID : ℤ} {watches : ℤ → Option Watch}
    {sent : List (ℕ × WatchResponse)} (hw : Cancels s.watches watches)
    (hcancels : ∀ id ∈ conn.cancels, conn.pc.newID = some id ∨
      id ∈ (s.conns c).cancels ∧ (s.conns c).pc.newID ≠ some id)
    (hstarting : ∀ id, conn.pc.newID = some id → id ∈ conn.cancels)
    (hheld : ∀ id w, watches id = some w → w.conn = c → id ∈ (s.conns c).cancels →
      id ∈ conn.cancels ∨ w.cancelled = true)
    (hclosed : conn.pc = .closed → (s.conns c).pc = .closed ∨
      ∀ id w, watches id = some w → w.conn = c → w.cancelled = true) :
    Tidy { s with
      watchID := watchID
      watches := watches
      conns := Function.update s.conns c conn
      sent := sent } where
  subs n hn := by
    obtain ⟨id, w, hid, hsub, hrun⟩ := h.subs n hn
    obtain ⟨w', hw', _, hsub', hpc⟩ := hw.after hid
    refine ⟨id, w', hw', hsub'.trans hsub, ?_⟩
    rw [Watch.Running, hpc]
    exact hrun
  cancels c' id hid := by
    dsimp only at hid ⊢
    -- a watch that is there still is
    have hkeep : (∃ w, s.watches id = some w ∧ w.conn = c' ∧ w.pc ≠ .gone) →
        ∃ w, watches id = some w ∧ w.conn = c' ∧ w.pc ≠ .gone := by
      rintro ⟨w, hid', hconn, hpc⟩
      obtain ⟨w', hw', hconn', _, hpc'⟩ := hw.after hid'
      exact ⟨w', hw', hconn'.trans hconn, hpc' ▸ hpc⟩
    by_cases hc : c' = c
    · subst hc
      rw [Function.update_self] at hid ⊢
      rcases hcancels id hid with hnew | ⟨hold, hnot⟩
      · exact Or.inl hnew
      · exact Or.inr (hkeep ((h.cancels c' id hold).resolve_left hnot))
    · rw [Function.update_of_ne hc] at hid ⊢
      exact (h.cancels c' id hid).imp_right hkeep
  starting c' id hid := by
    dsimp only at hid ⊢
    by_cases hc : c' = c
    · subst hc
      rw [Function.update_self] at hid ⊢
      exact hstarting id hid
    · rw [Function.update_of_ne hc] at hid ⊢
      exact h.starting c' id hid
  held id w hid := by
    obtain ⟨w₀, hid₀, hconn, hcancel⟩ := hw.before hid
    dsimp only at hid ⊢
    rcases h.held id w₀ hid₀ with hin | hin
    · by_cases hc : w.conn = c
      · rw [hc, Function.update_self]
        exact hheld id w hid hc (hc ▸ hconn ▸ hin)
      · rw [Function.update_of_ne hc]
        exact Or.inl (hconn ▸ hin)
    · exact Or.inr (hcancel hin)
  closed id w hid := by
    obtain ⟨w₀, hid₀, hconn, hcancel⟩ := hw.before hid
    dsimp only at hid ⊢
    by_cases hc : w.conn = c
    · rw [hc, Function.update_self]
      intro hpc
      rcases hclosed hpc with hold | hall
      · exact hcancel (h.closed id w₀ hid₀ (by rw [← hconn, hc]; exact hold))
      · exact hall id w hid hc
    · rw [Function.update_of_ne hc, hconn]
      exact fun hpc => hcancel (h.closed id w₀ hid₀ hpc)

theorem Next.pc_ne_gone (next : Next) : next.pc ≠ .gone := by
  cases next <;> (intro h; cases h)

theorem Watch.Move.ne_gone {sh : Shared} {id : ℤ} {w : Watch} {sub : WatchSub} {pc : Pc}
    {ch : List Event} {out : List WatchResponse} (h : w.Move sh id sub pc ch out) : pc ≠ .gone := by
  cases h with
  | read lastID consecErr n _ _ hne =>
    rcases w.caught_cases (xread sh.stream lastID n).1
      (xread sh.stream lastID n).2 with ⟨_, hc⟩ | ⟨_, _, hc⟩ | ⟨_, _, hc⟩
    · rw [hc]
      intro h
      cases h
    · rw [hc]
      exact Next.pc_ne_gone _
    · rw [hc]
      intro h
      cases h
  | collected matched _ =>
    rcases collected_cases matched with ⟨_, hc⟩ | ⟨_, hc⟩ <;> (rw [hc]; intro h; cases h)
  | sent resp next _ => exact Next.pc_ne_gone next
  | _ => intro h; cases h

/-- A watch moves on: it has the same stream, is there as long as it is not gone, and is cancelled if
it was. -/
theorem Tidy.setWatch (h : Tidy s) (hwired : Wired s) {id : ℤ} {w w' : Watch}
    (hw : s.watches id = some w)
    (hconn : w'.conn = w.conn) (hcancelled : w.cancelled = true → w'.cancelled = true)
    {feed : Feed} {conns : ℕ → Conn} {sent : List (ℕ × WatchResponse)}
    (hsubs : ∀ n ∈ feed.disp.subs, n = w'.sub ∧ w'.Running ∨ n ∈ s.feed.disp.subs ∧ n ≠ w.sub)
    (hpc : ∀ c, (conns c).pc = (s.conns c).pc)
    (hcancels : ∀ c id', id' ∈ (conns c).cancels →
      id' ∈ (s.conns c).cancels ∧ (c = w.conn → id' = id → w'.pc ≠ .gone))
    (hheld : ∀ c, ∀ id' ∈ (s.conns c).cancels, id' ∈ (conns c).cancels ∨
      c = w.conn ∧ id' = id ∧ w'.cancelled = true) :
    Tidy { s with
      feed := feed
      watches := Function.update s.watches id (some w')
      conns := conns
      sent := sent } where
  subs n hn := by
    rcases hsubs n hn with ⟨rfl, hrun⟩ | ⟨hold, hne⟩
    · exact ⟨id, w', Function.update_self .., rfl, hrun⟩
    · obtain ⟨id', w₀, hid', hsub, hrun⟩ := h.subs n hold
      have hid : id' ≠ id := by
        rintro rfl
        rw [hw, Option.some.injEq] at hid'
        exact hne (hid' ▸ hsub.symm)
      exact ⟨id', w₀, (Function.update_of_ne hid _ _).trans hid', hsub, hrun⟩
  cancels c id' hid' := by
    obtain ⟨hold, hgone⟩ := hcancels c id' hid'
    dsimp only
    rw [hpc]
    refine (h.cancels c id' hold).imp_right ?_
    rintro ⟨w₀, hw₀, hc, hpc₀⟩
    by_cases hid : id' = id
    · subst hid
      rw [hw, Option.some.injEq] at hw₀
      subst hw₀
      exact ⟨w', Function.update_self .., hconn.trans hc, hgone hc.symm rfl⟩
    · exact ⟨w₀, (Function.update_of_ne hid _ _).trans hw₀, hc, hpc₀⟩
  starting c id' hid' := by
    dsimp only at hid' ⊢
    rw [hpc] at hid'
    rcases hheld c id' (h.starting c id' hid') with hin | ⟨_, rfl, _⟩
    · exact hin
    · rw [(hwired.fresh c id' hid').2] at hw
      cases hw
  held id' w₀ hid' := by
    dsimp only at hid' ⊢
    by_cases hid : id' = id
    · subst hid
      rw [Function.update_self, Option.some.injEq] at hid'
      subst hid'
      rcases h.held id' w hw with hin | hin
      · rw [hconn]
        exact (hheld w.conn id' hin).imp_right fun h => h.2.2
      · exact Or.inr (hcancelled hin)
    · rw [Function.update_of_ne hid] at hid'
      refine (h.held id' w₀ hid').imp_left fun hin => ?_
      exact (hheld w₀.conn id' hin).resolve_right fun h => hid h.2.1
  closed id' w₀ hid' hclosed := by
    dsimp only at hid' hclosed
    rw [hpc] at hclosed
    by_cases hid : id' = id
    · subst hid
      rw [Function.update_self, Option.some.injEq] at hid'
      subst hid'
      exact hcancelled (h.closed id' w hw (hconn ▸ hclosed))
    · rw [Function.update_of_ne hid] at hid'
      exact h.closed id' w₀ hid' hclosed

theorem Tidy.register (h : Tidy s) (hwired : Wired s) {id : ℤ} {w : Watch}
    (hw : s.watches id = some w) (hs : s.register id w = some s') : Tidy s' := by
  obtain ⟨_, hpc, rfl⟩ := register_eq hs
  have hzero : w.sub = 0 := (hwired.spawned id w hw).mp hpc
  refine h.setWatch hwired hw ?_ ?_ (fun n hn => ?_) (fun _ => rfl)
    (fun c id' hin => ⟨hin, fun _ _ => ?_⟩) fun c id' hin => Or.inl hin
  · rfl
  · exact fun h => h
  · rcases Finset.mem_insert.mp hn with rfl | hold
    · refine Or.inl ⟨rfl, ?_⟩
      dsimp only [Watch.Running]
      split_ifs <;> (constructor <;> (intro h; cases h))
    · -- a spawned watch has no subscription yet, and subscriptions are numbered from 1
      refine Or.inr ⟨hold, ?_⟩
      obtain ⟨id', w', hw', rfl, hrun⟩ := h.subs n hold
      rw [hzero]
      exact fun hz => hrun.1 ((hwired.spawned id' w' hw').mpr hz)
  · dsimp only
    split_ifs <;> (intro h; cases h)

theorem Tidy.finish (h : Tidy s) (hwired : Wired s) {id : ℤ} {w : Watch}
    (hw : s.watches id = some w) (hs : s.finish id w = some s') : Tidy s' := by
  obtain ⟨_, hpc, rfl⟩ := finish_eq hs
  refine h.setWatch hwired hw ?_ ?_ (fun n hn => ?_) (fun c => ?_)
    (fun c id' hin => ?_) fun c id' hin => ?_
  · rfl
  · exact fun _ => rfl
  · obtain ⟨hne, hold⟩ := Finset.mem_erase.mp hn
    exact Or.inr ⟨hold, hne⟩
  · exact apply_update_of_eq Conn.pc (by rfl) c
  · dsimp only at hin
    by_cases hc : c = w.conn
    · subst hc
      rw [Function.update_self] at hin
      obtain ⟨hne, hold⟩ := Finset.mem_erase.mp hin
      exact ⟨hold, fun _ hid => absurd hid hne⟩
    · rw [Function.update_of_ne hc] at hin
      exact ⟨hin, fun hc' => absurd hc' hc⟩
  · dsimp only
    by_cases hc : c = w.conn
    · subst hc
      rw [Function.update_self]
      by_cases hid : id' = id
      · exact Or.inr ⟨rfl, hid, rfl⟩
      · exact Or.inl (Finset.mem_erase.mpr ⟨hid, hin⟩)
    · rw [Function.update_of_ne hc]
      exact Or.inl hin

theorem Tidy.own (h : Tidy s) (hwired : Wired s) {id : ℤ} {w : Watch} {a : WatchAct}
    (hw : s.watches id = some w) (hs : s.watchStep id w a = some s') : Tidy s' := by
  obtain ⟨⟨pc, ch, out⟩, hstep, rfl⟩ := Option.map_eq_some_iff.mp hs
  have hmove := Watch.step_move hstep
  refine h.setWatch hwired hw ?_ ?_ (fun n hn => ?_) (fun _ => rfl)
    (fun c id' hin => ⟨hin, fun _ _ => ?_⟩) fun c id' hin => Or.inl hin
  · rfl
  · exact fun h => h
  · by_cases hsub : n = w.sub
    · exact Or.inl ⟨hsub, hmove.ne_spawned.2, hmove.ne_gone⟩
    · exact Or.inr ⟨hn, hsub⟩
  · exact hmove.ne_gone

theorem Tidy.spawn (h : Tidy s) (hwired : Wired s) {c : ℕ} {id : ℤ} {w : Watch}
    {sent : List (ℕ × WatchResponse)} (hnew : (s.conns c).pc.newID = some id) (hc : w.conn = c)
    (hpc : w.pc = .spawned) :
    Tidy { s with
      watches := Function.update s.watches id (some w)
      conns := Function.update s.conns c { s.conns c with pc := .receiving }
      sent := sent } := by
  have hnone := (hwired.fresh c id hnew).2
  -- no other watch has the ID
  have hne : ∀ {id' : ℤ} {w' : Watch}, s.watches id' = some w' → id' ≠ id := by
    rintro id' w' hw' rfl
    rw [hnone] at hw'
    cases hw'
  have hcancels : ∀ c', (Function.update s.conns c
      { s.conns c with pc := ConnPc.receiving } c').cancels = (s.conns c').cancels :=
    apply_update_of_eq Conn.cancels rfl
  constructor
  · intro n hn
    obtain ⟨id', w', hw', hsub, hrun⟩ := h.subs n hn
    exact ⟨id', w', (Function.update_of_ne (hne hw') _ _).trans hw', hsub, hrun⟩
  · intro c' id' hid'
    dsimp only at hid' ⊢
    rw [hcancels] at hid'
    have hkeep : (∃ w, s.watches id' = some w ∧ w.conn = c' ∧ w.pc ≠ .gone) →
        ∃ w', Function.update s.watches id (some w) id' = some w' ∧ w'.conn = c' ∧ w'.pc ≠ .gone := by
      rintro ⟨w', hw', hconn, hpc'⟩
      exact ⟨w', (Function.update_of_ne (hne hw') _ _).trans hw', hconn, hpc'⟩
    by_cases hc' : c' = c
    · subst hc'
      rw [Function.update_self]
      right
      rcases h.cancels c' id' hid' with hnew' | hwatch
      · rw [hnew, Option.some.injEq] at hnew'
        subst hnew'
        refine ⟨w, Function.update_self .., hc, ?_⟩
        rw [hpc]
        intro h
        cases h
      · exact hkeep hwatch
    · rw [Function.update_of_ne hc']
      exact (h.cancels c' id' hid').imp_right hkeep
  · intro c' id' hid'
    dsimp only at hid' ⊢
    rw [hcancels]
    by_cases hc' : c' = c
    · subst hc'
      rw [Function.update_self] at hid'
      cases hid'
    · rw [Function.update_of_ne hc'] at hid'
      exact h.starting c' id' hid'
  · intro id' w' hw'
    dsimp only at hw' ⊢
    rw [hcancels]
    by_cases hid : id' = id
    · subst hid
      rw [Function.update_self, Option.some.injEq] at hw'
      subst hw'
      rw [hc]
      exact Or.inl (h.starting c id' hnew)
    · rw [Function.update_of_ne hid] at hw'
      exact h.held id' w' hw'
  · intro id' w' hw' hclosed
    dsimp only at hw' hclosed
    by_cases hc' : w'.conn = c
    · rw [hc', Function.update_self] at hclosed
      cases hclosed
    · rw [Function.update_of_ne hc'] at hclosed
      by_cases hid : id' = id
      · subst hid
        rw [Function.update_self, Option.some.injEq] at hw'
        subst hw'
        exact absurd hc hc'
      · rw [Function.update_of_ne hid] at hw'
        exact h.closed id' w' hw' hclosed

theorem Tidy.move (h : Tidy s) {c : ℕ} {pc : ConnPc} {done : Bool} {sent : List (ℕ × WatchResponse)}
    (hnew : pc.newID = (s.conns c).pc.newID) (hclosed : pc = .closed → (s.conns c).pc = .closed) :
    Tidy { s with
      conns := Function.update s.conns c ⟨pc, (s.conns c).cancels, done⟩, sent := sent } := by
  refine h.conn ⟨pc, (s.conns c).cancels, done⟩ (fun _ => Or.inl rfl) (fun id hid => ?_)
    (fun id hid => ?_) (fun _ _ _ _ hin => Or.inl hin) fun hpc => Or.inl (hclosed hpc)
  · dsimp only
    rw [hnew]
    by_cases hid' : (s.conns c).pc.newID = some id
    · exact Or.inl hid'
    · exact Or.inr ⟨hid, hid'⟩
  · exact h.starting c id (hnew ▸ hid)

theorem newID_receiving {pc : ConnPc} (h : pc = .receiving) (id : ℤ) : pc.newID ≠ some id := by
  rw [h]
  intro hnew
  cases hnew

section Receiving

variable {c : ℕ} (h : Tidy s) (hpc : (s.conns c).pc = .receiving)

include h hpc

theorem Tidy.create {id : ℤ} {cr : WatchCreateRequest} :
    Tidy { s with
      watchID := id
      conns := Function.update s.conns c
        { s.conns c with pc := .creating id cr, cancels := insert id (s.conns c).cancels } } := by
  refine h.conn _ (fun _ => Or.inl rfl) (fun id' hid => ?_) (fun id' hid => ?_)
    (fun id' w _ _ hin => Or.inl (Finset.mem_insert_of_mem hin)) fun hclosed => by cases hclosed
  · rcases Finset.mem_insert.mp hid with rfl | hold
    · exact Or.inl rfl
    · exact Or.inr ⟨hold, newID_receiving hpc id'⟩
  · cases hid
    exact Finset.mem_insert_self _ _

theorem Tidy.cancel {id : ℤ} :
    Tidy { (if id ∈ (s.conns c).cancels then s.callCancels {id} else s) with
      conns := Function.update s.conns c
        { s.conns c with pc := .canceling id, cancels := (s.conns c).cancels.erase id } } := by
  have hcancels : ∀ id' ∈ (s.conns c).cancels.erase id, (ConnPc.canceling id).newID = some id' ∨
      id' ∈ (s.conns c).cancels ∧ (s.conns c).pc.newID ≠ some id' := fun id' hid' =>
    Or.inr ⟨Finset.mem_of_mem_erase hid', newID_receiving hpc id'⟩
  split_ifs with hin
  · refine h.conn _ (callCancels_watches s {id}) hcancels (fun id' h => by cases h)
      (fun id' w hw _ hold => ?_) fun hclosed => by cases hclosed
    by_cases hid : id' = id
    · right
      rw [Sys.callCancels] at hw
      dsimp only at hw
      rw [if_pos (Finset.mem_singleton.mpr hid), Option.map_eq_some_iff] at hw
      obtain ⟨w₀, _, rfl⟩ := hw
      rfl
    · exact Or.inl (Finset.mem_erase.mpr ⟨hid, hold⟩)
  · refine h.conn _ (fun _ => Or.inl rfl) hcancels (fun id' h => by cases h)
      (fun id' w hw _ hold => ?_) fun hclosed => by cases hclosed
    refine Or.inl (Finset.mem_erase.mpr ⟨?_, hold⟩)
    rintro rfl
    exact hin hold

theorem Tidy.close : Tidy ((s.callCancels (s.conns c).cancels).setConn c .closed) := by
  have hmarks : Cancels s.watches (s.callCancels (s.conns c).cancels).watches :=
    callCancels_watches s _
  refine h.conn _ hmarks (fun id hid => Or.inr ⟨hid, newID_receiving hpc id⟩) (fun id h => by cases h)
    (fun id w _ _ hin => Or.inl hin) fun _ => Or.inr fun id w hw hc => ?_
  -- a watch that is not in the map was cancelled before
  obtain ⟨w₀, hw₀, hconn, hcancel⟩ := hmarks.before hw
  rcases h.held id w₀ hw₀ with hin | hin
  · rw [Sys.callCancels] at hw
    dsimp only at hw
    rw [if_pos (hc ▸ hconn ▸ hin), Option.map_eq_some_iff] at hw
    obtain ⟨_, _, rfl⟩ := hw
    rfl
  · exact hcancel hin

end Receiving

theorem Tidy.connStep (h : Tidy s) (hwired : Wired s) (c : ℕ) (act : Act)
    (hs : s.connStep c act = some s') : Tidy s' := by
  cases act with
  | create c' cr =>
    rw [Sys.connStep] at hs
    split at hs
    · rename_i hpc
      cases hs
      exact h.create hpc
    · cases hs
  | revision c' ok =>
    rw [Sys.connStep] at hs
    split at hs
    · rename_i id cr hpc
      cases hs
      refine h.move ?_ fun hclosed => by cases hclosed
      rw [hpc]
      rfl
    · cases hs
  | confirm c' ok =>
    rw [Sys.connStep] at hs
    split at hs
    · rename_i id cr rev hpc
      rw [send_eq] at hs
      cases hs
      exact h.spawn hwired (c := c) (by rw [hpc]; rfl) rfl rfl
    · cases hs
  | cancel c' id =>
    rw [Sys.connStep] at hs
    split at hs
    · rename_i hpc
      cases hs
      exact h.cancel hpc
    · cases hs
  | progress c' =>
    rw [Sys.connStep] at hs
    split at hs
    · rename_i hpc
      cases hs
      refine h.move ?_ fun hclosed => by cases hclosed
      rw [hpc]
      rfl
    · cases hs
  | reply c' ok =>
    rw [Sys.connStep] at hs
    split at hs
    · rename_i id hpc
      rw [send_eq] at hs
      cases hs
      refine h.move ?_ fun hclosed => by cases hclosed
      rw [hpc]
      rfl
    · rename_i rev hpc
      rw [send_eq] at hs
      cases hs
      refine h.move ?_ fun hclosed => by cases hclosed
      rw [hpc]
      rfl
    · cases hs
  | hangUp c' =>
    rw [Sys.connStep] at hs
    cases hs
    exact h.move rfl fun hclosed => hclosed
  | close c' =>
    rw [Sys.connStep] at hs
    split at hs
    · rename_i hpc
      cases hs
      exact h.close hpc
    · cases hs
  | _ => cases hs

theorem Tidy.step (h : Tidy s) (hwired : Wired s) {act : Act} (hs : s.step act = some s') :
    Tidy s' := by
  have hfeed : ∀ {o : Option Feed}, (o.map fun f => { s with feed := f }) = some s' →
      (∀ f, o = some f → FeedStep s.feed f) → Tidy s' := by
    intro o ho hstep
    obtain ⟨f, hf, rfl⟩ := Option.map_eq_some_iff.mp ho
    exact h.feed (hstep f hf).subs
  cases act with
  | commit ev => exact hfeed hs fun f hf => Or.inl ⟨ev, hf⟩
  | lose ev => exact hfeed hs fun f hf => Or.inr (Or.inl ⟨ev, hf⟩)
  | ingest ev => exact hfeed hs fun f hf => Or.inr (Or.inr (Or.inl ⟨ev, hf⟩))
  | dispatch id => exact hfeed hs fun f hf => Or.inr (Or.inr (Or.inr ⟨id, hf⟩))
  | register id =>
    obtain ⟨w, hw, hr⟩ := Option.bind_eq_some_iff.mp hs
    exact h.register hwired hw hr
  | finish id =>
    obtain ⟨w, hw, hr⟩ := Option.bind_eq_some_iff.mp hs
    exact h.finish hwired hw hr
  | watch id a =>
    obtain ⟨w, hw, hr⟩ := Option.bind_eq_some_iff.mp hs
    exact h.own hwired hw hr
  | create c cr => exact h.connStep hwired c (.create c cr) hs
  | revision c ok => exact h.connStep hwired c (.revision c ok) hs
  | confirm c ok => exact h.connStep hwired c (.confirm c ok) hs
  | cancel c id => exact h.connStep hwired c (.cancel c id) hs
  | progress c => exact h.connStep hwired c (.progress c) hs
  | reply c ok => exact h.connStep hwired c (.reply c ok) hs
  | hangUp c => exact h.connStep hwired c (.hangUp c) hs
  | close c => exact h.connStep hwired c (.close c) hs

end Steps

theorem tidy_reach {l : List Event} {current raw : Except GoError ℤ} {s : Sys}
    (hs : Reach Sys.step (fun _ => True) (.primed l current raw) s) : Tidy s := by
  refine (hs.inv (I := fun s => Tidy s ∧ Wired s)
    ⟨tidy_primed l current raw, wired_primed l current raw⟩ ?_).1
  exact fun _ _ _ h hstep _ => ⟨h.1.step h.2 hstep, h.2.change (step_change hstep)⟩

theorem Tidy.empty {s : Sys} (h : Tidy s)
    (hgone : ∀ id w, s.watches id = some w → w.pc = .gone)
    (hnone : ∀ c, (s.conns c).pc.newID = none) :
    s.feed.disp.subs = ∅ ∧ ∀ c, (s.conns c).cancels = ∅ := by
  refine ⟨Finset.eq_empty_of_forall_notMem fun n hn => ?_,
    fun c => Finset.eq_empty_of_forall_notMem fun id hid => ?_⟩
  · obtain ⟨id, w, hw, _, hrun⟩ := h.subs n hn
    exact hrun.2 (hgone id w hw)
  · rcases h.cancels c id hid with hnew | ⟨w, hw, _, hpc⟩
    · rw [hnone c] at hnew
      cases hnew
    · exact hpc (hgone id w hw)

/-- **Nothing leaks.**  In every state of every run: each subscriber of the dispatcher is that of a
watch which runs, and each cancel function of a stream is that of one of its watches which is not
gone, or of one that it is about to start; the watches of a stream whose client is gone are all
cancelled; and when all watches are gone and none is about to start, both maps are empty. -/
theorem no_leaks {l : List Event} {current raw : Except GoError ℤ} {s : Sys}
    (hs : Reach Sys.step (fun _ => True) (.primed l current raw) s) :
    (∀ n ∈ s.feed.disp.subs, ∃ id w, s.watches id = some w ∧ w.sub = n ∧ w.Running) ∧
    (∀ c, ∀ id ∈ (s.conns c).cancels, (s.conns c).pc.newID = some id ∨
      ∃ w, s.watches id = some w ∧ w.conn = c ∧ w.pc ≠ .gone) ∧
    (∀ id w, s.watches id = some w → (s.conns w.conn).pc = .closed → w.cancelled = true) ∧
    ((∀ id w, s.watches id = some w → w.pc = .gone) → (∀ c, (s.conns c).pc.newID = none) →
      s.feed.disp.subs = ∅ ∧ ∀ c, (s.conns c).cancels = ∅) := by
  have htidy := tidy_reach hs
  exact ⟨htidy.subs, htidy.cancels, htidy.closed, htidy.empty⟩

def twoEnds : List Act :=
  [.create 0 ⟨[97], [], 0⟩, .revision 0 true, .confirm 0 true, .create 0 ⟨[98], [], 0⟩,
    .revision 0 true, .confirm 0 true, .register 1, .register 2, .cancel 0 1, .reply 0 true,
    .watch 1 .done, .close 0, .finish 1]

/-- The one subscriber left is that of the other watch, which is cancelled. -/
theorem twoEnds_no_leaks :
    ∃ s w, Reach Sys.step (fun _ => True) (.primed [] (.ok 1) (.ok 0)) s ∧ s.watches 2 = some w ∧
      s.feed.disp.subs = {2} ∧ w.cancelled = true ∧
      ∃ id v, s.watches id = some v ∧ v.sub = 2 ∧ v.Running := by
  obtain ⟨s, hs, hp⟩ := exists_of_run Sys.step (fun _ => True) (.primed [] (.ok 1) (.ok 0)) twoEnds
    (fun s => (s.watches 2).any fun w : Watch => decide
      (s.feed.disp.subs = {2} ∧ (s.conns w.conn).pc = .closed)) (by decide +kernel)
  obtain ⟨w, hw, hp⟩ := (Option.any_eq_true _ _).mp hp
  obtain ⟨hsubs, hclosed⟩ := of_decide_eq_true hp
  obtain ⟨hrun, _, hcancelled, _⟩ := no_leaks hs
  refine ⟨s, w, hs, hw, hsubs, hcancelled 2 w hw hclosed, hrun 2 ?_⟩
  rw [hsubs]
  exact Finset.mem_singleton_self 2

/-! ### Buffers -/

/-- What is held back, depending on what the holder of the lock is doing; a flush is about to release
all of it. -/
def Lock.Bounds (pending : Std.ExtTreeMap ℤ Event) : Lock → Prop
  | .free => pending.size ≤ maxPendingEvents
  | .drain | .fan _ _ .drain => pending.size ≤ maxPendingEvents + 1
  | .flush revs _ | .fan _ _ (.flush revs _) =>
    pending.size ≤ maxPendingEvents + 1 ∧ ∀ r ∈ pending, r ∈ revs

/-- The channels and the buffer are not too full. -/
structure Feed.Bounded (f : Feed) : Prop where
  channels : ∀ n, (f.disp.sub n).ch.length ≤ subChanBuffer
  pending : f.lock.Bounds f.disp.pending

/-- Whatever the lock, no more than one event too many is held back. -/
theorem Lock.Bounds.size_le {pending : Std.ExtTreeMap ℤ Event} {lock : Lock}
    (h : lock.Bounds pending) : pending.size ≤ maxPendingEvents + 1 := by
  rcases lock with _ | _ | ⟨ev, todo, _ | ⟨revs, last⟩⟩ | ⟨revs, last⟩
  · exact Nat.le_succ_of_le h
  · exact h
  · exact h
  · exact h.1
  · exact h.1

theorem Feed.Bounded.release {f : Feed} (h : f.Bounded) (r : ℤ) (ev : Event) {caller : Caller}
    (hcaller : ∀ revs last, caller = .flush revs last → ∀ k ∈ f.disp.pending, k ≠ r → k ∈ revs) :
    (f.release r ev caller).Bounded := by
  obtain ⟨_, hsub, hpending⟩ := f.release_keeps r ev caller
  refine ⟨fun n => by rw [hsub]; exact h.channels n, ?_⟩
  rw [hpending]
  have hsize : (f.disp.pending.erase r).size ≤ maxPendingEvents + 1 :=
    Std.ExtTreeMap.size_erase_le.trans h.pending.size_le
  cases caller with
  | drain => exact hsize
  | flush revs last =>
    refine ⟨hsize, fun k hk => ?_⟩
    rw [Std.ExtTreeMap.mem_erase] at hk
    refine hcaller revs last rfl k hk.2 ?_
    rintro rfl
    exact hk.1 Std.ReflCmp.compare_self

/-- An event goes into a channel only if there is room. -/
theorem Dispatcher.deliver_channels {d : Dispatcher} (h : ∀ n, (d.sub n).ch.length ≤ subChanBuffer)
    (ev : Event) (id n : ℕ) : ((d.deliver ev id).sub n).ch.length ≤ subChanBuffer := by
  by_cases hn : n = id
  · subst hn
    rw [deliver]
    split_ifs with _ hroom
    · dsimp only
      rw [Function.update_self, List.length_append, List.length_singleton]
      exact hroom
    · dsimp only
      rw [Function.update_self]
      exact h n
    · exact h n
  · rw [deliver]
    split_ifs
    · dsimp only
      rw [Function.update_of_ne hn]
      exact h n
    · dsimp only
      rw [Function.update_of_ne hn]
      exact h n
    · exact h n

theorem Feed.Bounded.dispatch {f f' : Feed} {id : ℕ} (h : f.Bounded)
    (hf : f.dispatch id = some f') : f'.Bounded := by
  have hpending := h.pending
  cases Feed.dispatch_iff.mp hf with
  | drained ev hl _ => exact h.release _ ev fun revs last h => by cases h
  | flush hl _ _ =>
    refine ⟨h.channels, hpending.size_le, fun r hr => ?_⟩
    exact Std.ExtTreeMap.mem_keys.mpr hr
  | unlock hl _ hfew =>
    exact ⟨h.channels, not_lt.mp hfew⟩
  | next ev hl =>
    rw [hl] at hpending
    exact ⟨h.channels, hpending⟩
  | resume ev revs last hl =>
    rw [hl] at hpending
    exact ⟨h.channels, hpending⟩
  | deliver ev todo caller hl _ =>
    rw [hl] at hpending
    refine ⟨Dispatcher.deliver_channels h.channels ev id, ?_⟩
    dsimp only
    rw [(f.disp.deliver_keeps ev id).1]
    cases caller with
    | drain => exact hpending
    | flush revs last => exact hpending
  | flushed ev r revs last hl _ =>
    rw [hl] at hpending
    refine h.release r ev fun revs' last' hcaller k hk hne => ?_
    cases hcaller
    exact (List.mem_cons.mp (hpending.2 k hk)).resolve_left hne
  | skip r revs last hl hnone =>
    rw [hl] at hpending
    refine ⟨h.channels, hpending.1, fun k hk => ?_⟩
    refine (List.mem_cons.mp (hpending.2 k hk)).resolve_left ?_
    rintro rfl
    have := Std.ExtTreeMap.mem_iff_isSome_getElem?.mp hk
    rw [hnone] at this
    cases this
  | done last hl =>
    rw [hl] at hpending
    refine ⟨h.channels, ?_⟩
    -- nothing is left
    have hempty : f.disp.pending = ∅ := by
      refine Std.ExtTreeMap.eq_empty_iff_forall_not_mem.mpr fun r hr => ?_
      exact List.not_mem_nil (hpending.2 r hr)
    show f.disp.pending.size ≤ maxPendingEvents
    rw [hempty]
    exact Nat.zero_le _

theorem FeedStep.bounded {f f' : Feed} (hf : FeedStep f f') (h : f.Bounded) : f'.Bounded := by
  rcases hf with ⟨ev, hf⟩ | ⟨ev, hf⟩ | ⟨ev, hf⟩ | ⟨id, hf⟩
  · obtain ⟨_, rfl⟩ := Feed.commit_iff.mp hf
    exact ⟨h.channels, h.pending⟩
  · obtain ⟨_, rfl⟩ := Feed.lose_iff.mp hf
    exact ⟨h.channels, h.pending⟩
  · obtain ⟨hl, _, ⟨_, rfl⟩ | ⟨d, hd, rfl⟩⟩ := Feed.ingest_iff.mp hf
    · exact ⟨h.channels, h.pending⟩
    · have hpending := h.pending
      rw [hl] at hpending
      rw [Dispatcher.hold] at hd
      dsimp only at hd
      split_ifs at hd <;>
      · rw [← Option.some.inj hd]
        exact ⟨h.channels, Std.ExtTreeMap.size_insert_le.trans (Nat.succ_le_succ hpending)⟩
  · exact h.dispatch hf

theorem Watch.Move.length_le {sh : Shared} {id : ℤ} {w : Watch} {sub : WatchSub} {pc : Pc}
    {ch : List Event} {out : List WatchResponse} (h : w.Move sh id sub pc ch out) :
    ch.length ≤ sub.ch.length := by
  cases h with
  | recv ev ch _ hch | more matched ev ch _ hch =>
    rw [hch]
    exact Nat.le_succ _
  | _ => exact le_rfl

theorem Change.bounded {s s' : Sys} (hc : Change s s') (h : s.feed.Bounded) : s'.feed.Bounded := by
  -- only one subscription is replaced
  have hsub : ∀ {n : ℕ} {sub : WatchSub}, sub.ch.length ≤ subChanBuffer →
      ∀ m, (Function.update s.feed.disp.sub n sub m).ch.length ≤ subChanBuffer := by
    intro n sub hle m
    by_cases hm : m = n
    · subst hm
      rw [Function.update_self]
      exact hle
    · rw [Function.update_of_ne hm]
      exact h.channels m
  cases hc with
  | feed f hf => exact hf.bounded h
  | conn | spawn => exact h
  | register id w s' _ hr =>
    obtain ⟨_, _, rfl⟩ := register_eq hr
    exact ⟨hsub (Nat.zero_le _), h.pending⟩
  | finish id w s' _ hr =>
    obtain ⟨_, _, rfl⟩ := finish_eq hr
    exact ⟨h.channels, h.pending⟩
  | own id w pc ch out _ hm =>
    exact ⟨hsub (hm.length_le.trans (h.channels _)), h.pending⟩

/-- **The buffers are bounded.**  In every state of every run no channel has more than
`subChanBuffer` events, and no more than `maxPendingEvents` events are held back, or one more while
a call of `ingest` is under way. -/
theorem buffers_bounded {l : List Event} {current raw : Except GoError ℤ} {s : Sys}
    (hs : Reach Sys.step (fun _ => True) (.primed l current raw) s) :
    (∀ n, (s.feed.disp.sub n).ch.length ≤ subChanBuffer) ∧
      s.feed.disp.pending.size ≤ maxPendingEvents + (if s.feed.lock = .free then 0 else 1) := by
  have hbounded : s.feed.Bounded := by
    refine hs.inv (I := fun s => s.feed.Bounded) ⟨fun _ => Nat.zero_le _, Nat.zero_le _⟩ ?_
    exact fun _ _ _ h hstep _ => (step_change hstep).bounded h
  refine ⟨hbounded.channels, ?_⟩
  have hpending := hbounded.pending
  split_ifs with hfree
  · rw [hfree] at hpending
    exact hpending
  · exact hpending.size_le

def twoEarly : List Act :=
  [.commit (createEvent [97] 1), .commit (createEvent [98] 2), .commit (createEvent [99] 3),
    .ingest (createEvent [99] 3), .dispatch 0, .ingest (createEvent [98] 2)]

theorem twoEarly_bounded :
    ∃ s, Reach Sys.step (fun _ => True) (.primed [] (.ok 1) (.ok 0)) s ∧
      s.feed.disp.pending.keys = [2, 3] ∧ s.feed.lock ≠ .free ∧
      s.feed.disp.pending.size ≤ maxPendingEvents + 1 := by
  obtain ⟨s, hs, hp⟩ := exists_of_run Sys.step (fun _ => True) (.primed [] (.ok 1) (.ok 0)) twoEarly
    (fun s => decide (s.feed.disp.pending.keys = [2, 3] ∧ s.feed.lock ≠ .free)) (by decide +kernel)
  obtain ⟨hkeys, hlock⟩ := of_decide_eq_true hp
  have hpending := (buffers_bounded hs).2
  rw [if_neg hlock] at hpending
  exact ⟨s, hs, hkeys, hlock, hpending⟩

end REtcd.Server
