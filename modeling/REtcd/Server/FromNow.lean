import REtcd.Server.Ingest
import REtcd.Server.Talk

/-!
# A watch from now on

A client that creates a watch without a start revision wants the writes from now on.  The server
reads the counter and starts the watch after it, and a watch sends nothing from before its start
(`Watch.Move.hand`).  So no event that was stored when the request came is sent, whatever is written
and released meanwhile, as long as the read of the counter is answered (`nothing_replayed`).

If it is not, the server goes on with revision 0, and the watch replays the history from revision 1
on (`history_replayed`).

`Feed.Carries P` says that `P` holds of every event on its way from a writer to a watch; it is enough
that `P` holds of what is committed (`Feed.Carries.change`).
-/

namespace REtcd.Server

open Base Store

/-! ### What a watch sends -/

section Move

variable {sh : Shared} {id : ℤ} {w : Watch} {sub : WatchSub} {pc : Pc} {ch : List Event}
  {out : List WatchResponse}

theorem Watch.Move.chan (h : w.Move sh id sub pc ch out) : ∀ e ∈ ch, e ∈ sub.ch := by
  cases h with
  | recv ev ch _ hch =>
    rw [hch]
    exact fun e he => List.mem_cons_of_mem _ he
  | more matched ev ch _ hch =>
    rw [hch]
    exact fun e he => List.mem_cons_of_mem _ he
  | _ => exact fun e he => he

theorem Watch.scan_mem (w : Watch) (events : List Event) :
    ∀ p ∈ (w.scan events).1, ∃ e ∈ events, p = eventToProto e ∧ w.startRevision ≤ e.rev := by
  induction events with
  | nil => exact fun p hp => nomatch hp
  | cons ev events ih =>
    intro p hp
    rw [Watch.scan] at hp
    have hrest : p ∈ (w.scan events).1 →
        ∃ e ∈ ev :: events, p = eventToProto e ∧ w.startRevision ≤ e.rev := fun hp =>
      (ih p hp).imp fun e he => ⟨List.mem_cons_of_mem _ he.1, he.2⟩
    split_ifs at hp with hb hskip
    · cases hp
    · exact hrest hp
    · rcases List.mem_cons.mp hp with rfl | hp
      · exact ⟨ev, List.mem_cons_self, rfl, by omega⟩
      · exact hrest hp

theorem Watch.add_mem (w : Watch) (matched : List ProtoEvent) (ev : Event) :
    ∀ p ∈ w.add matched ev, p ∈ matched ∨ p = eventToProto ev ∧ w.startRevision ≤ ev.rev := by
  intro p hp
  rw [Watch.add] at hp
  split_ifs at hp with hskip
  · exact Or.inl hp
  · rcases List.mem_append.mp hp with hp | hp
    · exact Or.inl hp
    · exact Or.inr ⟨List.mem_singleton.mp hp, by omega⟩

theorem mem_read {stream : List Event} {lastID : StreamID} {n : ℕ} :
    ∀ e ∈ (xread stream lastID n).1, e ∈ stream :=
  fun _ he => List.mem_of_mem_filter (List.mem_of_mem_take he)

/-- **What a watch sends or has in hand after a step** it had in hand before, or it is an event from
its start on that it has read from the stream or taken from its channel. -/
theorem Watch.Move.hand (h : w.Move sh id sub pc ch out) :
    ∀ p ∈ eventsOf out ++ pc.hand, p ∈ w.pc.hand ∨
      ∃ e, (e ∈ sh.stream ∨ e ∈ sub.ch) ∧ p = eventToProto e ∧ w.startRevision ≤ e.rev := by
  cases h with
  | read lastID consecErr n hpc _ hne =>
    intro p hp
    have hscan := w.scan_mem (xread sh.stream lastID n).1
    rcases w.caught_cases (xread sh.stream lastID n).1
      (xread sh.stream lastID n).2 with ⟨_, hc⟩ | ⟨_, _, hc⟩ | ⟨_, _, hc⟩ <;> rw [hc] at hp
    · cases hp
    · rw [Next.hand_pc] at hp
      cases hp
    · obtain ⟨e, he, hpe, hle⟩ := hscan p hp
      exact Or.inr ⟨e, Or.inl (mem_read e he), hpe, hle⟩
  | recv ev ch hpc hch =>
    intro p hp
    rcases w.add_mem [] ev p hp with hp | hp
    · cases hp
    · exact Or.inr ⟨ev, Or.inr (by simp [hch]), hp⟩
  | more matched ev ch hpc hch =>
    intro p hp
    rw [hpc]
    rcases w.add_mem matched ev p hp with hp | hp
    · exact Or.inl hp
    · exact Or.inr ⟨ev, Or.inr (by simp [hch]), hp⟩
  | collected matched hpc =>
    intro p hp
    rw [hpc]
    rcases Watch.collected_cases matched with ⟨_, hc⟩ | ⟨_, hc⟩ <;> rw [hc] at hp
    · cases hp
    · exact Or.inl hp
  | stamp matched canceled next hpc =>
    rw [hpc]
    exact fun p hp => Or.inl hp
  | sent resp next hpc =>
    intro p hp
    rw [hpc]
    rw [Next.hand_pc, List.append_nil, eventsOf, List.flatMap_cons, List.flatMap_nil,
      List.append_nil] at hp
    exact Or.inl hp
  | _ => exact fun p hp => by cases hp

end Move

/-! ### Events on their way -/

/-- `P` holds of the events that are ingested, held back, released and in the channels. -/
structure Feed.Carries (P : Event → Prop) (f : Feed) : Prop where
  inflight : ∀ e ∈ f.inflight, P e
  pending : ∀ (r : ℤ) e, f.disp.pending[r]? = some e → P e
  released : ∀ e ∈ f.released, P e
  fan : ∀ ev todo caller, f.lock = .fan ev todo caller → P ev
  chan : ∀ k, ∀ e ∈ (f.disp.sub k).ch, P e

namespace Feed.Carries

variable {P : Event → Prop} {f f' : Feed} {s s' : Sys}

theorem release (h : f.Carries P) {r : ℤ} {ev : Event} (hev : P ev) (caller : Caller) :
    (f.release r ev caller).Carries P := by
  obtain ⟨n, cks, heq, _⟩ :=
    Dispatcher.release_eq ev { f.disp with pending := f.disp.pending.erase r }
  rw [Feed.release, heq]
  refine ⟨h.inflight, fun r' e he => ?_, fun e he => ?_, fun ev' todo' caller' hl => ?_, h.chan⟩
  · dsimp only at he
    rw [getElem?_erase] at he
    split_ifs at he
    exact h.pending r' e he
  · rcases List.mem_append.mp he with he | he
    · exact h.released e he
    · rw [List.mem_singleton.mp he]
      exact hev
  · cases hl
    exact hev

theorem update_chan (h : f.Carries P) (id : ℕ) {sub : WatchSub} (hsub : ∀ e ∈ sub.ch, P e) :
    ∀ k, ∀ e ∈ (Function.update f.disp.sub id sub k).ch, P e :=
  (Function.forall_update_iff f.disp.sub fun _ (x : WatchSub) => ∀ e ∈ x.ch, P e).mpr
    ⟨hsub, fun k _ => h.chan k⟩

theorem deliver (h : f.Carries P) {ev : Event} (hev : P ev) (id : ℕ) :
    ∀ k, ∀ e ∈ ((f.disp.deliver ev id).sub k).ch, P e := by
  rw [Dispatcher.deliver]
  split_ifs
  · refine h.update_chan id fun e he => ?_
    rcases List.mem_append.mp he with he | he
    · exact h.chan id e he
    · rw [List.mem_singleton.mp he]
      exact hev
  · exact h.update_chan id (h.chan id)
  · exact h.chan

theorem relock (h : f.Carries P) (lock : Lock) (skipped : List ℤ) (nextRev : ℤ) (flushes : ℕ)
    (hfan : ∀ ev todo caller, lock ≠ .fan ev todo caller) :
    Feed.Carries P { f with
      disp := { f.disp with nextRev := nextRev, reorderFlushes := flushes }
      lock := lock
      skipped := skipped } :=
  ⟨h.inflight, h.pending, h.released, fun ev todo caller hl => absurd hl (hfan ev todo caller),
    h.chan⟩

theorem dispatch (h : f.Carries P) {id : ℕ} (hs : f.dispatch id = some f') : f'.Carries P := by
  cases Feed.dispatch_iff.mp hs with
  | drained ev _ hev => exact h.release (h.pending _ ev hev) _
  | flushed ev r _ _ _ hev => exact h.release (h.pending r ev hev) _
  | deliver ev todo caller hl _ =>
    have hev := h.fan ev todo caller hl
    obtain ⟨subs, sub, heq⟩ := Dispatcher.deliver_eq ev id f.disp
    have hchan := h.deliver hev id
    rw [heq] at hchan ⊢
    refine ⟨h.inflight, h.pending, h.released, fun ev' todo' caller' hf => ?_, hchan⟩
    cases hf
    exact hev
  | flush _ _ _ => exact h.relock _ _ _ _ (fun _ _ _ hl => by cases hl)
  | unlock _ _ _ => exact h.relock _ _ _ _ (fun _ _ _ hl => by cases hl)
  | next ev _ => exact h.relock _ _ _ _ (fun _ _ _ hl => by cases hl)
  | resume ev revs last _ => exact h.relock _ _ _ _ (fun _ _ _ hl => by cases hl)
  | skip r revs last _ _ => exact h.relock _ _ _ _ (fun _ _ _ hl => by cases hl)
  | done last _ => exact h.relock _ _ _ _ (fun _ _ _ hl => by cases hl)

theorem ingest (h : f.Carries P) {ev : Event} (hs : f.ingest ev = some f') : f'.Carries P := by
  obtain ⟨_, hin, hcase⟩ := Feed.ingest_iff.mp hs
  have hrest : ∀ e ∈ f.inflight.erase ev, P e :=
    fun e he => h.inflight e (List.mem_of_mem_erase he)
  rcases hcase with ⟨_, rfl⟩ | ⟨d, hd, rfl⟩
  · exact ⟨hrest, h.pending, h.released, h.fan, h.chan⟩
  · obtain ⟨_, _, _, hd'⟩ := Dispatcher.hold_some hd
    rw [hd']
    refine ⟨hrest, fun r e he => ?_, h.released, fun _ _ _ hf => (nomatch hf), h.chan⟩
    dsimp only [Dispatcher.withBuffer] at he
    rw [getElem?_insert] at he
    split_ifs at he with hr
    · rw [← Option.some.inj he]
      exact h.inflight ev hin
    · exact h.pending r e he

/-- **What holds of every event that is committed holds of every event on its way.** -/
theorem change (h : s.feed.Carries P) (hnew : ∀ ev, Feed.Appends s.feed.stream ev → P ev)
    (hc : Change s s') : s'.feed.Carries P := by
  cases hc with
  | feed f hf =>
    rcases hf with ⟨ev, hf⟩ | ⟨ev, hf⟩ | ⟨ev, hf⟩ | ⟨id, hf⟩
    · obtain ⟨ha, rfl⟩ := Feed.commit_iff.mp hf
      refine ⟨fun e he => ?_, h.pending, h.released, h.fan, h.chan⟩
      rcases List.mem_cons.mp he with rfl | he
      · exact hnew e ha
      · exact h.inflight e he
    · obtain ⟨_, rfl⟩ := Feed.lose_iff.mp hf
      exact ⟨fun e he => h.inflight e (List.mem_of_mem_erase he), h.pending, h.released, h.fan,
        h.chan⟩
    · exact h.ingest hf
    · exact h.dispatch hf
  | conn c conn watchID watches out _ _ _ _ => exact h
  | spawn c conn id w out _ _ _ _ _ => exact h
  | register id w s' _ hr =>
    obtain ⟨_, _, rfl⟩ := register_eq hr
    exact ⟨h.inflight, h.pending, h.released, h.fan,
      h.update_chan _ fun e he => absurd he List.not_mem_nil⟩
  | finish id w s' _ hr =>
    obtain ⟨_, _, rfl⟩ := finish_eq hr
    exact ⟨h.inflight, h.pending, h.released, h.fan, h.chan⟩
  | own id w pc ch out _ hm =>
    exact ⟨h.inflight, h.pending, h.released, h.fan,
      h.update_chan _ fun e he => h.chan w.sub e (hm.chan e he)⟩

end Feed.Carries

/-! ### Requests -/

section Requests

variable {s s' : Sys} {act : Act}

/-- Where a step takes the stream `c`: it stays, is done with a request for a watch, takes one on,
or has the revision for one. -/
def Requested (s : Sys) (act : Act) (c : ℕ) (pc : ConnPc) : Prop :=
  pc = (s.conns c).pc ∨ pc.newID = none ∨ (∃ cr, pc = .creating (s.watchID + 1) cr) ∨
    ∃ id cr ok, act = .revision c ok ∧ (s.conns c).pc = .creating id cr ∧
      pc = .confirming id cr (if ok then Sys.currentRevision s.feed.stream else 0)

/-- Where the watch `id` starts: where it did before, or where its request and the revision that was
read for it say. -/
def Started (s : Sys) (id : ℤ) (w' : Watch) : Prop :=
  (∃ w, s.watches id = some w ∧ w'.startRevision = w.startRevision) ∨
    ∃ c cr rev, (s.conns c).pc = .confirming id cr rev ∧
      w'.startRevision = effectiveStartRevision cr.startRevision rev

theorem requested_update {c' : ℕ} {conn : Conn} (h : Requested s act c' conn.pc) (c : ℕ) :
    Requested s act c (Function.update s.conns c' conn c).pc := by
  by_cases hcc : c = c'
  · subst hcc
    rw [Function.update_self]
    exact h
  · rw [Function.update_of_ne hcc]
    exact Or.inl rfl

theorem started_update {id id' : ℤ} {v v' w' : Watch}
    (hw' : Function.update s.watches id' (some v') id = some w') (hv : s.watches id' = some v)
    (hstart : v'.startRevision = v.startRevision) : Started s id w' := by
  rcases update_eq_some hw' with ⟨rfl, rfl⟩ | ⟨_, hw⟩
  · exact Or.inl ⟨v, hv, hstart⟩
  · exact Or.inl ⟨w', hw, rfl⟩

theorem started_callCancels {ids : Finset ℤ} {id : ℤ} {w' : Watch}
    (hw' : (s.callCancels ids).watches id = some w') : Started s id w' := by
  rcases callCancels_watches s ids id with heq | heq <;> rw [hw'] at heq
  · exact Or.inl ⟨w', heq.symm, rfl⟩
  · obtain ⟨w, hw, rfl⟩ := Option.map_eq_some_iff.mp heq.symm
    exact Or.inl ⟨w, hw, rfl⟩

/-- **What a step does to the requests for watches.** -/
theorem step_requests (h : s.step act = some s') :
    (∀ c, Requested s act c (s'.conns c).pc) ∧
      ∀ id w', s'.watches id = some w' → Started s id w' := by
  have hstay : ∀ c, Requested s act c (s.conns c).pc := fun c => Or.inl rfl
  have hsame : ∀ id w', s.watches id = some w' → Started s id w' :=
    fun id w' hw => Or.inl ⟨w', hw, rfl⟩
  have hfeed : ∀ {o : Option Feed}, (o.map fun f => { s with feed := f }) = some s' →
      (∀ c, Requested s act c (s'.conns c).pc) ∧
        ∀ id w', s'.watches id = some w' → Started s id w' := by
    intro o ho
    obtain ⟨f, _, rfl⟩ := Option.map_eq_some_iff.mp ho
    exact ⟨hstay, hsame⟩
  cases act with
  | commit ev => exact hfeed h
  | lose ev => exact hfeed h
  | ingest ev => exact hfeed h
  | dispatch id => exact hfeed h
  | register id =>
    obtain ⟨w, hw, hr⟩ := Option.bind_eq_some_iff.mp h
    obtain ⟨_, _, rfl⟩ := register_eq hr
    exact ⟨hstay, fun id' w' hw' => started_update hw' hw rfl⟩
  | finish id =>
    obtain ⟨w, hw, hr⟩ := Option.bind_eq_some_iff.mp h
    obtain ⟨_, _, rfl⟩ := finish_eq hr
    exact ⟨requested_update (hstay w.conn), fun id' w' hw' => started_update hw' hw rfl⟩
  | watch id a =>
    obtain ⟨w, hw, hr⟩ := Option.bind_eq_some_iff.mp h
    obtain ⟨⟨pc, ch, out⟩, _, rfl⟩ := Option.map_eq_some_iff.mp hr
    exact ⟨hstay, fun id' w' hw' => started_update hw' hw rfl⟩
  | create c cr =>
    rw [Sys.step, Sys.connStep] at h
    split at h
    · cases h
      exact ⟨requested_update (Or.inr (Or.inr (Or.inl ⟨cr, rfl⟩))), hsame⟩
    · cases h
  | revision c ok =>
    rw [Sys.step, Sys.connStep] at h
    split at h
    · rename_i id cr hpc
      cases h
      exact ⟨requested_update (Or.inr (Or.inr (Or.inr ⟨id, cr, ok, rfl, hpc, rfl⟩))), hsame⟩
    · cases h
  | confirm c ok =>
    rw [Sys.step, Sys.connStep] at h
    split at h
    · rename_i id cr rev hpc
      rw [send_eq] at h
      cases h
      refine ⟨requested_update (Or.inr (Or.inl rfl)), fun id' w' hw' => ?_⟩
      rcases update_eq_some hw' with ⟨rfl, rfl⟩ | ⟨_, hw⟩
      · exact Or.inr ⟨c, cr, rev, hpc, rfl⟩
      · exact hsame id' w' hw
    · cases h
  | cancel c id =>
    rw [Sys.step, Sys.connStep] at h
    split at h
    · cases h
      refine ⟨requested_update (Or.inr (Or.inl rfl)), fun id' w' hw' => ?_⟩
      dsimp only at hw'
      split_ifs at hw'
      · exact started_callCancels hw'
      · exact hsame id' w' hw'
    · cases h
  | progress c =>
    rw [Sys.step, Sys.connStep] at h
    split at h
    · cases h
      exact ⟨requested_update (Or.inr (Or.inl rfl)), hsame⟩
    · cases h
  | reply c ok =>
    rw [Sys.step, Sys.connStep] at h
    split at h
    · rw [send_eq] at h
      cases h
      exact ⟨requested_update (Or.inr (Or.inl rfl)), hsame⟩
    · rw [send_eq] at h
      cases h
      exact ⟨requested_update (Or.inr (Or.inl rfl)), hsame⟩
    · cases h
  | hangUp c =>
    cases h
    exact ⟨requested_update (hstay c), hsame⟩
  | close c =>
    rw [Sys.step, Sys.connStep] at h
    split at h
    · cases h
      exact ⟨requested_update (Or.inr (Or.inl rfl)), fun id' w' hw' => started_callCancels hw'⟩
    · cases h

end Requests

/-! ### Nothing is replayed -/

/-- The revision that is read for the watch `id` is answered. -/
def answersRevision (id : ℤ) (s : Sys) : Act → Bool
  | .revision c ok => ok || (s.conns c).pc.newID ≠ some id
  | _ => true

def Dated (e : Event) : Prop := (eventToProto e).rev = e.rev

structure Asked (id N : ℤ) (s : Sys) : Prop where
  used : id ≤ s.watchID
  counter : N ≤ s.feed.stream.length
  creating : ∀ c cr, (s.conns c).pc = .creating id cr → cr.startRevision ≤ 0
  confirming : ∀ c cr rev, (s.conns c).pc = .confirming id cr rev → cr.startRevision ≤ 0 ∧ N ≤ rev
  watch : ∀ w, s.watches id = some w → N < w.startRevision
  dated : ∀ e ∈ s.feed.stream, Dated e
  carries : s.feed.Carries Dated

section Asked

variable {id N : ℤ} {s s' : Sys} {act : Act}

theorem dated_change (h : ∀ e ∈ s.feed.stream, Dated e) (hc : Change s s') :
    ∀ e ∈ s'.feed.stream, Dated e := by
  rcases hc.stream with heq | ⟨ev, ha, heq⟩ <;> rw [heq]
  · exact h
  · intro e he
    rcases List.mem_append.mp he with he | he
    · exact h e he
    · rw [List.mem_singleton.mp he]
      exact ha.proto_rev

theorem Asked.step (h : Asked id N s) (hs : s.step act = some s')
    (hg : answersRevision id s act = true) : Asked id N s' := by
  have hc := step_change hs
  have hstream := hc.stream
  have hused := h.used
  obtain ⟨hconns, hwatches⟩ := step_requests hs
  refine ⟨h.used.trans hc.watchID_le, ?_, ?_, ?_, ?_, ?_, ?_⟩
  · have := h.counter
    rcases hstream with heq | ⟨ev, _, heq⟩
    · rw [heq]
      exact this
    · rw [heq, List.length_append]
      push_cast
      omega
  · intro c cr hpc
    rcases hconns c with heq | hnone | ⟨cr', heq⟩ | ⟨id', cr', ok, _, _, heq⟩
    · exact h.creating c cr (heq ▸ hpc)
    · rw [hpc] at hnone
      cases hnone
    · rw [hpc] at heq
      cases heq
      omega
    · rw [hpc] at heq
      cases heq
  · intro c cr rev hpc
    rcases hconns c with heq | hnone | ⟨cr', heq⟩ | ⟨id', cr', ok, rfl, hold, heq⟩
    · exact h.confirming c cr rev (heq ▸ hpc)
    · rw [hpc] at hnone
      cases hnone
    · rw [hpc] at heq
      cases heq
    · rw [hpc] at heq
      cases heq
      have hok : ok = true := by simpa [answersRevision, hold, ConnPc.newID] using hg
      have := h.counter
      refine ⟨h.creating c cr hold, ?_⟩
      rw [if_pos hok, Sys.currentRevision]
      split_ifs <;> omega
  · intro w' hw'
    rcases hwatches id w' hw' with ⟨w, hw, heq⟩ | ⟨c, cr, rev, hpc, heq⟩
    · rw [heq]
      exact h.watch w hw
    · obtain ⟨hle, hrev⟩ := h.confirming c cr rev hpc
      rw [heq, effectiveStartRevision, if_neg (by omega)]
      omega
  · exact dated_change h.dated hc
  · exact h.carries.change (fun ev ha => ha.proto_rev) hc

end Asked

def Late (N : ℤ) (v : View) : Prop := ∀ p ∈ eventsOf v.sent ++ v.w.pc.hand, N < p.rev

theorem Late.step {id N : ℤ} {v v' : View} (h : Late N v) (hstart : N < v.w.startRevision)
    (hstream : ∀ e ∈ v.stream, Dated e) (hchan : ∀ e ∈ v.sub.ch, Dated e)
    (hs : View.Step id v v') : Late N v' := by
  have hsent : ∀ p ∈ eventsOf v.sent, N < p.rev := fun p hp => h p (List.mem_append_left _ hp)
  cases hs with
  | register k _ =>
    intro p hp
    dsimp only at hp
    split_ifs at hp <;> exact hsent p (by simpa [Pc.hand] using hp)
  | own ctxDone pc ch out hm =>
    intro p hp
    dsimp only at hp
    rw [eventsOf_append, List.append_assoc] at hp
    rcases List.mem_append.mp hp with hp | hp
    · exact hsent p hp
    · rcases hm.hand p hp with hp | ⟨e, hmem, rfl, hle⟩
      · exact h p (List.mem_append_right _ hp)
      · have hdated : (eventToProto e).rev = e.rev := by
          rcases hmem with he | he
          · exact hstream e he
          · exact hchan e he
        omega
  | finish _ _ =>
    intro p hp
    exact hsent p (by simpa [Pc.hand] using hp)
  | reply out cancelled hout =>
    intro p hp
    dsimp only at hp
    rw [eventsOf_append, eventsOf_eq_nil hout, List.append_nil] at hp
    exact h p hp
  | _ => exact h

/-! ### Runs -/

section Runs

variable {l : List Event} {current raw : Except GoError ℤ} {ok : Sys → Prop} {s : Sys}

theorem carries_primed (P : Event → Prop) : (Sys.primed l current raw).feed.Carries P := by
  refine ⟨fun e he => (nomatch he), fun r e he => ?_, fun e he => (nomatch he),
    fun _ _ _ hl => (nomatch hl), fun k e he => nomatch he⟩
  rw [show (Sys.primed l current raw).feed.disp.pending[r]? = none from
    Std.ExtTreeMap.getElem?_empty] at he
  cases he

theorem dated_of_primed (hl : Logged l) (h : Reach Sys.step ok (.primed l current raw) s) :
    (∀ e ∈ s.feed.stream, Dated e) ∧ s.feed.Carries Dated := by
  refine h.inv (I := fun s => (∀ e ∈ s.feed.stream, Dated e) ∧ s.feed.Carries Dated)
    ⟨hl.proto_rev, carries_primed Dated⟩ ?_
  rintro s act s' ⟨hdated, hcarries⟩ hs _
  have hc := step_change hs
  exact ⟨dated_change hdated hc, hcarries.change (fun ev ha => ha.proto_rev) hc⟩

theorem asked_create {s₁ : Sys} (hw : Wired s) (hdated : ∀ e ∈ s.feed.stream, Dated e)
    (hcarries : s.feed.Carries Dated) {c : ℕ} {cr : WatchCreateRequest} (hcr : cr.startRevision ≤ 0)
    (hs : s.step (.create c cr) = some s₁) :
    Asked (s.watchID + 1) s.feed.stream.length s₁ ∧ s₁.watches (s.watchID + 1) = none := by
  have hfresh : ∀ c', (s.conns c').pc.newID ≠ some (s.watchID + 1) := by
    intro c' hid
    have := (hw.fresh c' _ hid).1
    omega
  have hnone : s.watches (s.watchID + 1) = none := by
    rw [Option.eq_none_iff_forall_ne_some]
    intro w hw'
    have := hw.le_watchID _ w hw'
    omega
  rw [Sys.step, Sys.connStep] at hs
  split at hs
  · cases hs
    refine ⟨⟨le_rfl, le_rfl, fun c' cr' hpc => ?_, fun c' cr' rev hpc => ?_, fun w hw' => ?_, hdated,
      hcarries⟩, hnone⟩
    · dsimp only at hpc
      rw [update_conn_iff (·.pc = .creating _ cr')] at hpc
      rcases hpc with ⟨_, hpc⟩ | ⟨_, hpc⟩
      · cases hpc
        exact hcr
      · exact absurd (by rw [hpc]; rfl) (hfresh c')
    · dsimp only at hpc
      rw [update_conn_iff (·.pc = .confirming _ cr' rev)] at hpc
      rcases hpc with ⟨_, hpc⟩ | ⟨_, hpc⟩
      · cases hpc
      · exact absurd (by rw [hpc]; rfl) (hfresh c')
    · rw [hnone] at hw'
      cases hw'
  · cases hs

end Runs

/-- **A watch from now on replays nothing.**  A request for a watch without a start revision comes at
any moment of any run, when `s₀` has so many revisions.  Whatever is written, released and read
afterwards, no event up to there is sent on the watch, if the read of the revision for it is
answered. -/
theorem nothing_replayed (l : List Event) (hl : Logged l) (current raw : Except GoError ℤ) (s₀ : Sys)
    (h₀ : Reach Sys.step (fun _ => True) (.primed l current raw) s₀) (c : ℕ)
    (cr : WatchCreateRequest) (hcr : cr.startRevision ≤ 0) (s₁ : Sys)
    (hs₁ : s₀.step (.create c cr) = some s₁) (s : Sys)
    (hs : Reach (guarded (fun s act => answersRevision (s₀.watchID + 1) s act = true) Sys.step)
      (fun _ => True) s₁ s) :
    ∀ p ∈ s.eventsSent (s₀.watchID + 1), (s₀.feed.stream.length : ℤ) < p.rev := by
  have hwired := wired_of_primed h₀
  obtain ⟨hdated, hcarries⟩ := dated_of_primed hl h₀
  obtain ⟨hasked, hnone⟩ := asked_create hwired hdated hcarries hcr hs₁
  have hwired₁ := hwired.change (step_change hs₁)
  have hstep : ∀ s a s', guarded (fun s act => answersRevision (s₀.watchID + 1) s act = true)
      Sys.step s a = some s' → s.step a = some s' := fun _ _ _ h => (guarded_eq_some h).2
  cases hw : s.watches (s₀.watchID + 1) with
  | none =>
    have hwired' := hs.inv hwired₁ fun s a s' hw h _ => hw.change (step_change (hstep s a s' h))
    rw [Sys.eventsSent, List.flatMap_eq_nil_iff.mpr (hwired'.sentTo_of_none hw)]
    exact fun p hp => nomatch hp
  | some w =>
    have hlate := view_run hstep
      (J := fun s => Asked (s₀.watchID + 1) s₀.feed.stream.length s)
      (fun s a s' _ hj h => hj.step (guarded_eq_some h).2 (guarded_eq_some h).1) hwired₁ hasked hnone
      (P := Late s₀.feed.stream.length) ?_ ?_ hs w hw
    · exact fun p hp => hlate p (List.mem_append_left _ hp)
    · intro s w _ _ hpc hsent p hp
      change p ∈ eventsOf (s.sentTo _) ++ w.pc.hand at hp
      rw [eventsOf_eq_nil hsent, hpc] at hp
      cases hp
    · exact fun s s' w w' hj _ _ hw _ hv hview =>
        hv.step (hj.watch w hw) hj.dated (hj.carries.chan w.sub) hview

def createFromNow (ok : Bool) : List Act :=
  [.revision 0 ok, .confirm 0 true, .register 1]

/-- The event that is written afterwards is sent. -/
theorem nothing_replayed_answered :
    ∃ s₁ s, (Sys.start [createEvent [97] 1]).step (.create 0 ⟨[97], [0], 0⟩) = some s₁ ∧
      Reach (guarded (fun s act => answersRevision 1 s act = true) Sys.step) (fun _ => True) s₁ s ∧
      (s.eventsSent 1).map ProtoEvent.rev = [2] ∧ ∀ p ∈ s.eventsSent 1, 1 < p.rev := by
  obtain ⟨s₁, hs₁⟩ : ∃ s₁, (Sys.start [createEvent [97] 1]).step (.create 0 ⟨[97], [0], 0⟩) =
    some s₁ := ⟨_, rfl⟩
  have hrun : (run (guarded (fun s act => answersRevision 1 s act = true) Sys.step) (fun _ => True)
      (createFromNow true ++ [.commit (createEvent [98] 2), .ingest (createEvent [98] 2),
        .dispatch 0, .dispatch 1, .dispatch 0, .dispatch 0, .watch 1 .recv, .watch 1 .go,
        .watch 1 .go, .watch 1 (.send true)]) s₁).any
      (fun s => decide ((s.eventsSent 1).map ProtoEvent.rev = [2])) = true := by
    cases hs₁
    decide +kernel
  obtain ⟨s, hs, hp⟩ := exists_of_run _ _ s₁ _ _ hrun
  exact ⟨s₁, s, hs₁, hs, of_decide_eq_true hp, nothing_replayed _ logged_first _ _ _ .refl 0
    _ le_rfl s₁ hs₁ s hs⟩

/-- **The history is replayed**: the read of the revision fails, and the event that was stored
before the watch was asked for is sent. -/
theorem history_replayed :
    ∃ s₁ s, (Sys.start [createEvent [97] 1]).step (.create 0 ⟨[97], [0], 0⟩) = some s₁ ∧
      Reach Sys.step (fun _ => True) s₁ s ∧ (s.eventsSent 1).map ProtoEvent.rev = [1] := by
  obtain ⟨s₁, hs₁⟩ : ∃ s₁, (Sys.start [createEvent [97] 1]).step (.create 0 ⟨[97], [0], 0⟩) =
    some s₁ := ⟨_, rfl⟩
  have hrun : (run Sys.step (fun _ => True) (createFromNow false ++ [.watch 1 .go,
        .watch 1 (.read readBatchSize), .watch 1 .go, .watch 1 (.send true)]) s₁).any
      (fun s => decide ((s.eventsSent 1).map ProtoEvent.rev = [1])) = true := by
    cases hs₁
    decide +kernel
  obtain ⟨s, hs, hp⟩ := exists_of_run _ _ s₁ _ _ hrun
  exact ⟨s₁, s, hs₁, hs, of_decide_eq_true hp⟩

end REtcd.Server
