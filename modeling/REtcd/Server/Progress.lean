import REtcd.Server.Complete

/-!
# Progress responses

A progress response tells the client that it has everything up to the header's revision.  The
revision is the dispatcher's `latestRev`, which is ahead of what has been sent: it is raised before
an event reaches the channels of the subscribers, and the event may stay there, or a watch may still
be reading the stream.

A wanted event up to `latestRev` is either sent or on its way (`Sys.Awaits`).  So a progress
response tells the truth exactly if nothing up to its revision is on its way
(`progress_truthful_iff`); it may well be (`progress_ahead`).
-/

namespace REtcd.Server

open Base Store

/-- A progress response for the watch `id`: its own, or one for the whole stream. -/
def WatchResponse.ProgressFor (id : ℤ) (r : WatchResponse) : Prop :=
  r.events = [] ∧ r.created = false ∧ r.canceled = false ∧
    (r.watchId = id ∨ r.watchId = invalidWatchID)

instance (id : ℤ) : DecidablePred (WatchResponse.ProgressFor id) := fun _ =>
  inferInstanceAs (Decidable (_ ∧ _ ∧ _ ∧ _))

/-- A step sends the progress response `r` for the watch `w` with ID `id`. -/
def ProgressSent (s s' : Sys) (id : ℤ) (w : Watch) (r : WatchResponse) : Prop :=
  s.watches id = some w ∧ s'.sent = s.sent ++ [(w.conn, r)] ∧ r.ProgressFor id

instance (s s' : Sys) (id : ℤ) (w : Watch) (r : WatchResponse) :
    Decidable (ProgressSent s s' id w r) := inferInstanceAs (Decidable (_ ∧ _ ∧ _))

/-- The client has every event of the watch up to the revision of the response. -/
def Truthful (s : Sys) (id : ℤ) (w : Watch) (r : WatchResponse) : Prop :=
  ∀ e ∈ s.feed.stream, w.wants e = true → e.rev ≤ r.header.revision →
    eventToProto e ∈ s.eventsSent id

instance (s : Sys) (id : ℤ) (w : Watch) (r : WatchResponse) : Decidable (Truthful s id w r) :=
  inferInstanceAs (Decidable (∀ e ∈ s.feed.stream, _ → _ → _))

/-! ### What a step sends -/

section Steps

variable {s s' : Sys}

theorem View.Step.latestRev_le {id : ℤ} {v v' : View} (h : View.Step id v v') :
    v.latestRev ≤ v'.latestRev := by
  cases h with
  | release ev cks _ =>
    dsimp only
    split_ifs <;> omega
  | _ => exact le_rfl

theorem Change.latestRev_le (h : Change s s') : s.feed.disp.latestRev ≤ s'.feed.disp.latestRev := by
  rcases h.feed_cases with hf | ⟨subs, sub, nextID, heq⟩
  · exact (feed_view hf 0 ⟨0, [], [], 0, false, 0, 0, .gone⟩).latestRev_le
  · rw [heq]

/-- A stream that is about to answer a progress request was so before, or has just read the
revision. -/
theorem Change.progressing (h : Change s s') {c : ℕ} {rev : ℤ}
    (hc : (s'.conns c).pc = .progressing rev) :
    (s.conns c).pc = .progressing rev ∨ rev = s.feed.disp.latestRev := by
  cases h with
  | feed f _ => exact Or.inl hc
  | conn c' conn watchID watches out _ _ _ hrev =>
    dsimp only at hc
    by_cases hcc : c = c'
    · subst hcc
      rw [Function.update_self] at hc
      exact hrev rev hc
    · rw [Function.update_of_ne hcc] at hc
      exact Or.inl hc
  | spawn c' conn id w out _ hconn _ _ _ =>
    dsimp only at hc
    by_cases hcc : c = c'
    · subst hcc
      rw [Function.update_self, hconn] at hc
      cases hc
    · rw [Function.update_of_ne hcc] at hc
      exact Or.inl hc
  | register id w s' _ hr =>
    obtain ⟨_, _, rfl⟩ := register_eq hr
    exact Or.inl hc
  | finish id w s' _ hr =>
    obtain ⟨_, _, rfl⟩ := finish_eq hr
    refine Or.inl ?_
    change (Function.update s.conns w.conn _ c).pc = _ at hc
    by_cases hcc : c = w.conn
    · rw [hcc, Function.update_self] at hc
      rw [hcc]
      exact hc
    · rwa [Function.update_of_ne hcc] at hc
  | own id w pc ch out _ _ => exact Or.inl hc

/-- What is sent in a step confirms a watch or its end, or answers a progress request, or is what a
watch was about to send. -/
theorem Change.sends (h : Change s s') {c : ℕ} {r : WatchResponse}
    (hsent : s'.sent = s.sent ++ [(c, r)]) :
    r.created = true ∨ r.canceled = true ∨ (s.conns c).pc = .progressing r.header.revision ∨
      ∃ id w next, s.watches id = some w ∧ w.pc = .sending r next := by
  have hquiet : s'.sent ≠ s.sent := by
    rw [hsent]
    simp
  -- what is sent is what the step says it has sent
  have hout : ∀ {c' : ℕ} {out : List WatchResponse}, s'.sent = s.sent ++ out.map (c', ·) →
      c = c' ∧ r ∈ out := by
    intro c' out he
    have hmem : (c, r) ∈ out.map (c', ·) := by
      rw [List.append_cancel_left (he.symm.trans hsent)]
      exact List.mem_singleton_self _
    obtain ⟨x, hx, heq⟩ := List.mem_map.mp hmem
    cases heq
    exact ⟨rfl, hx⟩
  cases h with
  | feed f _ => exact absurd rfl hquiet
  | conn c' conn watchID watches out _ hevents _ _ =>
    obtain ⟨rfl, hr⟩ := hout rfl
    exact Or.inr ((hevents r hr).2.imp_right Or.inl)
  | spawn c' conn id w out _ _ _ _ hevents =>
    obtain ⟨rfl, hr⟩ := hout rfl
    exact Or.inl (hevents r hr).2
  | register id w s' _ hr =>
    obtain ⟨_, _, rfl⟩ := register_eq hr
    exact absurd rfl hquiet
  | finish id w s' _ hr =>
    obtain ⟨_, _, rfl⟩ := finish_eq hr
    exact absurd rfl hquiet
  | own id w pc ch out hw hm =>
    obtain ⟨_, hr⟩ := hout rfl
    rcases hm.out_cases with rfl | ⟨resp, next, hpc, rfl⟩
    · cases hr
    · rw [List.mem_singleton.mp hr]
      exact Or.inr (Or.inr (Or.inr ⟨id, w, next, hw, hpc⟩))

end Steps

/-! ### Truthful progress -/

theorem progressing_reach {ok : Sys → Prop} {l : List Event} {s : Sys}
    (hs : Reach Sys.step ok (.start l) s) :
    ∀ c rev, (s.conns c).pc = .progressing rev → rev ≤ s.feed.disp.latestRev := by
  induction hs with
  | refl =>
    intro c rev hc
    cases hc
  | tail a _ hstep _ ih =>
    intro c rev hc
    have hchange := step_change hstep
    have hle := hchange.latestRev_le
    rcases hchange.progressing hc with hold | rfl
    · exact (ih c rev hold).trans hle
    · exact hle

/-- A progress response does not tell of events that have not been released. -/
theorem ProgressSent.le_latestRev {ok : Sys → Prop} {l : List Event} (hl : Logged l) {s s' : Sys}
    (hs : Reach Sys.step ok (.start l) s) {act : Act} (hstep : s.step act = some s') {id : ℤ}
    {w : Watch} {r : WatchResponse} (h : ProgressSent s s' id w r) :
    r.header.revision ≤ s.feed.disp.latestRev := by
  obtain ⟨_, hsent, _, hcreated, hcanceled, _⟩ := h
  rcases (step_change hstep).sends hsent with hc | hc | hc | ⟨j, v, next, hv, hpc⟩
  · rw [hcreated] at hc
    cases hc
  · rw [hcanceled] at hc
    cases hc
  · exact progressing_reach hs _ _ hc
  · exact ((header_reach hl hs hv).2 r next hpc).2

/-- **When progress is truthful**: a progress response, of the watch itself or for the whole stream,
tells the truth about a watch that runs and is not cut loose exactly if nothing that the watch wants
up to the revision of the response is on its way to the client: still to be read from the stream, in
the hands of the watch, in its channel, about to be put there, or given up by the dispatcher. -/
theorem progress_truthful_iff (l : List Event) (hl : Logged l) (s s' : Sys)
    (hs : Reach Sys.step (fun _ => True) (.start l) s) (act : Act) (hstep : s.step act = some s')
    (id : ℤ) (w : Watch) (r : WatchResponse) (hr : ProgressSent s s' id w r)
    (hrun : w.pc.stage ≠ .ended) (hcut : (s.feed.disp.sub w.sub).cancelled = false) :
    Truthful s id w r ↔ ∀ e ∈ s.feed.stream, w.wants e = true → e.rev ≤ r.header.revision →
      ¬ s.Awaits w e := by
  have hle := hr.le_latestRev hl hs hstep
  refine forall_congr' fun e => forall_congr' fun he => forall_congr' fun hwe =>
    forall_congr' fun hre => ?_
  exact sent_iff_not_awaits hl hs hr.1 hrun hcut he hwe (hre.trans hle)

/-! ### Two runs -/

theorem exists_progress (s₀ : Sys) (as : List Act) (act : Act) (id : ℤ) (r : WatchResponse)
    (p : Sys → Watch → Bool)
    (h : (run Sys.step (fun _ => True) as s₀).any (fun s => (s.step act).any fun s' =>
      (s.watches id).any fun w => decide (ProgressSent s s' id w r) && p s w) = true) :
    ∃ s s' w, Reach Sys.step (fun _ => True) s₀ s ∧ s.step act = some s' ∧
      ProgressSent s s' id w r ∧ p s w = true := by
  obtain ⟨s, hs, h⟩ := exists_of_run _ _ _ as _ h
  obtain ⟨s', hstep, h⟩ := (Option.any_eq_true _ _).mp h
  obtain ⟨w, _, h⟩ := (Option.any_eq_true _ _).mp h
  rw [Bool.and_eq_true, decide_eq_true_eq] at h
  exact ⟨s, s', w, hs, hstep, h⟩

def queueEvent : List Act :=
  [.create 0 ⟨[97], [0], 2⟩, .revision 0 true, .confirm 0 true, .register 1,
    .commit (createEvent [98] 2), .ingest (createEvent [98] 2), .dispatch 0, .dispatch 1]

/-- The watch takes the event and sends it before its ticker fires. -/
theorem sendThenTick_truthful :
    ∃ s s' w, Reach Sys.step (fun _ => True) (.start [createEvent [97] 1]) s ∧
      s.step (.watch 1 (.send true)) = some s' ∧
      ProgressSent s s' 1 w (watchResponse 1 2 false []) ∧
      Truthful s 1 w (watchResponse 1 2 false []) := by
  obtain ⟨s, s', w, hs, hstep, hr, hp⟩ := exists_progress (.start [createEvent [97] 1])
    (queueEvent ++ [.watch 1 .recv, .watch 1 .go, .watch 1 .go, .watch 1 (.send true),
      .watch 1 .tick, .watch 1 .go])
    (.watch 1 (.send true)) 1 (watchResponse 1 2 false [])
    (fun s w => decide (w.pc.stage ≠ .ended ∧ (s.feed.disp.sub w.sub).cancelled = false ∧
      ∀ e ∈ s.feed.stream, w.wants e = true → e.rev ≤ 2 → ¬ s.Awaits w e)) (by decide +kernel)
  obtain ⟨hrun, hcut, hnone⟩ := of_decide_eq_true hp
  exact ⟨s, s', w, hs, hstep, hr, (progress_truthful_iff _ logged_first s s' hs _ hstep
    1 w _ hr hrun hcut).mpr hnone⟩

/-- **Progress may be ahead of the events**: with the event in the channel of the watch, the ticker
of the watch may fire first, and the client may ask for progress.  Either response has the revision
of the event, which was not sent. -/
theorem progress_ahead :
    (∃ s s' w, Reach Sys.step (fun _ => True) (.start [createEvent [97] 1]) s ∧
      s.step (.watch 1 (.send true)) = some s' ∧
      ProgressSent s s' 1 w (watchResponse 1 2 false []) ∧
      ¬ Truthful s 1 w (watchResponse 1 2 false [])) ∧
    (∃ s s' w, Reach Sys.step (fun _ => True) (.start [createEvent [97] 1]) s ∧
      s.step (.reply 0 true) = some s' ∧
      ProgressSent s s' 1 w ⟨headerAt 2, invalidWatchID, false, false, "", []⟩ ∧
      ¬ Truthful s 1 w ⟨headerAt 2, invalidWatchID, false, false, "", []⟩) := by
  constructor
  · obtain ⟨s, s', w, hs, hstep, hr, hp⟩ := exists_progress (.start [createEvent [97] 1])
      (queueEvent ++ [.watch 1 .tick, .watch 1 .go]) (.watch 1 (.send true)) 1
      (watchResponse 1 2 false [])
      (fun s w => decide (¬ Truthful s 1 w (watchResponse 1 2 false []))) (by decide +kernel)
    exact ⟨s, s', w, hs, hstep, hr, of_decide_eq_true hp⟩
  · obtain ⟨s, s', w, hs, hstep, hr, hp⟩ := exists_progress (.start [createEvent [97] 1])
      (queueEvent ++ [.progress 0]) (.reply 0 true) 1
      ⟨headerAt 2, invalidWatchID, false, false, "", []⟩
      (fun s w => decide (¬ Truthful s 1 w ⟨headerAt 2, invalidWatchID, false, false, "", []⟩))
      (by decide +kernel)
    exact ⟨s, s', w, hs, hstep, hr, of_decide_eq_true hp⟩

end REtcd.Server
