import REtcd.Server.Talk

/-!
# The protocol of a watch

A client expects one Created response for a watch, then events and progress, and in the end at most
one Canceled response, after which it hears no more of the watch (`Orderly`).

Three things break this.  The receive loop answers every cancel request, also one for an ID that is
not in use or was canceled before.  It answers at once, while the watch may be between its `select`
and its `Send`, or take another arm of the `select` before it finds its context done
(`progress_after_canceled`).  And it starts a watch whose Created response could not be sent.  If
none of these happens, the responses are in order (`responses_orderly`).
-/

namespace REtcd.Server

open Base Store

/-- One Created response, then responses that are neither Created nor, but for the last, Canceled. -/
def Orderly : List WatchResponse → Prop
  | [] => True
  | r :: rs => r.created = true ∧ r.canceled = false ∧ (∀ r' ∈ rs, r'.created = false) ∧
      ∀ r' ∈ rs.dropLast, r'.canceled = false

instance : DecidablePred Orderly
  | [] => inferInstanceAs (Decidable True)
  | _ :: _ => inferInstanceAs (Decidable (_ ∧ _ ∧ _ ∧ _))

def Sys.confirmed (s : Sys) (id : ℤ) : Bool := (s.sentTo id).any WatchResponse.created

def Sys.ended (s : Sys) (id : ℤ) : Bool := (s.sentTo id).any WatchResponse.canceled

/-- What keeps the responses in order.
* A client cancels only a watch that runs on this stream, was not canceled before and has not
  reported its own end.
* A watch sends nothing once a request to cancel it was taken.
* Once the Created response could not be sent, no other response with the ID goes through. -/
def keepsOrder (s : Sys) : Act → Bool
  | .cancel c id => id ∈ (s.conns c).cancels && !s.ended id
  | .watch id (.send true) =>
    s.confirmed id && (s.watches id).all fun w => id ∈ (s.conns w.conn).cancels
  | .reply c true =>
    match (s.conns c).pc with
    | .canceling id => s.confirmed id
    | _ => true
  | _ => true

/-! ### One more response -/

section Orderly

variable {rs : List WatchResponse} {r : WatchResponse}

theorem orderly_created (hcreated : r.created = true) (hcanceled : r.canceled = false) :
    Orderly [r] :=
  ⟨hcreated, hcanceled, fun _ h => (by cases h), fun _ h => (by cases h)⟩

theorem Orderly.append_singleton (h : Orderly rs) (hne : rs ≠ [])
    (hopen : ∀ r' ∈ rs, r'.canceled = false) (hr : r.created = false) : Orderly (rs ++ [r]) := by
  cases rs with
  | nil => exact absurd rfl hne
  | cons first rs =>
    obtain ⟨hcreated, hcanceled, hrest, _⟩ := h
    refine ⟨hcreated, hcanceled, ?_, ?_⟩
    · intro r' hr'
      rcases List.mem_append.mp hr' with hr' | hr'
      · exact hrest r' hr'
      · rw [List.mem_singleton.mp hr']
        exact hr
    · change ∀ r' ∈ (rs ++ [r]).dropLast, r'.canceled = false
      rw [List.dropLast_concat]
      exact fun r' hr' => hopen r' (List.mem_cons_of_mem _ hr')

end Orderly

/-! ### The invariant -/

/-- The responses are in order, and whoever may send the next one keeps them so: a stream that
answers a cancel request has given up the cancel function of a watch whose end was not sent yet, and
after the end was sent a watch with a cancel function has returned. -/
structure InOrder (t : Talk) : Prop where
  orderly : Orderly t.sent
  silent : t.watch = none → t.sent = []
  holds : ∀ c ∈ t.holds, c ∈ t.making ∨ ∃ pc, t.watch = some (c, pc)
  acks : ∀ c ∈ t.acks, c ∉ t.holds ∧ (∃ pc, t.watch = some (c, pc)) ∧
    ∀ r ∈ t.sent, r.canceled = false
  ended : ∀ c pc, t.watch = some (c, pc) → c ∈ t.holds → (∀ r ∈ t.sent, r.canceled = false) ∨
    pc = .returning ∨ pc = .gone
  sending : ∀ c r next, t.watch = some (c, .sending r next) → r.created = false ∧
    (r.canceled = true → next = .stop)
  stamping : ∀ c matched next, t.watch = some (c, .stamping matched true next) → next = .stop

namespace InOrder

variable {t u : Talk} {id : ℤ}

theorem within (h : InOrder u) (hw : t.Within u) : InOrder t := by
  obtain ⟨hsent, hwatch, hholds, hacks, hmaking, _⟩ := hw
  refine ⟨?_, ?_, ?_, ?_, ?_, ?_, ?_⟩
  · rw [hsent]
    exact h.orderly
  · rw [hsent, hwatch]
    exact h.silent
  · rw [hwatch, hmaking]
    exact fun c hc => h.holds c (hholds hc)
  · rw [hsent, hwatch]
    intro c hc
    obtain ⟨hnot, hrest⟩ := h.acks c (hacks hc)
    exact ⟨fun hc => hnot (hholds hc), hrest⟩
  · rw [hsent, hwatch]
    exact fun c pc hpc hc => h.ended c pc hpc (hholds hc)
  · rw [hwatch]
    exact h.sending
  · rw [hwatch]
    exact h.stamping

theorem create (h : InOrder t) (hnone : t.watch = none) (hmaking : t.making = ∅) (c : ℕ) :
    InOrder { t with holds := insert c t.holds, making := {c} } := by
  have hacks : ∀ c', c' ∉ t.acks := by
    intro c' hc'
    obtain ⟨pc, hpc⟩ := (h.acks c' hc').2.1
    rw [hnone] at hpc
    cases hpc
  refine ⟨h.orderly, h.silent, ?_, fun c' hc' => absurd hc' (hacks c'), ?_, h.sending, h.stamping⟩
  · rintro c' (rfl | hc')
    · exact Or.inl rfl
    · rcases h.holds c' hc' with hm | ⟨pc, hpc⟩
      · rw [hmaking] at hm
        exact absurd hm (Set.notMem_empty _)
      · exact Or.inr ⟨pc, hpc⟩
  · intro c' pc hpc
    change t.watch = _ at hpc
    rw [hnone] at hpc
    cases hpc

theorem confirm (h : InOrder t) (hnone : t.watch = none) {c : ℕ} (hmaking : t.making = {c})
    (ok : Bool) (rev : ℤ) :
    InOrder { t with
      sent := t.sent ++ sendOut ok ⟨headerAt rev, id, true, false, "", []⟩
      watch := some (c, .spawned)
      making := ∅ } := by
  have hacks : ∀ c', c' ∉ t.acks := by
    intro c' hc'
    obtain ⟨pc, hpc⟩ := (h.acks c' hc').2.1
    rw [hnone] at hpc
    cases hpc
  have hopen : ∀ r ∈ t.sent ++ sendOut ok ⟨headerAt rev, id, true, false, "", []⟩,
      r.canceled = false := by
    rw [h.silent hnone]
    exact forall_sendOut rfl
  refine ⟨?_, fun h => (by cases h), ?_, fun c' hc' => absurd hc' (hacks c'),
    fun _ _ _ _ => Or.inl hopen, fun c' r next h => (by cases h), fun c' m next h => (by cases h)⟩
  · change Orderly (t.sent ++ _)
    rw [h.silent hnone]
    cases ok with
    | false => trivial
    | true => exact orderly_created rfl rfl
  · intro c' hc'
    rcases h.holds c' hc' with hm | ⟨pc, hpc⟩
    · rw [hmaking] at hm
      rw [Set.mem_singleton_iff.mp hm]
      exact Or.inr ⟨_, rfl⟩
    · rw [hnone] at hpc
      cases hpc

theorem cancel (h : InOrder t) {c : ℕ} (hm : c ∉ t.making) (hc : c ∈ t.holds)
    (hopen : ∀ r ∈ t.sent, r.canceled = false) :
    InOrder { t with holds := t.holds \ {c}, acks := insert c t.acks } := by
  refine ⟨h.orderly, h.silent, fun c' hc' => h.holds c' hc'.1, ?_,
    fun c' pc hpc hc' => h.ended c' pc hpc hc'.1, h.sending, h.stamping⟩
  rintro c' (rfl | hc')
  · exact ⟨fun hc' => hc'.2 rfl, (h.holds c' hc).resolve_left hm, hopen⟩
  · obtain ⟨hnot, hrest⟩ := h.acks c' hc'
    exact ⟨fun hc' => hnot hc'.1, hrest⟩

theorem reply (h : InOrder t) {c : ℕ} (hc : c ∈ t.acks) (ok : Bool) (hne : ok = true → t.sent ≠ []) :
    InOrder { t with
      sent := t.sent ++ sendOut ok ⟨headerAt 0, id, false, true, "", []⟩
      acks := t.acks \ {c} } := by
  obtain ⟨hnot, ⟨pc, hpc⟩, hopen⟩ := h.acks c hc
  -- no other stream answers a cancel request for the watch, nor has its cancel function
  have honly : ∀ {c' : ℕ} {pc' : Pc}, t.watch = some (c', pc') → c' = c := by
    intro c' pc' hpc'
    rw [hpc] at hpc'
    exact (Prod.mk.inj (Option.some.inj hpc')).1.symm
  refine ⟨?_, ?_, h.holds, ?_, ?_, h.sending, h.stamping⟩
  · cases ok with
    | false => simpa [sendOut] using h.orderly
    | true => exact h.orderly.append_singleton (hne rfl) hopen rfl
  · intro hnone
    change t.watch = none at hnone
    rw [hpc] at hnone
    cases hnone
  · rintro c' ⟨hc', hcc⟩
    obtain ⟨_, ⟨pc', hpc'⟩, _⟩ := h.acks c' hc'
    exact absurd (honly hpc') hcc
  · intro c' pc' hpc' hc'
    rw [honly hpc'] at hc'
    exact absurd hc' hnot

theorem move (h : InOrder t) {c : ℕ} {pc pc' : Pc} {holds : Set ℕ} (hpc : t.watch = some (c, pc))
    (hholds : holds ⊆ t.holds)
    (hended : (∀ r ∈ t.sent, r.canceled = false) ∨ pc = .returning ∨ pc = .gone →
      c ∈ holds → (∀ r ∈ t.sent, r.canceled = false) ∨ pc' = .returning ∨ pc' = .gone)
    (hsending : ∀ r next, pc' = .sending r next → r.created = false ∧
      (r.canceled = true → next = .stop))
    (hstamping : ∀ matched next, pc' = .stamping matched true next → next = .stop) :
    InOrder { t with watch := some (c, pc'), holds := holds } := by
  have hwatch : ∀ {c' : ℕ}, (∃ pc, t.watch = some (c', pc)) → ∃ pc, some (c, pc') = some (c', pc) := by
    rintro c' ⟨pc₁, h₁⟩
    rw [hpc] at h₁
    cases h₁
    exact ⟨pc', rfl⟩
  refine ⟨h.orderly, fun h => (by cases h), ?_, ?_, ?_, ?_, ?_⟩
  · exact fun c' hc' => (h.holds c' (hholds hc')).imp_right hwatch
  · intro c' hc'
    obtain ⟨hnot, hw, hopen⟩ := h.acks c' hc'
    exact ⟨fun hc' => hnot (hholds hc'), hwatch hw, hopen⟩
  · rintro c' pc₁ heq hc'
    cases heq
    exact hended (h.ended c pc hpc (hholds hc')) hc'
  · rintro c' r next heq
    cases heq
    exact hsending r next rfl
  · rintro c' matched next heq
    cases heq
    exact hstamping matched next rfl

theorem send (h : InOrder t) {c : ℕ} {r : WatchResponse} {next : Next}
    (hpc : t.watch = some (c, .sending r next)) (hc : c ∈ t.holds) (hne : t.sent ≠ []) :
    InOrder { t with sent := t.sent ++ [r], watch := some (c, next.pc) } := by
  obtain ⟨hcreated, hstop⟩ := h.sending c r next hpc
  have hopen : ∀ r' ∈ t.sent, r'.canceled = false := by
    rcases h.ended c _ hpc hc with hopen | hend | hend
    · exact hopen
    · cases hend
    · cases hend
  have honly : ∀ {c' : ℕ}, (∃ pc, t.watch = some (c', pc)) → c' = c := by
    rintro c' ⟨pc, heq⟩
    rw [hpc] at heq
    exact (Prod.mk.inj (Option.some.inj heq)).1.symm
  refine ⟨h.orderly.append_singleton hne hopen hcreated, fun h => (by cases h), ?_, ?_, ?_, ?_, ?_⟩
  · exact fun c' hc' => (h.holds c' hc').imp_right fun hw => ⟨next.pc, by rw [honly hw]⟩
  · intro c' hc'
    obtain ⟨hnot, hw, _⟩ := h.acks c' hc'
    rw [honly hw] at hnot
    exact absurd hc hnot
  · rintro c' pc heq _
    cases heq
    cases hr : r.canceled with
    | false =>
      refine Or.inl fun r' hr' => ?_
      rcases List.mem_append.mp hr' with hr' | hr'
      · exact hopen r' hr'
      · rw [List.mem_singleton.mp hr', hr]
    | true =>
      rw [hstop hr]
      exact Or.inr (Or.inl rfl)
  · intro c' r' next' heq
    exact absurd (Prod.mk.inj (Option.some.inj heq)).2 (Next.pc_ne_sending next next' r')
  · intro c' matched next' heq
    have hst := (Prod.mk.inj (Option.some.inj heq)).2
    cases next <;> cases hst

end InOrder

/-! ### The guard -/

section Guard

variable {s : Sys} {id : ℤ}

theorem sent_ne_nil_of_confirmed (h : s.confirmed id = true) : (s.talk id).sent ≠ [] := by
  intro hnil
  change s.sentTo id = [] at hnil
  rw [Sys.confirmed, hnil] at h
  cases h

theorem keepsOrder_cancel {c : ℕ} (h : keepsOrder s (.cancel c id) = true) :
    c ∈ (s.talk id).holds ∧ ∀ r ∈ (s.talk id).sent, r.canceled = false := by
  rw [keepsOrder, Bool.and_eq_true, decide_eq_true_eq, Bool.not_eq_true', Sys.ended,
    List.any_eq_false] at h
  exact ⟨h.1, fun r hr => Bool.eq_false_iff.mpr (h.2 r hr)⟩

theorem keepsOrder_reply {c : ℕ} (hc : c ∈ (s.talk id).acks) (h : keepsOrder s (.reply c true) = true) :
    (s.talk id).sent ≠ [] := by
  change (s.conns c).pc = .canceling id at hc
  rw [keepsOrder, hc] at h
  exact sent_ne_nil_of_confirmed h

theorem keepsOrder_send {c : ℕ} {pc : Pc} (hpc : (s.talk id).watch = some (c, pc))
    (h : keepsOrder s (.watch id (.send true)) = true) :
    c ∈ (s.talk id).holds ∧ (s.talk id).sent ≠ [] := by
  obtain ⟨w, hw, heq⟩ := Option.map_eq_some_iff.mp hpc
  have hconn : w.conn = c := (Prod.mk.inj heq).1
  rw [keepsOrder, Bool.and_eq_true, hw, Option.all_some, decide_eq_true_eq, hconn] at h
  exact ⟨h.2, sent_ne_nil_of_confirmed h.1⟩

end Guard

/-- **One step keeps the responses in order**, if the guard lets it through. -/
theorem InOrder.step {s : Sys} {id : ℤ} {act : Act} {t' : Talk} (hg : keepsOrder s act = true)
    (h : InOrder (s.talk id)) (hstep : Talk.Step id (s.talk id) act t') : InOrder t' := by
  cases hstep with
  | quiet _ _ hw => exact h.within hw
  | create c cr _ hnone hmaking hw => exact (h.create hnone hmaking c).within hw
  | confirm c ok rev _ hnone hmaking hw => exact (h.confirm hnone hmaking ok rev).within hw
  | cancel c _ hm _ hw =>
    obtain ⟨hc, hopen⟩ := keepsOrder_cancel hg
    exact (h.cancel hm hc hopen).within hw
  | reply c ok _ hc hw =>
    refine (h.reply hc ok ?_).within hw
    rintro rfl
    exact keepsOrder_reply hc hg
  | register c pc _ hspawned hpc hw =>
    refine (h.move hspawned subset_rfl ?_ ?_ ?_).within hw
    · rintro (hopen | hend | hend) _
      · exact Or.inl hopen
      · cases hend
      · cases hend
    · rcases hpc with rfl | rfl <;> exact fun r next heq => (by cases heq)
    · rcases hpc with rfl | rfl <;> exact fun matched next heq => (by cases heq)
  | finish c _ hpc hw =>
    refine (h.move hpc Set.sdiff_subset ?_ ?_ ?_).within hw
    · exact fun _ hc => absurd rfl hc.2
    · exact fun r next heq => (by cases heq)
    · exact fun matched next heq => (by cases heq)
  | own w sh sub a pc ch out _ hwatch _ hs hw =>
    obtain ⟨hret, hgone⟩ := Watch.step_running hs
    rcases Watch.step_sent hs with rfl | ⟨rfl, r, next, hpc, rfl, rfl⟩
    · rw [List.append_nil] at hw
      refine (h.move hwatch subset_rfl ?_ ?_ ?_).within hw
      · rintro (hopen | hend | hend) _
        · exact Or.inl hopen
        · exact absurd hend hret
        · exact absurd hend hgone
      · intro r next heq
        obtain ⟨_, matched, canceled, hst, rfl⟩ := Watch.step_stamped hs heq
        refine ⟨rfl, fun hc => ?_⟩
        obtain rfl : canceled = true := hc
        exact h.stamping w.conn matched next (hst ▸ hwatch)
      · exact fun matched next heq => Watch.step_stop hs heq
    · rw [hpc] at hwatch
      obtain ⟨hc, hne⟩ := keepsOrder_send hwatch hg
      exact (h.send hwatch hc hne).within hw

/-- **The responses of a watch are in order**, in every interleaving whose steps keep to this: one
Created response first, then events and progress, and at most one Canceled response, the last. -/
theorem responses_orderly (l : List Event) (current raw : Except GoError ℤ) (s : Sys)
    (hs : Reach (guarded (fun s act => keepsOrder s act = true) Sys.step) (fun _ => True)
      (.primed l current raw) s) (id : ℤ) (hid : id ≠ invalidWatchID) : Orderly (s.sentTo id) := by
  refine (talk_inv hid (I := InOrder) ?_ (fun s act t' hg h => h.step hg) hs).orderly
  exact ⟨trivial, fun _ => rfl, fun c hc => (by cases hc), fun c hc => (by cases hc),
    fun c pc h => (by cases h), fun c r next h => (by cases h), fun c m next h => (by cases h)⟩

def createThenTick : List Act :=
  [.create 0 ⟨[97], [], 0⟩, .revision 0 true, .confirm 0 true, .register 1, .watch 1 .tick]

/-- The watch sends its progress before the cancel request is taken. -/
theorem responses_orderly_cancel : ∃ s,
    Reach (guarded (fun s act => keepsOrder s act = true) Sys.step) (fun _ => True)
      (.start [createEvent [97] 1]) s ∧
    (s.sentTo 1).map (fun r => (r.created, r.canceled)) =
      [(true, false), (false, false), (false, true)] ∧ Orderly (s.sentTo 1) := by
  obtain ⟨s, hs, hp⟩ := exists_of_run (guarded (fun s act => keepsOrder s act = true) Sys.step)
    (fun _ => True) (.start [createEvent [97] 1])
    (createThenTick ++ [.watch 1 .go, .watch 1 (.send true), .cancel 0 1, .reply 0 true])
    (fun s => decide ((s.sentTo 1).map (fun r => (r.created, r.canceled)) =
      [(true, false), (false, false), (false, true)])) (by decide +kernel)
  exact ⟨s, hs, of_decide_eq_true hp, responses_orderly _ _ _ s hs 1 (by decide)⟩

/-- **Progress after the end**: with the watch on its way to `Send`, the client cancels it and is
told so, and then gets the progress response. -/
theorem progress_after_canceled : ∃ s,
    Reach Sys.step (fun _ => True) (.start [createEvent [97] 1]) s ∧
    (s.sentTo 1).map (fun r => (r.created, r.canceled)) =
      [(true, false), (false, true), (false, false)] ∧ ¬ Orderly (s.sentTo 1) := by
  obtain ⟨s, hs, hp⟩ := exists_of_run Sys.step (fun _ => True) (.start [createEvent [97] 1])
    (createThenTick ++ [.cancel 0 1, .reply 0 true, .watch 1 .go, .watch 1 (.send true)])
    (fun s => decide ((s.sentTo 1).map (fun r => (r.created, r.canceled)) =
      [(true, false), (false, true), (false, false)] ∧ ¬ Orderly (s.sentTo 1)))
    (by decide +kernel)
  exact ⟨s, hs, of_decide_eq_true hp⟩

end REtcd.Server
