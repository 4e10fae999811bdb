import REtcd.Server.Progress

/-!
# The responses with one ID

Responses with the ID of a watch come from three places: the receive loop confirms the watch, the
watch itself sends events, progress and its own end, and a receive loop answers a cancel request
with whatever ID the client has put into it.

`Talk` is what of the system bears on the responses with one ID, and `Talk.Step` lists what can
happen to it.  `step_talk` says that every step of the system is one of these, so that a property of
these responses is proved from `Talk.Step` alone (`talk_inv`).
-/

namespace REtcd.Server

open Base Store

/-- What bears on the responses with one ID: those sent so far, the stream of the watch and where
the watch stands, the streams that have a cancel function for the ID, those about to answer a cancel
request for it, those about to confirm it, and the revision that a watch puts into a header. -/
structure Talk where
  sent : List WatchResponse
  watch : Option (ℕ × Pc)
  holds : Set ℕ
  acks : Set ℕ
  making : Set ℕ
  latestRev : ℤ

def Sys.talk (s : Sys) (id : ℤ) : Talk where
  sent := s.sentTo id
  watch := (s.watches id).map fun w => (w.conn, w.pc)
  holds := {c | id ∈ (s.conns c).cancels}
  acks := {c | (s.conns c).pc = .canceling id}
  making := {c | (s.conns c).pc.newID = some id}
  latestRev := s.feed.disp.latestRev

namespace Talk

/-- Up to what may be lost on the side: a stream forgets, the revision grows. -/
structure Within (t u : Talk) : Prop where
  sent : t.sent = u.sent
  watch : t.watch = u.watch
  holds : t.holds ⊆ u.holds
  acks : t.acks ⊆ u.acks
  making : t.making = u.making
  latestRev : u.latestRev ≤ t.latestRev

inductive Step (id : ℤ) (t : Talk) : Act → Talk → Prop
  | quiet (act : Act) (t' : Talk) : t'.Within t → Step id t act t'
  /-- The ID is given out. -/
  | create (c : ℕ) (cr : WatchCreateRequest) (t' : Talk) : t.watch = none → t.making = ∅ →
      t'.Within { t with holds := insert c t.holds, making := {c} } → Step id t (.create c cr) t'
  | confirm (c : ℕ) (ok : Bool) (rev : ℤ) (t' : Talk) : t.watch = none → t.making = {c} →
      t'.Within { t with
        sent := t.sent ++ sendOut ok ⟨headerAt rev, id, true, false, "", []⟩
        watch := some (c, .spawned)
        making := ∅ } → Step id t (.confirm c ok) t'
  | cancel (c : ℕ) (t' : Talk) : c ∉ t.making → c ∉ t.acks →
      t'.Within { t with holds := t.holds \ {c}, acks := insert c t.acks } →
      Step id t (.cancel c id) t'
  /-- The cancel request is answered. -/
  | reply (c : ℕ) (ok : Bool) (t' : Talk) : c ∈ t.acks →
      t'.Within { t with
        sent := t.sent ++ sendOut ok ⟨headerAt 0, id, false, true, "", []⟩
        acks := t.acks \ {c} } → Step id t (.reply c ok) t'
  | register (c : ℕ) (pc : Pc) (t' : Talk) : t.watch = some (c, .spawned) →
      pc = .seeking ∨ pc = .selecting → t'.Within { t with watch := some (c, pc) } →
      Step id t (.register id) t'
  /-- A step of the watch itself. -/
  | own (w : Watch) (sh : Shared) (sub : WatchSub) (a : WatchAct) (pc : Pc) (ch : List Event)
      (out : List WatchResponse) (t' : Talk) : t.watch = some (w.conn, w.pc) →
      sh.latestRev = t.latestRev → w.step sh id sub a = some (pc, ch, out) →
      t'.Within { t with sent := t.sent ++ out, watch := some (w.conn, pc) } →
      Step id t (.watch id a) t'
  | finish (c : ℕ) (t' : Talk) : t.watch = some (c, .returning) →
      t'.Within { t with watch := some (c, .gone), holds := t.holds \ {c} } →
      Step id t (.finish id) t'

end Talk

/-! ### The steps of the system -/

section Steps

variable {s s' : Sys} {id : ℤ}

theorem update_conn_iff (P : Conn → Prop) (conns : ℕ → Conn) (c c' : ℕ) (conn : Conn) :
    P (Function.update conns c conn c') ↔ c' = c ∧ P conn ∨ c' ≠ c ∧ P (conns c') := by
  by_cases h : c' = c
  · subst h
    simp
  · simp [h]

theorem conn_within {c : ℕ} {conn : Conn} {u : Talk}
    (hconns : s'.conns = Function.update s.conns c conn) (hsent : s'.sentTo id = u.sent)
    (hwatch : (s'.talk id).watch = u.watch) (hrev : u.latestRev ≤ s'.feed.disp.latestRev)
    (hconn : (id ∈ conn.cancels → c ∈ u.holds) ∧ (conn.pc = .canceling id → c ∈ u.acks) ∧
      (conn.pc.newID = some id ↔ c ∈ u.making))
    (hold : ∀ c' ≠ c, (c' ∈ (s.talk id).holds → c' ∈ u.holds) ∧
      (c' ∈ (s.talk id).acks → c' ∈ u.acks) ∧ (c' ∈ (s.talk id).making ↔ c' ∈ u.making)) :
    (s'.talk id).Within u := by
  refine ⟨hsent, hwatch, ?_, ?_, ?_, hrev⟩
  · intro c' hc'
    change id ∈ (s'.conns c').cancels at hc'
    rw [hconns, update_conn_iff (id ∈ ·.cancels)] at hc'
    rcases hc' with ⟨rfl, h⟩ | ⟨hne, h⟩
    · exact hconn.1 h
    · exact (hold c' hne).1 h
  · intro c' hc'
    change (s'.conns c').pc = .canceling id at hc'
    rw [hconns, update_conn_iff (·.pc = .canceling id)] at hc'
    rcases hc' with ⟨rfl, h⟩ | ⟨hne, h⟩
    · exact hconn.2.1 h
    · exact (hold c' hne).2.1 h
  · ext c'
    change (s'.conns c').pc.newID = some id ↔ _
    rw [hconns, update_conn_iff (·.pc.newID = some id)]
    by_cases hc : c' = c
    · simp only [hc, true_and, ne_eq, not_true_eq_false, false_and, or_false, hconn.2.2]
    · simp only [hc, false_and, ne_eq, not_false_eq_true, true_and, false_or]
      exact (hold c' hc).2.2

theorem conn_quiet (act : Act) {c : ℕ} {conn : Conn}
    (hconns : s'.conns = Function.update s.conns c conn) (hsent : s'.sentTo id = s.sentTo id)
    (hwatch : (s'.talk id).watch = (s.talk id).watch)
    (hrev : s.feed.disp.latestRev ≤ s'.feed.disp.latestRev)
    (hconn : (id ∈ conn.cancels → id ∈ (s.conns c).cancels) ∧
      (conn.pc = .canceling id → (s.conns c).pc = .canceling id) ∧
      (conn.pc.newID = some id ↔ (s.conns c).pc.newID = some id)) :
    Talk.Step id (s.talk id) act (s'.talk id) :=
  .quiet act _ (conn_within hconns hsent hwatch hrev hconn
    fun _ _ => ⟨fun h => h, fun h => h, Iff.rfl⟩)

theorem callCancels_talk (s : Sys) (ids : Finset ℤ) (id : ℤ) :
    ((s.callCancels ids).talk id).watch = (s.talk id).watch := by
  change ((s.callCancels ids).watches id).map _ = (s.watches id).map _
  rcases callCancels_watches s ids id with he | he
  · rw [he]
  · rw [he, Option.map_map]
    rfl

theorem setWatch_talk (s : Sys) (id : ℤ) (w : Watch) :
    ((s.setWatch id w).talk id).watch = some (w.conn, w.pc) := by
  rw [Sys.talk, Sys.setWatch]
  dsimp only
  rw [Function.update_self]
  rfl

theorem setWatch_talk_of_ne (s : Sys) {id' : ℤ} (hid : id' ≠ id) (w : Watch) :
    ((s.setWatch id' w).talk id).watch = (s.talk id).watch := by
  rw [Sys.talk, Sys.setWatch]
  dsimp only
  rw [Function.update_of_ne (Ne.symm hid)]
  rfl

theorem sendOut_sentTo (s : Sys) (c : ℕ) (ok : Bool) (resp : WatchResponse) (id : ℤ) :
    { s with sent := s.sent ++ (sendOut ok resp).map (c, ·) }.sentTo id =
      s.sentTo id ++ if resp.watchId = id then sendOut ok resp else [] := by
  rw [sentTo_append]
  congr 1
  cases ok
  · simp [sendOut]
  · by_cases h : resp.watchId = id <;> simp [sendOut, h]

theorem create_talk (h : Wired s) {c : ℕ} {cr : WatchCreateRequest}
    (hs : s.step (.create c cr) = some s') :
    Talk.Step id (s.talk id) (.create c cr) (s'.talk id) := by
  rw [Sys.step, Sys.connStep] at hs
  split at hs
  · rename_i hpc
    rw [Option.some.injEq] at hs
    subst hs
    by_cases hid : s.watchID + 1 = id
    · subst hid
      -- the ID is above all those in use
      have hwatch : (s.talk (s.watchID + 1)).watch = none := by
        rw [Sys.talk, Option.map_eq_none_iff, Option.eq_none_iff_forall_ne_some]
        intro w hw
        have := h.le_watchID _ w hw
        omega
      have hmaking : (s.talk (s.watchID + 1)).making = ∅ := by
        rw [Set.eq_empty_iff_forall_notMem]
        intro c' hc'
        have := (h.fresh c' _ hc').1
        omega
      refine .create c cr _ hwatch hmaking (conn_within rfl rfl rfl le_rfl
        ⟨fun _ => Or.inl rfl, fun h => (by cases h), iff_of_true rfl rfl⟩
        fun c' hne => ⟨fun h => Or.inr h, fun h => h, ?_⟩)
      rw [hmaking]
      exact iff_of_false (Set.notMem_empty _) hne
    · refine conn_quiet _ rfl rfl rfl le_rfl
        ⟨fun h => Finset.mem_of_mem_insert_of_ne h (Ne.symm hid), fun h => (by cases h), ?_⟩
      simp [hpc, ConnPc.newID, hid]
  · cases hs

theorem confirm_talk (h : Wired s) {c : ℕ} {ok : Bool} (hs : s.step (.confirm c ok) = some s') :
    Talk.Step id (s.talk id) (.confirm c ok) (s'.talk id) := by
  rw [Sys.step, Sys.connStep] at hs
  split at hs
  · rename_i id' cr rev hpc
    rw [Option.some.injEq, send_eq] at hs
    subst hs
    have hnew : (s.conns c).pc.newID = some id' := by
      rw [hpc]
      rfl
    have hsent := sendOut_sentTo s c ok ⟨headerAt rev, id', true, false, "", []⟩ id
    by_cases hid : id' = id
    · subst hid
      have hwatch : (s.talk id').watch = none := by
        rw [Sys.talk, Option.map_eq_none_iff]
        exact (h.fresh c id' hnew).2
      have hmaking : (s.talk id').making = {c} :=
        Set.eq_singleton_iff_unique_mem.mpr ⟨hnew, fun c' hc' => h.newID_inj c' c id' hc' hnew⟩
      rw [if_pos rfl] at hsent
      exact .confirm c ok rev _ hwatch hmaking (conn_within rfl hsent (setWatch_talk _ _ _) le_rfl
        ⟨fun h => h, fun h => (by cases h), iff_of_false (fun h => (by cases h)) (fun h => h)⟩
        fun c' hne => ⟨fun h => h, fun h => h,
          iff_of_false (fun hn => hne (h.newID_inj c' c id' hn hnew)) (fun h => h)⟩)
    · rw [if_neg hid, List.append_nil] at hsent
      exact conn_quiet _ rfl hsent (setWatch_talk_of_ne _ hid _) le_rfl
        ⟨fun h => h, fun h => (by cases h), by simp [hpc, ConnPc.newID, hid]⟩
  · cases hs

theorem cancel_talk {c : ℕ} {id' : ℤ} (hs : s.step (.cancel c id') = some s') :
    Talk.Step id (s.talk id) (.cancel c id') (s'.talk id) := by
  rw [Sys.step, Sys.connStep] at hs
  split at hs
  · rename_i hpc
    rw [Option.some.injEq] at hs
    -- whether a cancel function is called makes no difference here
    have hwatch : (s'.talk id).watch = (s.talk id).watch := by
      rw [← hs]
      dsimp only
      split_ifs
      · exact callCancels_talk s _ id
      · rfl
    have hsent : s'.sentTo id = s.sentTo id := by
      rw [← hs]
      dsimp only
      split_ifs <;> rfl
    have hrev : s.feed.disp.latestRev ≤ s'.feed.disp.latestRev := by
      rw [← hs]
      dsimp only
      split_ifs <;> exact le_rfl
    have hconns : s'.conns = Function.update s.conns c
        { s.conns c with pc := .canceling id', cancels := (s.conns c).cancels.erase id' } := by
      rw [← hs]
    have hnew : ∀ id, (ConnPc.canceling id').newID = some id ↔ (s.conns c).pc.newID = some id := by
      simp [hpc, ConnPc.newID]
    by_cases hid : id' = id
    · subst hid
      refine .cancel c _ ?_ ?_ (conn_within hconns hsent hwatch hrev
        ⟨fun h => ?_, fun _ => Or.inl rfl, hnew id'⟩
        fun c' hne => ⟨fun h => ⟨h, hne⟩, fun h => Or.inr h, Iff.rfl⟩)
      · intro h
        change (s.conns c).pc.newID = _ at h
        rw [hpc] at h
        cases h
      · intro h
        change (s.conns c).pc = _ at h
        rw [hpc] at h
        cases h
      · exact absurd rfl (Finset.ne_of_mem_erase h)
    · refine conn_quiet _ hconns hsent hwatch hrev
        ⟨Finset.mem_of_mem_erase, fun h => ?_, hnew id⟩
      cases h
      exact absurd rfl hid
  · cases hs

theorem reply_talk (hid : id ≠ invalidWatchID) {c : ℕ} {ok : Bool}
    (hs : s.step (.reply c ok) = some s') :
    Talk.Step id (s.talk id) (.reply c ok) (s'.talk id) := by
  rw [Sys.step, Sys.connStep] at hs
  split at hs
  · rename_i id' hpc
    rw [Option.some.injEq, send_eq] at hs
    subst hs
    have hsent := sendOut_sentTo s c ok ⟨headerAt 0, id', false, true, "", []⟩ id
    by_cases hid' : id' = id
    · subst hid'
      rw [if_pos rfl] at hsent
      exact .reply c ok _ hpc (conn_within rfl hsent rfl le_rfl
        ⟨fun h => h, fun h => (by cases h), by simp [Sys.talk, hpc, ConnPc.newID]⟩
        fun c' hne => ⟨fun h => h, fun h => ⟨h, hne⟩, Iff.rfl⟩)
    · rw [if_neg hid', List.append_nil] at hsent
      exact conn_quiet _ rfl hsent rfl le_rfl
        ⟨fun h => h, fun h => (by cases h), by simp [hpc, ConnPc.newID]⟩
  · rename_i rev hpc
    rw [Option.some.injEq, send_eq] at hs
    subst hs
    have hsent := sendOut_sentTo s c ok ⟨headerAt rev, invalidWatchID, false, false, "", []⟩ id
    rw [if_neg hid.symm, List.append_nil] at hsent
    exact conn_quiet _ rfl hsent rfl le_rfl
      ⟨fun h => h, fun h => (by cases h), by simp [hpc, ConnPc.newID]⟩
  · cases hs

theorem register_talk {id' : ℤ} (hs : s.step (.register id') = some s') :
    Talk.Step id (s.talk id) (.register id') (s'.talk id) := by
  obtain ⟨w, hw, hr⟩ := Option.bind_eq_some_iff.mp hs
  obtain ⟨_, hpc, rfl⟩ := register_eq hr
  by_cases hid : id' = id
  · subst hid
    refine .register w.conn (if w.startRevision ≤ s.feed.disp.latestRev then .seeking else .selecting)
      _ ?_ ?_ ⟨rfl, setWatch_talk _ _ _, subset_rfl, subset_rfl, rfl, le_rfl⟩
    · rw [Sys.talk, hw, ← hpc]
      rfl
    · split_ifs
      · exact Or.inl rfl
      · exact Or.inr rfl
  · exact .quiet _ _ ⟨rfl, setWatch_talk_of_ne _ hid _, subset_rfl, subset_rfl, rfl, le_rfl⟩

theorem finish_talk {id' : ℤ} (hs : s.step (.finish id') = some s') :
    Talk.Step id (s.talk id) (.finish id') (s'.talk id) := by
  obtain ⟨w, hw, hr⟩ := Option.bind_eq_some_iff.mp hs
  obtain ⟨_, hpc, rfl⟩ := finish_eq hr
  by_cases hid : id' = id
  · subst hid
    refine .finish w.conn _ ?_ (conn_within rfl rfl (setWatch_talk _ _ _) le_rfl
      ⟨fun h => ?_, fun h => h, Iff.rfl⟩ fun c' hne => ⟨fun h => ⟨h, hne⟩, fun h => h, Iff.rfl⟩)
    · rw [Sys.talk, hw, ← hpc]
      rfl
    · exact absurd rfl (Finset.ne_of_mem_erase h)
  · exact conn_quiet _ rfl rfl (setWatch_talk_of_ne _ hid _) le_rfl
      ⟨Finset.mem_of_mem_erase, fun h => h, Iff.rfl⟩

theorem watch_talk (h : Wired s) {id' : ℤ} {a : WatchAct} (hs : s.step (.watch id' a) = some s') :
    Talk.Step id (s.talk id) (.watch id' a) (s'.talk id) := by
  obtain ⟨w, hw, hr⟩ := Option.bind_eq_some_iff.mp hs
  obtain ⟨⟨pc, ch, out⟩, hstep, rfl⟩ := Option.map_eq_some_iff.mp hr
  have hout : ∀ r ∈ out, r.watchId = id' := by
    intro r hr
    rcases (Watch.step_move hstep).out_cases with rfl | ⟨resp, next, hp, rfl⟩
    · cases hr
    · rw [List.mem_singleton.mp hr]
      exact h.sending id' w resp next hw hp
  have hsent := sentTo_append s id w.conn out
  by_cases hid : id' = id
  · subst hid
    rw [List.filter_eq_self.mpr fun r hr => by simpa using hout r hr] at hsent
    refine .own w (s.shared w) (s.feed.disp.sub w.sub) a pc ch out _ ?_ rfl hstep
      ⟨hsent, setWatch_talk _ _ _, subset_rfl, subset_rfl, rfl, le_rfl⟩
    rw [Sys.talk, hw]
    rfl
  · rw [List.filter_eq_nil_iff.mpr fun r hr => by simpa [hout r hr] using hid,
      List.append_nil] at hsent
    exact .quiet _ _
      ⟨hsent, setWatch_talk_of_ne _ hid _, subset_rfl, subset_rfl, rfl, le_rfl⟩

/-- **Every step of the system is a step of every talk**, but for the ID under which streams answer
progress requests. -/
theorem step_talk (h : Wired s) (hid : id ≠ invalidWatchID) {act : Act}
    (hs : s.step act = some s') : Talk.Step id (s.talk id) act (s'.talk id) := by
  have hrev := (step_change hs).latestRev_le
  -- a step of the feed changes the revision only
  have hfeed : ∀ {o : Option Feed}, (o.map fun f => { s with feed := f }) = some s' →
      Talk.Step id (s.talk id) act (s'.talk id) := by
    intro o ho
    obtain ⟨f, _, rfl⟩ := Option.map_eq_some_iff.mp ho
    exact .quiet _ _ ⟨rfl, rfl, subset_rfl, subset_rfl, rfl, hrev⟩
  cases act with
  | commit ev => exact hfeed hs
  | lose ev => exact hfeed hs
  | ingest ev => exact hfeed hs
  | dispatch id => exact hfeed hs
  | register id => exact register_talk hs
  | finish id => exact finish_talk hs
  | watch id a => exact watch_talk h hs
  | create c cr => exact create_talk h hs
  | confirm c ok => exact confirm_talk h hs
  | cancel c id => exact cancel_talk hs
  | reply c ok => exact reply_talk hid hs
  | revision c ok =>
    rw [Sys.step, Sys.connStep] at hs
    split at hs
    · rename_i id' cr hpc
      cases hs
      exact conn_quiet _ rfl rfl rfl le_rfl
        ⟨fun h => h, fun h => (by cases h), by simp [hpc, ConnPc.newID]⟩
    · cases hs
  | progress c =>
    rw [Sys.step, Sys.connStep] at hs
    split at hs
    · rename_i hpc
      cases hs
      exact conn_quiet _ rfl rfl rfl le_rfl
        ⟨fun h => h, fun h => (by cases h), by simp [hpc, ConnPc.newID]⟩
    · cases hs
  | hangUp c =>
    cases hs
    exact conn_quiet _ rfl rfl rfl le_rfl ⟨fun h => h, fun h => h, Iff.rfl⟩
  | close c =>
    rw [Sys.step, Sys.connStep] at hs
    split at hs
    · rename_i hpc
      cases hs
      exact conn_quiet _ rfl rfl (callCancels_talk s _ id) le_rfl
        ⟨fun h => h, fun h => (by cases h), by simp [hpc, ConnPc.newID]⟩
    · cases hs

end Steps

/-! ### The steps of a watch -/

section Watch

variable {sh : Shared} {id : ℤ} {w : Watch} {sub : WatchSub} {a : WatchAct} {pc : Pc}
  {ch : List Event} {out : List WatchResponse}

theorem Watch.step_sent (h : w.step sh id sub a = some (pc, ch, out)) :
    out = [] ∨ a = .send true ∧ ∃ r next, w.pc = .sending r next ∧ pc = next.pc ∧ out = [r] := by
  rcases (Watch.step_move h).out_cases with rfl | ⟨r, next, hpc, rfl⟩
  · exact Or.inl rfl
  · unfold Watch.step at h
    rw [hpc] at h
    cases a with
    | send ok =>
      cases ok with
      | false => cases h
      | true =>
        cases h
        exact Or.inr ⟨rfl, r, next, hpc, rfl, rfl⟩
    | _ => cases h

theorem Watch.step_stamped (h : w.step sh id sub a = some (pc, ch, out)) {r : WatchResponse}
    {next : Next} (hpc : pc = .sending r next) :
    a = .go ∧ ∃ matched canceled, w.pc = .stamping matched canceled next ∧
      r = watchResponse id sh.latestRev canceled matched := by
  obtain ⟨matched, canceled, hst, hr⟩ := (Watch.step_move h).stamped hpc
  refine ⟨?_, matched, canceled, hst, hr⟩
  unfold Watch.step at h
  rw [hst] at h
  cases a with
  | go => rfl
  | _ => cases h

theorem Watch.step_stop (h : w.step sh id sub a = some (pc, ch, out)) {matched : List ProtoEvent}
    {next : Next} (hpc : pc = .stamping matched true next) : next = .stop := by
  cases Watch.step_move h with
  | read lastID consecErr n _ _ hne =>
    rcases w.caught_cases (xread sh.stream lastID n).1
      (xread sh.stream lastID n).2 with ⟨_, hc⟩ | ⟨_, _, hc⟩ | ⟨_, _, hc⟩
    · simp [hc] at hpc
    · rw [hc] at hpc
      unfold Next.pc at hpc
      split at hpc <;> cases hpc
    · simp [hc] at hpc
  | collected matched _ =>
    rcases collected_cases matched with ⟨_, hc⟩ | ⟨_, hc⟩ <;> simp [hc] at hpc
  | sent r next' _ =>
    unfold Next.pc at hpc
    split at hpc <;> cases hpc
  | outage lastID consecErr _ _ =>
    cases hpc
    rfl
  | cut _ _ =>
    cases hpc
    rfl
  | _ => simp at hpc

theorem Watch.step_running (h : w.step sh id sub a = some (pc, ch, out)) :
    w.pc ≠ .returning ∧ w.pc ≠ .gone := by
  cases Watch.step_move h <;> simp_all

end Watch

/-! ### Runs -/

/-- **Invariants of the talk with one ID**: what holds before anything is sent and is kept by the
steps of the talk that the guard lets through holds all along. -/
theorem talk_inv {g : Sys → Act → Prop} [∀ s a, Decidable (g s a)] {ok : Sys → Prop}
    {l : List Event} {current raw : Except GoError ℤ} {id : ℤ} (hid : id ≠ invalidWatchID)
    {I : Talk → Prop} (h₀ : I ⟨[], none, ∅, ∅, ∅, (Sys.primed l current raw).feed.disp.latestRev⟩)
    (hstep : ∀ s act t', g s act → I (s.talk id) → Talk.Step id (s.talk id) act t' → I t') {s : Sys}
    (hs : Reach (guarded g Sys.step) ok (.primed l current raw) s) : I (s.talk id) := by
  have hstart : (Sys.primed l current raw).talk id =
      ⟨[], none, ∅, ∅, ∅, (Sys.primed l current raw).feed.disp.latestRev⟩ := by
    simp [Sys.talk, Sys.primed, Sys.sentTo, ConnPc.newID]
  refine (hs.inv (I := fun s => Wired s ∧ I (s.talk id)) ⟨wired_primed l current raw, hstart ▸ h₀⟩
    ?_).2
  rintro s act s' ⟨hwired, hI⟩ hgs _
  obtain ⟨hg, hs⟩ := guarded_eq_some hgs
  exact ⟨hwired.change (step_change hs), hstep s act _ hg hI (step_talk hwired hid hs)⟩

end REtcd.Server
