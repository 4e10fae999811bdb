import REtcd.Server.CatchUp
import REtcd.Server.View

/-!
# What a watch has sent

`Tail N v n c d` says how far a registered watch has come: it has read the stream up to revision
`n`, the dispatcher has put the released events up to `d` into its channel, and it has taken those
up to `c` out of it.  What it has sent and what it has in hand are then the wanted events of the
stream up to the boundary and up to `n`, followed by the wanted released events above the boundary
up to `c` (`Tail.sent`).

Every step of the watch's view keeps this for some `n`, `c` and `d` (`Tail.step`), so it holds all
along (`tail_reach`).
-/

namespace REtcd.Server

open Base Store

/-! ### Where a watch stands -/

def eventsOf (sent : List WatchResponse) : List ProtoEvent := sent.flatMap WatchResponse.events

theorem eventsOf_append (sent out : List WatchResponse) :
    eventsOf (sent ++ out) = eventsOf sent ++ eventsOf out := List.flatMap_append

theorem eventsOf_eq_nil {sent : List WatchResponse} (h : ∀ r ∈ sent, r.events = []) :
    eventsOf sent = [] := List.flatMap_eq_nil_iff.mpr h

/-- The events that a watch has taken and not sent yet. -/
def Pc.hand : Pc → List ProtoEvent
  | collecting matched => matched
  | stamping matched _ _ => matched
  | sending resp _ => resp.events
  | _ => []

inductive Stage where
  | spawned
  | seeking
  | catching (lastID : StreamID)
  | live
  | ended
  deriving DecidableEq

def Next.stage : Next → Stage
  | catchUp lastID => .catching lastID
  | live => .live
  | stop => .ended

def Pc.stage : Pc → Stage
  | spawned => .spawned
  | seeking => .seeking
  | reading lastID _ => .catching lastID
  | selecting => .live
  | collecting _ => .live
  | stamping _ _ next => next.stage
  | sending _ next => next.stage
  | returning => .ended
  | gone => .ended

@[simp] theorem Next.stage_pc (next : Next) : next.pc.stage = next.stage := by
  cases next <;> rfl

@[simp] theorem Next.hand_pc (next : Next) : next.pc.hand = [] := by
  cases next <;> rfl

/-! ### The invariant -/

namespace View

/-- The wanted events of the stream up to the boundary and up to `n`. -/
def caughtUp (v : View) (n : ℤ) : List Event :=
  v.stream.filter fun e => (v.w.wants e && decide (e.rev ≤ v.w.boundary)) && decide (e.rev ≤ n)

/-- The wanted released events above the boundary up to `c`. -/
def taken (v : View) (c : ℤ) : List Event :=
  v.released.filter fun e => (v.w.wants e && decide (v.w.boundary < e.rev)) && decide (e.rev ≤ c)

/-- The released events of the range after `c` up to `d`. -/
def queued (v : View) (c d : ℤ) : List Event :=
  v.released.filter fun e =>
    (matchesWatch e.key v.w.key v.w.rangeEnd && decide (e.rev ≤ d)) && decide (c < e.rev)

end View

/-- What holds in a part of its course: until a watch is live, it sends nothing from its channel,
and when it is, it has read the stream up to the boundary. -/
def StageInv (v : View) (n c : ℤ) : Stage → Prop
  | .spawned => False
  | .seeking => n = 0 ∧ c ≤ v.w.boundary ∧ v.w.startRevision ≤ v.w.boundary
  | .catching lastID => Marks v.stream lastID n ∧ c ≤ v.w.boundary ∧ n ≤ v.w.boundary
  | .live => v.w.boundary ≤ n
  | .ended => True

/-- **How far a watch has come.** -/
structure Tail (N : ℤ) (v : View) (n c d : ℤ) : Prop where
  sent : ∃ rest, eventsOf v.sent ++ v.w.pc.hand ++ rest =
    (v.caughtUp n ++ v.taken c).map eventToProto ∧ (v.w.pc.stage ≠ .ended → rest = [])
  chan : v.sub.ch = v.queued c d
  range : v.sub.key = v.w.key ∧ v.sub.rangeEnd = v.w.rangeEnd
  mark : d = N ∨ ∃ e ∈ v.released, e.rev = d
  le : c ≤ d
  fed : v.listed = true → ∀ e ∈ v.released, e.rev ≤ d ∨ v.owed = some e
  owed : ∀ ev, v.owed = some ev → v.listed = true ∧ d < ev.rev
  pos : 1 ≤ v.w.boundary
  boundary : N ≤ v.w.boundary ∧ v.w.boundary ≤ v.latestRev
  read : n ≤ v.stream.length ∨ v.w.boundary < v.w.startRevision
  order : c ≤ v.w.boundary ∨ v.w.boundary ≤ n
  stage : StageInv v n c v.w.pc.stage
  unlisted : v.listed = false → v.sub.cancelled = true ∨ v.w.pc = .gone

section Steps

variable {N n c d : ℤ} {v : View}

theorem Tail.mem_of_sent (h : Tail N v n c d) {p : ProtoEvent} (hp : p ∈ eventsOf v.sent) :
    p ∈ (v.caughtUp n ++ v.taken c).map eventToProto := by
  obtain ⟨rest, heq, _⟩ := h.sent
  rw [← heq]
  exact List.mem_append_left _ (List.mem_append_left _ hp)

theorem Tail.sent_eq (h : Tail N v n c d) (hhand : v.w.pc.hand = [])
    (hrun : v.w.pc.stage ≠ .ended) :
    eventsOf v.sent = (v.caughtUp n ++ v.taken c).map eventToProto := by
  obtain ⟨rest, heq, hover⟩ := h.sent
  rw [hhand, hover hrun, List.append_nil, List.append_nil] at heq
  exact heq

theorem taken_eq_nil (h : c ≤ v.w.boundary) : v.taken c = [] := by
  rw [View.taken, List.filter_eq_nil_iff]
  intro e _
  simp only [Bool.and_eq_true, decide_eq_true_eq, not_and]
  intro hb
  omega

/-! ### Steps of the others -/

theorem Tail.commit (h : Tail N v n c d) {ev : Event} (ha : Feed.Appends v.stream ev) :
    Tail N { v with stream := v.stream ++ [ev] } n c d := by
  have hsame : View.caughtUp { v with stream := v.stream ++ [ev] } n = v.caughtUp n := by
    rw [View.caughtUp, View.caughtUp, List.filter_append, List.filter_cons_of_neg, List.filter_nil,
      List.append_nil]
    have hrev := ha.1
    simp only [Watch.wants, Bool.and_eq_true, decide_eq_true_eq, not_and]
    intro hw hb
    rcases h.read with hr | hr <;> omega
  refine ⟨?_, h.chan, h.range, h.mark, h.le, h.fed, h.owed, h.pos, h.boundary, ?_, h.order, ?_,
    h.unlisted⟩
  · rw [hsame]
    exact h.sent
  · refine h.read.imp_left fun hr => ?_
    rw [List.length_append]
    push_cast
    omega
  · have hst := h.stage
    dsimp only
    cases hs : v.w.pc.stage with
    | catching lastID =>
      rw [hs] at hst
      exact ⟨hst.1.commit ev, hst.2⟩
    | _ =>
      rw [hs] at hst
      exact hst

theorem Tail.lt_release (h : Tail N v n c d) {ev : Event}
    (hasc : Ascending Event.rev (v.released ++ [ev])) (hN : N < ev.rev) : d < ev.rev := by
  rcases h.mark with rfl | ⟨e, he, rfl⟩
  · exact hN
  · exact (ascending_concat.mp hasc).2 e he

theorem Tail.release (h : Tail N v n c d) {ev : Event} (cks : List Checkpoint)
    (howed : v.owed = none) (hasc : Ascending Event.rev (v.released ++ [ev])) (hN : N < ev.rev) :
    Tail N { v with
      released := v.released ++ [ev]
      latestRev := if v.latestRev < ev.rev then ev.rev else v.latestRev
      checkpoints := cks
      owed := if v.listed then some ev else none } n c d := by
  have hlt := h.lt_release hasc hN
  have hc := h.le
  refine ⟨?_, ?_, h.range, ?_, h.le, ?_, ?_, h.pos, ?_, h.read, h.order, ?_, h.unlisted⟩
  · have hsame : View.taken { v with
        released := v.released ++ [ev]
        latestRev := if v.latestRev < ev.rev then ev.rev else v.latestRev
        checkpoints := cks
        owed := if v.listed then some ev else none } c = v.taken c := by
      rw [View.taken, View.taken, List.filter_append, List.filter_cons_of_neg, List.filter_nil,
        List.append_nil]
      simp only [Bool.and_eq_true, decide_eq_true_eq, not_and]
      omega
    rw [hsame]
    exact h.sent
  · rw [h.chan, View.queued, View.queued, List.filter_append, List.filter_cons_of_neg,
      List.filter_nil, List.append_nil]
    simp only [Bool.and_eq_true, decide_eq_true_eq, not_and]
    omega
  · exact h.mark.imp_right fun ⟨e, he, hr⟩ => ⟨e, List.mem_append_left _ he, hr⟩
  · intro hl e he
    dsimp only at hl ⊢
    rcases List.mem_append.mp he with he | he
    · refine Or.inl ((h.fed hl e he).resolve_right fun ho => ?_)
      rw [howed] at ho
      cases ho
    · rw [if_pos hl, List.mem_singleton.mp he]
      exact Or.inr rfl
  · intro e he
    dsimp only at he ⊢
    split_ifs at he with hl
    cases he
    exact ⟨hl, hlt⟩
  · have := h.boundary
    dsimp only
    split_ifs <;> omega
  · exact h.stage

theorem Tail.pass (h : Tail N v n c d) {ev : Event} (howed : v.owed = some ev)
    (hmem : ev ∈ v.released) (hlast : ∀ e ∈ v.released, e.rev ≤ ev.rev)
    (hm : matchesWatch ev.key v.w.key v.w.rangeEnd = false) :
    Tail N { v with owed := none } n c ev.rev := by
  obtain ⟨hl, hlt⟩ := h.owed ev howed
  refine ⟨h.sent, ?_, h.range, Or.inr ⟨ev, hmem, rfl⟩, h.le.trans hlt.le,
    fun _ e he => Or.inl (hlast e he), fun _ he => (nomatch he), h.pos, h.boundary, h.read, h.order,
    h.stage, h.unlisted⟩
  change v.sub.ch = v.queued c ev.rev
  rw [h.chan, View.queued, View.queued]
  refine List.filter_congr fun e he => ?_
  rcases h.fed hl e he with hd | ho
  · simp [hd, hlast e he]
  · rw [howed, Option.some.injEq] at ho
    subst ho
    simp [hm]

theorem Tail.deliver (h : Tail N v n c d) {ev : Event} (howed : v.owed = some ev)
    (hasc : Ascending Event.rev v.released) (hmem : ev ∈ v.released)
    (hlast : ∀ e ∈ v.released, e.rev ≤ ev.rev)
    (hm : matchesWatch ev.key v.w.key v.w.rangeEnd = true) :
    Tail N { v with owed := none, sub := { v.sub with ch := v.sub.ch ++ [ev] } } n c ev.rev := by
  obtain ⟨hl, hlt⟩ := h.owed ev howed
  refine ⟨h.sent, ?_, h.range, Or.inr ⟨ev, hmem, rfl⟩, h.le.trans hlt.le,
    fun _ e he => Or.inl (hlast e he), fun _ he => (nomatch he), h.pos, h.boundary, h.read, h.order,
    h.stage, h.unlisted⟩
  have hc := h.le
  change v.sub.ch ++ [ev] = v.queued c ev.rev
  have hswap : ∀ x, v.queued c x = v.released.filter fun e =>
      (matchesWatch e.key v.w.key v.w.rangeEnd && decide (c < e.rev)) && decide (e.rev ≤ x) := by
    intro x
    exact List.filter_congr fun e _ => by
      rw [Bool.and_assoc, Bool.and_assoc, Bool.and_comm (decide (e.rev ≤ x))]
  rw [h.chan, hswap, hswap]
  refine (hasc.filter_le_concat hmem ?_ hlt ?_).symm
  · simp only [hm, Bool.true_and, decide_eq_true_eq]
    omega
  · intro e he _ hde
    rcases h.fed hl e he with hd | ho
    · omega
    · rw [howed, Option.some.injEq] at ho
      rw [ho]

theorem Tail.cut (h : Tail N v n c d) :
    Tail N { v with owed := none, listed := false, sub := { v.sub with cancelled := true } } n c d :=
  ⟨h.sent, h.chan, h.range, h.mark, h.le, fun hl => (nomatch hl), fun _ he => (nomatch he),
    h.pos, h.boundary, h.read, h.order, h.stage, fun _ => Or.inl rfl⟩

theorem Tail.reply (h : Tail N v n c d) {out : List WatchResponse} (cancelled : Bool)
    (hout : ∀ r ∈ out, r.events = []) :
    Tail N { v with w := { v.w with cancelled := cancelled }, sent := v.sent ++ out } n c d := by
  refine ⟨?_, h.chan, h.range, h.mark, h.le, h.fed, h.owed, h.pos, h.boundary, h.read, h.order, ?_,
    h.unlisted⟩
  · dsimp only
    rw [eventsOf_append, eventsOf_eq_nil hout, List.append_nil]
    exact h.sent
  · have hst := h.stage
    dsimp only
    cases hs : v.w.pc.stage with
    | _ =>
      rw [hs] at hst
      exact hst

/-! ### The watch's own steps -/

/-- A step that neither reads nor takes an event: what was in hand is sent or kept. -/
theorem Tail.goto (h : Tail N v n c d) {pc : Pc} (out : List WatchResponse)
    (hhand : v.w.pc.hand = eventsOf out ++ pc.hand) (hgone : v.w.pc ≠ .gone)
    (hstage : pc.stage = v.w.pc.stage) :
    Tail N { v with w := { v.w with pc := pc }, sent := v.sent ++ out } n c d := by
  refine ⟨?_, h.chan, h.range, h.mark, h.le, h.fed, h.owed, h.pos, h.boundary, h.read, h.order, ?_, ?_⟩
  · obtain ⟨rest, heq, hover⟩ := h.sent
    refine ⟨rest, ?_, fun hs => hover (hstage ▸ hs)⟩
    rw [hhand, ← List.append_assoc, ← eventsOf_append] at heq
    exact heq
  · have hst := h.stage
    dsimp only
    rw [hstage]
    cases hs : v.w.pc.stage with
    | _ =>
      rw [hs] at hst
      exact hst
  · exact fun hl => Or.inl ((h.unlisted hl).resolve_right hgone)

/-- A step with which the watch ends: what was in hand is dropped. -/
theorem Tail.stop (h : Tail N v n c d) {pc : Pc} (hhand : pc.hand = []) (hstage : pc.stage = .ended)
    (hgone : v.w.pc ≠ .gone) : Tail N { v with w := { v.w with pc := pc } } n c d := by
  refine ⟨?_, h.chan, h.range, h.mark, h.le, h.fed, h.owed, h.pos, h.boundary, h.read, h.order, ?_, ?_⟩
  · obtain ⟨rest, heq, _⟩ := h.sent
    refine ⟨v.w.pc.hand ++ rest, ?_, fun hs => absurd hstage hs⟩
    dsimp only
    rw [hhand, List.append_nil, ← List.append_assoc]
    exact heq
  · dsimp only
    rw [hstage]
    trivial
  · exact fun hl => Or.inl ((h.unlisted hl).resolve_right hgone)

/-- The next event of the channel is the next one taken, if it is wanted; nothing wanted lies between
the last event taken and this one. -/
theorem View.taken_append (hasc : Ascending Event.rev v.released) {ev : Event}
    (hmem : ev ∈ v.released) (hm : matchesWatch ev.key v.w.key v.w.rangeEnd = true) (hlt : c < ev.rev)
    (hgap : ∀ e ∈ v.released, (v.w.wants e && decide (v.w.boundary < e.rev)) = true →
      c < e.rev → ev.rev ≤ e.rev) :
    v.taken ev.rev = v.taken c ++
      if ev.rev ≤ v.w.boundary ∨ ev.rev < v.w.startRevision then [] else [ev] := by
  split_ifs with hskip
  · rw [List.append_nil, View.taken, View.taken]
    refine List.filter_congr fun e he => ?_
    by_cases hw : (v.w.wants e && decide (v.w.boundary < e.rev)) = true
    · have hne : e ≠ ev := by
        rintro rfl
        simp only [Watch.wants, Bool.and_eq_true, decide_eq_true_eq] at hw
        omega
      have hiff : e.rev ≤ ev.rev ↔ e.rev ≤ c := by
        constructor
        · intro hle
          by_contra hce
          have hge := hgap e he hw (not_le.mp hce)
          exact hne (hasc.eq_of_eq he hmem (by omega))
        · omega
      simp [hiff]
    · simp [hw]
  · rw [not_or] at hskip
    refine hasc.filter_le_concat hmem ?_ hlt hgap
    simp [Watch.wants, hm, not_lt.mp hskip.2, not_le.mp hskip.1]

/-- An event is taken from the channel; it is added to what is in hand if it is wanted. -/
theorem Tail.take (h : Tail N v n c d) (hasc : Ascending Event.rev v.released)
    (hstage : v.w.pc.stage = .live) (hgone : v.w.pc ≠ .gone) {ev : Event} {ch : List Event}
    (hch : v.sub.ch = ev :: ch) :
    Tail N { v with
      w := { v.w with pc := .collecting (v.w.add v.w.pc.hand ev) }
      sub := { v.sub with ch := ch } } n ev.rev d := by
  have hq := h.chan
  rw [hch, View.queued] at hq
  obtain ⟨hmem, hp, hlt, hgap, hrest⟩ := hasc.filter_lt_cons hq.symm
  rw [Bool.and_eq_true, decide_eq_true_eq] at hp
  obtain ⟨hm, hd⟩ := hp
  have hst := h.stage
  rw [hstage] at hst
  have hgap' : ∀ e ∈ v.released, (v.w.wants e && decide (v.w.boundary < e.rev)) = true →
      c < e.rev → ev.rev ≤ e.rev := by
    intro e he hw hce
    by_cases hed : e.rev ≤ d
    · refine hgap e he ?_ hce
      simp only [Watch.wants, Bool.and_eq_true] at hw
      simp [hw.1.2, hed]
    · omega
  have hnext := View.taken_append hasc hmem hm hlt hgap'
  refine ⟨?_, hrest, h.range, h.mark, hd, h.fed, h.owed, h.pos, h.boundary, h.read, Or.inr hst, hst, ?_⟩
  · obtain ⟨rest, heq, hover⟩ := h.sent
    have hnil := hover (by simp [hstage])
    rw [hnil, List.append_nil] at heq
    refine ⟨[], ?_, fun _ => rfl⟩
    change eventsOf v.sent ++ v.w.add v.w.pc.hand ev ++ [] = (v.caughtUp n ++ v.taken ev.rev).map _
    rw [hnext, ← List.append_assoc, List.map_append, ← heq, List.append_nil, List.append_assoc,
      Watch.add]
    split_ifs
    · rw [List.map_nil, List.append_nil]
    · rfl
  · exact fun hl => Or.inl ((h.unlisted hl).resolve_right hgone)

/-- The watch finds out where to start reading; nothing it wants lies before. -/
theorem Tail.seek (h : Tail N v n c d) (hfed : v.Fed N) (hpc : v.w.pc = .seeking) :
    ∃ n', Tail N { v with w := { v.w with
      pc := .reading (Dispatcher.seekStreamID v.checkpoints v.w.startRevision) 0 } } n' c d := by
  obtain ⟨n', hm, hlow⟩ := seek_marks hfed.checkpoint hfed.checkpoints v.w.startRevision
  have hst := h.stage
  rw [hpc] at hst
  obtain ⟨rfl, hc, hstart⟩ := hst
  -- below its start and at revision 0 there is nothing to send
  have hnone : ∀ m, m = 0 ∨ m < v.w.startRevision → v.caughtUp m = [] := by
    intro m hm
    rw [View.caughtUp, List.filter_eq_nil_iff]
    intro e he
    have := (hfed.logged.revs e he).1
    simp only [Watch.wants, Bool.and_eq_true, decide_eq_true_eq, not_and]
    omega
  refine ⟨n', ?_, h.chan, h.range, h.mark, h.le, h.fed, h.owed, h.pos, h.boundary,
    Or.inl (hm.bounds hfed.logged).2, Or.inl hc, ⟨hm, hc, ?_⟩, ?_⟩
  · have hsent := h.sent
    rw [hnone 0 (Or.inl rfl), hpc] at hsent
    change ∃ rest, _ = (v.caughtUp n' ++ v.taken c).map eventToProto ∧ _
    rw [hnone n' hlow]
    obtain ⟨rest, heq, hover⟩ := hsent
    exact ⟨rest, heq, fun _ => hover (by simp [Pc.stage])⟩
  · have hpos := h.pos
    dsimp only
    omega
  · exact fun hl => Or.inl ((h.unlisted hl).resolve_right (by simp [hpc]))

theorem View.caughtUp_append (hasc : Ascending Event.rev v.stream) {n' : ℤ} (hle : n ≤ n') :
    v.caughtUp n' = v.caughtUp n ++
      (v.stream.filter fun e => decide (n < e.rev) && decide (e.rev ≤ n')).filter fun e =>
        v.w.wants e && decide (e.rev ≤ v.w.boundary) := by
  have hsplit := hasc.filter_append
    (fun e => (v.w.wants e && decide (e.rev ≤ v.w.boundary)) && decide (e.rev ≤ n')) n
  rw [View.caughtUp, ← hsplit, View.caughtUp]
  congr 1
  · refine List.filter_congr fun e _ => ?_
    by_cases hen : e.rev ≤ n
    · simp [hen, hen.trans hle]
    · simp [hen]
  · rw [List.filter_filter]
    refine List.filter_congr fun e _ => ?_
    cases v.w.wants e <;> cases decide (e.rev ≤ v.w.boundary) <;> cases decide (e.rev ≤ n') <;>
      cases decide (n < e.rev) <;> rfl

/-- A reading watch goes on to a place up to which it has read, with the wanted events it has read
since in hand: it is live there, or has more to read. -/
theorem Tail.advance (h : Tail N v n c d) (hfed : v.Fed N) {lastID newLastID : StreamID}
    {consecErr : ℕ} (hpc : v.w.pc = .reading lastID consecErr) {n' : ℤ} {events : List Event}
    (hm : Marks v.stream newLastID n')
    (hcaught : v.caughtUp n' = v.caughtUp n ++ events) {pc : Pc}
    (hhand : pc.hand = events.map eventToProto)
    (hplace : pc.stage = .live ∧ v.w.boundary ≤ n' ∨
      pc.stage = .catching newLastID ∧ n' ≤ v.w.boundary) :
    Tail N { v with w := { v.w with pc := pc } } n' c d := by
  have hst := h.stage
  rw [hpc] at hst
  have hc : c ≤ v.w.boundary := hst.2.1
  have hgone : v.w.pc ≠ .gone := by rw [hpc]; exact fun h => nomatch h
  obtain ⟨rest, heq, hover⟩ := h.sent
  rw [hover (by rw [hpc]; exact fun h => nomatch h), hpc] at heq
  have hstage : StageInv v n' c pc.stage := by
    rcases hplace with ⟨hp, hb⟩ | ⟨hp, hb⟩ <;> rw [hp]
    · exact hb
    · exact ⟨hm, hc, hb⟩
  refine ⟨⟨[], ?_, fun _ => rfl⟩, h.chan, h.range, h.mark, h.le, h.fed, h.owed, h.pos, h.boundary,
    Or.inl (hm.bounds hfed.logged).2, Or.inl hc, ?_,
    fun hl => Or.inl ((h.unlisted hl).resolve_right hgone)⟩
  · change eventsOf v.sent ++ pc.hand ++ [] = (v.caughtUp n' ++ v.taken c).map eventToProto
    rw [hcaught, hhand, taken_eq_nil hc, List.append_nil, List.append_nil, List.map_append]
    simp only [taken_eq_nil hc, Pc.hand, List.append_nil] at heq
    rw [heq]
  · dsimp only
    cases hs : pc.stage with
    | _ =>
      rw [hs] at hstage
      exact hstage

/-- A read brings the next batch; the watch has in hand what it wants of it, and is live once it has
met an event above the boundary. -/
theorem Tail.batch (h : Tail N v n c d) (hfed : v.Fed N) {lastID : StreamID} {consecErr k : ℕ}
    (hpc : v.w.pc = .reading lastID consecErr) (hne : (xread v.stream lastID k).1 ≠ []) :
    ∃ n', Tail N { v with w := { v.w with
      pc := v.w.caught (xread v.stream lastID k).1 (xread v.stream lastID k).2 } } n' c d := by
  have hst := h.stage
  rw [hpc] at hst
  have hm : Marks v.stream lastID n := hst.1
  obtain ⟨events, newLastID, hread⟩ :
      ∃ events newLastID, xread v.stream lastID k = (events, newLastID) := ⟨_, _, rfl⟩
  rw [hread] at hne ⊢
  obtain ⟨last, hlast, hle, hm', hevents⟩ := read_spec hfed.logged hm hread hne
  have hasc : Ascending Event.rev events := by
    rw [hevents]
    exact hfed.logged.ascending.filter _
  obtain ⟨hscan, hreach⟩ := scan_spec v.w hasc
  have hcaught : v.caughtUp last.rev = v.caughtUp n ++
      events.filter fun e => v.w.wants e && decide (e.rev ≤ v.w.boundary) := by
    rw [hevents]
    exact View.caughtUp_append hfed.logged.ascending hle
  -- it is enough to know what is in hand then and where the watch stands
  have hdone : ∀ pc : Pc, pc.hand = (v.w.scan events).1 →
      (pc.stage = .live ∧ v.w.boundary ≤ last.rev ∨
        pc.stage = .catching newLastID ∧ last.rev ≤ v.w.boundary) →
      Tail N { v with w := { v.w with pc := pc } } last.rev c d :=
    fun pc hhand => h.advance hfed hpc hm' hcaught (hhand.trans hscan)
  have hnext : (v.w.afterBatch events newLastID).stage = .live ∧ v.w.boundary ≤ last.rev ∨
      (v.w.afterBatch events newLastID).stage = .catching newLastID ∧
        last.rev ≤ v.w.boundary := by
    rw [Watch.afterBatch]
    split_ifs with hb
    · obtain ⟨e, he, hlt⟩ := hreach.mp hb
      rw [hevents, List.mem_filter, Bool.and_eq_true, decide_eq_true_eq, decide_eq_true_eq] at he
      exact Or.inl ⟨rfl, by omega⟩
    · exact Or.inr ⟨rfl, not_lt.mp fun hlt => hb (hreach.mpr ⟨last, hlast, hlt⟩)⟩
  refine ⟨last.rev, ?_⟩
  rcases v.w.caught_cases events newLastID with ⟨hnil, _⟩ | ⟨_, hmat, hpc'⟩ | ⟨_, _, hpc'⟩
  · exact absurd hnil hne
  · rw [hpc']
    exact hdone _ (by rw [Next.hand_pc, hmat]) (by rw [Next.stage_pc]; exact hnext)
  · rw [hpc']
    exact hdone _ rfl hnext

theorem Tail.append_nil (h : Tail N v n c d) : Tail N { v with sent := v.sent ++ [] } n c d := by
  rw [List.append_nil]
  exact h

/-- **Every step of its own takes the watch on.** -/
theorem Tail.own (h : Tail N v n c d) (hfed : v.Fed N) {id : ℤ} {ctxDone : Bool} {pc : Pc}
    {ch : List Event} {out : List WatchResponse}
    (hm : v.w.Move ⟨v.stream, v.latestRev, v.checkpoints, ctxDone⟩ id v.sub pc ch out) :
    ∃ n' c', Tail N { v with
      w := { v.w with pc := pc }
      sub := { v.sub with ch := ch }
      sent := v.sent ++ out } n' c' d := by
  have hstop (hhand : pc.hand = []) (hstage : pc.stage = .ended) (hgone : v.w.pc ≠ .gone) :=
    (h.stop hhand hstage hgone).append_nil
  cases hm with
  | seek hpc =>
    obtain ⟨n', ht⟩ := h.seek hfed hpc
    exact ⟨n', c, ht.append_nil⟩
  | read lastID consecErr k hpc _ hne =>
    obtain ⟨n', ht⟩ := h.batch hfed hpc hne
    exact ⟨n', c, ht.append_nil⟩
  | recv ev ch hpc hch =>
    have ht := h.take hfed.ascending (by rw [hpc]; rfl) (by simp [hpc]) hch
    rw [hpc] at ht
    exact ⟨n, ev.rev, ht.append_nil⟩
  | more matched ev ch hpc hch =>
    have ht := h.take hfed.ascending (by rw [hpc]; rfl) (by simp [hpc]) hch
    rw [hpc] at ht
    exact ⟨n, ev.rev, ht.append_nil⟩
  | retry lastID consecErr hpc _ =>
    exact ⟨n, c, h.goto [] (by rw [hpc]; rfl) (by simp [hpc]) (by rw [hpc]; rfl)⟩
  | tick hpc => exact ⟨n, c, h.goto [] (by rw [hpc]; rfl) (by simp [hpc]) (by rw [hpc]; rfl)⟩
  | stamp matched canceled next hpc =>
    exact ⟨n, c, h.goto [] (by rw [hpc]; rfl) (by simp [hpc]) (by rw [hpc]; rfl)⟩
  | collected matched hpc =>
    rcases Watch.collected_cases matched with ⟨rfl, hc⟩ | ⟨_, hc⟩
    · rw [hc]
      exact ⟨n, c, h.goto [] (by rw [hpc]; rfl) (by simp [hpc]) (by rw [hpc]; rfl)⟩
    · rw [hc]
      exact ⟨n, c, h.goto [] (by rw [hpc]; rfl) (by simp [hpc]) (by rw [hpc]; rfl)⟩
  | sent resp next hpc =>
    have hstage : next.pc.stage = v.w.pc.stage := by
      rw [hpc, Next.stage_pc]
      rfl
    refine ⟨n, c, h.goto _ ?_ (by simp [hpc]) hstage⟩
    rw [hpc, Next.hand_pc]
    simp [Pc.hand, eventsOf]
  | outage _ _ hpc _ | quit _ _ hpc _ | done hpc _ | cut hpc _ | failed _ _ hpc =>
    exact ⟨n, c, hstop rfl rfl (by simp [hpc])⟩

theorem Tail.finish (h : Tail N v n c d) (hpc : v.w.pc = .returning) (howed : v.owed = none) :
    Tail N { v with w := { v.w with cancelled := true, pc := .gone }, listed := false } n c d := by
  refine ⟨?_, h.chan, h.range, h.mark, h.le, fun hl => (nomatch hl), fun ev he => ?_, h.pos, h.boundary,
    h.read, h.order, trivial, fun _ => Or.inr rfl⟩
  · have hsent := h.sent
    rw [hpc] at hsent
    exact hsent
  · dsimp only at he
    rw [howed] at he
    cases he

theorem View.Fed.last (hfed : v.Fed N) : ∃ d, (d = N ∨ ∃ e ∈ v.released, e.rev = d) ∧
    (∀ e ∈ v.released, e.rev ≤ d) ∧ d ≤ v.latestRev := by
  cases hlast : v.released.getLast? with
  | none =>
    rw [List.getLast?_eq_none_iff] at hlast
    rw [hlast]
    exact ⟨N, Or.inl rfl, fun e he => (nomatch he), hfed.base⟩
  | some e =>
    have hmem := List.mem_of_getLast? hlast
    refine ⟨e.rev, Or.inr ⟨e, hmem, rfl⟩, fun x hx => ?_, (hfed.released e hmem).2.2⟩
    obtain ⟨y, hy, hle⟩ := le_getLast hfed.ascending hx
    rw [hlast, Option.some.injEq] at hy
    exact hy ▸ hle

theorem Tail.register (hfed : v.Fed N) (hsent : eventsOf v.sent = []) (k : ℕ) :
    ∃ n c d, Tail N { v with
      w := { v.w with
        sub := k
        boundary := v.latestRev
        pc := if v.w.startRevision ≤ v.latestRev then .seeking else .selecting }
      sub := ⟨v.w.key, v.w.rangeEnd, [], false⟩
      listed := true
      owed := none } n c d := by
  obtain ⟨d, hmark, hall, hd⟩ := hfed.last
  -- there is nothing in the channel and nothing to take from it
  have hqueued : ∀ w : Watch, v.released.filter (fun e =>
      (matchesWatch e.key w.key w.rangeEnd && decide (e.rev ≤ d)) && decide (d < e.rev)) = [] := by
    intro w
    rw [List.filter_eq_nil_iff]
    intro e he
    have := hall e he
    simp only [Bool.and_eq_true, decide_eq_true_eq, not_and]
    omega
  by_cases hstart : v.w.startRevision ≤ v.latestRev
  · rw [if_pos hstart]
    refine ⟨0, d, d, ⟨⟨[], ?_, fun _ => rfl⟩, (hqueued _).symm, ⟨rfl, rfl⟩, hmark, le_rfl,
      fun _ e he => Or.inl (hall e he), fun _ he => (nomatch he), hfed.pos, ⟨hfed.base, le_rfl⟩,
      Or.inl (by dsimp only; omega), Or.inl hd, ⟨rfl, hd, hstart⟩, fun hl => (nomatch hl)⟩⟩
    rw [taken_eq_nil hd, View.caughtUp, List.filter_eq_nil_iff.mpr]
    · rw [hsent]
      rfl
    · intro e he
      have := (hfed.logged.revs e he).1
      simp only [Bool.and_eq_true, decide_eq_true_eq, not_and]
      omega
  · rw [if_neg hstart]
    refine ⟨v.latestRev, d, d, ⟨⟨[], ?_, fun _ => rfl⟩, (hqueued _).symm, ⟨rfl, rfl⟩, hmark, le_rfl,
      fun _ e he => Or.inl (hall e he), fun _ he => (nomatch he), hfed.pos, ⟨hfed.base, le_rfl⟩,
      Or.inr (not_le.mp hstart), Or.inl hd, le_rfl, fun hl => (nomatch hl)⟩⟩
    rw [taken_eq_nil hd, View.caughtUp, List.filter_eq_nil_iff.mpr]
    · rw [hsent]
      rfl
    · intro e he
      simp only [Watch.wants, Bool.and_eq_true, decide_eq_true_eq, not_and]
      omega

/-- **Every step of its view takes a watch on.** -/
theorem Tail.step (h : Tail N v n c d) {id : ℤ} {v' : View} (hfed : v.Fed N) (hfed' : v'.Fed N)
    (hpc : v.w.pc ≠ .spawned) (hs : View.Step id v v') :
    v'.w.pc ≠ .spawned ∧ ∃ n' c' d', Tail N v' n' c' d' := by
  cases hs with
  | idle => exact ⟨hpc, n, c, d, h⟩
  | commit ev ha => exact ⟨hpc, n, c, d, h.commit ha⟩
  | release ev cks howed =>
    exact ⟨hpc, n, c, d,
      h.release cks howed hfed'.ascending (hfed'.released ev (by simp)).2.1⟩
  | pass ev howed hm =>
    obtain ⟨hmem, hlast⟩ := hfed.owed ev howed
    exact ⟨hpc, n, c, ev.rev, h.pass howed hmem hlast (h.range.1 ▸ h.range.2 ▸ hm)⟩
  | deliver ev howed hm _ =>
    obtain ⟨hmem, hlast⟩ := hfed.owed ev howed
    exact ⟨hpc, n, c, ev.rev,
      h.deliver howed hfed.ascending hmem hlast (h.range.1 ▸ h.range.2 ▸ hm)⟩
  | cut ev _ _ _ => exact ⟨hpc, n, c, d, h.cut⟩
  | register k hsp => exact absurd hsp hpc
  | own ctxDone pc ch out hm =>
    obtain ⟨n', c', ht⟩ := h.own hfed hm
    exact ⟨hm.ne_spawned.2, n', c', d, ht⟩
  | finish hret howed => exact ⟨fun h => (nomatch h), n, c, d, h.finish hret howed⟩
  | reply out cancelled hout => exact ⟨hpc, n, c, d, h.reply cancelled hout⟩

theorem Tail.start {id : ℤ} {v' : View} (hfed : v.Fed N) (hpc : v.w.pc = .spawned)
    (hsent : eventsOf v.sent = []) (hs : View.Step id v v') :
    v'.w.pc = .spawned ∧ eventsOf v'.sent = [] ∨
      v'.w.pc ≠ .spawned ∧ v'.w.boundary = v.latestRev ∧ ∃ n c d, Tail N v' n c d := by
  cases hs with
  | register k _ =>
    refine Or.inr ⟨?_, rfl, Tail.register hfed hsent k⟩
    dsimp only
    split_ifs <;> exact fun h => nomatch h
  | own ctxDone pc ch out hm => exact absurd hpc hm.ne_spawned.1
  | finish hret _ =>
    rw [hpc] at hret
    cases hret
  | reply out cancelled hout =>
    refine Or.inl ⟨hpc, ?_⟩
    dsimp only
    rw [eventsOf_append, eventsOf_eq_nil hout, hsent]
    rfl
  | _ => exact Or.inl ⟨hpc, hsent⟩

end Steps

/-! ### Runs -/

/-- A watch has sent nothing before it registers, and has come to some point afterwards. -/
def TailInv (N : ℤ) (v : View) : Prop :=
  v.w.pc = .spawned ∧ eventsOf v.sent = [] ∨ v.w.pc ≠ .spawned ∧ ∃ n c d, Tail N v n c d

theorem TailInv.tail {N : ℤ} {v : View} (h : TailInv N v) (hpc : v.w.pc ≠ .spawned) :
    ∃ n c d, Tail N v n c d := by
  rcases h with ⟨hsp, _⟩ | ⟨_, h⟩
  · exact absurd hsp hpc
  · exact h

theorem TailInv.step {N : ℤ} {id : ℤ} {v v' : View} (hfed : v.Fed N) (hfed' : v'.Fed N)
    (h : TailInv N v) (hs : View.Step id v v') : TailInv N v' := by
  rcases h with ⟨hpc, hsent⟩ | ⟨hpc, n, c, d, ht⟩
  · rcases Tail.start hfed hpc hsent hs with h | ⟨hpc', _, n, c, d, ht⟩
    · exact Or.inl h
    · exact Or.inr ⟨hpc', n, c, d, ht⟩
  · obtain ⟨hpc', n', c', d', ht'⟩ := ht.step hfed hfed' hpc hs
    exact Or.inr ⟨hpc', n', c', d', ht'⟩

theorem tail_reach {ok : Sys → Prop} {l : List Event} (hl : Logged l) {s : Sys}
    (h : Reach Sys.step ok (.start l) s) {id : ℤ} {w : Watch} (hw : s.watches id = some w) :
    TailInv l.length (s.view id w) := by
  refine view_inv (P := fun _ v => TailInv l.length v) hl ?_ ?_ h id w hw
  · exact fun _ v _ hpc hsent => Or.inl ⟨hpc, eventsOf_eq_nil hsent⟩
  · exact fun _ v v' hfed hfed' hv hs => hv.step hfed hfed' hs

end REtcd.Server
