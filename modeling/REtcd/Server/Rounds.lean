import REtcd.Server.Checkpoint

/-!
# The rounds of catchUp

`catchUp` reads the stream round by round.  What the backend does in a round is a `Round`: the
stream as the read finds it before it times out, whether the read fails or how many entries it may
bring, and the revision for the header of a response.  `Watch.round` is one round of the loop, put
together from the steps of the watch (`round_steps`), and `Watch.after env lastID n` is where the
watch stands after `n` rounds from `lastID`, with what it has sent: it is back at the loop
(`reading`), `catchUp` has returned true (`selecting`) or false (`returning`).

`rest` is what is left to send.  A batch sends the first part of it and leaves the rest
(`read_rest`), a read that brings nothing leaves all of it.  But `catchUp` notices that nothing is
left only by an entry above the boundary: a read at the end of the stream waits, and counts as an
error when it times out.  So it returns true, with exactly the wanted events sent, if it meets such
an entry in time, and cancels the watch otherwise (`catchUp_exact_iff`), also when no read fails
(`idle_catchUp_canceled`).
-/

namespace REtcd.Server

open Base Store

/-! ### The code -/

/-- One round of `catchUp`, as the backend has it; `answer` is `none` if the read fails. -/
structure Round where
  stream : List Event
  latestRev : ℤ
  answer : Option ℕ

/-- What the read from `lastID` brings; `none` if it fails or times out. -/
def Round.brings (r : Round) (lastID : StreamID) : Option (List Event × StreamID) :=
  r.answer.bind (blockReadEvents r.stream lastID)

namespace Watch

def seek (w : Watch) (d : Dispatcher) : StreamID :=
  Dispatcher.seekStreamID d.checkpoints w.startRevision

def respond (id latestRev : ℤ) : Pc → Pc × List WatchResponse
  | .stamping matched canceled next =>
    (next.pc, [watchResponse id latestRev canceled matched])
  | pc => (pc, [])

/-- A round of the loop of `catchUp` up to its response. -/
def readRound (w : Watch) (r : Round) (lastID : StreamID) (consecErr : ℕ) : Pc :=
  match r.brings lastID with
  | none => readFailed lastID consecErr
  | some (events, newLastID) => w.caught events newLastID

def round (w : Watch) (id : ℤ) (r : Round) (lastID : StreamID) (consecErr : ℕ) :
    Pc × List WatchResponse :=
  respond id r.latestRev (w.readRound r lastID consecErr)

/-- Where `catchUp` stands after `n` rounds from `lastID`, and what it has sent. -/
def after (w : Watch) (id : ℤ) (env : ℕ → Round) (lastID : StreamID) : ℕ → Pc × List WatchResponse
  | 0 => (.reading lastID 0, [])
  | n + 1 =>
    match w.after id env lastID n with
    | (.reading lastID consecErr, sent) =>
      let (pc, out) := w.round id (env n) lastID consecErr
      (pc, sent ++ out)
    | done => done

def steps (sh : Shared) (id : ℤ) (sub : WatchSub) :
    List WatchAct → Watch → Option (Watch × List WatchResponse)
  | [], w => some (w, [])
  | a :: as, w =>
    match w.step sh id sub a with
    | none => none
    | some (pc, _, out) => (steps sh id sub as { w with pc := pc }).map fun x => (x.1, out ++ x.2)

theorem respond_steps (sh : Shared) (id : ℤ) (sub : WatchSub) (w : Watch) :
    ∃ acts, steps sh id sub acts w =
      some ({ w with pc := (respond id sh.latestRev w.pc).1 }, (respond id sh.latestRev w.pc).2) := by
  obtain ⟨conn, key, rangeEnd, startRevision, cancelled, subID, boundary, pc⟩ := w
  cases pc with
  | stamping matched canceled next =>
    refine ⟨[.go, .send true], ?_⟩
    simp [steps, step, respond]
  | _ => exact ⟨[], rfl⟩

theorem scan_pc (w : Watch) (pc : Pc) (events : List Event) :
    { w with pc := pc }.scan events = w.scan events := by
  induction events with
  | nil => rfl
  | cons ev events ih => rw [scan, scan, ih]

theorem caught_pc (w : Watch) (pc : Pc) (events : List Event) (lastID : StreamID) :
    { w with pc := pc }.caught events lastID = w.caught events lastID := by
  rw [caught, caught, scan_pc]

theorem readRound_step (w : Watch) (id : ℤ) (r : Round) (lastID : StreamID) (consecErr : ℕ)
    (hr : ∀ n, r.answer = some n → 1 ≤ n ∧ n ≤ readBatchSize) (cks : List Checkpoint) (ctx : Bool)
    (sub : WatchSub) : ∃ a,
      { w with pc := .reading lastID consecErr }.step ⟨r.stream, r.latestRev, cks, ctx⟩ id sub a =
        some (w.readRound r lastID consecErr, sub.ch, []) := by
  rw [readRound, Round.brings]
  cases ha : r.answer with
  | none => exact ⟨.readErr, rfl⟩
  | some n =>
    rw [Option.bind_some]
    cases hread : blockReadEvents r.stream lastID n with
    | none =>
      -- nothing has come until the read times out
      have hnone : blockReadEvents r.stream lastID readBatchSize = none :=
        (blockReadEvents_eq_none (by decide)).mpr ((blockReadEvents_eq_none (hr n ha).1).mp hread)
      refine ⟨.timeout, ?_⟩
      simp only [step, hnone]
    | some x =>
      refine ⟨.read n, ?_⟩
      simp only [step, if_pos (hr n ha), hread, caught_pc]

/-- **A round is made of steps of the watch.** -/
theorem round_steps (w : Watch) (id : ℤ) (r : Round) (lastID : StreamID) (consecErr : ℕ)
    (hr : ∀ n, r.answer = some n → 1 ≤ n ∧ n ≤ readBatchSize) (cks : List Checkpoint) (ctx : Bool)
    (sub : WatchSub) :
    ∃ acts, steps ⟨r.stream, r.latestRev, cks, ctx⟩ id sub acts
        { w with pc := .reading lastID consecErr } =
      some ({ w with pc := (w.round id r lastID consecErr).1 },
        (w.round id r lastID consecErr).2) := by
  obtain ⟨a, hstep⟩ := w.readRound_step id r lastID consecErr hr cks ctx sub
  obtain ⟨acts, hacts⟩ := respond_steps ⟨r.stream, r.latestRev, cks, ctx⟩ id sub
    { w with pc := w.readRound r lastID consecErr }
  refine ⟨a :: acts, ?_⟩
  rw [steps, hstep]
  dsimp only
  rw [hacts]
  rfl

end Watch

/-! ### What is left -/

/-- What the backend may do: entries above the boundary are appended to `stream`, and a read that
does not fail brings between 1 and `readBatchSize` entries, if there are any. -/
structure Serves (w : Watch) (stream : List Event) (env : ℕ → Round) : Prop where
  grows : ∀ i, ∃ more, (env i).stream = stream ++ more ∧ ∀ e ∈ more, w.boundary < e.rev
  streamed : ∀ i, Streamed (env i).stream
  batch : ∀ i n, (env i).answer = some n → 1 ≤ n ∧ n ≤ readBatchSize

/-- The number of reads that have failed in a row when `n` rounds are over. -/
def streak (env : ℕ → Round) : ℕ → ℕ
  | 0 => 0
  | n + 1 => if (env n).answer = none then streak env n + 1 else 0

/-- Where a reader from `start` on is when `n` rounds are over. -/
def cursor (env : ℕ → Round) (start : StreamID) : ℕ → StreamID
  | 0 => start
  | n + 1 => (((env n).brings (cursor env start n)).map Prod.snd).getD (cursor env start n)

/-- The number of reads in a row that have brought nothing when `n` rounds are over: they have failed
or timed out. -/
def barren (env : ℕ → Round) (start : StreamID) : ℕ → ℕ
  | 0 => 0
  | n + 1 => if (env n).brings (cursor env start n) = none then barren env start n + 1 else 0

/-- The read of round `n` brings an entry above the boundary, and before that there were never
`maxReaderErrors` reads in a row that brought nothing. -/
structure PassesBoundary (w : Watch) (env : ℕ → Round) (start : StreamID) (n : ℕ) : Prop where
  few : ∀ j ≤ n, barren env start j < maxReaderErrors
  above : ∃ events newLastID, (env n).brings (cursor env start n) = some (events, newLastID) ∧
    ∃ e ∈ events, w.boundary < e.rev

/-- The entries up to the boundary that a reader at `lastID` has before it and `p` picks. -/
def Watch.rest (w : Watch) (p : Event → Bool) (stream : List Event) (lastID : StreamID) :
    List Event :=
  (stream.filter fun e => decide (∀ i ∈ e.id, lastID < i)).filter fun e =>
    p e && decide (e.rev ≤ w.boundary)

theorem brings_some {r : Round} {lastID newLastID : StreamID} {events : List Event} :
    r.brings lastID = some (events, newLastID) ↔
      ∃ n, r.answer = some n ∧ events ≠ [] ∧ xread r.stream lastID n = (events, newLastID) := by
  simp only [Round.brings, Option.bind_eq_some_iff, blockReadEvents_some]

section Rest

variable {w : Watch} {stream : List Event} {env : ℕ → Round} (p : Event → Bool)

theorem Serves.mem (h : Serves w stream env) {e : Event} (he : e ∈ stream) (i : ℕ) :
    e ∈ (env i).stream := by
  obtain ⟨more, hmore, _⟩ := h.grows i
  rw [hmore]
  exact List.mem_append_left _ he

theorem Serves.rest_eq (h : Serves w stream env) (i : ℕ) (lastID : StreamID) :
    w.rest p (env i).stream lastID = w.rest p stream lastID := by
  obtain ⟨more, hmore, habove⟩ := h.grows i
  have hnil : w.rest p more lastID = [] := by
    rw [Watch.rest, List.filter_eq_nil_iff]
    intro e he
    simp [habove e (List.mem_filter.mp he).1]
  rw [hmore, Watch.rest, List.filter_append, List.filter_append, ← Watch.rest, ← Watch.rest, hnil,
    List.append_nil]

/-- **A batch is the next part of what is left.** -/
theorem Serves.read_rest (h : Serves w stream env) {i : ℕ} {lastID newLastID : StreamID}
    {events : List Event} (hr : (env i).brings lastID = some (events, newLastID)) :
    w.rest p stream lastID =
        events.filter (fun e => p e && decide (e.rev ≤ w.boundary)) ++ w.rest p stream newLastID ∧
      Ascending Event.rev events ∧
      ((∃ e ∈ events, w.boundary < e.rev) → w.rest p stream newLastID = []) := by
  obtain ⟨n, hn, _, hr⟩ := brings_some.mp hr
  have hdrop := read_drop (h.streamed i) lastID (h.batch i n hn).1
  rw [hr] at hdrop
  rw [xread, Prod.mk.injEq] at hr
  obtain ⟨hev, _⟩ := hr
  rw [← h.rest_eq p i lastID, ← h.rest_eq p i newLastID, Watch.rest, Watch.rest, hdrop]
  have hasc : Ascending Event.rev
      ((env i).stream.filter fun e => decide (∀ i ∈ e.id, lastID < i)) :=
    (h.streamed i).ascending.filter _
  generalize ((env i).stream.filter fun e => decide (∀ i ∈ e.id, lastID < i)) = l at hev hasc ⊢
  have hsplit := List.take_append_drop n l
  rw [hev] at hsplit
  rw [← hsplit, Ascending, List.pairwise_append] at hasc
  refine ⟨?_, hasc.1, fun hmet => ?_⟩
  · conv_lhs => rw [← hsplit]
    rw [List.filter_append]
  · obtain ⟨e, he, hb⟩ := hmet
    rw [List.filter_eq_nil_iff]
    intro x hx
    simp [hb.trans (hasc.2.2 e he x hx)]

end Rest

/-! ### Whole calls -/

/-- The events that a watch is to catch up on. -/
def Watch.due (w : Watch) (stream : List Event) : List ProtoEvent :=
  (stream.filter fun e => w.wants e && decide (e.rev ≤ w.boundary)).map eventToProto

/-- After `n` rounds from `start` `catchUp` has returned true: fewer than `maxReaderErrors` reads in
a row have brought nothing so far, and the events in `wanted` were sent. -/
structure CaughtUp (env : ℕ → Round) (start : StreamID) (wanted : List ProtoEvent) (n : ℕ)
    (st : Pc × List WatchResponse) : Prop where
  pc : st.1 = .selecting
  few : ∀ j ≤ n, barren env start j < maxReaderErrors
  sent : st.2.flatMap WatchResponse.events = wanted
  clean : ∀ resp ∈ st.2, resp.canceled = false

/-- After `n` rounds from `start` `catchUp` has returned false: the last `maxReaderErrors` reads have
brought nothing, a beginning of `wanted` was sent, and then a Canceled response. -/
structure GaveUp (env : ℕ → Round) (start : StreamID) (wanted : List ProtoEvent) (n : ℕ)
    (st : Pc × List WatchResponse) : Prop where
  pc : st.1 = .returning
  few : ∀ j < n, barren env start j < maxReaderErrors
  many : barren env start n = maxReaderErrors
  sent : ∃ before resp, st.2 = before ++ [resp] ∧ resp.canceled = true ∧ resp.events = [] ∧
    before.flatMap WatchResponse.events <+: wanted ∧ ∀ r ∈ before, r.canceled = false

section Run

variable {w : Watch} {id : ℤ} {stream : List Event} {env : ℕ → Round} {wanted : List ProtoEvent}
  {start lastID : StreamID} {i k n m : ℕ} {sent : List WatchResponse}

structure Reading (w : Watch) (stream : List Event) (env : ℕ → Round) (wanted : List ProtoEvent)
    (start : StreamID) (i : ℕ) (lastID : StreamID) (consecErr : ℕ) (sent : List WatchResponse) :
    Prop where
  place : cursor env start i = lastID
  errors : barren env start i = consecErr
  few : ∀ j ≤ i, barren env start j < maxReaderErrors
  split : sent.flatMap WatchResponse.events ++ (w.rest w.wants stream lastID).map eventToProto =
    wanted
  clean : ∀ resp ∈ sent, resp.canceled = false

/-- The rounds that `catchUp` can still go through: a batch brings an entry at least, and fewer than
`maxReaderErrors` reads bring nothing before it. -/
def Watch.fuel (w : Watch) (stream : List Event) (lastID : StreamID) (consecErr : ℕ) : ℕ :=
  (w.rest (fun _ => true) stream lastID).length * maxReaderErrors + (maxReaderErrors - consecErr)

theorem after_succ (hst : w.after id env start i = (.reading lastID k, sent)) :
    w.after id env start (i + 1) =
      ((w.round id (env i) lastID k).1, sent ++ (w.round id (env i) lastID k).2) := by
  rw [Watch.after, hst]

theorem after_add (hdone : ∀ lastID k, (w.after id env start n).1 ≠ .reading lastID k) (m : ℕ) :
    w.after id env start (n + m) = w.after id env start n := by
  induction m with
  | zero => rfl
  | succ m ih =>
    rw [← Nat.add_assoc, Watch.after, ih]
    split
    · rename_i lastID k sent heq
      exact absurd (congrArg Prod.fst heq) (hdone lastID k)
    · rfl

theorem CaughtUp.not_gaveUp (h : CaughtUp env start wanted n (w.after id env start n)) :
    ¬ GaveUp env start wanted m (w.after id env start m) := by
  intro hgave
  have hcaught : (w.after id env start (n + m)).1 = .selecting := by
    rw [after_add fun lastID k hpc => (by rw [h.pc] at hpc; cases hpc)]
    exact h.pc
  rw [Nat.add_comm n m, after_add fun lastID k hpc => (by rw [hgave.pc] at hpc; cases hpc),
    hgave.pc] at hcaught
  cases hcaught

theorem respond_reading (id rev : ℤ) (lastID : StreamID) (k : ℕ) :
    Watch.respond id rev (.reading lastID k) = (.reading lastID k, []) := rfl

theorem respond_caught (w : Watch) (id rev : ℤ) {events : List Event} (hne : events ≠ [])
    (lastID : StreamID) :
    ∃ out, Watch.respond id rev (w.caught events lastID) =
        ((if (w.scan events).2 then Next.live else Next.catchUp lastID).pc, out) ∧
      out.flatMap WatchResponse.events = (w.scan events).1 ∧
      ∀ resp ∈ out, resp.canceled = false := by
  rw [Watch.caught, if_neg hne]
  dsimp only
  by_cases hm : (w.scan events).1 = []
  · rw [if_pos hm, hm]
    refine ⟨[], ?_, rfl, fun resp hr => absurd hr List.not_mem_nil⟩
    split_ifs <;> rfl
  · rw [if_neg hm]
    refine ⟨_, rfl, List.append_nil _, fun resp hr => ?_⟩
    rw [List.mem_singleton.mp hr]
    rfl

def OneRound (w : Watch) (id : ℤ) (stream : List Event) (env : ℕ → Round) (wanted : List ProtoEvent)
    (start lastID : StreamID) (i k : ℕ) : Prop :=
  (∃ lastID' k' sent', w.after id env start (i + 1) = (.reading lastID' k', sent') ∧
    Reading w stream env wanted start (i + 1) lastID' k' sent' ∧ ¬ PassesBoundary w env start i ∧
    w.fuel stream lastID' k' < w.fuel stream lastID k) ∨
  CaughtUp env start wanted (i + 1) (w.after id env start (i + 1)) ∧ PassesBoundary w env start i ∨
  GaveUp env start wanted (i + 1) (w.after id env start (i + 1)) ∧ ¬ PassesBoundary w env start i

theorem Reading.few_succ (hr : Reading w stream env wanted start i lastID k sent)
    (h : barren env start (i + 1) < maxReaderErrors) :
    ∀ j ≤ i + 1, barren env start j < maxReaderErrors := by
  intro j hj
  rcases Nat.lt_or_eq_of_le hj with hj | rfl
  · exact hr.few j (by omega)
  · exact h

theorem Reading.failed (hst : w.after id env start i = (.reading lastID k, sent))
    (hr : Reading w stream env wanted start i lastID k sent) (hnone : (env i).brings lastID = none) :
    OneRound w id stream env wanted start lastID i k := by
  have hk := hr.few i le_rfl
  have hplace : cursor env start (i + 1) = lastID := by rw [cursor, hr.place, hnone]; rfl
  have hbarren : barren env start (i + 1) = k + 1 := by
    rw [barren, hr.place, if_pos hnone, hr.errors]
  have hpasses : ¬ PassesBoundary w env start i := by
    rintro ⟨_, events, newLastID, hread, _⟩
    rw [hr.place, hnone] at hread
    cases hread
  have hsucc := after_succ hst
  rw [hr.errors] at hk
  rw [Watch.round, Watch.readRound, hnone] at hsucc
  dsimp only at hsucc
  rw [Watch.readFailed] at hsucc
  split_ifs at hsucc with hfew
  · left
    rw [respond_reading, List.append_nil] at hsucc
    refine ⟨lastID, k + 1, sent, hsucc, ⟨hplace, hbarren, hr.few_succ (by omega), hr.split,
      hr.clean⟩, hpasses, ?_⟩
    unfold Watch.fuel
    omega
  · right
    right
    rw [hsucc]
    refine ⟨⟨rfl, fun j hj => hr.few j (by omega), by omega, sent, _, rfl, rfl, rfl, ?_, hr.clean⟩,
      hpasses⟩
    rw [← hr.split]
    exact List.prefix_append _ _

theorem Serves.fuel_lt (h : Serves w stream env) {events : List Event} {newLastID : StreamID}
    (hread : (env i).brings lastID = some (events, newLastID))
    (hlow : ∀ e ∈ events, e.rev ≤ w.boundary) (hk : k < maxReaderErrors) :
    w.fuel stream newLastID 0 < w.fuel stream lastID k := by
  obtain ⟨_, _, hne, _⟩ := brings_some.mp hread
  have hall : (events.filter fun e => true && decide (e.rev ≤ w.boundary)) = events := by
    rw [List.filter_eq_self]
    intro e he
    rw [Bool.true_and, decide_eq_true_eq]
    exact hlow e he
  obtain ⟨hless, _⟩ := h.read_rest (fun _ => true) hread
  rw [hall] at hless
  have hpos : maxReaderErrors ≤ events.length * maxReaderErrors :=
    Nat.le_mul_of_pos_left _ (List.length_pos_iff.mpr hne)
  unfold Watch.fuel
  rw [hless, List.length_append, Nat.add_mul]
  omega

/-- A batch sends the next part of what is left, which is the last part if an entry is above the
boundary. -/
theorem Reading.batch (h : Serves w stream env)
    (hst : w.after id env start i = (.reading lastID k, sent))
    (hr : Reading w stream env wanted start i lastID k sent) {events : List Event}
    {newLastID : StreamID} (hread : (env i).brings lastID = some (events, newLastID)) :
    OneRound w id stream env wanted start lastID i k := by
  obtain ⟨_, _, hne, _⟩ := brings_some.mp hread
  obtain ⟨out, hout, hsent, hclean⟩ := respond_caught w id (env i).latestRev hne newLastID
  have hsucc := after_succ hst
  rw [Watch.round, Watch.readRound, hread] at hsucc
  dsimp only at hsucc
  rw [hout] at hsucc
  obtain ⟨hrest, hasc, hover⟩ := h.read_rest w.wants hread
  obtain ⟨hscan, hreach⟩ := scan_spec w hasc
  have hsplit : (sent ++ out).flatMap WatchResponse.events ++
      (w.rest w.wants stream newLastID).map eventToProto = wanted := by
    rw [← hr.split, hrest, List.map_append, ← hscan, ← hsent, List.flatMap_append,
      List.append_assoc]
  have hcleanAll : ∀ resp ∈ sent ++ out, resp.canceled = false := by
    intro resp hmem
    rcases List.mem_append.mp hmem with hmem | hmem
    · exact hr.clean resp hmem
    · exact hclean resp hmem
  have hplace : cursor env start (i + 1) = newLastID := by rw [cursor, hr.place, hread]; rfl
  have hbarren : barren env start (i + 1) = 0 := by
    rw [barren, hr.place, if_neg (by rw [hread]; exact Option.some_ne_none _)]
  have hfew := hr.few_succ (by rw [hbarren]; decide)
  by_cases hb : (w.scan events).2 = true
  · right
    left
    rw [hover (hreach.mp hb), List.map_nil, List.append_nil] at hsplit
    rw [hsucc, if_pos hb]
    exact ⟨⟨rfl, hfew, hsplit, hcleanAll⟩, hr.few, events, newLastID, hr.place ▸ hread,
      hreach.mp hb⟩
  · left
    rw [if_neg hb] at hsucc
    refine ⟨newLastID, 0, sent ++ out, hsucc, ⟨hplace, hbarren, hfew, hsplit, hcleanAll⟩, ?_, ?_⟩
    · rintro ⟨_, events', newLastID', hread', hmet⟩
      rw [hr.place, hread, Option.some.injEq, Prod.mk.injEq] at hread'
      exact hb (hreach.mpr (hread'.1 ▸ hmet))
    · -- the whole batch is up to the boundary, so there is less to read than before
      refine h.fuel_lt hread (fun e he => ?_) (hr.errors ▸ hr.few i le_rfl)
      by_contra hlt
      exact hb (hreach.mpr ⟨e, he, not_le.mp hlt⟩)

/-- **One round.** -/
theorem Reading.oneRound (h : Serves w stream env)
    (hst : w.after id env start i = (.reading lastID k, sent))
    (hr : Reading w stream env wanted start i lastID k sent) :
    OneRound w id stream env wanted start lastID i k := by
  cases hread : (env i).brings lastID with
  | none => exact hr.failed hst hread
  | some x => exact hr.batch h hst hread

/-- **`catchUp` returns.** -/
theorem Reading.returns (h : Serves w stream env)
    (hst : w.after id env start i = (.reading lastID k, sent))
    (hr : Reading w stream env wanted start i lastID k sent) :
    (∃ n, CaughtUp env start wanted n (w.after id env start n)) ∧ (∃ n, PassesBoundary w env start n) ∨
      ∃ n, GaveUp env start wanted n (w.after id env start n) := by
  generalize hm : w.fuel stream lastID k = m
  induction m using Nat.strong_induction_on generalizing i lastID k sent with
  | _ m ih =>
    rcases hr.oneRound h hst with ⟨lastID', k', sent', hst', hr', _, hlt⟩ | hdone | hgave
    · exact ih _ (hm ▸ hlt) hst' hr' rfl
    · exact Or.inl ⟨⟨i + 1, hdone.1⟩, i, hdone.2⟩
    · exact Or.inr ⟨i + 1, hgave.1⟩

/-- If the boundary is met in time, `catchUp` returns true. -/
theorem Reading.caughtUp (h : Serves w stream env) (hpasses : PassesBoundary w env start n)
    (hst : w.after id env start i = (.reading lastID k, sent))
    (hr : Reading w stream env wanted start i lastID k sent) (hi : i ≤ n) :
    ∃ m, CaughtUp env start wanted m (w.after id env start m) := by
  -- by induction on the rounds until then
  obtain ⟨b, hb⟩ : ∃ b, n - i = b := ⟨_, rfl⟩
  induction b generalizing i lastID k sent with
  | zero =>
    obtain rfl : i = n := by omega
    rcases hr.oneRound h hst with ⟨_, _, _, _, _, hnot, _⟩ | hdone | hgave
    · exact absurd hpasses hnot
    · exact ⟨i + 1, hdone.1⟩
    · exact absurd hpasses hgave.2
  | succ b ih =>
    rcases hr.oneRound h hst with ⟨lastID', k', sent', hst', hr', _⟩ | hdone | hgave
    · exact ih hst' hr' (by omega) (by omega)
    · exact ⟨i + 1, hdone.1⟩
    · have hlt := hpasses.few (i + 1) (by omega)
      rw [hgave.1.many] at hlt
      exact absurd hlt (lt_irrefl _)

end Run

/-! ### A backend with something to read -/

section Fresh

variable {w : Watch} {stream : List Event} {env : ℕ → Round} {start : StreamID}

/-- The entries above the boundary are still before a reader at `lastID`. -/
def Ahead (w : Watch) (env : ℕ → Round) (lastID : StreamID) : Prop :=
  ∀ i, ∀ e ∈ (env i).stream, w.boundary < e.rev → ∀ j ∈ e.id, lastID < j

theorem Serves.ahead (h : Serves w stream env) {i : ℕ} {lastID newLastID : StreamID}
    {events : List Event} (hread : (env i).brings lastID = some (events, newLastID))
    (hlow : ∀ e ∈ events, e.rev ≤ w.boundary) : Ahead w env newLastID := by
  obtain ⟨n, _, hne, hx⟩ := brings_some.mp hread
  obtain ⟨x, hlast, hxs, hid⟩ := read_last (h.streamed i) hx hne
  have hmem := List.mem_of_getLast? hlast
  -- the last entry of the batch was there from the start
  have hbase : x ∈ stream := by
    obtain ⟨more, hmore, habove⟩ := h.grows i
    rw [hmore] at hxs
    exact (List.mem_append.mp hxs).resolve_right fun hm =>
      absurd (hlow x hmem) (not_le.mpr (habove x hm))
  intro j e he hb
  exact ((h.streamed j).lt_iff (h.mem hbase j) he hid).mpr ((hlow x hmem).trans_lt hb)

theorem Serves.ahead_cursor (h : Serves w stream env) (hstart : Ahead w env start) {n : ℕ}
    (hlow : ∀ i < n, ∀ events newLastID,
      (env i).brings (cursor env start i) = some (events, newLastID) →
        ∀ e ∈ events, e.rev ≤ w.boundary) : Ahead w env (cursor env start n) := by
  induction n with
  | zero => exact hstart
  | succ n ih =>
    have hbefore := ih fun i hi => hlow i (by omega)
    rw [cursor]
    cases hread : (env n).brings (cursor env start n) with
    | none => exact hbefore
    | some x => exact h.ahead hread (hlow n (by omega) x.1 x.2 hread)

/-- With an entry above the boundary at hand, a read brings nothing only if it fails. -/
theorem Serves.barren_eq (h : Serves w stream env) (hstart : Ahead w env start)
    (habove : ∀ i, ∃ e ∈ (env i).stream, w.boundary < e.rev) {n : ℕ}
    (hlow : ∀ i < n, ∀ events newLastID,
      (env i).brings (cursor env start i) = some (events, newLastID) →
        ∀ e ∈ events, e.rev ≤ w.boundary) : barren env start n = streak env n := by
  induction n with
  | zero => rfl
  | succ n ih =>
    have hbefore := ih fun i hi => hlow i (by omega)
    have hahead : Ahead w env (cursor env start n) :=
      h.ahead_cursor hstart fun i hi => hlow i (by omega)
    obtain ⟨e, he, hb⟩ := habove n
    have hiff : (env n).brings (cursor env start n) = none ↔ (env n).answer = none := by
      rw [Round.brings]
      cases ha : (env n).answer with
      | none => simp
      | some k =>
        refine iff_of_false (fun hnone => ?_) (Option.some_ne_none _)
        rw [Option.bind_some, blockReadEvents_eq_none (h.batch n k ha).1] at hnone
        exact hnone e he (hahead n e he hb)
    rw [barren, streak, hbefore]
    simp only [hiff]

/-- So if it gives up all the same, it has met the boundary before. -/
theorem Serves.passes_of_gaveUp (h : Serves w stream env) (hstart : Ahead w env start)
    (habove : ∀ i, ∃ e ∈ (env i).stream, w.boundary < e.rev)
    (hfew : ∀ n, streak env n < maxReaderErrors) {wanted : List ProtoEvent} {n : ℕ}
    {st : Pc × List WatchResponse} (hgave : GaveUp env start wanted n st) :
    ∃ n, PassesBoundary w env start n := by
  by_contra hnot
  have hbarren := h.barren_eq hstart habove (n := n) fun i hi events newLastID hread e he => by
    by_contra hb
    exact hnot ⟨i, fun j hj => hgave.few j (by omega), events, newLastID, hread, e, he,
      not_le.mp hb⟩
  have hlt := hfew n
  rw [← hbarren, hgave.many] at hlt
  exact absurd hlt (lt_irrefl _)

end Fresh

/-! ### From the checkpoints on -/

section Start

variable {w : Watch} {stream released : List Event} {env : ℕ → Round} {d : Dispatcher}

theorem Serves.lt_of_le (h : Serves w stream env) (h₀ : d.checkpoints = [])
    (hsub : ∀ e ∈ released, e ∈ stream) {i : ℕ} {e : Event} (he : e ∈ (env i).stream)
    (hle : w.startRevision ≤ e.rev) : ∀ j ∈ e.id, w.seek (d.releaseAll released) < j :=
  (Dispatcher.checkpoints_listed h₀ fun e he => h.mem (hsub e he) i).lt_of_le (h.streamed i) he hle

theorem Serves.reading_start (h : Serves w stream env) (h₀ : d.checkpoints = [])
    (hsub : ∀ e ∈ released, e ∈ stream) :
    Reading w stream env (w.due stream) (w.seek (d.releaseAll released)) 0
      (w.seek (d.releaseAll released)) 0 [] := by
  refine ⟨rfl, rfl, fun j hj => ?_, ?_, fun _ hr => absurd hr List.not_mem_nil⟩
  · rw [Nat.le_zero.mp hj]
    exact Nat.zero_lt_succ _
  · rw [List.flatMap_nil, List.nil_append, Watch.rest, Watch.due, List.filter_filter]
    congr 1
    refine List.filter_congr fun e he => ?_
    by_cases hw : w.wants e = true
    · have hle : w.startRevision ≤ e.rev := by
        rw [Watch.wants, Bool.and_eq_true, decide_eq_true_eq] at hw
        exact hw.1
      rw [decide_eq_true (h.lt_of_le h₀ hsub (h.mem he 0) hle), Bool.and_true]
    · rw [Bool.not_eq_true] at hw
      rw [hw]
      rfl

end Start

/-- **Catch-up is exact if it meets the boundary in time.**  The checkpoints come from released
entries of the stream, entries are appended above the boundary, reads fail or bring any number of
the entries that are there.  `catchUp` returns true, having sent exactly the wanted events up to the
boundary in the order of the stream, if and only if a read brings an entry above the boundary before
`maxReaderErrors` reads in a row have failed or timed out; otherwise it returns false, having sent a
beginning of these events and one Canceled response.  The condition holds if fewer than
`maxReaderErrors` reads in a row fail and an entry above the boundary is there all along. -/
theorem catchUp_exact_iff (w : Watch) (id : ℤ) (d : Dispatcher) (h₀ : d.checkpoints = [])
    (stream released : List Event) (hsub : ∀ e ∈ released, e ∈ stream) (env : ℕ → Round)
    (h : Serves w stream env) :
    ((∃ n, CaughtUp env (w.seek (d.releaseAll released)) (w.due stream) n
        (w.after id env (w.seek (d.releaseAll released)) n)) ↔
      ∃ n, PassesBoundary w env (w.seek (d.releaseAll released)) n) ∧
    ((¬ ∃ n, PassesBoundary w env (w.seek (d.releaseAll released)) n) →
      ∃ n, GaveUp env (w.seek (d.releaseAll released)) (w.due stream) n
        (w.after id env (w.seek (d.releaseAll released)) n)) ∧
    (w.startRevision ≤ w.boundary → (∀ i, ∃ e ∈ (env i).stream, w.boundary < e.rev) →
      (∀ n, streak env n < maxReaderErrors) →
      ∃ n, PassesBoundary w env (w.seek (d.releaseAll released)) n) := by
  have hreading := h.reading_start h₀ hsub
  have hbegin : w.after id env (w.seek (d.releaseAll released)) 0 =
      (.reading (w.seek (d.releaseAll released)) 0, []) := rfl
  have hreturns := hreading.returns h hbegin
  refine ⟨⟨?_, ?_⟩, fun hnot => ?_, fun hle habove hfew => ?_⟩
  · rintro ⟨n, hcaught⟩
    rcases hreturns with ⟨_, hpasses⟩ | ⟨m, hgave⟩
    · exact hpasses
    · exact absurd hgave hcaught.not_gaveUp
  · rintro ⟨n, hpasses⟩
    exact hreading.caughtUp h hpasses hbegin (Nat.zero_le n)
  · rcases hreturns with ⟨_, hpasses⟩ | hgave
    · exact absurd hpasses hnot
    · exact hgave
  · rcases hreturns with ⟨_, hpasses⟩ | ⟨n, hgave⟩
    · exact hpasses
    · exact h.passes_of_gaveUp (fun i e he hb => h.lt_of_le h₀ hsub he (hle.trans hb.le)) habove
        hfew hgave

/-- Three entries, of which a read brings one at a time.  The first read fails, the one at the end of
the stream times out, and then a fourth entry comes. -/
def haltingReads (i : ℕ) : Round :=
  ⟨Dispatcher.numbered (if i < 5 then 3 else 4), 3, if i = 0 then none else some 1⟩

def lateWatch : Watch := ⟨0, [97], [], 2, false, 0, 3, .seeking⟩

theorem haltingReads_serves : Serves lateWatch (Dispatcher.numbered 3) haltingReads := by
  refine ⟨fun i => ?_, fun i => Dispatcher.streamed_numbered _, fun i n hn => ?_⟩
  · rw [haltingReads]
    dsimp only
    split_ifs
    · exact ⟨[], (List.append_nil _).symm, fun e he => absurd he List.not_mem_nil⟩
    · exact ⟨[⟨.delete, [97], 4, none, none, 0, some ⟨0, 4⟩⟩], rfl, by decide⟩
  · rw [haltingReads] at hn
    dsimp only at hn
    split_ifs at hn
    cases hn
    decide

theorem catchUp_halting : ∃ n, CaughtUp haltingReads
    (lateWatch.seek (Dispatcher.newEventDispatcher.releaseAll (Dispatcher.numbered 3)))
    (((Dispatcher.numbered 3).filter fun e => decide (2 ≤ e.rev)).map eventToProto) n
    (lateWatch.after 1 haltingReads (lateWatch.seek
      (Dispatcher.newEventDispatcher.releaseAll (Dispatcher.numbered 3))) n) := by
  refine (catchUp_exact_iff lateWatch 1 Dispatcher.newEventDispatcher rfl (Dispatcher.numbered 3)
    (Dispatcher.numbered 3) (fun _ he => he) haltingReads haltingReads_serves).1.mpr ⟨5, ?_, ?_⟩
  · decide +kernel
  · exact ⟨[⟨.delete, [97], 4, none, none, 0, some ⟨0, 4⟩⟩], ⟨0, 4⟩, by decide +kernel, by decide⟩

/-- One entry, and a backend that always answers. -/
def idleReads (_ : ℕ) : Round := ⟨Dispatcher.numbered 1, 1, some readBatchSize⟩

def idleWatch : Watch := ⟨0, [97], [], 1, false, 0, 1, .seeking⟩

/-- **An idle store cancels a watch**: no read fails and the only event is sent, but nothing more is
written, so the reads that follow time out, and `catchUp` returns false with a Canceled response. -/
theorem idle_catchUp_canceled :
    Serves idleWatch (Dispatcher.numbered 1) idleReads ∧ (∀ n, streak idleReads n = 0) ∧
      (idleWatch.after 1 idleReads .zero 31).1 = .returning ∧
      ((idleWatch.after 1 idleReads .zero 31).2.map fun r => (r.events.map ProtoEvent.rev, r.canceled)) =
        [([1], false), ([], true)] ∧
      ∀ n, (idleWatch.after 1 idleReads .zero n).1 ≠ .selecting := by
  have hend : (idleWatch.after 1 idleReads .zero 31).1 = .returning := by decide +kernel
  refine ⟨⟨fun i => ⟨[], (List.append_nil _).symm, fun e he => absurd he List.not_mem_nil⟩,
    fun i => Dispatcher.streamed_numbered 1, fun i n hn => ?_⟩, fun n => ?_, hend,
    by decide +kernel, fun n hpc => ?_⟩
  · cases hn
    decide
  · cases n with
    | zero => rfl
    | succ n => rfl
  · -- it would have returned both ways
    have hlive : (idleWatch.after 1 idleReads .zero (n + 31)).1 = .selecting := by
      rw [after_add fun lastID k h => (by rw [hpc] at h; cases h)]
      exact hpc
    rw [Nat.add_comm, after_add fun lastID k h => (by rw [hend] at h; cases h), hend] at hlive
    cases hlive

end REtcd.Server
