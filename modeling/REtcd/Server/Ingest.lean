import Mathlib.Data.Multiset.Fold
import REtcd.Base.Machine
import REtcd.Server.Feed

/-!
# Whole calls of ingest

`ingest` holds the dispatcher's lock from its first to its last line, so as long as nobody reads the
channels meanwhile a call is one function of the dispatcher.  Here it is written as one, with the
events that it releases as a second result; the loop of `releaseLocked` goes over the subscribers in
any order, which makes no difference (`deliver_comm`).

`nextRev` and `pending` are a reorder buffer, and a call is an operation on the buffer followed by
the release of what leaves it (`ingestLoop_eq`, `flushPendingLocked_eq`).  So whatever is ingested,
events are released in strictly ascending order and the buffer keeps its bounds (`ingest_orderly`),
and if it never overflows, the order of arrival does not matter (`ingest_order_irrelevant`).

`Feed.rest` connects this with the single steps of `Feed.dispatch`: it is what the holder of the lock
has still to do, and every step leaves it the same (`rest_dispatch`), so the steps of a whole call do
what `ingest` does (`ingest_steps`).
-/

namespace REtcd.Server

open Base Store

namespace Dispatcher

/-! ### The code -/

theorem deliver_comm (ev : Event) (d : Dispatcher) (i j : ℕ) :
    (d.deliver ev i).deliver ev j = (d.deliver ev j).deliver ev i := by
  by_cases hij : i = j
  · rw [hij]
  · have hsub : ∀ i j, i ≠ j → ∀ d : Dispatcher, (d.deliver ev i).sub j = d.sub j := by
      intro i j hij d
      rw [deliver]
      split_ifs <;> simp [Ne.symm hij]
    have hi := hsub j i (Ne.symm hij) d
    have hj := hsub i j hij d
    rw [deliver, hj, deliver.eq_1 ev i (d.deliver ev j), hi]
    unfold deliver
    split_ifs <;> simp [Function.update_comm hij, Finset.erase_right_comm]

instance (ev : Event) : RightCommutative (fun (d : Dispatcher) id => d.deliver ev id) :=
  ⟨deliver_comm ev⟩

def releaseLocked (ev : Event) (d : Dispatcher) : Dispatcher :=
  d.subs.val.foldl (fun d id => d.deliver ev id) (d.release ev)

theorem foldl_deliver_frame (ev : Event) (ids : Multiset ℕ) (d : Dispatcher) :
    ∃ subs sub, ids.foldl (fun d id => d.deliver ev id) d = { d with subs := subs, sub := sub } := by
  induction ids using Multiset.induction generalizing d with
  | empty => exact ⟨_, _, rfl⟩
  | cons id ids ih =>
    rw [Multiset.foldl_cons]
    obtain ⟨subs, sub, hd⟩ := deliver_eq ev id d
    obtain ⟨subs', sub', hrest⟩ := ih (d.deliver ev id)
    rw [hrest, hd]
    exact ⟨_, _, rfl⟩

theorem releaseLocked_frame (ev : Event) (d : Dispatcher) :
    ∃ subs sub latestRev n cks, d.releaseLocked ev =
      { d with
        subs := subs
        sub := sub
        latestRev := latestRev
        ckCounter := n
        checkpoints := cks } := by
  obtain ⟨subs, sub, h⟩ := foldl_deliver_frame ev d.subs.val (d.release ev)
  obtain ⟨n, cks, hr, _⟩ := release_eq ev d
  rw [releaseLocked, h, hr]
  exact ⟨_, _, _, _, _, rfl⟩

theorem releaseLocked_pending (ev : Event) (d : Dispatcher) :
    (d.releaseLocked ev).pending = d.pending := by
  obtain ⟨_, _, _, _, _, h⟩ := releaseLocked_frame ev d
  rw [h]

/-- The loop of `ingest`, with the events that it releases. -/
def ingestLoop (d : Dispatcher) : Dispatcher × List Event :=
  match _h : d.pending[d.nextRev]? with
  | none => (d, [])
  | some ev =>
    let released := { d with pending := d.pending.erase d.nextRev }.releaseLocked ev
    let out := ingestLoop { released with nextRev := released.nextRev + 1 }
    (out.1, ev :: out.2)
termination_by d.pending.size
decreasing_by
  rw [releaseLocked_pending]
  exact size_erase_lt (Option.isSome_iff_exists.mpr ⟨ev, _h⟩)

def flushLoop : List ℤ → Dispatcher → Dispatcher × List Event
  | [], d => (d, [])
  | r :: revs, d =>
    match d.pending[r]? with
    | none => flushLoop revs d
    | some ev =>
      let out := flushLoop revs ({ d with pending := d.pending.erase r }.releaseLocked ev)
      (out.1, ev :: out.2)

def flushPendingLocked (d : Dispatcher) : Dispatcher × List Event :=
  let revs := d.pending.keys
  let out := flushLoop revs d
  ({ out.1 with
      nextRev := (revs.getLast?.map (· + 1)).getD out.1.nextRev
      reorderFlushes := out.1.reorderFlushes + 1 },
    out.2)

/-- `ingest` from its loop on. -/
def settle (d : Dispatcher) : Dispatcher × List Event :=
  let out := d.ingestLoop
  if maxPendingEvents < out.1.pending.size then
    let flushed := out.1.flushPendingLocked
    (flushed.1, out.2 ++ flushed.2)
  else out

/-- `ingest`: the dispatcher after the call, and the events that it has released. -/
def ingest (ev : Event) (d : Dispatcher) : Dispatcher × List Event :=
  match d.hold ev with
  | none => (d, [])
  | some d => d.settle

def ingestAll : List Event → Dispatcher → Dispatcher × List Event
  | [], d => (d, [])
  | ev :: evs, d =>
    let out := ingestAll evs (d.ingest ev).1
    (out.1, (d.ingest ev).2 ++ out.2)

/-! ### The dispatcher as a reorder buffer -/

/-- `nextRev` and `pending`. -/
def buffer (d : Dispatcher) : Reorder Event := ⟨d.nextRev, d.pending⟩

def withBuffer (b : Reorder Event) (d : Dispatcher) : Dispatcher :=
  { d with nextRev := b.next, pending := b.held }

def releaseAll (evs : List Event) (d : Dispatcher) : Dispatcher :=
  evs.foldl (fun d ev => d.releaseLocked ev) d

@[simp] theorem buffer_withBuffer (b : Reorder Event) (d : Dispatcher) :
    (d.withBuffer b).buffer = b := rfl

theorem deliver_withBuffer (ev : Event) (id : ℕ) (b : Reorder Event) (d : Dispatcher) :
    (d.withBuffer b).deliver ev id = (d.deliver ev id).withBuffer b := by
  unfold deliver withBuffer
  split_ifs <;> rfl

theorem release_withBuffer (ev : Event) (b : Reorder Event) (d : Dispatcher) :
    (d.withBuffer b).release ev = (d.release ev).withBuffer b := by
  unfold release maybeCheckpoint withBuffer
  cases ev.id with
  | none => rfl
  | some id =>
    dsimp only
    split_ifs <;> rfl

theorem foldl_deliver_withBuffer (ev : Event) (ids : Multiset ℕ) (b : Reorder Event)
    (d : Dispatcher) : ids.foldl (fun d id => d.deliver ev id) (d.withBuffer b) =
      (ids.foldl (fun d id => d.deliver ev id) d).withBuffer b := by
  induction ids using Multiset.induction generalizing d with
  | empty => rfl
  | cons id ids ih =>
    rw [Multiset.foldl_cons, Multiset.foldl_cons, deliver_withBuffer, ih]

/-- **A release does not look at the buffer**, nor does it change it. -/
theorem releaseLocked_withBuffer (ev : Event) (b : Reorder Event) (d : Dispatcher) :
    (d.withBuffer b).releaseLocked ev = (d.releaseLocked ev).withBuffer b := by
  rw [releaseLocked, release_withBuffer, foldl_deliver_withBuffer]
  rfl

/-- An event that leaves `pending` is released. -/
theorem releaseLocked_erase (ev : Event) (r : ℤ) (d : Dispatcher) :
    { d with pending := d.pending.erase r }.releaseLocked ev =
      (d.releaseLocked ev).withBuffer ⟨d.nextRev, d.pending.erase r⟩ :=
  releaseLocked_withBuffer ev ⟨d.nextRev, d.pending.erase r⟩ d

theorem releaseAll_withBuffer (evs : List Event) (b : Reorder Event) (d : Dispatcher) :
    (d.withBuffer b).releaseAll evs = (d.releaseAll evs).withBuffer b := by
  induction evs generalizing d with
  | nil => rfl
  | cons ev evs ih =>
    show ((d.withBuffer b).releaseLocked ev).releaseAll evs = _
    rw [releaseLocked_withBuffer, ih]
    rfl

theorem releaseAll_reorderFlushes (evs : List Event) (d : Dispatcher) :
    (d.releaseAll evs).reorderFlushes = d.reorderFlushes := by
  induction evs generalizing d with
  | nil => rfl
  | cons ev evs ih =>
    show ((d.releaseLocked ev).releaseAll evs).reorderFlushes = _
    obtain ⟨_, _, _, _, _, h⟩ := releaseLocked_frame ev d
    rw [ih, h]

theorem releaseAll_append (evs evs' : List Event) (d : Dispatcher) :
    d.releaseAll (evs ++ evs') = (d.releaseAll evs).releaseAll evs' := List.foldl_append

theorem ingestLoop_none {d : Dispatcher} (h : d.pending[d.nextRev]? = none) :
    d.ingestLoop = (d, []) := by
  rw [ingestLoop]
  split
  · rfl
  · rename_i h'
    rw [h] at h'
    cases h'

theorem ingestLoop_some {d : Dispatcher} {ev : Event} (h : d.pending[d.nextRev]? = some ev) :
    d.ingestLoop = (((d.releaseLocked ev).withBuffer d.buffer.pop).ingestLoop.1,
      ev :: ((d.releaseLocked ev).withBuffer d.buffer.pop).ingestLoop.2) := by
  rw [ingestLoop]
  split
  · rename_i h'
    rw [h] at h'
    cases h'
  · rename_i ev' h'
    rw [h, Option.some.injEq] at h'
    subst h'
    dsimp only
    rw [releaseLocked_erase]
    rfl

/-- **The loop of `ingest` drains the buffer and releases what leaves it.** -/
theorem ingestLoop_eq (d : Dispatcher) :
    d.ingestLoop = ((d.releaseAll d.buffer.drain.2).withBuffer d.buffer.drain.1,
      d.buffer.drain.2) := by
  generalize hb : d.buffer = b
  induction b using Reorder.drain_induct generalizing d with
  | hnone b h =>
    subst hb
    rw [ingestLoop_none h, Reorder.drain_none h]
    rfl
  | hsome b ev h ih =>
    subst hb
    rw [ingestLoop_some h, Reorder.drain_some h, ih _ (buffer_withBuffer _ _),
      releaseAll_withBuffer]
    rfl

theorem settle_none {d : Dispatcher} (h : d.pending[d.nextRev]? = none) :
    d.settle = if maxPendingEvents < d.pending.size then d.flushPendingLocked else (d, []) := by
  rw [settle, ingestLoop_none h]
  rfl

theorem settle_some {d : Dispatcher} {ev : Event} (h : d.pending[d.nextRev]? = some ev) :
    d.settle = (((d.releaseLocked ev).withBuffer d.buffer.pop).settle.1,
      ev :: ((d.releaseLocked ev).withBuffer d.buffer.pop).settle.2) := by
  rw [settle, ingestLoop_some h, settle]
  dsimp only
  split_ifs <;> rfl

/-! ### Flushing -/

theorem flushLoop_eq (revs : List ℤ) (d : Dispatcher) (h : revs.Pairwise (· < ·)) :
    flushLoop revs d =
      ((d.releaseAll (revs.filterMap fun r => d.pending[r]?)).withBuffer
        ⟨d.nextRev, revs.foldl (fun m r => m.erase r) d.pending⟩,
        revs.filterMap fun r => d.pending[r]?) := by
  induction revs generalizing d with
  | nil => rfl
  | cons r revs ih =>
    obtain ⟨hlt, hrest⟩ := List.pairwise_cons.mp h
    rw [flushLoop, List.filterMap_cons, List.foldl_cons]
    cases hr : d.pending[r]? with
    | none =>
      have herase : d.pending.erase r = d.pending := by
        refine Std.ExtTreeMap.ext_getElem? fun k => ?_
        rw [getElem?_erase]
        split_ifs with hk
        · rw [← hk, hr]
        · rfl
      dsimp only
      rw [ih d hrest, herase]
    | some ev =>
      -- the other revisions are still there
      have hsame : (revs.filterMap fun k => (d.pending.erase r)[k]?) =
          revs.filterMap fun k => d.pending[k]? := by
        refine List.filterMap_congr fun k hk => ?_
        rw [getElem?_erase, if_neg (hlt k hk).ne]
      dsimp only
      rw [releaseLocked_erase, ih _ hrest]
      show ((((d.releaseLocked ev).withBuffer _).releaseAll
        (revs.filterMap fun k => (d.pending.erase r)[k]?)).withBuffer
          ⟨d.nextRev, revs.foldl (fun m r => m.erase r) (d.pending.erase r)⟩,
        ev :: (revs.filterMap fun k => (d.pending.erase r)[k]?)) = _
      rw [hsame, releaseAll_withBuffer]
      rfl

theorem foldl_erase (revs : List ℤ) (m : Std.ExtTreeMap ℤ Event) (r : ℤ) :
    (revs.foldl (fun m r => m.erase r) m)[r]? = if r ∈ revs then none else m[r]? := by
  induction revs generalizing m with
  | nil => simp
  | cons k revs ih =>
    rw [List.foldl_cons, ih, getElem?_erase]
    by_cases hk : k = r
    · simp [hk]
    · simp [hk, Ne.symm hk]

/-- **`flushPendingLocked` flushes the buffer and releases what leaves it.** -/
theorem flushPendingLocked_eq (d : Dispatcher) :
    d.flushPendingLocked =
      ({ (d.releaseAll d.buffer.flush.2).withBuffer d.buffer.flush.1 with
          reorderFlushes := d.reorderFlushes + 1 },
        d.buffer.flush.2) := by
  have hempty : d.pending.keys.foldl (fun m r => m.erase r) d.pending = ∅ := by
    refine Std.ExtTreeMap.ext_getElem? fun r => ?_
    rw [foldl_erase, Std.ExtTreeMap.getElem?_empty]
    split_ifs with hr
    · rfl
    · rw [mem_keys_iff_getElem?, Option.not_isSome_iff_eq_none] at hr
      exact hr
  have hnext : (d.pending.keys.getLast?.map (· + 1)).getD d.nextRev =
      d.pending.keys.getLast?.getD (d.nextRev - 1) + 1 := by
    cases d.pending.keys.getLast? with
    | none =>
      show d.nextRev = d.nextRev - 1 + 1
      omega
    | some last => rfl
  rw [flushPendingLocked, flushLoop_eq _ _ (keys_sorted _), hempty]
  dsimp only [withBuffer]
  rw [hnext, releaseAll_reorderFlushes]
  rfl

/-! ### Orderly releases -/

/-- What holds between two calls, when the events in `out` have been released. -/
structure Rests (out : List Event) (d : Dispatcher) : Prop where
  orderly : Reorder.Orderly Event.rev out d.buffer
  settled : d.pending[d.nextRev]? = none
  size : d.pending.size ≤ maxPendingEvents
  nonneg : 0 ≤ d.nextRev
  unprimed : d.nextRev = 0 → d.pending = ∅ ∧ out = []

theorem hold_some {d d' : Dispatcher} {ev : Event} (h : d.hold ev = some d') :
    0 < ev.rev ∧ d'.nextRev = (if d.nextRev = 0 then ev.rev else d.nextRev) ∧
      d'.nextRev ≤ ev.rev ∧ d' = d.withBuffer ⟨d'.nextRev, d.pending.insert ev.rev ev⟩ := by
  rw [Dispatcher.hold] at h
  dsimp only at h
  split_ifs at h with hpos hz hlate
  all_goals
    cases h
    exact ⟨by omega, by simp [hz], by dsimp only; omega, rfl⟩

section Calls

variable {out : List Event} {d d' : Dispatcher} {ev : Event}

/-- The first part of `ingest` puts the event into the buffer, which starts at the event if the
dispatcher was not primed. -/
theorem Rests.hold (h : Rests out d) (hd : d.hold ev = some d') :
    Reorder.Orderly Event.rev out d'.buffer ∧ 0 < d'.nextRev := by
  obtain ⟨hpos, hnext, hle, hd'⟩ := hold_some hd
  have hbuf : d'.buffer = Reorder.put ev.rev ev ⟨d'.nextRev, d.pending⟩ := by
    rw [hd']
    rfl
  rw [hbuf]
  have hnn := h.nonneg
  refine ⟨Reorder.Orderly.put ?_ hle, ?_⟩
  · by_cases hz : d.nextRev = 0
    · obtain ⟨hp, hout⟩ := h.unprimed hz
      rw [hp, hout]
      exact ⟨fun r x hx => by simp at hx, List.Pairwise.nil, fun x hx => nomatch hx⟩
    · rw [hnext, if_neg hz]
      exact h.orderly
  · rw [hnext]
    split_ifs <;> omega

/-- **A call of `ingest` keeps the invariant.** -/
theorem Rests.ingest (h : Rests out d) (ev : Event) :
    Rests (out ++ (d.ingest ev).2) (d.ingest ev).1 := by
  rw [Dispatcher.ingest]
  cases hd : d.hold ev with
  | none =>
    rw [List.append_nil]
    exact h
  | some d' =>
    show Rests (out ++ d'.settle.2) d'.settle.1
    obtain ⟨horder, hpos⟩ := h.hold hd
    have hdrain := horder.drain
    have hle := Reorder.le_drain_next d'.buffer
    have hpos' : 0 < d'.buffer.drain.1.next := lt_of_lt_of_le hpos hle
    rw [settle, ingestLoop_eq]
    dsimp only
    split_ifs with hmany
    · rw [flushPendingLocked_eq]
      have hflush := hdrain.flush
      have hle' := hdrain.le_flush_next
      rw [List.append_assoc] at hflush
      exact ⟨hflush, Std.ExtTreeMap.getElem?_empty, by simp [withBuffer, Reorder.flush],
        (hpos'.trans_le hle').le, fun h0 => absurd h0 (hpos'.trans_le hle').ne'⟩
    · exact ⟨hdrain, Reorder.drain_settled _, by simpa using hmany, hpos'.le,
        fun h0 => absurd h0 hpos'.ne'⟩

/-- `Calls d₀ out d`: calls of `ingest` lead from `d₀` to `d` and have released `out`.  In between
subscribers may come, go and read their channels, which leaves `nextRev` and `pending` alone. -/
inductive Calls (d₀ : Dispatcher) : List Event → Dispatcher → Prop
  | start : Calls d₀ [] d₀
  | ingest {out : List Event} {d : Dispatcher} (ev : Event) : Calls d₀ out d →
      Calls d₀ (out ++ (d.ingest ev).2) (d.ingest ev).1
  | other {out : List Event} {d d' : Dispatcher} : Calls d₀ out d → d'.nextRev = d.nextRev →
      d'.pending = d.pending → Calls d₀ out d'

theorem Calls.rests {d₀ : Dispatcher} (h : Calls d₀ out d) (hp : d₀.pending = ∅)
    (hn : 0 ≤ d₀.nextRev) : Rests out d := by
  induction h with
  | start =>
    refine ⟨⟨fun r x hx => ?_, List.Pairwise.nil, fun x hx => nomatch hx⟩, ?_, ?_, hn,
      fun _ => ⟨hp, rfl⟩⟩
    · simp [buffer, hp] at hx
    · simp [hp]
    · simp [hp]
  | ingest ev _ ih => exact ih.ingest ev
  | @other out d d' _ hnext hpend ih =>
    have hbuf : d'.buffer = d.buffer := by rw [buffer, hnext, hpend, buffer]
    refine ⟨hbuf ▸ ih.orderly, ?_, ?_, ?_, ?_⟩
    · rw [hnext, hpend]
      exact ih.settled
    · rw [hpend]
      exact ih.size
    · rw [hnext]
      exact ih.nonneg
    · rw [hnext, hpend]
      exact ih.unprimed

theorem Calls.ingestAll {d₀ : Dispatcher} (h : Calls d₀ out d) (evs : List Event) :
    Calls d₀ (out ++ (d.ingestAll evs).2) (d.ingestAll evs).1 := by
  induction evs generalizing out d with
  | nil =>
    rw [Dispatcher.ingestAll, List.append_nil]
    exact h
  | cons ev evs ih =>
    rw [Dispatcher.ingestAll]
    dsimp only
    rw [← List.append_assoc]
    exact ih (h.ingest ev)

end Calls

/-- **Reorder buffer safety.**  Whatever is ingested, in any order and any number of times, into a
dispatcher that holds nothing back at first, primed or not: events are released in strictly
ascending order, and after every call `nextRev` is above all released revisions, is not held back,
is below all that are, and at most `maxPendingEvents` are. -/
theorem ingest_orderly (d₀ : Dispatcher) (hp : d₀.pending = ∅) (hn : 0 ≤ d₀.nextRev)
    (out : List Event) (d : Dispatcher) (h : Calls d₀ out d) :
    (out.map Event.rev).Pairwise (· < ·) ∧ (∀ ev ∈ out, ev.rev < d.nextRev) ∧
      d.nextRev ∉ d.pending ∧ (∀ r ∈ d.pending, d.nextRev < r) ∧
      d.pending.size ≤ maxPendingEvents := by
  have hr := h.rests hp hn
  have hnot : d.nextRev ∉ d.pending := by
    rw [mem_iff_getElem?, hr.settled]
    simp
  refine ⟨List.pairwise_map.mpr hr.orderly.ascending, hr.orderly.below, hnot, fun r hm => ?_,
    hr.size⟩
  obtain ⟨ev, hev⟩ := Option.isSome_iff_exists.mp (mem_iff_getElem?.mp hm)
  refine lt_of_le_of_ne (hr.orderly.keyed r ev hev).2 ?_
  rintro he
  exact hnot (he ▸ hm)

def deletion (rev : ℤ) : Event := ⟨.delete, [97], rev, none, none, 0, none⟩

/-- A dispatcher that was not primed releases the first event at once and goes on from it; revision 9
comes twice and before 8, and the first event once more. -/
theorem unprimed_orderly :
    ∃ out d, Calls newEventDispatcher out d ∧ out.map Event.rev = [7, 8, 9] ∧
      (∀ ev ∈ out, ev.rev < d.nextRev) ∧ d.nextRev ∉ d.pending := by
  have hstart : Calls newEventDispatcher [] newEventDispatcher := .start
  have hcalls := hstart.ingestAll [deletion 7, deletion 9, deletion 9, deletion 7, deletion 8]
  obtain ⟨_, hbelow, hnot, _⟩ := ingest_orderly _ rfl (by decide) _ _ hcalls
  exact ⟨_, _, hcalls, by decide +kernel, hbelow, hnot⟩

/-! ### The order of arrival -/

def Fits : List Event → Dispatcher → Prop
  | [], _ => True
  | ev :: evs, d =>
    (∀ d', d.hold ev = some d' → d'.ingestLoop.1.pending.size ≤ maxPendingEvents) ∧
      Fits evs (d.ingest ev).1

/-- A primed dispatcher that does not overflow hands the event to its buffer and releases what
leaves it. -/
theorem ingest_accept {ev : Event} {d : Dispatcher} (hnext : 1 ≤ d.nextRev)
    (hfit : ∀ d', d.hold ev = some d' → d'.ingestLoop.1.pending.size ≤ maxPendingEvents) :
    d.ingest ev = ((d.releaseAll (d.buffer.accept Event.rev ev).2).withBuffer
      (d.buffer.accept Event.rev ev).1, (d.buffer.accept Event.rev ev).2) := by
  by_cases hpos : 0 < ev.rev
  · by_cases hlate : ev.rev < d.nextRev
    · rw [ingest, hold_eq hpos (by omega), if_pos hlate, Reorder.accept_late hlate]
      rfl
    · have hhold := hold_eq hpos (show d.nextRev ≠ 0 by omega)
      rw [if_neg hlate] at hhold
      have hsize := hfit _ hhold
      rw [ingest, hhold, Reorder.accept_due (show d.nextRev ≤ ev.rev by omega)]
      show settle _ = _
      rw [settle]
      dsimp only
      rw [if_neg (by omega), ingestLoop_eq]
      show (((d.withBuffer ⟨d.nextRev, d.pending.insert ev.rev ev⟩).releaseAll
        (d.buffer.put ev.rev ev).drain.2).withBuffer (d.buffer.put ev.rev ev).drain.1, _) = _
      rw [releaseAll_withBuffer]
      rfl
  · rw [ingest, hold, if_pos (by omega), Reorder.accept_late (show ev.rev < d.nextRev by omega)]
    rfl

theorem fits_of_length {evs : List Event} {d : Dispatcher} (hnext : 1 ≤ d.nextRev)
    (h : d.pending.size + evs.length ≤ maxPendingEvents) : d.Fits evs := by
  induction evs generalizing d with
  | nil => trivial
  | cons ev evs ih =>
    rw [List.length_cons] at h
    have hput : (d.buffer.put ev.rev ev).drain.1.held.size ≤ d.pending.size + 1 :=
      (Reorder.drain_size_le _).trans Std.ExtTreeMap.size_insert_le
    have hone : ∀ d', d.hold ev = some d' → d'.ingestLoop.1.pending.size ≤ maxPendingEvents := by
      intro d' hd
      obtain ⟨_, hn, _, hd'⟩ := hold_some hd
      rw [if_neg (by omega)] at hn
      have hbuf : d'.buffer = d.buffer.put ev.rev ev := by
        rw [hd', hn]
        rfl
      rw [ingestLoop_eq, hbuf]
      exact hput.trans (by omega)
    refine ⟨hone, ?_⟩
    rw [ingest_accept hnext hone]
    refine ih (hnext.trans (Reorder.le_accept_next ev d.buffer)) ?_
    have hsize : (d.buffer.accept Event.rev ev).1.held.size ≤ d.pending.size + 1 := by
      by_cases hlate : ev.rev < d.nextRev
      · rw [Reorder.accept_late hlate]
        exact Nat.le_succ _
      · rw [Reorder.accept_due (show d.nextRev ≤ ev.rev by omega)]
        exact hput
    show (d.buffer.accept Event.rev ev).1.held.size + evs.length ≤ maxPendingEvents
    omega

theorem ingestAll_accept {evs : List Event} {d : Dispatcher} (hnext : 1 ≤ d.nextRev)
    (hfit : d.Fits evs) :
    d.ingestAll evs = ((d.releaseAll (d.buffer.acceptAll Event.rev evs).2).withBuffer
      (d.buffer.acceptAll Event.rev evs).1, (d.buffer.acceptAll Event.rev evs).2) := by
  induction evs generalizing d with
  | nil => rfl
  | cons ev evs ih =>
    have hone := ingest_accept hnext hfit.1
    have hrest := hfit.2
    rw [hone] at hrest
    have hle : 1 ≤ (d.buffer.accept Event.rev ev).1.next :=
      hnext.trans (Reorder.le_accept_next ev d.buffer)
    rw [ingestAll, hone, Reorder.acceptAll]
    dsimp only
    rw [ih hle hrest, buffer_withBuffer, releaseAll_withBuffer, releaseAll_append]
    rfl

/-- **Arrival order does not matter.**  The same events, one for each revision, are ingested twice
from the same primed dispatcher, in two orders, each possibly more than once.  If the buffer never
overflows, both end in the same dispatcher (watermarks, buffer, checkpoints, subscribers cut loose,
channels) and have released the same events in the same order. -/
theorem ingest_order_irrelevant (d : Dispatcher) (hnext : 1 ≤ d.nextRev)
    (hwait : ∀ r ev, d.pending[r]? = some ev → ev.rev = r ∧ d.nextRev < r)
    (evs evs' : List Event) (hmem : ∀ ev, ev ∈ evs ↔ ev ∈ evs')
    (hone : ∀ a ∈ evs, ∀ b ∈ evs, a.rev = b.rev → a = b)
    (hheld : ∀ a ∈ evs, ∀ b, d.pending[a.rev]? = some b → a = b)
    (hfit : d.Fits evs) (hfit' : d.Fits evs') : d.ingestAll evs = d.ingestAll evs' := by
  have hsettled : d.buffer.held[d.buffer.next]? = none := by
    rw [← Option.not_isSome_iff_eq_none]
    intro hsome
    obtain ⟨ev, hev⟩ := Option.isSome_iff_exists.mp hsome
    exact lt_irrefl _ (hwait _ ev hev).2
  have hsingle : Reorder.Single Event.rev evs d.buffer :=
    ⟨fun r ev hev => (hwait r ev hev).1, hone, hheld⟩
  rw [ingestAll_accept hnext hfit, ingestAll_accept hnext hfit',
    Reorder.acceptAll_congr hsingle hsettled hmem]

/-- Revisions 2 and 3 arrive at a dispatcher that waits for 2, the wrong way round and 3 twice. -/
theorem swapped_irrelevant :
    let d := newEventDispatcher.prime (.ok 1) (.ok 1)
    let a : Event := ⟨.delete, [97], 2, none, none, 0, none⟩
    let b : Event := ⟨.delete, [98], 3, none, none, 0, none⟩
    d.ingestAll [b, a, b] = d.ingestAll [a, b] := by
  intro d a b
  have hnext : 1 ≤ d.nextRev := by decide
  have hempty (r : ℤ) : d.pending[r]? = none := Std.ExtTreeMap.getElem?_empty
  refine ingest_order_irrelevant d hnext (fun r ev hev => ?_) _ _ (fun ev => ?_) ?_
    (fun x _ y hy => ?_) (fits_of_length hnext (by decide)) (fits_of_length hnext (by decide))
  · rw [hempty] at hev
    cases hev
  · simp only [List.mem_cons, List.not_mem_nil, or_false]
    tauto
  · decide
  · rw [hempty] at hy
    cases hy

end Dispatcher

/-! ### Step by step -/

namespace Feed

/-- What is left of `flushPendingLocked` when its loop has `revs` to go. -/
def finish (revs : List ℤ) (last : ℤ) (d : Dispatcher) : Dispatcher × List Event :=
  ({ (d.flushLoop revs).1 with
      nextRev := last + 1
      reorderFlushes := (d.flushLoop revs).1.reorderFlushes + 1 },
    (d.flushLoop revs).2)

/-- What is left when `releaseLocked` returns to its caller. -/
def resume : Caller → Dispatcher → Dispatcher × List Event
  | .drain, d => { d with nextRev := d.nextRev + 1 }.settle
  | .flush revs last, d => finish revs last d

/-- What the call that holds the lock will have done when it returns, if no channel is read before:
the dispatcher and the events it still releases. -/
def rest (f : Feed) : Dispatcher × List Event :=
  match f.lock with
  | .free => (f.disp, [])
  | .drain => f.disp.settle
  | .fan ev todo caller => resume caller (todo.val.foldl (fun d id => d.deliver ev id) f.disp)
  | .flush revs last => finish revs last f.disp

theorem flushPendingLocked_finish (d : Dispatcher) : d.flushPendingLocked =
    finish d.pending.keys (d.pending.keys.getLast?.getD (d.nextRev - 1)) d := by
  rw [Dispatcher.flushPendingLocked, finish]
  cases hk : d.pending.keys with
  | nil => simp [Dispatcher.flushLoop]
  | cons r revs => simp [List.getLast?_cons]

theorem release_rest (ev : Event) (f : Feed) : (f.release f.disp.nextRev ev .drain).rest =
    ((f.disp.releaseLocked ev).withBuffer f.disp.buffer.pop).settle := by
  show resume .drain ({ f.disp with
    pending := f.disp.pending.erase f.disp.nextRev }.releaseLocked ev) = _
  rw [Dispatcher.releaseLocked_erase]
  rfl

/-- **No step of the holder of the lock changes what its call does**, whatever the order of the
subscribers. -/
theorem rest_dispatch {f f' : Feed} {id : ℕ} (h : f.dispatch id = some f') :
    f'.rest.1 = f.rest.1 ∧ f'.released ++ f'.rest.2 = f.released ++ f.rest.2 := by
  cases dispatch_iff.mp h with
  | drained ev hl hev =>
    rw [show f.rest = f.disp.settle by rw [rest, hl], Dispatcher.settle_some hev, release_rest]
    exact ⟨rfl, by rw [release, List.append_assoc, List.singleton_append]⟩
  | flush hl hnone hmany =>
    rw [show f.rest = f.disp.settle by rw [rest, hl], Dispatcher.settle_none hnone, if_pos hmany,
      flushPendingLocked_finish]
    exact ⟨rfl, rfl⟩
  | unlock hl hnone hfew =>
    rw [show f.rest = f.disp.settle by rw [rest, hl], Dispatcher.settle_none hnone, if_neg hfew]
    exact ⟨rfl, rfl⟩
  | next ev hl =>
    rw [rest, rest, hl]
    exact ⟨rfl, rfl⟩
  | resume ev revs last hl =>
    rw [rest, rest, hl]
    exact ⟨rfl, rfl⟩
  | deliver ev todo caller hl hid =>
    -- the order of the subscribers does not matter
    rw [show f.rest = resume caller (todo.val.foldl (fun d id => d.deliver ev id) f.disp) by
      rw [rest, hl], ← Multiset.cons_erase (Finset.mem_val.mpr hid), Multiset.foldl_cons]
    exact ⟨rfl, rfl⟩
  | flushed ev r revs last hl hev =>
    rw [show f.rest = finish (r :: revs) last f.disp by rw [rest, hl], finish, Dispatcher.flushLoop,
      hev]
    exact ⟨rfl, by rw [release, List.append_assoc, List.singleton_append]; rfl⟩
  | skip r revs last hl hnone =>
    rw [show f.rest = finish (r :: revs) last f.disp by rw [rest, hl], finish, Dispatcher.flushLoop,
      hnone]
    exact ⟨rfl, rfl⟩
  | done last hl =>
    rw [rest, rest, hl]
    exact ⟨rfl, rfl⟩

/-- **A call of `ingest`, step by step, does what `ingest` does**: once its steps have led to the
release of the lock. -/
theorem ingest_steps {f f₁ f₂ : Feed} {ev : Event} (hcall : f.ingest ev = some f₁)
    (hsteps : Base.Reach (fun f id => f.dispatch id) (fun _ => True) f₁ f₂)
    (hfree : f₂.lock = .free) : f₂.disp = (f.disp.ingest ev).1 ∧
      f₂.released = f.released ++ (f.disp.ingest ev).2 := by
  have hstart : f₁.rest = f.disp.ingest ev ∧ f₁.released = f.released := by
    rw [Dispatcher.ingest]
    obtain ⟨hl, _, ⟨hd, rfl⟩ | ⟨d, hd, rfl⟩⟩ := ingest_iff.mp hcall <;> rw [hd]
    · exact ⟨by rw [rest, hl], rfl⟩
    · exact ⟨rfl, rfl⟩
  have hend := hsteps.inv
    (I := fun g => g.rest.1 = f₁.rest.1 ∧ g.released ++ g.rest.2 = f₁.released ++ f₁.rest.2)
    ⟨rfl, rfl⟩ fun g id g' ih hg _ => by
      obtain ⟨hd, hr⟩ := rest_dispatch hg
      exact ⟨hd.trans ih.1, hr.trans ih.2⟩
  have hrest : f₂.rest = (f₂.disp, []) := by rw [rest, hfree]
  rw [hrest, hstart.1, hstart.2, List.append_nil] at hend
  exact hend

end Feed

end REtcd.Server
