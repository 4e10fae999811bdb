import REtcd.Base.Machine
import REtcd.Base.Once

/-!
# The context of a watch

`cancelOnParent` makes a context that is done when its parent is, or when its cancel function was
called.  The cancel function is called by the receive loop, at the end of the stream and by the watch
itself, and it closes a channel, which must not happen twice.  `Done` starts a goroutine that waits
for the parent and for that channel, and closes a second one.

Here any number of calls of the cancel function and of `Done` run next to each other, each of them at
any point of its `Do`.  `Sys` has one flag for all this, which is set as soon as the context is
cancelled or its stream done; that is `CancelCtx.ended`.  The context of the code follows it: what it
reports is true, and what is true it can report after at most two steps of the goroutine
(`cancelOnParent_follows`).
-/

namespace REtcd.Server

open Base

/-- A channel on which nothing is sent.  To close it twice is a panic. -/
structure Signal where
  closed : Bool
  panicked : Bool
  deriving DecidableEq, Repr

def Signal.make : Signal := ⟨false, false⟩

def Signal.close (c : Signal) : Signal :=
  if c.closed then { c with panicked := true } else { c with closed := true }

theorem Signal.close_open {c : Signal} (hc : c.closed = false) (hp : c.panicked = false) :
    c.close = ⟨true, false⟩ := by
  rw [Signal.close, hc, hp]
  rfl

theorem Signal.closed_close (c : Signal) : c.close.closed = true := by
  rw [Signal.close]
  split_ifs with hc
  · exact hc
  · rfl

/-- The goroutine of `Done`: at its `select`, before `close(c.merged)`, or at its end. -/
inductive Waiter where
  | selecting
  | woken
  | finished
  deriving DecidableEq, Repr

/-- `cancelCtxImpl`, its parent, and the cancel function with its `Once`: `cancel` and `done` are the
calls of the cancel function and of `Done`. -/
structure CancelCtx where
  parentDone : Bool
  cancel : OnceCalls
  ch : Signal
  done : OnceCalls
  waiters : List Waiter
  merged : Signal

inductive CtxAct where
  | parent
  | cancel (i : ℕ)
  | done (i : ℕ)
  | waiter (j : ℕ)
  deriving DecidableEq, Repr

namespace CancelCtx

def cancelOnParent (parentDone : Bool) : CancelCtx where
  parentDone := parentDone
  cancel := .start
  ch := .make
  done := .start
  waiters := []
  merged := .make

def waiterStep (s : CancelCtx) (j : ℕ) : Option CancelCtx :=
  match s.waiters[j]? with
  | some .selecting =>
    if s.parentDone || s.ch.closed then some { s with waiters := s.waiters.set j .woken } else none
  | some .woken => some { s with waiters := s.waiters.set j .finished, merged := s.merged.close }
  | _ => none

def step (s : CancelCtx) : CtxAct → Option CancelCtx
  | .parent => some { s with parentDone := true }
  | .cancel i =>
    (s.cancel.step i).map fun (ran, calls) =>
      { s with cancel := calls, ch := if ran then s.ch.close else s.ch }
  | .done i =>
    (s.done.step i).map fun (ran, calls) =>
      { s with done := calls, waiters := if ran then s.waiters ++ [.selecting] else s.waiters }
  | .waiter j => s.waiterStep j

def err (s : CancelCtx) : Option String := if s.merged.closed then some "context canceled" else none

/-- The parent is done or the cancel function was called. -/
def ended (s : CancelCtx) : Bool := s.parentDone || s.ch.closed

/-! ### The invariant -/

/-- The channels are closed, and the goroutine started, by those who should. -/
structure Follows (s : CancelCtx) : Prop where
  cancel : s.cancel.Fits
  done : s.done.Fits
  ch : s.ch.panicked = false ∧ (s.ch.closed = true ↔ s.cancel.Ran)
  none : ¬ s.done.Ran → s.waiters = []
  one : s.done.Ran → ∃ w, s.waiters = [w]
  merged : s.merged.panicked = false ∧ (s.merged.closed = true ↔ .finished ∈ s.waiters)
  woken : ∀ w ∈ s.waiters, w ≠ .selecting → s.ended = true

theorem not_ran_start : ¬ OnceCalls.start.Ran := by
  rintro (h | ⟨i, h⟩)
  · cases h
  · cases h

theorem follows_start (parentDone : Bool) : (cancelOnParent parentDone).Follows where
  cancel := OnceCalls.fits_start
  done := OnceCalls.fits_start
  ch := ⟨rfl, ⟨fun h => (by cases h), fun h => absurd h not_ran_start⟩⟩
  none _ := rfl
  one h := absurd h not_ran_start
  merged := ⟨rfl, ⟨fun h => (by cases h), fun h => (by cases h)⟩⟩
  woken w hw := by cases hw

variable {s s' : CancelCtx}

theorem Follows.cancelStep (h : s.Follows) {i : ℕ} (hs : s.step (.cancel i) = some s') :
    s'.Follows := by
  rw [step, Option.map_eq_some_iff] at hs
  obtain ⟨⟨ran, calls⟩, hs, rfl⟩ := hs
  have hfits := h.cancel.step hs
  cases ran with
  | true =>
    obtain ⟨hin, hran⟩ := OnceCalls.ran_step hs
    have hopen : s.ch.closed = false := by
      rw [← Bool.not_eq_true, h.ch.2]
      exact h.cancel.not_ran hin
    have hclose := Signal.close_open hopen h.ch.1
    refine ⟨hfits, h.done, ?_, h.none, h.one, h.merged, fun w hw hne => ?_⟩
    · dsimp only
      rw [if_pos rfl, hclose]
      exact ⟨rfl, ⟨fun _ => hran, fun _ => rfl⟩⟩
    · rw [ended]
      dsimp only
      rw [if_pos rfl, hclose, Bool.or_true]
  | false =>
    refine ⟨hfits, h.done, ⟨h.ch.1, ?_⟩, h.none, h.one, h.merged, h.woken⟩
    exact h.ch.2.trans (OnceCalls.ran_iff_step h.cancel hs).symm

theorem Follows.doneStep (h : s.Follows) {i : ℕ} (hs : s.step (.done i) = some s') :
    s'.Follows := by
  rw [step, Option.map_eq_some_iff] at hs
  obtain ⟨⟨ran, calls⟩, hs, rfl⟩ := hs
  have hfits := h.done.step hs
  cases ran with
  | true =>
    obtain ⟨hin, hran⟩ := OnceCalls.ran_step hs
    -- there was no goroutine before
    have hnil := h.none (h.done.not_ran hin)
    have hw : (if true = true then s.waiters ++ [Waiter.selecting] else s.waiters) =
        [.selecting] := by
      rw [if_pos rfl, hnil, List.nil_append]
    have hopen : s.merged.closed = false := by
      rw [← Bool.not_eq_true, h.merged.2, hnil]
      exact List.not_mem_nil
    refine ⟨h.cancel, hfits, h.ch, fun hnot => absurd hran hnot, fun _ => ⟨_, hw⟩,
      ⟨h.merged.1, ?_⟩, ?_⟩
    · dsimp only
      rw [hw, hopen]
      decide
    · dsimp only
      rw [hw]
      intro w hmem hne
      exact absurd (List.mem_singleton.mp hmem) hne
  | false =>
    have hiff := OnceCalls.ran_iff_step h.done hs
    exact ⟨h.cancel, hfits, h.ch, fun hnot => h.none fun hr => hnot (hiff.mpr hr),
      fun hr => h.one (hiff.mp hr), h.merged, h.woken⟩

theorem Follows.only (h : s.Follows) {j : ℕ} {w : Waiter} (hw : s.waiters[j]? = some w) :
    s.waiters = [w] ∧ j = 0 := by
  by_cases hran : s.done.Ran
  · obtain ⟨v, hv⟩ := h.one hran
    rw [hv] at hw ⊢
    cases j with
    | zero =>
      cases hw
      exact ⟨rfl, rfl⟩
    | succ j => cases hw
  · rw [h.none hran] at hw
    cases hw

theorem Follows.waiterStep (h : s.Follows) {j : ℕ} (hs : s.step (.waiter j) = some s') :
    s'.Follows := by
  rw [step, CancelCtx.waiterStep] at hs
  cases hw : s.waiters[j]? with
  | none =>
    rw [hw] at hs
    cases hs
  | some w =>
    rw [hw] at hs
    obtain ⟨honly, rfl⟩ := h.only hw
    have hnot : ¬ s.done.Ran → ∀ v : Waiter, [v] = [] := by
      intro hnot
      rw [h.none hnot] at honly
      cases honly
    cases w with
    | selecting =>
      dsimp only at hs
      split_ifs at hs with hend
      cases hs
      rw [honly, List.set_cons_zero]
      have hopen : s.merged.closed = false := by
        rw [← Bool.not_eq_true, h.merged.2, honly]
        decide
      refine ⟨h.cancel, h.done, h.ch, fun hn => hnot hn _, fun _ => ⟨_, rfl⟩, ⟨h.merged.1, ?_⟩, ?_⟩
      · dsimp only
        rw [hopen]
        decide
      · exact fun _ _ _ => hend
    | woken =>
      cases hs
      rw [honly, List.set_cons_zero]
      have hopen : s.merged.closed = false := by
        rw [← Bool.not_eq_true, h.merged.2, honly]
        decide
      have hend : s.ended = true := by
        refine h.woken .woken ?_ (by decide)
        rw [honly]
        exact List.mem_singleton_self _
      refine ⟨h.cancel, h.done, h.ch, fun hn => hnot hn _, fun _ => ⟨_, rfl⟩, ?_, fun _ _ _ => hend⟩
      dsimp only
      rw [Signal.close_open hopen h.merged.1]
      exact ⟨rfl, ⟨fun _ => List.mem_singleton_self _, fun _ => rfl⟩⟩
    | finished => cases hs

theorem Follows.step (h : s.Follows) {act : CtxAct} (hs : s.step act = some s') : s'.Follows := by
  cases act with
  | parent =>
    cases hs
    exact ⟨h.cancel, h.done, h.ch, h.none, h.one, h.merged, fun _ _ _ => rfl⟩
  | cancel i => exact h.cancelStep hs
  | done i => exact h.doneStep hs
  | waiter j => exact h.waiterStep hs

/-- Once the context has ended and `Done` was called, at most two steps of the goroutine close
`merged`. -/
theorem Follows.reports (h : s.Follows) {i : ℕ} (hi : s.done.calls i = .returned)
    (hend : s.ended = true) :
    ∃ n ≤ 2, ∃ s', run CancelCtx.step (fun _ => True) (List.replicate n (.waiter 0)) s = some s' ∧
      s'.merged.closed = true := by
  obtain ⟨w, hw⟩ := h.one (h.done.ran_of_returned hi)
  have hget : s.waiters[0]? = some w := by rw [hw]; rfl
  -- the last of the two steps
  have hlast : ∀ t : CancelCtx, t.waiters = [.woken] →
      t.step (.waiter 0) = some { t with waiters := [.finished], merged := t.merged.close } := by
    intro t ht
    rw [CancelCtx.step, CancelCtx.waiterStep, ht]
    rfl
  cases w with
  | selecting =>
    have hfirst : s.step (.waiter 0) = some { s with waiters := [.woken] } := by
      rw [CancelCtx.step, CancelCtx.waiterStep, hget]
      rw [ended] at hend
      dsimp only
      rw [if_pos hend, hw]
      rfl
    refine ⟨2, Nat.le_refl 2, { s with waiters := [.finished], merged := s.merged.close }, ?_,
      s.merged.closed_close⟩
    rw [List.replicate_succ, run, hfirst]
    dsimp only
    rw [if_pos trivial, List.replicate_succ, run, hlast _ rfl]
    rfl
  | woken =>
    refine ⟨1, by decide, { s with waiters := [.finished], merged := s.merged.close }, ?_,
      s.merged.closed_close⟩
    rw [List.replicate_succ, run, hlast s hw]
    rfl
  | finished =>
    refine ⟨0, by decide, s, rfl, ?_⟩
    rw [h.merged.2, hw]
    exact List.mem_singleton_self _

end CancelCtx

/-- **The context of a watch is safe to cancel from everywhere, and reports what is true.**  However
the calls of the cancel function and of `Done` are interleaved: no channel is closed twice, so nothing
panics, and at most one goroutine is started; once a call of the cancel function has returned, the
context is cancelled, and nobody waits for ever in a call; `Err` answers only if the context has
ended; and once it has ended and `Done` was called, at most two steps of the goroutine lead to that
answer. -/
theorem cancelOnParent_follows {parentDone : Bool} {s : CancelCtx}
    (hs : Reach CancelCtx.step (fun _ => True) (.cancelOnParent parentDone) s) :
    (s.ch.panicked = false ∧ s.merged.panicked = false ∧ s.waiters.length ≤ 1) ∧
    (∀ i, s.cancel.calls i = .returned → s.ended = true) ∧
    (∀ i, s.cancel.calls i = .returned ∨ ∃ j, s.step (.cancel j) ≠ none) ∧
    (∀ i, s.done.calls i = .returned ∨ ∃ j, s.step (.done j) ≠ none) ∧
    (s.err ≠ none → s.ended = true) ∧
    (∀ i, s.done.calls i = .returned → s.ended = true →
      ∃ n ≤ 2, ∃ s', run CancelCtx.step (fun _ => True) (List.replicate n (.waiter 0)) s = some s' ∧
        s'.err = some "context canceled") := by
  have h : s.Follows :=
    hs.inv (CancelCtx.follows_start parentDone) fun _ _ _ h hstep _ => h.step hstep
  refine ⟨⟨h.ch.1, h.merged.1, ?_⟩, fun i hi => ?_, fun i => ?_, fun i => ?_, fun herr => ?_,
    fun i hi hend => ?_⟩
  · by_cases hran : s.done.Ran
    · obtain ⟨w, hw⟩ := h.one hran
      rw [hw]
      exact Nat.le_refl 1
    · rw [h.none hran]
      exact Nat.zero_le 1
  · rw [CancelCtx.ended, h.ch.2.mpr (h.cancel.ran_of_returned hi), Bool.or_true]
  · refine (h.cancel.progress i).imp_right ?_
    rintro ⟨j, hj⟩
    refine ⟨j, fun hnone => hj ?_⟩
    rwa [CancelCtx.step, Option.map_eq_none_iff] at hnone
  · refine (h.done.progress i).imp_right ?_
    rintro ⟨j, hj⟩
    refine ⟨j, fun hnone => hj ?_⟩
    rwa [CancelCtx.step, Option.map_eq_none_iff] at hnone
  · have hclosed : s.merged.closed = true := by
      by_contra hopen
      exact herr (if_neg hopen)
    exact h.woken _ (h.merged.2.mp hclosed) (by decide)
  · obtain ⟨n, hn, s', hrun, hclosed⟩ := h.reports hi hend
    exact ⟨n, hn, s', hrun, if_pos hclosed⟩

def twoCancels : List CtxAct :=
  [.done 0, .done 0, .done 0, .cancel 0, .cancel 0, .cancel 0, .cancel 1, .waiter 0]

theorem twoCancels_follows :
    ∃ s, Reach CancelCtx.step (fun _ => True) (.cancelOnParent false) s ∧
      s.cancel.calls 1 = .returned ∧ s.ch.panicked = false ∧ s.ended = true ∧ s.err = none ∧
      ∃ n ≤ 2, ∃ s', run CancelCtx.step (fun _ => True) (List.replicate n (.waiter 0)) s = some s' ∧
        s'.err = some "context canceled" := by
  obtain ⟨s, hs, hp⟩ := exists_of_run CancelCtx.step (fun _ => True) (.cancelOnParent false)
    twoCancels (fun s => decide (s.done.calls 0 = .returned ∧ s.cancel.calls 1 = .returned ∧
      s.err = none)) (by decide +kernel)
  obtain ⟨hdone, hcancel, herr⟩ := of_decide_eq_true hp
  obtain ⟨⟨hpanic, _⟩, hended, _, _, _, hreports⟩ := cancelOnParent_follows hs
  exact ⟨s, hs, hcancel, hpanic, hended 1 hcancel, herr, hreports 0 hdone (hended 1 hcancel)⟩

end REtcd.Server
