import REtcd.Base.Noninterference
import REtcd.Server.Feed

/-!
# Subscribers do not affect one another

All subscribers sit in one map, and `releaseLocked` goes over it in any order, sends without waiting
and deletes those that lag.  Whether one subscriber gets an event must not depend on the others.

A `Hub` is the dispatcher with what each subscriber was told and has received.  Its steps are the
calls of `ingest`, the single steps of the holder of the lock, `register`, `deregister` and the
subscribers' reads, in any order.  `alone a` is the hub in which the subscriber `a` has the
dispatcher to itself, under the ID 1.  `observer a` shows that a run of the hub, with whichever
others, is a run of this one: steps that concern only others are hidden, and all others are the same
step there.  So the events and reads that `a` takes part in decide what becomes of it
(`subscriber_isolated`).
-/

namespace REtcd.Server

open Base Store

/-! ### The hub -/

/-- The dispatcher, what each subscriber has received from its channel, and the boundary that
`register` gave to it. -/
structure Hub where
  feed : Feed
  got : ℕ → List Event
  boundary : ℕ → Option ℤ

inductive HubAct where
  | prime (current raw : Except GoError ℤ)
  | ingest (ev : Event)
  /-- A step of the holder of the lock; `id` is the subscriber whose turn it may be. -/
  | dispatch (id : ℕ)
  | register (key rangeEnd : Key)
  | deregister (id : ℕ)
  /-- A subscriber looks into its channel. -/
  | receive (id : ℕ)
  deriving DecidableEq

namespace Hub

def start : Hub where
  feed := ⟨[], [], [], .newEventDispatcher, .free, [], 0, []⟩
  got := fun _ => []
  boundary := fun _ => none

/-- A call of `ingest`, up to its loop. -/
def ingest (ev : Event) (s : Hub) : Hub :=
  match s.feed.disp.hold ev with
  | none => s
  | some d => { s with feed := { s.feed with disp := d, lock := .drain } }

def setSub (id : ℕ) (sub : WatchSub) (s : Hub) : Hub :=
  { s with feed := { s.feed with
      disp := { s.feed.disp with sub := Function.update s.feed.disp.sub id sub } } }

def receive (id : ℕ) (s : Hub) : Hub :=
  match (s.feed.disp.sub id).ch with
  | [] => s
  | ev :: ch =>
    { s.setSub id { s.feed.disp.sub id with ch := ch } with
      got := Function.update s.got id (s.got id ++ [ev]) }

def register (key rangeEnd : Key) (s : Hub) : Hub :=
  { s with
    feed := { s.feed with disp := (s.feed.disp.register key rangeEnd).1 }
    boundary := Function.update s.boundary (s.feed.disp.register key rangeEnd).2
      (some s.feed.disp.latestRev) }

/-- The steps.  `ingest`, `register` and `deregister` wait for the lock. -/
def step (s : Hub) : HubAct → Option Hub
  | .prime current raw =>
    if s.feed.lock = .free then
      some { s with feed := { s.feed with disp := s.feed.disp.prime current raw } }
    else none
  | .ingest ev => if s.feed.lock = .free then some (s.ingest ev) else none
  | .dispatch id => (s.feed.dispatch id).map fun f => { s with feed := f }
  | .register key rangeEnd =>
    if s.feed.lock = .free then some (s.register key rangeEnd) else none
  | .deregister id =>
    if s.feed.lock = .free then
      some { s with feed := { s.feed with disp := s.feed.disp.deregister id } }
    else none
  | .receive id => some (s.receive id)

end Hub

/-! ### One subscriber alone -/

/-- The set with the member `a` alone, under the name 1. -/
def only (a : ℕ) (s : Finset ℕ) : Finset ℕ := if a ∈ s then {1} else ∅

/-- The entry of `a` alone, under the name 1. -/
def onlyAt {β : Type} (a : ℕ) (f : ℕ → β) (default : β) : ℕ → β :=
  Function.update (fun _ => default) 1 (f a)

def onlyID (a nextID : ℕ) : ℕ := if 0 < a ∧ a ≤ nextID then 1 else 0

section Only

variable {β : Type} {a id : ℕ} (f : ℕ → β) (x y : β)

@[simp] theorem only_empty : only a ∅ = ∅ := rfl

@[simp] theorem mem_only_one {s : Finset ℕ} : 1 ∈ only a s ↔ a ∈ s := by
  unfold only
  split_ifs with h
  · simp [h]
  · simp [h]

@[simp] theorem only_erase_self {s : Finset ℕ} : only a (s.erase a) = (only a s).erase 1 := by
  unfold only
  split_ifs with h
  all_goals simp_all

theorem only_erase_of_ne {s : Finset ℕ} (h : id ≠ a) : only a (s.erase id) = only a s := by
  simp [only, h.symm]

theorem only_insert_self {s : Finset ℕ} : only a (insert a s) = insert 1 (only a s) := by
  unfold only
  split_ifs with h
  all_goals simp_all

theorem only_insert_of_ne {s : Finset ℕ} (h : id ≠ a) : only a (insert id s) = only a s := by
  simp [only, h.symm]

@[simp] theorem onlyAt_one : onlyAt a f y 1 = f a := Function.update_self _ _ _

@[simp] theorem onlyAt_update_self :
    onlyAt a (Function.update f a x) y = Function.update (onlyAt a f y) 1 x := by
  unfold onlyAt
  rw [Function.update_self, Function.update_idem]

theorem onlyAt_update_of_ne (h : id ≠ a) : onlyAt a (Function.update f id x) y = onlyAt a f y := by
  unfold onlyAt
  rw [Function.update_of_ne h.symm]

theorem onlyID_register {n : ℕ} (h : n + 1 = a) : onlyID a n = 0 ∧ onlyID a (n + 1) = 1 := by
  subst h
  simp [onlyID]

theorem onlyID_register_of_ne {n : ℕ} (h : n + 1 ≠ a) : onlyID a (n + 1) = onlyID a n := by
  have hle : a ≤ n + 1 ↔ a ≤ n := by omega
  simp [onlyID, hle]

end Only

namespace Dispatcher

def alone (a : ℕ) (d : Dispatcher) : Dispatcher :=
  { d with
    subs := only a d.subs
    sub := onlyAt a d.sub ⟨[], [], [], false⟩
    nextID := onlyID a d.nextID }

end Dispatcher

def Lock.alone (a : ℕ) : Lock → Lock
  | .fan ev todo caller => .fan ev (only a todo) caller
  | l => l

def Feed.alone (a : ℕ) (f : Feed) : Feed :=
  { f with disp := f.disp.alone a, lock := f.lock.alone a }

/-- The hub as the subscriber `a` sees it. -/
def Hub.alone (a : ℕ) (s : Hub) : Hub where
  feed := s.feed.alone a
  got := onlyAt a s.got []
  boundary := onlyAt a s.boundary none

/-- The holder of the lock is about to serve the subscriber `id`. -/
def Lock.Serves (id : ℕ) : Lock → Prop
  | .fan _ todo _ => id ∈ todo
  | _ => False

instance (id : ℕ) (l : Lock) : Decidable (l.Serves id) := by
  cases l <;> unfold Lock.Serves <;> infer_instance

/-- What the actions are to the subscriber `a`: those that concern only others are hidden. -/
def HubAct.input (a : ℕ) (s : Hub) : HubAct → Option HubAct
  | .prime current raw => some (.prime current raw)
  | .ingest ev => some (.ingest ev)
  | .dispatch id => if s.feed.lock.Serves id ∧ id ≠ a then none else some (.dispatch 1)
  | .register key rangeEnd =>
    if s.feed.disp.nextID + 1 = a then some (.register key rangeEnd) else none
  | .deregister id => if id = a then some (.deregister 1) else none
  | .receive id => if id = a then some (.receive 1) else none

def HubAct.isCall : HubAct → Bool
  | .dispatch _ => false
  | _ => true

def HubAct.Own : HubAct → Prop
  | .dispatch id => id = 1
  | .deregister id => id = 1
  | .receive id => id = 1
  | _ => True

theorem HubAct.input_own {a : ℕ} {s : Hub} {act i : HubAct} (h : act.input a s = some i) :
    i.Own := by
  cases act with
  | prime current raw =>
    cases h
    trivial
  | ingest ev =>
    cases h
    trivial
  | dispatch id =>
    simp only [input, Option.ite_none_left_eq_some, Option.some.injEq] at h
    obtain ⟨_, rfl⟩ := h
    rfl
  | register key rangeEnd =>
    simp only [input, Option.ite_none_right_eq_some, Option.some.injEq] at h
    obtain ⟨_, rfl⟩ := h
    trivial
  | deregister id =>
    simp only [input, Option.ite_none_right_eq_some, Option.some.injEq] at h
    obtain ⟨_, rfl⟩ := h
    rfl
  | receive id =>
    simp only [input, Option.ite_none_right_eq_some, Option.some.injEq] at h
    obtain ⟨_, rfl⟩ := h
    rfl

theorem HubAct.input_receive {a : ℕ} {s : Hub} {act : HubAct}
    (h : act.input a s = some (.receive 1)) : act = .receive a := by
  cases act with
  | receive id =>
    simp only [input, Option.ite_none_right_eq_some, and_true] at h
    rw [h]
  | prime current raw => cases h
  | ingest ev => cases h
  | _ => simp [input] at h

/-! ### The dispatcher with others and alone -/

namespace Dispatcher

variable {a id : ℕ} (d : Dispatcher) (ev : Event)

theorem release_alone : (d.release ev).alone a = (d.alone a).release ev := by
  unfold release maybeCheckpoint
  cases ev.id with
  | none => rfl
  | some i => exact apply_ite (alone a) _ _ _

theorem sub_alone : (d.alone a).sub 1 = d.sub a := onlyAt_one d.sub ⟨[], [], [], false⟩

theorem deliver_alone : (d.deliver ev a).alone a = (d.alone a).deliver ev 1 := by
  unfold deliver
  rw [sub_alone]
  split_ifs
  · simp [alone]
  · simp [alone]
  · rfl

theorem deliver_other (h : id ≠ a) : (d.deliver ev id).alone a = d.alone a := by
  unfold deliver
  split_ifs
  · simp [alone, onlyAt_update_of_ne _ _ _ h]
  · simp [alone, onlyAt_update_of_ne _ _ _ h, only_erase_of_ne h]
  · rfl

theorem register_alone (key rangeEnd : Key) (h : d.nextID + 1 = a) :
    (d.register key rangeEnd).1.alone a = ((d.alone a).register key rangeEnd).1 := by
  obtain ⟨hbefore, hafter⟩ := onlyID_register h
  rw [← h] at hbefore hafter ⊢
  simp [register, alone, only_insert_self, hbefore, hafter]

theorem register_other (key rangeEnd : Key) (h : d.nextID + 1 ≠ a) :
    (d.register key rangeEnd).1.alone a = d.alone a := by
  simp [register, alone, only_insert_of_ne h, onlyAt_update_of_ne _ _ _ h, onlyID_register_of_ne h]

theorem hold_alone : (d.alone a).hold ev = (d.hold ev).map (alone a) := by
  unfold hold
  rw [apply_ite (Option.map (alone a)), apply_ite (Option.map (alone a))]
  rfl

end Dispatcher

namespace Feed

variable {f f' : Feed} {a id : ℕ}

theorem release_alone (r : ℤ) (ev : Event) (caller : Caller) :
    (f.release r ev caller).alone a = (f.alone a).release r ev caller := by
  have hdisp := Dispatcher.release_alone (a := a)
    { f.disp with pending := f.disp.pending.erase r } ev
  simp only [release, alone, Lock.alone, hdisp]
  rfl

theorem dispatch_alone (hother : ¬ (f.lock.Serves id ∧ id ≠ a)) (h : f.dispatch id = some f') :
    (f.alone a).dispatch 1 = some (f'.alone a) := by
  have hlock : (f.alone a).lock = f.lock.alone a := rfl
  rw [dispatch_iff] at h ⊢
  cases h with
  | drained ev hl hev =>
    rw [release_alone]
    exact .drained ev (by rw [hlock, hl]; rfl) hev
  | flush hl hnone hmany => exact .flush (by rw [hlock, hl]; rfl) hnone hmany
  | unlock hl hnone hmany => exact .unlock (by rw [hlock, hl]; rfl) hnone hmany
  | next ev hl => exact .next ev (by rw [hlock, hl]; rfl)
  | resume ev revs last hl => exact .resume ev revs last (by rw [hlock, hl]; rfl)
  | deliver ev todo caller hl hid =>
    have hserves : f.lock.Serves id := by
      rw [hl]
      exact hid
    obtain rfl : id = a := by
      by_contra hne
      exact hother ⟨hserves, hne⟩
    have hturn := @Turn.deliver (f.alone id) 1 ev (only id todo) caller
      (by rw [hlock, hl]; rfl) (mem_only_one.mpr hid)
    rw [← only_erase_self] at hturn
    have hdisp := Dispatcher.deliver_alone (a := id) f.disp ev
    simp only [alone, Lock.alone, hdisp] at hturn ⊢
    exact hturn
  | flushed ev r revs last hl hev =>
    rw [release_alone]
    exact .flushed ev r revs last (by rw [hlock, hl]; rfl) hev
  | skip r revs last hl hnone => exact .skip r revs last (by rw [hlock, hl]; rfl) hnone
  | done last hl => exact .done last (by rw [hlock, hl]; rfl)

theorem dispatch_other (hserves : f.lock.Serves id) (hne : id ≠ a) (h : f.dispatch id = some f') :
    f'.alone a = f.alone a := by
  cases hl : f.lock with
  | fan ev todo caller =>
    rw [hl] at hserves
    have hid : id ∈ todo := hserves
    unfold dispatch at h
    simp only [hl, if_neg (Finset.ne_empty_of_mem hid), if_pos hid] at h
    cases h
    simp only [alone, Lock.alone, hl, Dispatcher.deliver_other _ _ hne, only_erase_of_ne hne]
  | free =>
    rw [hl] at hserves
    exact hserves.elim
  | drain =>
    rw [hl] at hserves
    exact hserves.elim
  | flush revs last =>
    rw [hl] at hserves
    exact hserves.elim

end Feed

/-! ### The observer -/

namespace Hub

variable {s s' : Hub} {a id : ℕ}

theorem lock_alone_free : (s.alone a).feed.lock = .free ↔ s.feed.lock = .free := by
  change s.feed.lock.alone a = .free ↔ _
  cases s.feed.lock <;> simp [Lock.alone]

theorem ingest_alone (ev : Event) : (s.ingest ev).alone a = (s.alone a).ingest ev := by
  have hhold : (s.alone a).feed.disp.hold ev = (s.feed.disp.hold ev).map (·.alone a) :=
    Dispatcher.hold_alone s.feed.disp ev
  unfold ingest
  rw [hhold]
  cases s.feed.disp.hold ev with
  | none => rfl
  | some d => rfl

theorem receive_alone : (s.receive a).alone a = (s.alone a).receive 1 := by
  have hsub : (s.alone a).feed.disp.sub 1 = s.feed.disp.sub a := Dispatcher.sub_alone s.feed.disp
  have hgot : (s.alone a).got 1 = s.got a := onlyAt_one s.got []
  unfold receive
  rw [hsub]
  cases (s.feed.disp.sub a).ch with
  | nil => rfl
  | cons ev ch => simp [alone, setSub, Feed.alone, Dispatcher.alone]

theorem receive_other (h : id ≠ a) : (s.receive id).alone a = s.alone a := by
  unfold receive
  cases (s.feed.disp.sub id).ch with
  | nil => rfl
  | cons ev ch =>
    simp [alone, setSub, Feed.alone, Dispatcher.alone, onlyAt_update_of_ne _ _ _ h]

theorem register_alone (key rangeEnd : Key) (h : s.feed.disp.nextID + 1 = a) :
    (s.register key rangeEnd).alone a = (s.alone a).register key rangeEnd := by
  have hdisp := Dispatcher.register_alone s.feed.disp key rangeEnd h
  have hid : ((s.alone a).feed.disp.register key rangeEnd).2 = 1 :=
    congrArg (· + 1) (onlyID_register h).1
  have hlast : (s.feed.disp.register key rangeEnd).2 = a := h
  unfold register
  rw [hid, hlast]
  simp only [alone, Feed.alone, hdisp, onlyAt_update_self]
  rfl

theorem register_other (key rangeEnd : Key) (h : s.feed.disp.nextID + 1 ≠ a) :
    (s.register key rangeEnd).alone a = s.alone a := by
  have hdisp := Dispatcher.register_other s.feed.disp key rangeEnd h
  have hne : (s.feed.disp.register key rangeEnd).2 ≠ a := h
  simp only [register, alone, Feed.alone, hdisp, onlyAt_update_of_ne _ _ _ hne]

theorem deregister_alone (d : Dispatcher) :
    (d.deregister a).alone a = (d.alone a).deregister 1 := by
  simp [Dispatcher.deregister, Dispatcher.alone]

theorem deregister_other (d : Dispatcher) (h : id ≠ a) :
    (d.deregister id).alone a = d.alone a := by
  simp [Dispatcher.deregister, Dispatcher.alone, only_erase_of_ne h]

theorem step_other {act : HubAct} (hin : act.input a s = none) (h : s.step act = some s') :
    s'.alone a = s.alone a := by
  cases act with
  | prime current raw => cases hin
  | ingest ev => cases hin
  | dispatch id =>
    simp only [HubAct.input, ite_eq_left_iff, reduceCtorEq, imp_false, not_not] at hin
    obtain ⟨f, hf, rfl⟩ := Option.map_eq_some_iff.mp h
    have hfeed := Feed.dispatch_other hin.1 hin.2 hf
    simp only [alone, hfeed]
  | register key rangeEnd =>
    simp only [HubAct.input, ite_eq_right_iff, reduceCtorEq, imp_false] at hin
    simp only [step, Option.ite_none_right_eq_some, Option.some.injEq] at h
    rw [← h.2]
    exact register_other key rangeEnd hin
  | deregister id =>
    simp only [HubAct.input, ite_eq_right_iff, reduceCtorEq, imp_false] at hin
    simp only [step, Option.ite_none_right_eq_some, Option.some.injEq] at h
    rw [← h.2]
    simp only [alone, Feed.alone, deregister_other _ hin]
  | receive id =>
    simp only [HubAct.input, ite_eq_right_iff, reduceCtorEq, imp_false] at hin
    cases h
    exact receive_other hin

theorem step_own {act i : HubAct} (hin : act.input a s = some i) (h : s.step act = some s') :
    (s.alone a).step i = some (s'.alone a) := by
  cases act with
  | prime current raw =>
    cases hin
    simp only [step, Option.ite_none_right_eq_some, Option.some.injEq] at h ⊢
    rw [lock_alone_free, ← h.2]
    exact ⟨h.1, rfl⟩
  | ingest ev =>
    cases hin
    simp only [step, Option.ite_none_right_eq_some, Option.some.injEq] at h ⊢
    rw [lock_alone_free, ← h.2]
    exact ⟨h.1, (ingest_alone ev).symm⟩
  | dispatch id =>
    simp only [HubAct.input, Option.ite_none_left_eq_some, Option.some.injEq] at hin
    obtain ⟨hother, rfl⟩ := hin
    obtain ⟨f, hf, rfl⟩ := Option.map_eq_some_iff.mp h
    exact Option.map_eq_some_iff.mpr ⟨f.alone a, Feed.dispatch_alone hother hf, rfl⟩
  | register key rangeEnd =>
    simp only [HubAct.input, Option.ite_none_right_eq_some, Option.some.injEq] at hin
    obtain ⟨hid, rfl⟩ := hin
    simp only [step, Option.ite_none_right_eq_some, Option.some.injEq] at h ⊢
    rw [lock_alone_free, ← h.2]
    exact ⟨h.1, (register_alone key rangeEnd hid).symm⟩
  | deregister id =>
    simp only [HubAct.input, Option.ite_none_right_eq_some, Option.some.injEq] at hin
    obtain ⟨rfl, rfl⟩ := hin
    simp only [step, Option.ite_none_right_eq_some, Option.some.injEq] at h ⊢
    rw [lock_alone_free, ← h.2]
    refine ⟨h.1, ?_⟩
    simp only [alone, Feed.alone, deregister_alone]
  | receive id =>
    simp only [HubAct.input, Option.ite_none_right_eq_some, Option.some.injEq] at hin
    obtain ⟨rfl, rfl⟩ := hin
    cases h
    exact congrArg some receive_alone.symm

/-- The subscriber `a`, to whom the hub looks like a hub of its own. -/
def observer (a : ℕ) : Observer Hub.step Hub.step where
  view := alone a
  input := fun s act => act.input a s
  hidden := step_other
  shown := step_own

theorem onlyAt_const {β : Type} (a : ℕ) (y : β) : onlyAt a (fun _ => y) y = fun _ => y :=
  Function.update_eq_self 1 _

theorem alone_start (a : ℕ) : start.alone a = start := by
  have hid : onlyID a 0 = 0 := if_neg (by omega)
  simp only [alone, start, Feed.alone, Dispatcher.alone, Dispatcher.newEventDispatcher,
    onlyAt_const, only_empty, hid, Lock.alone]

/-! ### Reading between the calls -/

/-- Along this run the subscriber `a` reads only while no call holds the lock, and none does at the
end. -/
def BetweenCalls (a : ℕ) : Hub → List HubAct → Prop
  | s, [] => s.feed.lock = .free
  | s, act :: acts =>
    (act = .receive a → s.feed.lock = .free) ∧
      ∀ s', s.step act = some s' → BetweenCalls a s' acts

theorem isCall_of_free {act : HubAct} (hl : s.feed.lock = .free) (h : s.step act = some s') :
    act.isCall = true := by
  cases act with
  | dispatch id =>
    simp only [step, Feed.dispatch, hl, Option.map_none] at h
    cases h
  | _ => rfl

/-- While a call holds the lock, a subscriber that reads between the calls waits. -/
theorem dispatch_of_held {act : HubAct} (hl : s.feed.lock ≠ .free) (hown : act.Own)
    (hread : act = .receive 1 → s.feed.lock = .free) (h : s.step act = some s') :
    act = .dispatch 1 := by
  cases act with
  | dispatch id =>
    cases hown
    rfl
  | receive id =>
    cases hown
    exact absurd (hread rfl) hl
  | _ =>
    simp only [step, if_neg hl] at h
    cases h

/-- Between the calls, the calls decide when the holder of the lock takes its steps. -/
theorem eq_of_calls {l l' : List HubAct} {v w w' : Hub} (hl : l.foldlM step v = some w)
    (hl' : l'.foldlM step v = some w') (hown : ∀ act ∈ l, act.Own) (hown' : ∀ act ∈ l', act.Own)
    (hb : BetweenCalls 1 v l) (hb' : BetweenCalls 1 v l')
    (h : l.filter HubAct.isCall = l'.filter HubAct.isCall) : l = l' := by
  induction l generalizing v l' with
  | nil =>
    cases l' with
    | nil => rfl
    | cons y ys =>
      obtain ⟨v', hstep, _⟩ := Option.bind_eq_some_iff.mp hl'
      simp [isCall_of_free hb hstep] at h
  | cons x xs ih =>
    obtain ⟨v', hx, hxs⟩ := Option.bind_eq_some_iff.mp hl
    cases l' with
    | nil => simp [isCall_of_free hb' hx] at h
    | cons y ys =>
      obtain ⟨v'', hy, hys⟩ := Option.bind_eq_some_iff.mp hl'
      have hxy : x = y ∧ xs.filter HubAct.isCall = ys.filter HubAct.isCall := by
        by_cases hfree : v.feed.lock = .free
        · simpa [isCall_of_free hfree hx, isCall_of_free hfree hy] using h
        · obtain rfl := dispatch_of_held hfree (hown x List.mem_cons_self) hb.1 hx
          obtain rfl := dispatch_of_held hfree (hown' y List.mem_cons_self) hb'.1 hy
          exact ⟨rfl, h⟩
      obtain ⟨rfl, hrest⟩ := hxy
      obtain rfl : v' = v'' := Option.some.inj (hx.symm.trans hy)
      rw [ih hxs hys (fun act hact => hown act (List.mem_cons_of_mem _ hact))
        (fun act hact => hown' act (List.mem_cons_of_mem _ hact)) (hb.2 v' hx) (hb'.2 v' hx) hrest]

theorem BetweenCalls.inputs {acts : List HubAct} (hrun : acts.foldlM step s = some s')
    (h : BetweenCalls a s acts) :
    BetweenCalls 1 (s.alone a) ((observer a).inputs s acts) ∧
      ∀ i ∈ (observer a).inputs s acts, i.Own := by
  induction acts generalizing s with
  | nil => exact ⟨lock_alone_free.mpr h, fun i hi => absurd hi List.not_mem_nil⟩
  | cons act acts ih =>
    obtain ⟨t, hstep, hrest⟩ := Option.bind_eq_some_iff.mp hrun
    obtain ⟨hb, hown⟩ := ih hrest (h.2 t hstep)
    simp only [Observer.inputs, hstep]
    cases hin : act.input a s with
    | none =>
      rw [step_other hin hstep] at hb
      have hin' : (observer a).input s act = none := hin
      rw [hin']
      exact ⟨hb, hown⟩
    | some i =>
      have hin' : (observer a).input s act = some i := hin
      rw [hin']
      refine ⟨⟨?_, ?_⟩, List.forall_mem_cons.mpr ⟨HubAct.input_own hin, hown⟩⟩
      · rintro rfl
        exact lock_alone_free.mpr (h.1 (HubAct.input_receive hin))
      · intro v hv
        obtain rfl := Option.some.inj ((step_own hin hstep).symm.trans hv)
        exact hb

end Hub

/-! ### Isolation -/

/-- The subscribers `a` of `s` and `b` of `t` have received the same events and have the same ones
waiting, are both cut loose or both not, and were given the same boundary. -/
structure SameFate (a b : ℕ) (s t : Hub) : Prop where
  received : s.got a = t.got b
  waiting : (s.feed.disp.sub a).ch = (t.feed.disp.sub b).ch
  cancelled : (s.feed.disp.sub a).cancelled = (t.feed.disp.sub b).cancelled
  boundary : s.boundary a = t.boundary b

theorem sameFate_of_alone {a b : ℕ} {s t : Hub} (h : s.alone a = t.alone b) : SameFate a b s t := by
  have hsub : s.feed.disp.sub a = t.feed.disp.sub b := by
    rw [← Dispatcher.sub_alone, ← Dispatcher.sub_alone]
    exact congrArg (fun u : Hub => u.feed.disp.sub 1) h
  have hgot : s.got a = t.got b := by
    rw [← onlyAt_one s.got [], ← onlyAt_one t.got []]
    exact congrArg (fun u : Hub => u.got 1) h
  have hboundary : s.boundary a = t.boundary b := by
    rw [← onlyAt_one s.boundary none, ← onlyAt_one t.boundary none]
    exact congrArg (fun u : Hub => u.boundary 1) h
  exact ⟨hgot, by rw [hsub], by rw [hsub], hboundary⟩

/-- **Subscribers do not affect one another.**  Take two runs of a new dispatcher, with a subscriber
that has the ID `a` in the one and `b` in the other, and with any other subscribers, served in any
order.  If what concerns the subscriber is the same in both, it meets the same fate: the events that
are ingested, where it is registered and deregistered and where it reads, its place among the steps
of the holder of the lock included.  If it only reads between the calls, these steps need not be
compared. -/
theorem subscriber_isolated (a b : ℕ) (as bs : List HubAct) (s t : Hub)
    (hs : as.foldlM Hub.step Hub.start = some s) (ht : bs.foldlM Hub.step Hub.start = some t) :
    ((Hub.observer a).inputs .start as = (Hub.observer b).inputs .start bs → SameFate a b s t) ∧
    (Hub.BetweenCalls a .start as → Hub.BetweenCalls b .start bs →
      ((Hub.observer a).inputs .start as).filter HubAct.isCall =
        ((Hub.observer b).inputs .start bs).filter HubAct.isCall → SameFate a b s t) := by
  have hstart : Hub.start.alone a = Hub.start.alone b := by
    rw [Hub.alone_start, Hub.alone_start]
  have hsame (hin : (Hub.observer a).inputs .start as = (Hub.observer b).inputs .start bs) :
      SameFate a b s t :=
    sameFate_of_alone ((Hub.observer a).noninterference (Hub.observer b) hstart hin hs ht)
  refine ⟨hsame, fun ha hb hcalls => hsame ?_⟩
  obtain ⟨ha, howna⟩ := ha.inputs hs
  obtain ⟨hb, hownb⟩ := hb.inputs ht
  have hruna := (Hub.observer a).run hs
  have hrunb := (Hub.observer b).run ht
  change List.foldlM Hub.step (Hub.start.alone a) _ = _ at hruna
  change List.foldlM Hub.step (Hub.start.alone b) _ = _ at hrunb
  rw [← hstart] at hb hrunb
  exact Hub.eq_of_calls hruna hrunb howna hownb ha hb hcalls

def deleteA : Event := ⟨.delete, [97], 1, none, none, 0, none⟩

def quietRun : List HubAct :=
  [.register [97] [], .ingest deleteA, .dispatch 1, .dispatch 1, .dispatch 1, .dispatch 1,
    .receive 1]

def crowdedRun : List HubAct :=
  [.register [97] [], .register [97] [], .ingest deleteA, .dispatch 0, .dispatch 2, .receive 1,
    .dispatch 1, .dispatch 0, .dispatch 0, .deregister 1, .receive 2]

theorem crowd_harmless :
    ∃ s t, quietRun.foldlM Hub.step .start = some s ∧ crowdedRun.foldlM Hub.step .start = some t ∧
      s.got 1 = [deleteA] ∧ SameFate 1 2 s t := by
  have hs : (quietRun.foldlM Hub.step .start).any (fun s => s.got 1 = [deleteA]) = true := by
    decide +kernel
  have ht : (crowdedRun.foldlM Hub.step .start).isSome = true := by decide +kernel
  obtain ⟨s, hs, hgot⟩ := (Option.any_eq_true _ _).mp hs
  obtain ⟨t, ht⟩ := Option.isSome_iff_exists.mp ht
  refine ⟨s, t, hs, ht, of_decide_eq_true hgot, ?_⟩
  exact (subscriber_isolated 1 2 quietRun crowdedRun s t hs ht).1 (by decide +kernel)

end REtcd.Server
