import Mathlib.Data.Finset.Basic
import REtcd.Server.KV
import Std.Data.ExtTreeMap

/-!
# The event dispatcher

Every committed write hands its event to `ingest`.  Events arrive in any order; the dispatcher
holds them back in `pending` and releases them in revision order to the subscribers whose range
they are in.  A subscriber whose channel is full is cut loose.  If too many events are held back,
because one never arrives, all are released at once and the missing revision is given up
(`flushPendingLocked`).

`ingest` holds a lock for its whole length, but `latestRev` is read without it and the subscribers
take events from their channels meanwhile, so its steps are told apart here: `Lock` says where the
holder of the lock stands and `Feed.dispatch` is its next step.
-/

namespace REtcd.Server

open Base Store

def subChanBuffer : ℕ := 8192

def checkpointEvery : ℕ := 512

def maxPendingEvents : ℕ := 4096

structure Checkpoint where
  rev : ℤ
  id : StreamID
  deriving DecidableEq, Repr

/-- `watchSub`.  `ch` lists what is buffered in the channel, the oldest event first; `cancelled`
says that `cancelCh` is closed. -/
structure WatchSub where
  key : Key
  rangeEnd : Key
  ch : List Event
  cancelled : Bool
  deriving DecidableEq, Repr

/-- `eventDispatcher`.  `subs` has the IDs in the map of subscribers; `sub` finds every
subscription, since a watch keeps its own after the map has dropped it. -/
structure Dispatcher where
  subs : Finset ℕ
  sub : ℕ → WatchSub
  nextID : ℕ
  latestRev : ℤ
  ckCounter : ℕ
  nextRev : ℤ
  pending : Std.ExtTreeMap ℤ Event
  checkpoints : List Checkpoint
  reorderFlushes : ℕ

namespace Dispatcher

def newEventDispatcher : Dispatcher where
  subs := ∅
  sub := fun _ => ⟨[], [], [], false⟩
  nextID := 0
  latestRev := 0
  ckCounter := 0
  nextRev := 0
  pending := ∅
  checkpoints := []
  reorderFlushes := 0

/-- `latest` in `prime`, from what `CurrentRevision` answered. -/
def primeLatest : Except GoError ℤ → ℤ
  | .ok rev => if rev < 1 then 1 else rev
  | .error _ => 1

/-- `next` in `prime`, from what `CurrentRevision` and `RawRevision` answered. -/
def primeNext : Except GoError ℤ → Except GoError ℤ → ℤ
  | _, .ok raw => if raw + 1 < 1 then 1 else raw + 1
  | .ok rev, .error _ => if rev + 1 < 1 then 1 else rev + 1
  | .error _, .error _ => 1

def prime (current raw : Except GoError ℤ) (d : Dispatcher) : Dispatcher :=
  { d with latestRev := primeLatest current, nextRev := primeNext current raw }

/-- `register`: the dispatcher with the new subscriber, and its ID; the boundary is `latestRev`. -/
def register (key rangeEnd : Key) (d : Dispatcher) : Dispatcher × ℕ :=
  ({ d with
      nextID := d.nextID + 1
      subs := insert (d.nextID + 1) d.subs
      sub := Function.update d.sub (d.nextID + 1) ⟨key, rangeEnd, [], false⟩ },
    d.nextID + 1)

def deregister (id : ℕ) (d : Dispatcher) : Dispatcher := { d with subs := d.subs.erase id }

def currentRev (d : Dispatcher) : ℤ := d.latestRev

/-- `ingest` up to its loop; `none` if it returns before. -/
def hold (ev : Event) (d : Dispatcher) : Option Dispatcher :=
  if ev.rev ≤ 0 then none
  else
    let nextRev := if d.nextRev = 0 then ev.rev else d.nextRev
    if ev.rev < nextRev then none
    else some { d with nextRev := nextRev, pending := d.pending.insert ev.rev ev }

def maybeCheckpoint (ev : Event) (d : Dispatcher) : Dispatcher :=
  match ev.id with
  | none => d
  | some id =>
    if d.checkpoints ≠ [] ∧ d.ckCounter + 1 < checkpointEvery then
      { d with ckCounter := d.ckCounter + 1 }
    else
      { d with
        ckCounter := 0
        checkpoints :=
          if ∀ ck ∈ d.checkpoints.getLast?, ck.rev < ev.rev then d.checkpoints ++ [⟨ev.rev, id⟩]
          else d.checkpoints }

/-- `releaseLocked` up to its loop. -/
def release (ev : Event) (d : Dispatcher) : Dispatcher :=
  maybeCheckpoint ev { d with latestRev := if d.latestRev < ev.rev then ev.rev else d.latestRev }

/-- One round of the loop of `releaseLocked`: a full channel cuts the subscriber loose. -/
def deliver (ev : Event) (id : ℕ) (d : Dispatcher) : Dispatcher :=
  if matchesWatch ev.key (d.sub id).key (d.sub id).rangeEnd then
    if (d.sub id).ch.length < subChanBuffer then
      { d with sub := Function.update d.sub id { d.sub id with ch := (d.sub id).ch ++ [ev] } }
    else
      { d with
        sub := Function.update d.sub id { d.sub id with cancelled := true }
        subs := d.subs.erase id }
  else d

/-- The binary search of `seekStreamID`: the largest index whose revision is below `startRev`. -/
def seekLoop (checkpoints : List Checkpoint) (startRev : ℤ) (lo hi : ℕ) (idx : ℤ) : ℤ :=
  if lo < hi then
    let mid := (lo + hi) / 2
    match checkpoints[mid]? with
    | none => idx
    | some ck =>
      if ck.rev < startRev then seekLoop checkpoints startRev (mid + 1) hi mid
      else seekLoop checkpoints startRev lo mid idx
  else idx
termination_by hi - lo

/-- `seekStreamID`: one checkpoint below the one that was found. -/
def seekStreamID (checkpoints : List Checkpoint) (startRev : ℤ) : StreamID :=
  let idx := seekLoop checkpoints startRev 0 checkpoints.length (-1) - 1
  if idx < 0 then .zero
  else ((checkpoints[idx.toNat]?).map Checkpoint.id).getD .zero

end Dispatcher

/-! ### The feed -/

/-- Where `releaseLocked` returns to: the loop of `ingest`, or that of `flushPendingLocked`, which
has the revisions in `revs` still to do and ends at `last`. -/
inductive Caller where
  | drain
  | flush (revs : List ℤ) (last : ℤ)
  deriving DecidableEq

/-- What the holder of the dispatcher's lock is about to do: look for `nextRev` in `pending`, send
an event to the rest of the subscribers, or release the rest of the flushed events. -/
inductive Lock where
  | free
  | drain
  | fan (ev : Event) (todo : Finset ℕ) (caller : Caller)
  | flush (revs : List ℤ) (last : ℤ)
  deriving DecidableEq

/-- The event stream and the dispatcher.  Of the committed events, `inflight` are those whose
writer has not called `ingest` yet, `lost` those whose writer never will, since it was told that
its script had failed.

The last three fields record the past: the events released so far, the revision up to which events
have been released or given up, and the revisions given up. -/
structure Feed where
  stream : List Event
  inflight : List Event
  lost : List Event
  disp : Dispatcher
  lock : Lock
  released : List Event
  frontier : ℤ
  skipped : List ℤ

namespace Feed

/-- A script can commit `ev` to the stream: its revision is the next one, its ID is above all
others, and a put carries the value it has stored. -/
def Appends (stream : List Event) (ev : Event) : Prop :=
  ev.rev = stream.length + 1 ∧
    (∃ id ∈ ev.id, StreamID.zero < id ∧ ∀ e ∈ stream, ∀ i ∈ e.id, i < id) ∧
    (ev.type = .put → ev.kv.map KeyValue.modRevision = some ev.rev)

instance (stream : List Event) (ev : Event) : Decidable (Appends stream ev) :=
  inferInstanceAs (Decidable (_ ∧ _ ∧ _))

def commit (ev : Event) (f : Feed) : Option Feed :=
  if Appends f.stream ev then
    some { f with stream := f.stream ++ [ev], inflight := ev :: f.inflight }
  else none

/-- A writer is told that its script failed, after the script has committed. -/
def lose (ev : Event) (f : Feed) : Option Feed :=
  if ev ∈ f.inflight then
    some { f with inflight := f.inflight.erase ev, lost := ev :: f.lost }
  else none

def ingest (ev : Event) (f : Feed) : Option Feed :=
  match f.lock with
  | .free =>
    if ev ∈ f.inflight then
      match f.disp.hold ev with
      | none => some { f with inflight := f.inflight.erase ev }
      | some d => some { f with inflight := f.inflight.erase ev, disp := d, lock := .drain }
    else none
  | _ => none

/-- The event held back at `r` is taken out of `pending` and `releaseLocked` is entered. -/
def release (r : ℤ) (ev : Event) (caller : Caller) (f : Feed) : Feed :=
  { f with
    disp := { f.disp with pending := f.disp.pending.erase r }.release ev
    lock := .fan ev f.disp.subs caller
    released := f.released ++ [ev]
    frontier := ev.rev }

/-- `flushPendingLocked` is entered; the revisions up to the last one held back that are not held
back themselves are given up. -/
def flush (f : Feed) : Feed :=
  let revs := f.disp.pending.keys
  let last := revs.getLast?.getD (f.disp.nextRev - 1)
  { f with
    lock := .flush revs last
    skipped := f.skipped ++
      ((List.range (last + 1 - f.disp.nextRev).toNat).map fun i : ℕ => f.disp.nextRev + i).filter
        fun r => r ∉ f.disp.pending }

/-- The next step of the holder of the lock; `id` is the subscriber whose turn it is in the loop of
`releaseLocked`, which goes over the map in any order. -/
def dispatch (id : ℕ) (f : Feed) : Option Feed :=
  match f.lock with
  | .free => none
  | .drain =>
    match f.disp.pending[f.disp.nextRev]? with
    | some ev => some (f.release f.disp.nextRev ev .drain)
    | none =>
      if maxPendingEvents < f.disp.pending.size then some f.flush
      else some { f with lock := .free }
  | .fan ev todo caller =>
    if todo = ∅ then
      match caller with
      | .drain =>
        some { f with disp := { f.disp with nextRev := f.disp.nextRev + 1 }, lock := .drain }
      | .flush revs last => some { f with lock := .flush revs last }
    else if id ∈ todo then
      some { f with disp := f.disp.deliver ev id, lock := .fan ev (todo.erase id) caller }
    else none
  | .flush (r :: revs) last =>
    match f.disp.pending[r]? with
    | some ev => some (f.release r ev (.flush revs last))
    | none => some { f with lock := .flush revs last }
  | .flush [] last =>
    some { f with
      disp := { f.disp with
        nextRev := last + 1
        reorderFlushes := f.disp.reorderFlushes + 1 }
      lock := .free }

end Feed

end REtcd.Server
