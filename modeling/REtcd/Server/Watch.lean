import REtcd.Server.Dispatcher

/-!
# The Watch service

A client opens streams (`Conn`) and creates watches on them, each of which is a goroutine running
`tailWatch` (`Watch`): it registers with the dispatcher, sends the events up to its boundary from
the Redis stream (`catchUp`), and then sends what comes through its channel.

`Watch.step` is the next step of such a goroutine, for one choice of what happens to it: a read
fails, brings up to so many entries or waits in vain until it times out, a `select` takes one of its
ready arms, a `Send` fails.
`Sys.step` puts together the writers, the holder of the dispatcher's lock, the streams and the
watches; each of its steps touches shared state once, so every interleaving of them is a run.
-/

namespace REtcd.Server

open Base Store

def readBatchSize : ℕ := 1000

def maxReaderErrors : ℕ := 30

def maxSendBatch : ℕ := 1000

/-- The watch ID of a progress reply that covers the whole stream. -/
def invalidWatchID : ℤ := -1

/-! ### Messages -/

structure WatchCreateRequest where
  key : Key
  rangeEnd : Key
  startRevision : ℤ
  deriving DecidableEq, Repr

structure ProtoEvent where
  type : EventType
  kv : Option KeyValue
  prevKv : Option KeyValue
  deriving DecidableEq, Repr

structure WatchResponse where
  header : ResponseHeader
  watchId : ℤ
  created : Bool
  canceled : Bool
  cancelReason : String
  events : List ProtoEvent
  deriving DecidableEq, Repr

def eventToProto (ev : Event) : ProtoEvent :=
  match ev.type with
  | .put => ⟨.put, ev.kv, ev.prevKV⟩
  | .delete => ⟨.delete, some ⟨ev.key, [], 0, ev.rev, 0, 0⟩, ev.prevKV⟩

/-- The revision that a client reads off an event. -/
def ProtoEvent.rev (e : ProtoEvent) : ℤ := (e.kv.map KeyValue.modRevision).getD 0

def watchResponse (id rev : ℤ) (canceled : Bool) (events : List ProtoEvent) : WatchResponse :=
  ⟨headerAt rev, id, false, canceled, if canceled then "watch backend unavailable" else "", events⟩

def effectiveStartRevision (requested current : ℤ) : ℤ :=
  if 0 < requested then requested else current + 1

/-- The answer of `XREAD`: up to `n` events after `lastID`, and the ID to go on from. -/
def xread (stream : List Event) (lastID : StreamID) (n : ℕ) : List Event × StreamID :=
  let events := (stream.filter fun e => ∀ i ∈ e.id, lastID < i).take n
  (events, (events.getLast?.bind Event.id).getD lastID)

/-- `BlockReadEvents`.  Its `Block: 500` is 500 ns, which the client sends as `BLOCK 0`: as long as
nothing comes after `lastID` Redis does not answer (`none`), and the read waits. -/
def blockReadEvents (stream : List Event) (lastID : StreamID) (n : ℕ) :
    Option (List Event × StreamID) :=
  if (xread stream lastID n).1 = [] then none else some (xread stream lastID n)

theorem blockReadEvents_some {stream events : List Event} {lastID newLastID : StreamID} {n : ℕ} :
    blockReadEvents stream lastID n = some (events, newLastID) ↔
      events ≠ [] ∧ xread stream lastID n = (events, newLastID) := by
  rw [blockReadEvents]
  split_ifs with h
  · refine iff_of_false (fun h => (by cases h)) fun ⟨hne, heq⟩ => hne ?_
    rw [heq] at h
    exact h
  · rw [Option.some.injEq]
    refine ⟨fun heq => ⟨?_, heq⟩, fun heq => heq.2⟩
    rw [heq] at h
    exact h

/-- A read waits at the end of the stream. -/
theorem blockReadEvents_eq_none {stream : List Event} {lastID : StreamID} {n : ℕ} (hn : 1 ≤ n) :
    blockReadEvents stream lastID n = none ↔ ∀ e ∈ stream, ¬ ∀ i ∈ e.id, lastID < i := by
  have hiff : (xread stream lastID n).1 = [] ↔ ∀ e ∈ stream, ¬ ∀ i ∈ e.id, lastID < i := by
    rw [xread, List.take_eq_nil_iff, or_iff_right (by omega), List.filter_eq_nil_iff]
    simp only [decide_eq_true_eq]
  rw [← hiff, blockReadEvents]
  by_cases h : (xread stream lastID n).1 = []
  · rw [if_pos h]
    exact iff_of_true rfl h
  · rw [if_neg h]
    exact iff_of_false (Option.some_ne_none _) h

/-! ### A watch -/

/-- What a watch does after a response: read on from `lastID`, go to its `select`, or return. -/
inductive Next where
  | catchUp (lastID : StreamID)
  | live
  | stop
  deriving DecidableEq, Repr

/-- Where a watch stands.
* `spawned`: before `register`; `seeking`: before `seekStreamID`.
* `reading`: at the loop of `catchUp`, after `consecErr` failed reads in a row.
* `selecting`: at the `select` of `tailWatch`; `collecting`: in `collectEvents`.
* `stamping`: about to read the revision for the header of a response; `sending`: before `Send`.
* `returning`: before the deferred `deregister`; `gone`: after it. -/
inductive Pc where
  | spawned
  | seeking
  | reading (lastID : StreamID) (consecErr : ℕ)
  | selecting
  | collecting (matched : List ProtoEvent)
  | stamping (matched : List ProtoEvent) (canceled : Bool) (next : Next)
  | sending (resp : WatchResponse) (next : Next)
  | returning
  | gone
  deriving DecidableEq, Repr

def Next.pc : Next → Pc
  | catchUp lastID => .reading lastID 0
  | live => .selecting
  | stop => .returning

/-- A goroutine running `tailWatch`, on the stream `conn`.  `sub` and `boundary` are what `register`
returned; `cancelled` says that its cancel function was called. -/
structure Watch where
  conn : ℕ
  key : Key
  rangeEnd : Key
  startRevision : ℤ
  cancelled : Bool
  sub : ℕ
  boundary : ℤ
  pc : Pc
  deriving DecidableEq, Repr

inductive WatchAct where
  /-- It goes on, where there is nothing to choose. -/
  | go
  /-- It finds its context done. -/
  | done
  /-- Its read brings up to `n` entries. -/
  | read (n : ℕ)
  | readErr
  /-- Its read has waited for 10 s, and the client gives it up with an error. -/
  | timeout
  /-- It takes an event from its channel. -/
  | recv
  /-- It finds `cancelCh` closed. -/
  | cut
  /-- Its ticker fires, and nothing was sent for `progressInterval`. -/
  | tick
  | send (ok : Bool)
  deriving DecidableEq, Repr

/-- What a watch can see besides its own state. -/
structure Shared where
  stream : List Event
  latestRev : ℤ
  checkpoints : List Checkpoint
  ctxDone : Bool

namespace Watch

/-- The loop of `catchUp` over a batch: what it matched, and whether it met an event above the
boundary, at which it stops. -/
def scan (w : Watch) : List Event → List ProtoEvent × Bool
  | [] => ([], false)
  | ev :: events =>
    if w.boundary < ev.rev then ([], true)
    else
      let (matched, reachedBoundary) := w.scan events
      if ev.rev < w.startRevision ∨ matchesWatch ev.key w.key w.rangeEnd = false then
        (matched, reachedBoundary)
      else (eventToProto ev :: matched, reachedBoundary)

/-- A round of `catchUp` whose read has failed, after `consecErr` others in a row. -/
def readFailed (lastID : StreamID) (consecErr : ℕ) : Pc :=
  if consecErr + 1 < maxReaderErrors then .reading lastID (consecErr + 1)
  else .stamping [] true .stop

/-- The rest of a round of `catchUp`, after a read without an error. -/
def caught (w : Watch) (events : List Event) (lastID : StreamID) : Pc :=
  if events = [] then .selecting
  else
    let (matched, reachedBoundary) := w.scan events
    let next := if reachedBoundary then Next.live else Next.catchUp lastID
    if matched = [] then next.pc else .stamping matched false next

def add (w : Watch) (matched : List ProtoEvent) (ev : Event) : List ProtoEvent :=
  if ev.rev ≤ w.boundary ∨ ev.rev < w.startRevision then matched
  else matched ++ [eventToProto ev]

/-- After `collectEvents`: nothing is sent for an empty batch. -/
def collected (matched : List ProtoEvent) : Pc :=
  if matched = [] then .selecting else .stamping matched false .live

/-- The next step of the watch with ID `id`: where it stands then, what is left in its channel, and
what it has sent. -/
def step (sh : Shared) (id : ℤ) (w : Watch) (sub : WatchSub) (act : WatchAct) :
    Option (Pc × List Event × List WatchResponse) :=
  match w.pc, act with
  | .seeking, .go =>
    some (.reading (Dispatcher.seekStreamID sh.checkpoints w.startRevision) 0, sub.ch, [])
  | .reading _ _, .done => if sh.ctxDone then some (.returning, sub.ch, []) else none
  | .reading lastID _, .read n =>
    if 1 ≤ n ∧ n ≤ readBatchSize then
      match blockReadEvents sh.stream lastID n with
      | some (events, newLastID) => some (w.caught events newLastID, sub.ch, [])
      | none => none
    else none
  | .reading lastID consecErr, .readErr => some (readFailed lastID consecErr, sub.ch, [])
  | .reading lastID consecErr, .timeout =>
    match blockReadEvents sh.stream lastID readBatchSize with
    | some _ => none
    | none => some (readFailed lastID consecErr, sub.ch, [])
  | .selecting, .done => if sh.ctxDone then some (.returning, sub.ch, []) else none
  | .selecting, .cut => if sub.cancelled then some (.stamping [] true .stop, sub.ch, []) else none
  | .selecting, .recv =>
    match sub.ch with
    | [] => none
    | ev :: ch => some (.collecting (w.add [] ev), ch, [])
  | .selecting, .tick => some (.stamping [] false .live, sub.ch, [])
  | .collecting matched, .go =>
    if matched.length < maxSendBatch then
      match sub.ch with
      | [] => some (collected matched, [], [])
      | ev :: ch => some (.collecting (w.add matched ev), ch, [])
    else some (collected matched, sub.ch, [])
  | .stamping matched canceled next, .go =>
    some (.sending (watchResponse id sh.latestRev canceled matched) next, sub.ch, [])
  | .sending resp next, .send ok =>
    if ok then some (next.pc, sub.ch, [resp]) else some (.returning, sub.ch, [])
  | _, _ => none

end Watch

/-! ### A stream -/

/-- Where the receive loop of a stream stands: at `Recv`; before the read of the revision for a
new watch and before the response that confirms it; before the reply to a cancel request or to a
progress request, with the revision it has read; at its end. -/
inductive ConnPc where
  | receiving
  | creating (id : ℤ) (cr : WatchCreateRequest)
  | confirming (id : ℤ) (cr : WatchCreateRequest) (rev : ℤ)
  | canceling (id : ℤ)
  | progressing (rev : ℤ)
  | closed
  deriving DecidableEq, Repr

/-- A call of `Watch`.  `cancels` has the IDs in its map of cancel functions; `done` says that the
context of the stream is done. -/
structure Conn where
  pc : ConnPc
  cancels : Finset ℤ
  done : Bool

/-! ### The system -/

/-- The whole: the feed, the last watch ID given out, the watches, the streams, and all responses
sent, the first one first, each with its stream. -/
structure Sys where
  feed : Feed
  watchID : ℤ
  watches : ℤ → Option Watch
  conns : ℕ → Conn
  sent : List (ℕ × WatchResponse)

inductive Act where
  | commit (ev : Event)
  | lose (ev : Event)
  | ingest (ev : Event)
  /-- The holder of the dispatcher's lock takes its next step. -/
  | dispatch (id : ℕ)
  /-- The client asks for a watch. -/
  | create (c : ℕ) (cr : WatchCreateRequest)
  /-- The revision for a new watch is read, or the read fails. -/
  | revision (c : ℕ) (ok : Bool)
  /-- The new watch is confirmed and its goroutine started. -/
  | confirm (c : ℕ) (ok : Bool)
  /-- The client asks to cancel a watch. -/
  | cancel (c : ℕ) (id : ℤ)
  /-- The client asks for progress, and the revision is read. -/
  | progress (c : ℕ)
  /-- A cancel or progress request is answered. -/
  | reply (c : ℕ) (ok : Bool)
  /-- The context of a stream is done. -/
  | hangUp (c : ℕ)
  /-- `Recv` fails. -/
  | close (c : ℕ)
  | register (id : ℤ)
  | watch (id : ℤ) (a : WatchAct)
  /-- A watch deregisters and is gone. -/
  | finish (id : ℤ)

namespace Sys

/-- A server on a store whose stream is `l`, after `prime` with the given answers. -/
def primed (l : List Event) (current raw : Except GoError ℤ) : Sys where
  feed :=
    { stream := l
      inflight := []
      lost := []
      disp := Dispatcher.newEventDispatcher.prime current raw
      lock := .free
      released := []
      frontier := (Dispatcher.newEventDispatcher.prime current raw).nextRev - 1
      skipped := [] }
  watchID := 0
  watches := fun _ => none
  conns := fun _ => ⟨.receiving, ∅, false⟩
  sent := []

/-- What `CurrentRevision` answers for a stream; it never answers less than 1. -/
def currentRevision (l : List Event) : ℤ := if (l.length : ℤ) < 1 then 1 else l.length

/-- A server on a store whose stream is `l`, whose two reads in `prime` succeed. -/
def start (l : List Event) : Sys := primed l (.ok (currentRevision l)) (.ok l.length)

def setConn (s : Sys) (c : ℕ) (pc : ConnPc) : Sys :=
  { s with conns := Function.update s.conns c { s.conns c with pc := pc } }

def setWatch (s : Sys) (id : ℤ) (w : Watch) : Sys :=
  { s with watches := Function.update s.watches id (some w) }

/-- `Send`, which may fail, where the caller does not look at the error. -/
def send (s : Sys) (c : ℕ) (ok : Bool) (resp : WatchResponse) : Sys :=
  if ok then { s with sent := s.sent ++ [(c, resp)] } else s

def callCancels (s : Sys) (ids : Finset ℤ) : Sys :=
  { s with watches := fun id =>
      if id ∈ ids then (s.watches id).map fun w => { w with cancelled := true }
      else s.watches id }

def connStep (s : Sys) (c : ℕ) : Act → Option Sys
  | .create _ cr =>
    match (s.conns c).pc with
    | .receiving =>
      let id := s.watchID + 1
      some { s with
        watchID := id
        conns := Function.update s.conns c
          { s.conns c with pc := .creating id cr, cancels := insert id (s.conns c).cancels } }
    | _ => none
  | .revision _ ok =>
    match (s.conns c).pc with
    | .creating id cr =>
      some (s.setConn c (.confirming id cr (if ok then currentRevision s.feed.stream else 0)))
    | _ => none
  | .confirm _ ok =>
    match (s.conns c).pc with
    | .confirming id cr rev =>
      let w : Watch :=
        { conn := c
          key := cr.key
          rangeEnd := cr.rangeEnd
          startRevision := effectiveStartRevision cr.startRevision rev
          cancelled := false
          sub := 0
          boundary := 0
          pc := .spawned }
      some (((s.send c ok ⟨headerAt rev, id, true, false, "", []⟩).setConn c .receiving).setWatch
        id w)
    | _ => none
  | .cancel _ id =>
    match (s.conns c).pc with
    | .receiving =>
      let s' := if id ∈ (s.conns c).cancels then s.callCancels {id} else s
      some { s' with
        conns := Function.update s.conns c
          { s.conns c with pc := .canceling id, cancels := (s.conns c).cancels.erase id } }
    | _ => none
  | .progress _ =>
    match (s.conns c).pc with
    | .receiving => some (s.setConn c (.progressing s.feed.disp.currentRev))
    | _ => none
  | .reply _ ok =>
    match (s.conns c).pc with
    | .canceling id =>
      some ((s.send c ok ⟨headerAt 0, id, false, true, "", []⟩).setConn c .receiving)
    | .progressing rev =>
      some ((s.send c ok ⟨headerAt rev, invalidWatchID, false, false, "", []⟩).setConn c .receiving)
    | _ => none
  | .hangUp _ =>
    some { s with conns := Function.update s.conns c { s.conns c with done := true } }
  | .close _ =>
    match (s.conns c).pc with
    | .receiving => some ((s.callCancels (s.conns c).cancels).setConn c .closed)
    | _ => none
  | _ => none

/-- `register` and what `tailWatch` makes of the boundary. -/
def register (s : Sys) (id : ℤ) (w : Watch) : Option Sys :=
  match s.feed.lock, w.pc with
  | .free, .spawned =>
    let boundary := s.feed.disp.latestRev
    let (disp, sub) := s.feed.disp.register w.key w.rangeEnd
    some ({ s with feed := { s.feed with disp := disp } }.setWatch id
      { w with
        sub := sub
        boundary := boundary
        pc := if w.startRevision ≤ boundary then .seeking else .selecting })
  | _, _ => none

/-- `deregister`, and the removal of the cancel function. -/
def finish (s : Sys) (id : ℤ) (w : Watch) : Option Sys :=
  match s.feed.lock, w.pc with
  | .free, .returning =>
    some ({ s with
      feed := { s.feed with disp := s.feed.disp.deregister w.sub }
      conns := Function.update s.conns w.conn
        { s.conns w.conn with cancels := (s.conns w.conn).cancels.erase id } }.setWatch id
      { w with cancelled := true, pc := .gone })
  | _, _ => none

def shared (s : Sys) (w : Watch) : Shared where
  stream := s.feed.stream
  latestRev := s.feed.disp.currentRev
  checkpoints := s.feed.disp.checkpoints
  ctxDone := w.cancelled || (s.conns w.conn).done

def watchStep (s : Sys) (id : ℤ) (w : Watch) (a : WatchAct) : Option Sys :=
  (w.step (s.shared w) id (s.feed.disp.sub w.sub) a).map fun (pc, ch, out) =>
    { s with
      feed := { s.feed with
        disp := { s.feed.disp with
          sub := Function.update s.feed.disp.sub w.sub { s.feed.disp.sub w.sub with ch := ch } } }
      sent := s.sent ++ out.map (w.conn, ·) }.setWatch id { w with pc := pc }

/-- **The next step**, `none` if it is not possible. -/
def step (s : Sys) (act : Act) : Option Sys :=
  match act with
  | .commit ev => (s.feed.commit ev).map fun f => { s with feed := f }
  | .lose ev => (s.feed.lose ev).map fun f => { s with feed := f }
  | .ingest ev => (s.feed.ingest ev).map fun f => { s with feed := f }
  | .dispatch id => (s.feed.dispatch id).map fun f => { s with feed := f }
  | .register id => (s.watches id).bind (s.register id)
  | .finish id => (s.watches id).bind (s.finish id)
  | .watch id a => (s.watches id).bind (s.watchStep id · a)
  | .create c _ | .revision c _ | .confirm c _ | .cancel c _ | .progress c | .reply c _
  | .hangUp c | .close c => s.connStep c act

def sentTo (s : Sys) (id : ℤ) : List WatchResponse :=
  (s.sent.map Prod.snd).filter (·.watchId = id)

def eventsSent (s : Sys) (id : ℤ) : List ProtoEvent := (s.sentTo id).flatMap WatchResponse.events

end Sys

end REtcd.Server
