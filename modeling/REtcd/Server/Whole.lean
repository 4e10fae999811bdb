import REtcd.Server.Complete
import REtcd.Server.Requests
import REtcd.Store.Alone
import REtcd.Store.Handover

/-!
# The whole server

So far the two halves of the server stood apart: the requests on Redis (`start`, `Pool.run`), and the
Watch service with writers that commit whatever they like (`Sys`).  `Whole` puts them together.  The
requests run command by command on Redis; the Watch service reads the Redis stream and is handed the
events that the requests emit; nothing else connects the two.  The server starts with both reads of
`prime` answered (`primed_eq_start`).

`whole_refines` says that every run of the whole is a run of `Sys` in which the writers are the
requests: an entry that a script appends is a commit, an answer that is lost makes its writer lose
the event, and a call of the sink is a call of `ingest`.  The argument rests on three facts: the
entries of the stream are read as a log (`Recorded.logged`), a request that owes the sink an event
hands it over next (`Hands`), and what the Watch service does by itself does not depend on the
writers (`Sys.step_withWriters`).
-/

namespace REtcd.Server

open Base Store

/-! ### The stream as it is read -/

def entryEvent (e : Entry) : Event :=
  makeEvent e.type e.key e.rev (e.data.getD []) (e.prevData.getD []) e.id

/-- The events of the stream; an entry whose revision does not parse is passed over. -/
def streamEvents (s : Redis) : List Event := s.events.filterMap parseStreamEvent

/-- `BlockReadEvents` on the entries of Redis: up to `maxCount` entries after `lastID`, and the ID of
the last one.  For 0 the client leaves out `COUNT`, and all of them are read; as long as there is
none the read waits (`none`). -/
def readEntries (s : Redis) (lastID : StreamID) (maxCount : ℕ) : Option (List Event × StreamID) :=
  let rest := s.events.filter fun e => decide (lastID < e.id)
  let msgs := if maxCount = 0 then rest else rest.take maxCount
  if msgs.isEmpty then none
  else some (msgs.filterMap parseStreamEvent, (msgs.getLast?.map Entry.id).getD lastID)

/-- A database with its history, whose entries have IDs that `XADD` gives. -/
structure Recorded (s : Redis) : Prop extends Consistent s where
  id_pos : ∀ e ∈ s.events, StreamID.zero < e.id

theorem StreamID.zero_le (i : StreamID) : StreamID.zero ≤ i := by
  refine not_lt.mp fun h => ?_
  rcases StreamID.lt_iff.mp h with h | ⟨_, h⟩
  · exact absurd h (Nat.not_lt_zero _)
  · exact absurd h (Nat.not_lt_zero _)

theorem Recorded.effect {s s' : Redis} (h : Recorded s) (he : Effect s s') : Recorded s' := by
  refine ⟨h.toConsistent.effect he, fun e hmem => ?_⟩
  rcases he with hf | ⟨e', hc⟩
  · rw [hf.events] at hmem
    exact h.id_pos e hmem
  · rw [hc.events, List.mem_append, List.mem_singleton] at hmem
    rcases hmem with hmem | rfl
    · exact h.id_pos e hmem
    · exact (StreamID.zero_le _).trans_lt hc.id

section Streamed

variable {s : Redis} (h : Consistent s) (hb : s.counter < 10 ^ 14)

include h hb

theorem parseStreamEvent_mem {e : Entry} (he : e ∈ s.events) :
    parseStreamEvent e = some (entryEvent e) := by
  obtain ⟨hpos, hle⟩ := h.rev_mem he
  exact parseStreamEvent_eq hpos.le (by omega)

theorem streamEvents_eq : streamEvents s = s.events.map entryEvent := by
  rw [streamEvents, ← List.filterMap_eq_map]
  exact List.filterMap_congr fun e he => parseStreamEvent_mem h hb he

/-- **The Watch service reads Redis as it reads its model of the stream.** -/
theorem readEntries_eq (lastID : StreamID) {maxCount : ℕ} (hpos : 1 ≤ maxCount) :
    readEntries s lastID maxCount = blockReadEvents (streamEvents s) lastID maxCount := by
  have hmsgs : ∀ msgs : List Entry, (∀ e ∈ msgs, e ∈ s.events) →
      msgs.filterMap parseStreamEvent = msgs.map entryEvent := by
    intro msgs hm
    rw [← List.filterMap_eq_map]
    exact List.filterMap_congr fun e he => parseStreamEvent_mem h hb (hm e he)
  have hfilter : (s.events.map entryEvent).filter (fun e => decide (∀ i ∈ e.id, lastID < i)) =
      (s.events.filter fun e => decide (lastID < e.id)).map entryEvent := by
    rw [List.filter_map]
    congr 1
    refine List.filter_congr fun e _ => ?_
    simp [entryEvent, makeEvent]
  have hread : xread (streamEvents s) lastID maxCount =
      (((s.events.filter fun e => decide (lastID < e.id)).take maxCount).map entryEvent,
        ((((s.events.filter fun e => decide (lastID < e.id)).take maxCount).getLast?).map
          Entry.id).getD lastID) := by
    simp only [xread, streamEvents_eq h hb, hfilter, ← List.map_take, List.getLast?_map]
    congr 1
    cases ((s.events.filter fun e => decide (lastID < e.id)).take maxCount).getLast? <;> rfl
  rw [blockReadEvents, hread]
  simp only [readEntries, if_neg (Nat.ne_of_gt hpos), List.isEmpty_iff, List.map_eq_nil_iff]
  rw [hmsgs _ fun e he => List.mem_of_mem_filter (List.mem_of_mem_take he)]

end Streamed

theorem appends_entry {l : List Entry} {e : Entry} (hrev : e.rev = l.length + 1)
    (hb : e.rev < 2 ^ 63) (hid : ∀ a ∈ l, a.id < e.id) (hpos : StreamID.zero < e.id)
    (hput : e.type = .put → ∃ c v lease value, e.data = some (blob c e.rev v lease value)) :
    Feed.Appends (l.map entryEvent) (entryEvent e) := by
  refine ⟨?_, ⟨e.id, rfl, hpos, ?_⟩, fun ht => ?_⟩
  · rw [List.length_map]
    exact hrev
  · intro x hx i hi
    obtain ⟨a, ha, rfl⟩ := List.mem_map.mp hx
    cases hi
    exact hid a ha
  · have ht : e.type = .put := ht
    obtain ⟨c, v, lease, value, hd⟩ := hput ht
    have hlen := blob_length c e.rev v lease value
    have hsome : (decodeKV e.key (blob c e.rev v lease value)).isSome := decodeKV_isSome hlen
    obtain ⟨kv, hkv⟩ := Option.isSome_iff_exists.mp hsome
    have hmod := decodeKV_modRevision hkv
    rw [field_blob, dec64_blob_mod (by omega) (by omega), toInt64_of_lt hb] at hmod
    simp only [entryEvent, makeEvent, ht, hd, Option.getD_some, hlen, and_self, if_true, hkv,
      Option.map_some, hmod]

/-- The event of an entry that a script has appended can be committed to the stream as it was. -/
theorem appends_committed {s s' : Redis} {e : Entry} (h : Recorded s) (hc : Committed s s' e)
    (hb : s'.counter < 10 ^ 14) : Feed.Appends (streamEvents s) (entryEvent e) ∧
      parseStreamEvent e = some (entryEvent e) ∧
      streamEvents s' = streamEvents s ++ [entryEvent e] := by
  have h' := h.effect (Or.inr ⟨e, hc⟩)
  have hcounter := hc.counter
  have hbound : s.counter < 10 ^ 14 := by omega
  have hrev := hc.rev
  refine ⟨?_, parseStreamEvent_mem h'.toConsistent hb ?_, ?_⟩
  · rw [streamEvents_eq h.toConsistent hbound]
    refine appends_entry ?_ (by omega) (fun a ha => ?_) ((StreamID.zero_le _).trans_lt hc.id) hc.put
    · rw [hrev, h.counter]
    · exact (h.toConsistent.id_le_lastID ha).trans_lt hc.id
  · rw [hc.events]
    exact List.mem_concat_self
  · rw [streamEvents_eq h'.toConsistent hb, streamEvents_eq h.toConsistent hbound, hc.events,
      List.map_append]
    rfl

/-- **The entries of the stream are read as a log.** -/
theorem Recorded.logged {s : Redis} (h : Recorded s) (hb : s.counter < 10 ^ 14) :
    Logged (streamEvents s) := by
  rw [streamEvents_eq h.toConsistent hb]
  have hlen := h.counter
  -- by induction over the beginnings of the stream
  have hall : ∀ n ≤ s.events.length, Logged ((s.events.take n).map entryEvent) := by
    intro n
    induction n with
    | zero => exact fun _ => .nil
    | succ n ih =>
      intro hn
      have hget := List.getElem?_eq_getElem (Nat.lt_of_succ_le hn)
      have hrev := h.revs n _ hget
      have hmem := List.getElem_mem (Nat.lt_of_succ_le hn)
      rw [List.take_succ_eq_append_getElem (Nat.lt_of_succ_le hn), List.map_append]
      refine .commit (ih (by omega)) (appends_entry ?_ ?_ ?_ (h.id_pos _ hmem) (h.puts _ hmem))
      · rw [hrev, List.length_take]
        omega
      · omega
      · intro a ha
        obtain ⟨i, hi, rfl⟩ := List.mem_take_iff_getElem.mp ha
        exact List.pairwise_iff_getElem.mp h.ids i n _ _ (by omega)
  have := hall s.events.length le_rfl
  rwa [List.take_length] at this

/-! ### The Watch service and its writers -/

/-- What the Watch service does by itself: everything but committing an entry, losing the answer and
calling `ingest`. -/
def Act.Watching : Act → Bool
  | .commit _ | .lose _ | .ingest _ => false
  | _ => true

def Sys.withWriters (s : Sys) (inflight lost : List Event) : Sys :=
  { s with feed := { s.feed with inflight := inflight, lost := lost } }

def Sys.withStream (s : Sys) (stream : List Event) : Sys :=
  { s with feed := { s.feed with stream := stream } }

theorem Feed.Turn.stream {f f' : Feed} {id : ℕ} (h : f.Turn id f') : f'.stream = f.stream := by
  cases h <;> rfl

theorem Feed.dispatch_withWriters (f : Feed) (id : ℕ) (inflight lost : List Event) :
    { f with inflight := inflight, lost := lost }.dispatch id =
      (f.dispatch id).map fun f' => { f' with inflight := inflight, lost := lost } := by
  cases f with
  | mk stream inflight' lost' disp lock released frontier skipped =>
    simp only [dispatch]
    cases lock with
    | free => rfl
    | drain =>
      dsimp only
      cases disp.pending[disp.nextRev]? with
      | some ev => rfl
      | none =>
        dsimp only
        split_ifs <;> rfl
    | fan ev todo caller =>
      dsimp only
      split_ifs
      · cases caller <;> rfl
      · rfl
      · rfl
    | flush revs last =>
      cases revs with
      | nil => rfl
      | cons r revs =>
        dsimp only
        cases disp.pending[r]? <;> rfl

theorem Sys.connStep_withWriters (s : Sys) (c : ℕ) (a : Act) (inflight lost : List Event) :
    (s.withWriters inflight lost).connStep c a =
      (s.connStep c a).map fun s' => s'.withWriters inflight lost := by
  have hsend : ∀ ok resp, (s.withWriters inflight lost).send c ok resp =
      (s.send c ok resp).withWriters inflight lost := by
    intro ok resp
    cases ok <;> rfl
  have hconns : (s.withWriters inflight lost).conns = s.conns := rfl
  cases a with
  | create c' cr | revision c' ok | progress c' | close c' =>
    simp only [connStep, hconns]
    cases (s.conns c).pc <;> rfl
  | cancel c' id =>
    simp only [connStep, hconns]
    cases (s.conns c).pc with
    | receiving =>
      dsimp only
      split_ifs <;> rfl
    | _ => rfl
  | confirm c' ok =>
    simp only [connStep, hconns, hsend]
    cases (s.conns c).pc <;> rfl
  | reply c' ok =>
    simp only [connStep, hconns, hsend]
    cases (s.conns c).pc <;> rfl
  | _ => rfl

theorem Sys.register_withWriters (s : Sys) (id : ℤ) (w : Watch) (inflight lost : List Event) :
    (s.withWriters inflight lost).register id w =
      (s.register id w).map fun s' => s'.withWriters inflight lost := by
  have hlock : (s.withWriters inflight lost).feed.lock = s.feed.lock := rfl
  simp only [register, hlock]
  cases s.feed.lock <;> cases w.pc <;> rfl

theorem Sys.finish_withWriters (s : Sys) (id : ℤ) (w : Watch) (inflight lost : List Event) :
    (s.withWriters inflight lost).finish id w =
      (s.finish id w).map fun s' => s'.withWriters inflight lost := by
  have hlock : (s.withWriters inflight lost).feed.lock = s.feed.lock := rfl
  simp only [finish, hlock]
  cases s.feed.lock <;> cases w.pc <;> rfl

theorem Sys.watchStep_withWriters (s : Sys) (id : ℤ) (w : Watch) (a : WatchAct)
    (inflight lost : List Event) :
    (s.withWriters inflight lost).watchStep id w a =
      (s.watchStep id w a).map fun s' => s'.withWriters inflight lost := by
  simp only [watchStep, Option.map_map]
  rfl

theorem bind_map_withWriters {s : Sys} {id : ℤ} {f : Sys → Watch → Option Sys}
    {inflight lost : List Event}
    (hf : ∀ w, f (s.withWriters inflight lost) w =
      (f s w).map fun s' => s'.withWriters inflight lost) :
    ((s.withWriters inflight lost).watches id).bind (f (s.withWriters inflight lost)) =
      ((s.watches id).bind (f s)).map fun s' => s'.withWriters inflight lost := by
  change (s.watches id).bind _ = _
  cases s.watches id with
  | none => rfl
  | some w => exact hf w

/-- **What the Watch service does by itself does not depend on the writers.** -/
theorem Sys.step_withWriters (s : Sys) {a : Act} (ha : a.Watching = true)
    (inflight lost : List Event) :
    (s.withWriters inflight lost).step a =
      (s.step a).map fun s' => s'.withWriters inflight lost := by
  cases a with
  | commit ev | lose ev | ingest ev => cases ha
  | dispatch id =>
    simp only [step, Option.map_map]
    change ((Feed.dispatch id { s.feed with inflight := inflight, lost := lost }).map _) = _
    rw [Feed.dispatch_withWriters, Option.map_map]
    rfl
  | register id =>
    exact bind_map_withWriters (f := fun s w => s.register id w) fun w =>
      s.register_withWriters id w inflight lost
  | finish id =>
    exact bind_map_withWriters (f := fun s w => s.finish id w) fun w =>
      s.finish_withWriters id w inflight lost
  | watch id a =>
    exact bind_map_withWriters (f := fun s w => s.watchStep id w a) fun w =>
      s.watchStep_withWriters id w a inflight lost
  | create c cr => exact s.connStep_withWriters c (.create c cr) inflight lost
  | revision c ok => exact s.connStep_withWriters c (.revision c ok) inflight lost
  | confirm c ok => exact s.connStep_withWriters c (.confirm c ok) inflight lost
  | cancel c id => exact s.connStep_withWriters c (.cancel c id) inflight lost
  | progress c => exact s.connStep_withWriters c (.progress c) inflight lost
  | reply c ok => exact s.connStep_withWriters c (.reply c ok) inflight lost
  | hangUp c => exact s.connStep_withWriters c (.hangUp c) inflight lost
  | close c => exact s.connStep_withWriters c (.close c) inflight lost

theorem Sys.step_stream {s s' : Sys} {a : Act} (ha : a.Watching = true) (h : s.step a = some s') :
    s'.feed.stream = s.feed.stream := by
  -- a commit would add to the writers
  have hw := s.step_withWriters ha [] []
  rw [h, Option.map_some] at hw
  rcases (step_change hw).feed_cases with (⟨ev, hc⟩ | ⟨ev, hl⟩ | ⟨ev, hi⟩ | ⟨id, hd⟩) | ⟨_, _, _, hf⟩
  · have := congrArg Feed.inflight (Feed.commit_iff.mp hc).2
    cases this
  · cases (Feed.lose_iff.mp hl).1
  · cases (Feed.ingest_iff.mp hi).2.1
  · have := (Feed.dispatch_iff.mp hd).stream
    exact this
  · have := congrArg Feed.stream hf
    exact this

/-! ### The whole -/

/-- The requests on Redis, and the Watch service.  The stream in `sys.feed` is the Redis stream as it
is read; `inflight` and `lost` are left empty, since the requests are the writers. -/
structure Whole where
  pool : Pool Cmd Reply Answer World
  sys : Sys

/-- What can happen next: a request runs its next command, or the Watch service does something. -/
inductive WholeAct where
  | serve (i : ℕ) (env : Env)
  | watch (a : Act)

def Feed.accept (ev : Event) (f : Feed) : Option Feed :=
  match f.lock with
  | .free =>
    match f.disp.hold ev with
    | none => some f
    | some d => some { f with disp := d, lock := .drain }
  | _ => none

theorem Feed.accept_iff {f f' : Feed} {ev : Event} : f.accept ev = some f' ↔ f.lock = .free ∧
    (f.disp.hold ev = none ∧ f' = f ∨
      ∃ d, f.disp.hold ev = some d ∧ f' = { f with disp := d, lock := .drain }) := by
  unfold accept
  cases hl : f.lock with
  | free =>
    cases f.disp.hold ev with
    | none => simp [eq_comm]
    | some d => simp [eq_comm]
  | _ => simp

theorem Feed.accept_stream {f f' : Feed} {ev : Event} (h : f.accept ev = some f') :
    f'.stream = f.stream := by
  obtain ⟨_, ⟨_, rfl⟩ | ⟨d, _, rfl⟩⟩ := Feed.accept_iff.mp h <;> rfl

namespace Whole

/-- A server that is started on the database `redis`, with some requests to come; the two reads of
`prime` are answered. -/
def start (redis : Redis) (reqs : List Request) : Whole :=
  ⟨⟨⟨redis, []⟩, reqs.map Request.serve⟩, .start (streamEvents redis)⟩

/-- The next command of the request `i`: a call of the sink goes to the dispatcher, any other command
to Redis. -/
def serve (s : Whole) (i : ℕ) (env : Env) : Option Whole :=
  match s.pool.procs[i]? with
  | some (.call (.emit ev) _) =>
    (s.sys.feed.accept ev).map fun f =>
      ⟨Pool.step exec s.pool (i, env), { s.sys with feed := f }⟩
  | some (.call _ _) =>
    let pool := Pool.step exec s.pool (i, env)
    some ⟨pool, s.sys.withStream (streamEvents pool.shared.redis)⟩
  | _ => none

/-- **The next step**, `none` if it is not possible. -/
def step (s : Whole) : WholeAct → Option Whole
  | .serve i env => s.serve i env
  | .watch a => if a.Watching then (s.sys.step a).map fun sys => { s with sys := sys } else none

/-- The reorder buffer is within its bound and revisions are written in full. -/
def Ok (s : Whole) : Prop := Buffered s.sys ∧ s.pool.shared.redis.counter < 10 ^ 14

end Whole

/-- **What `prime` reads.**  When both of its reads are answered and nothing is written meanwhile,
the Watch service starts from the stream. -/
theorem primed_eq_start {redis : Redis} (h : Consistent redis) (hb : redis.counter < 10 ^ 14)
    {current raw : Result ℤ} {w w' : World}
    (hcur : Prog.Exec Store.step RedisStore.currentRevision ⟨redis, []⟩ current w)
    (hraw : Prog.Exec Store.step RedisStore.rawRevision w raw w') :
    Sys.primed (streamEvents redis) current raw = .start (streamEvents redis) := by
  obtain ⟨rfl, rfl⟩ := RedisStore.currentRevision_exec hcur
  obtain ⟨_, rfl⟩ := RedisStore.rawRevision_exec h.counter_nonneg hraw
  have hlen : redis.counter = (streamEvents redis).length := by
    rw [streamEvents_eq h hb, List.length_map, h.counter]
  rw [Sys.start, Sys.currentRevision, reported, hlen]

/-! ### What the writers do to the Watch service -/

section Writers

variable {s : Sys} {ev : Event} {inflight : List Event}

theorem Sys.step_commit (h : Feed.Appends s.feed.stream ev) (inflight lost : List Event) :
    (s.withWriters inflight lost).step (.commit ev) =
      some ((s.withStream (s.feed.stream ++ [ev])).withWriters (ev :: inflight) lost) :=
  Option.map_eq_some_iff.mpr ⟨_, Feed.commit_iff.mpr ⟨h, rfl⟩, rfl⟩

theorem Sys.step_lose (ev : Event) (inflight lost : List Event) :
    (s.withWriters (ev :: inflight) lost).step (.lose ev) =
      some (s.withWriters inflight (ev :: lost)) := by
  refine Option.map_eq_some_iff.mpr ⟨_, Feed.lose_iff.mpr ⟨List.mem_cons_self, rfl⟩, ?_⟩
  change s.withWriters ((ev :: inflight).erase ev) (ev :: lost) = _
  rw [List.erase_cons_head]

theorem Sys.step_ingest (hin : ev ∈ inflight) (lost : List Event) {f : Feed}
    (hf : s.feed.accept ev = some f) : (s.withWriters inflight lost).step (.ingest ev) =
      some (({ s with feed := f } : Sys).withWriters (inflight.erase ev) lost) := by
  obtain ⟨hfree, hcases⟩ := Feed.accept_iff.mp hf
  refine Option.map_eq_some_iff.mpr ⟨_, Feed.ingest_iff.mpr ⟨hfree, hin, ?_⟩, rfl⟩
  rcases hcases with ⟨hhold, rfl⟩ | ⟨d, hhold, rfl⟩
  · exact Or.inl ⟨hhold, rfl⟩
  · exact Or.inr ⟨d, hhold, rfl⟩

end Writers

/-! ### The whole is a run of the Watch service -/

theorem exec_emit (env : Env) (ev : Event) (w : World) :
    exec env (.emit ev) w = (.ok (), { w with emitted := w.emitted ++ [ev] }) := by
  rw [exec]
  cases env.fault <;> rfl

theorem exec_silent (env : Env) {c : Cmd} (hc : c.Silent) (w : World) :
    (exec env c w).2.emitted = w.emitted := by
  rcases exec_world env c w with h | h
  · rw [h]
  · rw [h]
    cases c with
    | emit => exact hc.elim
    | incrLeaseID =>
      rw [Cmd.run]
      split_ifs <;> rfl
    | _ => rfl

/-- The event that a routine is about to hand to the sink. -/
def debt {α : Type} : Routine α → Option Event
  | .call (.emit ev) _ => some ev
  | _ => none

theorem debt_eq {α : Type} {p : Routine α} {o : Option Event} (h : Hands p o) : debt p = o := by
  cases p with
  | ret a => exact (show o = none from h).symm
  | call c k =>
    cases o with
    | some ev =>
      obtain rfl : c = .emit ev := h.1
      rfl
    | none =>
      cases c with
      | emit ev => exact absurd h.1 id
      | _ => rfl

theorem serve_hands (r : Request) : Hands r.serve none := by
  refine serve_composed (K := fun p => Hands p none) Prog.obeys_composed
    RedisStore.currentRevision_hands RedisStore.get_hands (fun _ => RedisStore.range_hands)
    RedisStore.delete_hands (fun key value lease _ => RedisStore.put_hands key value lease)
    (fun key expected value lease _ => RedisStore.txn_hands key expected .put value lease)
    (fun _ c hc => ?_) r.within_all
  refine hands_of_plain (Prog.uses_cmd ?_ fun _ => trivial)
  cases c with
  | evalWrite | evalTxn | emit => exact hc.elim
  | _ => trivial

/-- The run of the Watch service that goes with the whole: the requests that owe the sink an event are
the writers under way, and with the lost events and those handed over they account for the stream
above `N`. -/
structure Tracks (N : ℕ) (s : Whole) (t : Sys) : Prop where
  recorded : Recorded s.pool.shared.redis
  bounded : s.pool.shared.redis.counter < 10 ^ 14
  issued : s.pool.Uses Cmd.Issued
  hands : ∀ p ∈ s.pool.procs, Hands p (debt p)
  stream : s.sys.feed.stream = streamEvents s.pool.shared.redis
  sys : t = s.sys.withWriters t.feed.inflight t.feed.lost
  inflight : t.feed.inflight.Perm (s.pool.procs.filterMap debt)
  handed : (t.feed.inflight ++ t.feed.lost ++ s.pool.shared.emitted).Perm
    (s.sys.feed.stream.drop N)
  old : N ≤ s.sys.feed.stream.length

theorem tracks_start {redis : Redis} (h : Recorded redis) (hb : redis.counter < 10 ^ 14)
    (reqs : List Request) :
    Tracks (streamEvents redis).length (Whole.start redis reqs) (.start (streamEvents redis)) := by
  have hmem : ∀ p ∈ (Whole.start redis reqs).pool.procs, Hands p none ∧ p.Uses Cmd.Issued := by
    intro p hp
    obtain ⟨r, _, rfl⟩ := List.mem_map.mp hp
    exact ⟨serve_hands r, serve_issued r⟩
  have hnone : ∀ p ∈ (Whole.start redis reqs).pool.procs, debt p = none :=
    fun p hp => debt_eq (hmem p hp).1
  refine ⟨h, hb, fun p hp => (hmem p hp).2, fun p hp => ?_, rfl, rfl, ?_, ?_, le_rfl⟩
  · rw [hnone p hp]
    exact (hmem p hp).1
  · rw [List.filterMap_eq_nil_iff.mpr hnone]
    exact .refl _
  · change List.Perm [] ((streamEvents redis).drop (streamEvents redis).length)
    rw [List.drop_length]

section Simulation

variable {N : ℕ} {s s' : Whole} {t : Sys}

theorem Tracks.exists_writers (h : Tracks N s t) :
    ∃ inflight lost, t = s.sys.withWriters inflight lost := ⟨_, _, h.sys⟩

/-- The Watch service does something by itself. -/
theorem Tracks.watch (h : Tracks N s t) {a : Act} (hs : s.step (.watch a) = some s')
    (hok : s'.Ok) : ∃ t', Reach Sys.step Buffered t t' ∧ Tracks N s' t' := by
  rw [Whole.step, Option.ite_none_right_eq_some] at hs
  obtain ⟨ha, hs⟩ := hs
  obtain ⟨sys, hsys, rfl⟩ := Option.map_eq_some_iff.mp hs
  have hstep := s.sys.step_withWriters ha t.feed.inflight t.feed.lost
  rw [← h.sys, hsys, Option.map_some] at hstep
  have hstream := Sys.step_stream ha hsys
  refine ⟨_, .tail a .refl hstep hok.1, h.recorded, h.bounded, h.issued, h.hands, ?_, rfl,
    h.inflight, ?_, ?_⟩
  · exact hstream.trans h.stream
  · change List.Perm _ (sys.feed.stream.drop N)
    rw [hstream]
    exact h.handed
  · change N ≤ sys.feed.stream.length
    rw [hstream]
    exact h.old

/-- A request hands the event that it owes to the sink. -/
theorem Tracks.emit (h : Tracks N s t) {i : ℕ} {env : Env} {ev : Event}
    {k : Reply (.emit ev) → Routine Answer}
    (hi : s.pool.procs[i]? = some (.call (.emit ev) k)) {f : Feed}
    (hf : s.sys.feed.accept ev = some f)
    (hok : Whole.Ok ⟨Pool.step exec s.pool (i, env), { s.sys with feed := f }⟩) :
    ∃ t', Reach Sys.step Buffered t t' ∧
      Tracks N ⟨Pool.step exec s.pool (i, env), { s.sys with feed := f }⟩ t' := by
  obtain ⟨inflight, lost, rfl⟩ := h.exists_writers
  have hstep : Pool.step exec s.pool (i, env) =
      ⟨{ s.pool.shared with emitted := s.pool.shared.emitted ++ [ev] },
        s.pool.procs.set i (k (.ok ()))⟩ := by
    simp only [Pool.step, hi, exec_emit]
  have hmem := List.mem_of_getElem? hi
  have hanswers : Answers (.emit ev) s.pool.shared (.ok ())
      { s.pool.shared with emitted := s.pool.shared.emitted ++ [ev] } :=
    ⟨h.recorded.toConsistent, ⟨env, exec_emit env ev _⟩, h.bounded⟩
  have hrest : Hands (k (.ok ())) none := (h.hands _ hmem).2 _ _ _ hanswers
  have hdebts : (ev :: (s.pool.procs.set i (k (.ok ()))).filterMap debt).Perm
      (s.pool.procs.filterMap debt) := by
    have := perm_filterMap_set debt hi (k (.ok ()))
    rw [debt_eq hrest] at this
    exact this
  have hin : ev ∈ inflight := h.inflight.mem_iff.mpr (hdebts.mem_iff.mp List.mem_cons_self)
  have herase := List.perm_cons_erase hin
  have hstream := Feed.accept_stream hf
  have hissued := Pool.step_uses exec h.issued (i, env)
  have hhands : ∀ p ∈ (Pool.step exec s.pool (i, env)).procs, Hands p (debt p) :=
    Pool.step_obeys hi h.hands (by rw [exec_emit]; exact hanswers)
      (by rw [exec_emit]; exact debt_eq hrest)
  refine ⟨_, .tail _ .refl (Sys.step_ingest hin lost hf) hok.1, ?_⟩
  rw [hstep] at hissued hhands ⊢
  refine ⟨h.recorded, h.bounded, hissued, hhands, hstream.trans h.stream, rfl, ?_, ?_, ?_⟩
  · exact ((hdebts.trans h.inflight.symm).trans herase).cons_inv.symm
  · change (inflight.erase ev ++ lost ++ (s.pool.shared.emitted ++ [ev])).Perm (f.stream.drop N)
    rw [hstream]
    refine List.Perm.trans ?_ h.handed
    change List.Perm _ (inflight ++ lost ++ s.pool.shared.emitted)
    rw [← List.append_assoc]
    refine (List.perm_append_singleton ev _).trans ?_
    exact ((herase.symm.append_right lost).append_right _)
  · change N ≤ f.stream.length
    rw [hstream]
    exact h.old

/-- The requests after a command that went to Redis: the one that has issued it owes the sink the
event that was committed, if it was answered. -/
theorem Tracks.requests (h : Tracks N s t) {i : ℕ} {env : Env} {c : Cmd} (hc : c.Silent)
    {k : Reply c → Routine Answer} (hi : s.pool.procs[i]? = some (.call c k)) {r : Reply c}
    {w' : World} (hexec : exec env c s.pool.shared = (r, w')) (hb : w'.redis.counter < 10 ^ 14) :
    (∀ p ∈ s.pool.procs.set i (k r), p.Uses Cmd.Issued ∧ Hands p (debt p)) ∧
      ((s.pool.procs.set i (k r)).filterMap debt).Perm
        ((owing s.pool.shared r w').toList ++ s.pool.procs.filterMap debt) := by
  have hstep : Pool.step exec s.pool (i, env) = ⟨w', s.pool.procs.set i (k r)⟩ := by
    simp only [Pool.step, hi, hexec]
  have hanswers : Answers c s.pool.shared r w' :=
    ⟨h.recorded.toConsistent, ⟨env, hexec⟩, hb⟩
  have hdebt : debt (.call c k : Routine Answer) = none := by
    cases c with
    | emit => exact hc.elim
    | _ => rfl
  have hrest : Hands (k r) (owing s.pool.shared r w') := by
    have := h.hands _ (List.mem_of_getElem? hi)
    rw [hdebt] at this
    exact this.2 s.pool.shared r w' hanswers
  have hissued := Pool.step_uses exec h.issued (i, env)
  have hhands : ∀ p ∈ (Pool.step exec s.pool (i, env)).procs, Hands p (debt p) :=
    Pool.step_obeys hi h.hands (by rw [hexec]; exact hanswers)
      (by rw [hexec, hdebt]; exact debt_eq hrest)
  rw [hstep] at hissued hhands
  refine ⟨fun p hp => ⟨hissued p hp, hhands p hp⟩, ?_⟩
  have hdebts := perm_filterMap_set debt hi (k r)
  rw [hdebt, debt_eq hrest] at hdebts
  exact hdebts

/-- A command that goes to Redis. -/
theorem Tracks.command (h : Tracks N s t) {i : ℕ} {env : Env} {c : Cmd} (hc : c.Silent)
    {k : Reply c → Routine Answer} (hi : s.pool.procs[i]? = some (.call c k))
    (hs : s' = ⟨Pool.step exec s.pool (i, env),
      s.sys.withStream (streamEvents (Pool.step exec s.pool (i, env)).shared.redis)⟩)
    (hok : s'.Ok) : ∃ t', Reach Sys.step Buffered t t' ∧ Tracks N s' t' := by
  obtain ⟨inflight, lost, rfl⟩ := h.exists_writers
  have heffect := exec_effect env (h.issued _ (List.mem_of_getElem? hi)).1 s.pool.shared
  have hemitted := exec_silent env hc s.pool.shared
  rcases hexec : exec env c s.pool.shared with ⟨r, w'⟩
  have hstep : Pool.step exec s.pool (i, env) = ⟨w', s.pool.procs.set i (k r)⟩ := by
    simp only [Pool.step, hi, hexec]
  rw [hexec] at heffect hemitted
  dsimp only at heffect hemitted
  rw [hstep] at hs
  subst hs
  obtain ⟨hreqs, hdebts⟩ := h.requests hc hi hexec hok.2
  have hissued : Pool.Uses Cmd.Issued ⟨w', s.pool.procs.set i (k r)⟩ := fun p hp => (hreqs p hp).1
  have hhands : ∀ p ∈ s.pool.procs.set i (k r), Hands p (debt p) := fun p hp => (hreqs p hp).2
  have hrecorded := h.recorded.effect heffect
  rcases heffect with hframe | ⟨e, hcom⟩
  · have hstream : streamEvents w'.redis = s.sys.feed.stream := by
      rw [h.stream, streamEvents, hframe.events, streamEvents]
    rw [owing_of_events hframe.events] at hdebts
    rw [hstream] at hok ⊢
    refine ⟨_, .refl, hrecorded, hok.2, hissued, hhands, hstream.symm, rfl,
      h.inflight.trans hdebts.symm, ?_, h.old⟩
    change (inflight ++ lost ++ w'.emitted).Perm _
    rw [hemitted]
    exact h.handed
  · obtain ⟨happ, hparse, hnew⟩ := appends_committed h.recorded hcom hok.2
    rw [← h.stream] at happ hnew
    have hcommit := Sys.step_commit happ inflight lost
    rw [← hnew] at hcommit
    have hhanded : (entryEvent e :: (inflight ++ lost ++ w'.emitted)).Perm
        ((streamEvents w'.redis).drop N) := by
      rw [hnew, List.drop_append_of_le_length h.old, hemitted]
      exact (h.handed.cons _).trans (List.perm_append_singleton _ _).symm
    have hold : N ≤ (streamEvents w'.redis).length := by
      rw [hnew, List.length_append]
      exact h.old.trans (Nat.le_add_right _ _)
    cases r with
    | ok v =>
      rw [owing_of_committed hcom, hparse] at hdebts
      refine ⟨_, .tail _ .refl hcommit hok.1, hrecorded, hok.2, hissued, hhands, rfl, rfl, ?_,
        hhanded, hold⟩
      exact (h.inflight.cons _).trans hdebts.symm
    | error err =>
      -- the writer was told that its script had failed, so the event is lost
      rw [owing_error] at hdebts
      have hlose := Sys.step_lose (s := s.sys.withStream (streamEvents w'.redis)) (entryEvent e)
        inflight lost
      refine ⟨_, .tail _ (.tail _ .refl hcommit hok.1) hlose hok.1, hrecorded, hok.2, hissued,
        hhands, rfl, rfl, h.inflight.trans hdebts.symm, ?_, hold⟩
      refine List.Perm.trans ?_ hhanded
      change (inflight ++ entryEvent e :: lost ++ w'.emitted).Perm _
      rw [List.append_assoc, List.append_assoc]
      exact List.perm_middle

/-- **Every step of the whole is matched by steps of the Watch service.** -/
theorem Tracks.step (h : Tracks N s t) {a : WholeAct} (hs : s.step a = some s') (hok : s'.Ok) :
    ∃ t', Reach Sys.step Buffered t t' ∧ Tracks N s' t' := by
  cases a with
  | watch a => exact h.watch hs hok
  | serve i env =>
    rw [Whole.step, Whole.serve] at hs
    split at hs
    · rename_i ev k hi
      obtain ⟨f, hf, rfl⟩ := Option.map_eq_some_iff.mp hs
      exact h.emit hi hf hok
    · rename_i c k hne hi
      refine h.command ?_ hi (Option.some.inj hs).symm hok
      cases c with
      | emit ev => exact hne ev k rfl HEq.rfl
      | _ => trivial
    · cases hs

end Simulation

/-- **Every run of the whole server is a run of the Watch service** in which the requests are the
writers. -/
theorem whole_refines {redis : Redis} (h : Recorded redis) (hb : redis.counter < 10 ^ 14)
    {reqs : List Request} {s : Whole} (hs : Reach Whole.step Whole.Ok (.start redis reqs) s) :
    ∃ t, Reach Sys.step Buffered (.start (streamEvents redis)) t ∧
      Tracks (streamEvents redis).length s t :=
  hs.simulate (R := Tracks (streamEvents redis).length) (tracks_start h hb reqs)
    fun _ _ _ _ ht hstep hok => ht.step hstep hok

/-- **The requests of the whole run as a pool.** -/
theorem whole_pool {ok : Whole → Prop} {redis : Redis} {reqs : List Request} {s : Whole}
    (hs : Reach Whole.step ok (.start redis reqs) s) :
    ∃ ms, s.pool = Pool.run exec (Whole.start redis reqs).pool ms := by
  induction hs with
  | refl => exact ⟨[], rfl⟩
  | @tail s s' a _ hstep _ ih =>
    obtain ⟨ms, hms⟩ := ih
    cases a with
    | watch a =>
      rw [Whole.step, Option.ite_none_right_eq_some] at hstep
      obtain ⟨sys, _, rfl⟩ := Option.map_eq_some_iff.mp hstep.2
      exact ⟨ms, hms⟩
    | serve i env =>
      refine ⟨ms ++ [(i, env)], ?_⟩
      rw [Pool.run_append, ← hms]
      rw [Whole.step, Whole.serve] at hstep
      split at hstep
      · obtain ⟨f, _, rfl⟩ := Option.map_eq_some_iff.mp hstep
        rfl
      · cases hstep
        rfl
      · cases hstep

theorem whole_isPrefix {ok : Whole → Prop} {redis : Redis} {reqs : List Request} {s : Whole}
    (hs : Reach Whole.step ok (.start redis reqs) s) :
    redis.events <+: s.pool.shared.redis.events := by
  obtain ⟨ms, hms⟩ := whole_pool hs
  rw [hms]
  refine Pool.run_inv (P := Cmd.Issued) (I := fun w : World => redis.events <+: w.redis.events)
    (fun env c w hc h => h.trans (exec_isPrefix env c w hc)) ?_ List.prefix_rfl ms
  intro p hp
  obtain ⟨r, _, rfl⟩ := List.mem_map.mp hp
  exact serve_issued r

end REtcd.Server
