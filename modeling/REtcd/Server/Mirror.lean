import REtcd.Base.Mirror
import REtcd.Server.ListWatch
import REtcd.Server.Whole

/-!
# What a client makes of a watch

`whole_watch_exact` carries the guarantees of the Watch service over to the whole server: what is
sent on a watch is a beginning of the wanted entries of the Redis stream, and all of them once every
event that was committed has been handed to the sink and the watch is idle.  As in `Whole.start`, both
reads of `prime` were answered.

A client that holds the watched keys as they were just before the watch's first revision and applies
what it is sent holds, after every event, the store's contents at the revision of that event, and
the previous value that comes with an event is the one it held (`watch_mirrors`).
-/

namespace REtcd.Server

open Base Store

/-! ### The store at a revision -/

def contentsAt (s : Redis) (r : ℤ) : Key → Option KeyValue := mapAt Entry.rev eventWrite s.events r

theorem replay_eventWrite (l : List Entry) (k : Key) :
    replay (fun _ => none) (l.map eventWrite) k = (replayed l k).bind (decodeKV k) := by
  induction l using List.reverseRecOn with
  | nil => rfl
  | append_singleton l e ih =>
    rw [replayed_concat, List.map_append, List.map_singleton, replay_concat]
    by_cases hk : k = e.key
    · simp [hk, eventWrite]
    · rw [Function.update_of_ne hk, ← ih]
      exact Function.update_of_ne hk _ _

section Past

variable {s t : Redis}

theorem filter_le_take (h : Consistent s) (n : ℕ) :
    s.events.filter (fun e => decide (e.rev ≤ (n : ℤ))) = s.events.take n := by
  conv_lhs => rw [← List.take_append_drop n s.events]
  rw [List.filter_append, List.filter_eq_self.mpr, List.filter_eq_nil_iff.mpr, List.append_nil]
  · intro e he
    obtain ⟨i, hi, rfl⟩ := List.mem_drop_iff_getElem.mp he
    rw [h.revs _ _ (List.getElem?_eq_getElem _), decide_eq_true_eq]
    push_cast
    omega
  · intro e he
    obtain ⟨i, hi, rfl⟩ := List.mem_take_iff_getElem.mp he
    rw [h.revs _ _ (List.getElem?_eq_getElem _), decide_eq_true_eq]
    omega

/-- **What the store held at the revision of an earlier moment is what it held then.** -/
theorem contentsAt_past (hs : Consistent s) (ht : Consistent t) (hp : s.events <+: t.events) :
    contentsAt t s.counter = contents s := by
  funext k
  rw [contentsAt, mapAt, hs.counter, filter_le_take ht, ← List.prefix_iff_eq_take.mp hp,
    ← contents_eq_replay hs]

theorem contentsAt_zero (h : Consistent s) : contentsAt s 0 = fun _ => none := by
  have := filter_le_take h 0
  rw [Nat.cast_zero] at this
  rw [contentsAt, mapAt, this]
  rfl

theorem contentsAt_of_le (h : Consistent s) {r : ℤ} (hr : s.counter ≤ r) :
    contentsAt s r = contents s := by
  rw [← contentsAt_past h h List.prefix_rfl, contentsAt, contentsAt, mapAt, mapAt]
  congr 2
  refine List.filter_congr fun e he => ?_
  have := (h.rev_mem he).2
  rw [decide_eq_true this, decide_eq_true (this.trans hr)]

end Past

/-! ### What an event tells a client -/

/-- What a client does to its copy when it is sent an event. -/
def ProtoEvent.write (e : ProtoEvent) : KeyWrite Key KeyValue :=
  ⟨(e.kv.map KeyValue.key).getD [], if e.type = .put then e.kv else none⟩

section Told

variable {s : Redis} (h : Consistent s) {e : Entry} (he : e ∈ s.events)

include h he

/-- A client does to its copy what the entry did to the store. -/
theorem write_eventToProto : (eventToProto (entryEvent e)).write = eventWrite e := by
  cases ht : e.type with
  | put =>
    obtain ⟨c, v, lease, value, hd⟩ := h.puts e he ht
    have hlen := blob_length c e.rev v lease value
    have hsome : (decodeKV e.key (blob c e.rev v lease value)).isSome := decodeKV_isSome hlen
    obtain ⟨kv, hkv⟩ := Option.isSome_iff_exists.mp hsome
    simp [eventToProto, entryEvent, makeEvent, ht, hd, hlen, hkv, ProtoEvent.write, eventWrite,
      Entry.write, decodeKV_key hkv]
  | delete =>
    simp [eventToProto, entryEvent, makeEvent, ht, ProtoEvent.write, eventWrite, Entry.write]

/-- **The previous value** in an event is what the key held at the revision before. -/
theorem prevKv_eventToProto :
    (eventToProto (entryEvent e)).prevKv = contentsAt s (e.rev - 1) e.key := by
  obtain ⟨i, hi⟩ := List.getElem?_of_mem he
  have hrev : e.rev - 1 = i := by
    rw [h.revs i e hi]
    omega
  have hprev : (eventToProto (entryEvent e)).prevKv = e.prevData.bind (decodeKV e.key) := by
    have : (eventToProto (entryEvent e)).prevKv = (entryEvent e).prevKV := by
      rw [eventToProto]
      cases (entryEvent e).type <;> rfl
    rw [this, entryEvent, makeEvent]
    cases hp : e.prevData with
    | none => rfl
    | some raw => exact if_pos (h.prevData_length he hp)
  rw [hprev, h.images i e hi, hrev, contentsAt, mapAt, filter_le_take h, replay_eventWrite]

end Told

/-! ### A watch on the whole server -/

def wanted (s : Redis) (w : Watch) : List ProtoEvent :=
  ((streamEvents s).filter w.wants).map eventToProto

/-- Every event that was committed since the server was started on `redis` has been handed to the
sink, and the dispatcher is idle. -/
def Whole.Settled (redis : Redis) (s : Whole) : Prop :=
  (∀ e ∈ s.pool.shared.redis.events, redis.counter < e.rev →
    entryEvent e ∈ s.pool.shared.emitted) ∧ s.sys.feed.lock = .free

section Exact

variable {redis : Redis} {s : Whole} {t : Sys}

theorem Tracks.no_writers (h : Tracks (streamEvents redis).length s t) (hr : Consistent redis)
    (hb : redis.counter < 10 ^ 14) (hset : s.Settled redis) :
    t.feed.inflight ++ t.feed.lost = [] := by
  have hN : ((streamEvents redis).length : ℤ) = redis.counter := by
    rw [streamEvents_eq hr hb, List.length_map, hr.counter]
  have hstream := h.stream
  rw [streamEvents_eq h.recorded.toConsistent h.bounded] at hstream
  have hlogged := h.recorded.logged h.bounded
  rw [← h.stream] at hlogged
  have hnodup : (s.sys.feed.stream.drop (streamEvents redis).length).Nodup :=
    (hlogged.ascending.imp fun hlt heq => by rw [heq] at hlt; exact lt_irrefl _ hlt).sublist
      (List.drop_sublist _ _)
  rw [← h.handed.nodup_iff, List.nodup_append] at hnodup
  refine List.eq_nil_iff_forall_not_mem.mpr fun x hx => ?_
  have hmem := h.handed.mem_iff.mp (List.mem_append_left _ hx)
  rw [hstream, ← List.map_drop] at hmem
  obtain ⟨e, he, rfl⟩ := List.mem_map.mp hmem
  obtain ⟨i, hi, heq⟩ := List.mem_drop_iff_getElem.mp he
  have hnew : redis.counter < e.rev := by
    rw [← heq, h.recorded.revs _ _ (List.getElem?_eq_getElem _), ← hN]
    push_cast
    omega
  exact hnodup.2.2 _ hx _ (hset.1 e (List.mem_of_mem_drop he) hnew) rfl

/-- What a watch does by itself it does in the whole too. -/
theorem own_whole {id : ℤ} {inflight lost : List Event} {t' : Sys}
    (hb : s.pool.shared.redis.counter < 10 ^ 14)
    (h : Reach (Sys.own id) Buffered (s.sys.withWriters inflight lost) t') :
    ∃ s', Reach Whole.step Whole.Ok s s' ∧ s'.pool = s.pool ∧
      t' = s'.sys.withWriters inflight lost := by
  refine h.simulate (R := fun (t : Sys) (s' : Whole) => s'.pool = s.pool ∧
    t = s'.sys.withWriters inflight lost) ⟨rfl, rfl⟩ ?_
  rintro t a t' s₁ ⟨hpool, rfl⟩ hstep hok
  have hw : Act.Watching (.watch id a) = true := rfl
  rw [Sys.own, s₁.sys.step_withWriters hw] at hstep
  obtain ⟨sys, hsys, rfl⟩ := Option.map_eq_some_iff.mp hstep
  refine ⟨{ s₁ with sys := sys }, .tail (.watch (.watch id a)) .refl ?_ ⟨hok, ?_⟩, hpool, rfl⟩
  · rw [Whole.step, if_pos hw, hsys, Option.map_some]
  · change s₁.pool.shared.redis.counter < 10 ^ 14
    rw [hpool]
    exact hb

/-- What is sent on the watch is a beginning of what it wants, in ascending order and below the
headers.  Once everything is handed over, the watch has sent everything when it is idle too, and its
own steps take it there. -/
def Whole.MissesNothing (redis : Redis) (s : Whole) (id : ℤ) (w : Watch) : Prop :=
  s.sys.eventsSent id <+: wanted s.pool.shared.redis w ∧
    ((s.sys.eventsSent id).map ProtoEvent.rev).Pairwise (· < ·) ∧
    (∀ r ∈ s.sys.sentTo id, ∀ e ∈ r.events, e.rev ≤ r.header.revision) ∧
    (s.Settled redis → (s.sys.feed.disp.sub w.sub).cancelled = false →
      (w.Idle s.sys.feed.stream (s.sys.feed.disp.sub w.sub).ch →
        s.sys.eventsSent id = wanted s.pool.shared.redis w) ∧
      (w.pc.Running → ∃ s', Reach Whole.step Whole.Ok s s' ∧ s'.pool = s.pool ∧
        s'.sys.eventsSent id = wanted s.pool.shared.redis w))

theorem whole_missesNothing (h : Recorded redis) (hb : redis.counter < 10 ^ 14)
    {reqs : List Request}
    (hs : Reach Whole.step Whole.Ok (.start redis reqs) s) {id : ℤ} {w : Watch}
    (hw : s.sys.watches id = some w) : s.MissesNothing redis id w := by
  obtain ⟨t, ht, htr⟩ := whole_refines h hb hs
  have hwt : t.watches id = some w := by
    rw [htr.sys]
    exact hw
  have hmiss := missesNothing (h.logged hb) ht hwt
  have hset (hset : s.Settled redis) := htr.no_writers h.toConsistent hb hset
  have hstream := htr.stream
  have hbound := htr.bounded
  obtain ⟨inflight, lost, rfl⟩ := htr.exists_writers
  have hwanted : ((s.sys.withWriters inflight lost).feed.stream.filter w.wants).map eventToProto =
      wanted s.pool.shared.redis w := by
    rw [wanted, ← hstream]
    rfl
  rw [Sys.MissesNothing, hwanted] at hmiss
  obtain ⟨hpre, hasc, hheaders, hall⟩ := hmiss
  refine ⟨hpre, hasc, hheaders, fun hquiet hcut => ?_⟩
  obtain ⟨hin, hlost⟩ := List.append_eq_nil_iff.mp (hset hquiet)
  obtain ⟨hidle, hrun⟩ := hall hin hlost hquiet.2 hcut
  refine ⟨hidle, fun hpc => ?_⟩
  obtain ⟨t', ht', _, hsent⟩ := hrun hpc
  obtain ⟨s', hs', hpool, rfl⟩ := own_whole hbound ht'
  exact ⟨s', hs', hpool, hsent⟩

theorem whole_recorded (h : Recorded redis) (hb : redis.counter < 10 ^ 14) {reqs : List Request}
    (hs : Reach Whole.step Whole.Ok (.start redis reqs) s) :
    Recorded s.pool.shared.redis ∧ s.pool.shared.redis.counter < 10 ^ 14 := by
  obtain ⟨t, _, htr⟩ := whole_refines h hb hs
  exact ⟨htr.recorded, htr.bounded⟩

end Exact

/-- **A watch of the whole server is exact.**  When the server was started both reads of `prime` were
answered, and the reorder buffer stays within its bound.  What is sent on a watch is at every moment
a beginning of the wanted entries of the Redis stream, in strictly ascending order, and no header is
below the events it comes with.  When every committed event has been handed to the sink and the
dispatcher is idle, a watch that is not cut loose has sent all of them once it is idle, at its
`select` with an empty channel or waiting at the end of the stream, and as long as it runs its own
steps take it there. -/
theorem whole_watch_exact (redis : Redis) (h : Recorded redis) (hb : redis.counter < 10 ^ 14)
    (reqs : List Request) (s : Whole)
    (hs : Reach Whole.step Whole.Ok (.start redis reqs) s) (id : ℤ) (w : Watch)
    (hw : s.sys.watches id = some w) :
    s.sys.eventsSent id <+: wanted s.pool.shared.redis w ∧
      ((s.sys.eventsSent id).map ProtoEvent.rev).Pairwise (· < ·) ∧
      (∀ r ∈ s.sys.sentTo id, ∀ e ∈ r.events, e.rev ≤ r.header.revision) ∧
      (s.Settled redis → (s.sys.feed.disp.sub w.sub).cancelled = false →
        (w.Idle s.sys.feed.stream (s.sys.feed.disp.sub w.sub).ch →
          s.sys.eventsSent id = wanted s.pool.shared.redis w) ∧
        (w.pc.Running → ∃ s', Reach Whole.step Whole.Ok s s' ∧ s'.pool = s.pool ∧
          s'.sys.eventsSent id = wanted s.pool.shared.redis w)) :=
  whole_missesNothing h hb hs hw

instance : DecidablePred Whole.Ok := fun s =>
  inferInstanceAs (Decidable (Buffered s.sys ∧ s.pool.shared.redis.counter < 10 ^ 14))

/-- A watch is asked for, an event is committed by a put before the watch registers, and the put
hands it over while the watch catches up. -/
def wholeHandOff : List WholeAct :=
  [.watch (.create 0 ⟨[97], [0], 1⟩), .watch (.revision 0 true), .watch (.confirm 0 true),
    .serve 0 (.plain 6), .watch (.register 1), .watch (.watch 1 .go),
    .watch (.watch 1 (.read readBatchSize)), .serve 0 (.plain 7), .watch (.dispatch 0),
    .watch (.dispatch 1), .watch (.dispatch 0), .watch (.dispatch 0), .watch (.watch 1 .go),
    .watch (.watch 1 (.send true)), .watch (.watch 1 .recv), .watch (.watch 1 .go),
    .watch (.watch 1 .go), .watch (.watch 1 (.send true))]

theorem oneKey_recorded : Recorded oneKey.redis := ⟨oneKey_consistent, by decide⟩

/-- Both events are sent, the first from the stream and the second from the channel. -/
theorem wholeHandOff_exact :
    ∃ s w, Reach Whole.step Whole.Ok (.start oneKey.redis [.put ⟨[99], [3], 0, false⟩]) s ∧
      s.sys.watches 1 = some w ∧ s.sys.eventsSent 1 = wanted s.pool.shared.redis w ∧
      (s.sys.eventsSent 1).map ProtoEvent.rev = [1, 2] := by
  obtain ⟨s, hs, hp⟩ := exists_of_run Whole.step Whole.Ok
    (.start oneKey.redis [.put ⟨[99], [3], 0, false⟩]) wholeHandOff
    (fun s => (s.sys.watches 1).any fun w : Watch => decide
      ((∀ e ∈ s.pool.shared.redis.events, oneKey.redis.counter < e.rev →
        entryEvent e ∈ s.pool.shared.emitted) ∧ s.sys.feed.lock = .free ∧ w.pc = .selecting ∧
        (s.sys.feed.disp.sub w.sub).ch = [] ∧ (s.sys.feed.disp.sub w.sub).cancelled = false ∧
        (s.sys.eventsSent 1).map ProtoEvent.rev = [1, 2])) (by decide +kernel)
  obtain ⟨w, hw, hp⟩ := (Option.any_eq_true _ _).mp hp
  obtain ⟨hall, hlock, hpc, hch, hcut, hrevs⟩ := of_decide_eq_true hp
  have hexact := whole_watch_exact _ oneKey_recorded (by decide) _ s hs 1 w hw
  exact ⟨s, w, hs, hw, (hexact.2.2.2 ⟨hall, hlock⟩ hcut).1 (Or.inl ⟨hpc, hch⟩), hrevs⟩

/-! ### The client's copy -/

section Copy

variable {redis : Redis} {s : Whole} {id : ℤ} {w : Watch}

theorem wants_entryEvent (w : Watch) (e : Entry) : w.wants (entryEvent e) =
    (matchesWatch (eventWrite e).key w.key w.rangeEnd &&
      decide (w.startRevision - 1 < e.rev)) := by
  rw [Watch.wants, Bool.and_comm, decide_eq_decide.mpr Int.sub_one_lt_iff]
  rfl

/-- The entries of the stream that a watch wants. -/
def wantedEntries (r : Redis) (w : Watch) : List Entry :=
  r.events.filter fun e => matchesWatch (eventWrite e).key w.key w.rangeEnd &&
    decide (w.startRevision - 1 < e.rev)

theorem wanted_eq {r : Redis} (h : Consistent r) (hb : r.counter < 10 ^ 14) (w : Watch) :
    wanted r w = (wantedEntries r w).map fun e => eventToProto (entryEvent e) := by
  rw [wanted, streamEvents_eq h hb, List.filter_map, List.map_map]
  congr 1
  exact List.filter_congr fun e _ => wants_entryEvent w e

theorem entries_of_isPrefix {r : Redis} (h : Consistent r) (hb : r.counter < 10 ^ 14)
    {sent : List ProtoEvent} (hp : sent <+: wanted r w) :
    ∃ l, l <+: wantedEntries r w ∧ sent = l.map fun e => eventToProto (entryEvent e) := by
  rw [wanted_eq h hb] at hp
  refine ⟨_, List.take_prefix sent.length _, ?_⟩
  rw [List.map_take]
  exact List.prefix_iff_eq_take.mp hp

theorem getLast?_rev {r : Redis} (h : Recorded r) (hb : r.counter < 10 ^ 14) {l : List Entry}
    (hl : ∀ e ∈ l, e ∈ r.events) :
    (l.map fun e => eventToProto (entryEvent e)).getLast?.map ProtoEvent.rev =
      l.getLast?.map Entry.rev := by
  rw [List.getLast?_map, Option.map_map]
  refine Option.map_congr fun e he => ?_
  refine (h.logged hb).proto_rev (entryEvent e) ?_
  rw [streamEvents_eq h.toConsistent hb]
  exact List.mem_map_of_mem (hl e (List.mem_of_getLast? he))

theorem replay_wantedEntries {r : Redis} (h : Consistent r) {copy : Key → Option KeyValue} {k : Key}
    (hk : matchesWatch k w.key w.rangeEnd = true)
    (hcopy : copy k = contentsAt r (w.startRevision - 1) k)
    (hstart : w.startRevision ≤ r.counter + 1) :
    replay copy ((wantedEntries r w).map eventWrite) k = contents r k := by
  rw [← contentsAt_of_le h le_rfl, contentsAt, ← replay_between (c := w.startRevision - 1)
    (q := fun k => matchesWatch k w.key w.rangeEnd) h.revs_pairwise (by omega) hk hcopy]
  congr 2
  refine List.filter_congr fun e he => ?_
  rw [decide_eq_true (h.rev_mem he).2, Bool.and_true]

end Copy

/-- **A client's copy mirrors the store.**  The client holds the watched keys as they were just
before the first revision it asks for, and applies the events it is sent.  Then its copy is the
store's contents at the revision of the last event, and with every event came the value that it held
for the key until then.  When every committed event has been handed over and the watch is idle, its
copy is the store's contents now. -/
theorem watch_mirrors (redis : Redis) (h : Recorded redis) (hb : redis.counter < 10 ^ 14)
    (reqs : List Request) (s : Whole)
    (hs : Reach Whole.step Whole.Ok (.start redis reqs) s) (id : ℤ) (w : Watch)
    (hw : s.sys.watches id = some w) (copy : Key → Option KeyValue)
    (hcopy : ∀ k, matchesWatch k w.key w.rangeEnd = true →
      copy k = contentsAt s.pool.shared.redis (w.startRevision - 1) k) :
    (∀ k, matchesWatch k w.key w.rangeEnd = true →
      replay copy ((s.sys.eventsSent id).map ProtoEvent.write) k =
        contentsAt s.pool.shared.redis
          (((s.sys.eventsSent id).getLast?.map ProtoEvent.rev).getD (w.startRevision - 1)) k) ∧
    (∀ i e, (s.sys.eventsSent id)[i]? = some e →
      e.prevKv = replay copy (((s.sys.eventsSent id).take i).map ProtoEvent.write) e.write.key) ∧
    (s.Settled redis → (s.sys.feed.disp.sub w.sub).cancelled = false →
      w.Idle s.sys.feed.stream (s.sys.feed.disp.sub w.sub).ch →
      w.startRevision ≤ s.pool.shared.redis.counter + 1 →
      ∀ k, matchesWatch k w.key w.rangeEnd = true →
        replay copy ((s.sys.eventsSent id).map ProtoEvent.write) k =
          contents s.pool.shared.redis k) := by
  obtain ⟨hrec, hbound⟩ := whole_recorded h hb hs
  have hcons := hrec.toConsistent
  have hasc : Ascending Entry.rev s.pool.shared.redis.events := hcons.revs_pairwise
  obtain ⟨hpre, _, _, hall⟩ := whole_missesNothing h hb hs hw
  obtain ⟨l, hl, hsent⟩ := entries_of_isPrefix hcons hbound hpre
  have hmem : ∀ e ∈ l, e ∈ s.pool.shared.redis.events := fun e he =>
    (List.mem_filter.mp (hl.subset he)).1
  have hwrites : ∀ l' : List Entry, (∀ e ∈ l', e ∈ l) →
      (l'.map fun e => eventToProto (entryEvent e)).map ProtoEvent.write = l'.map eventWrite := by
    intro l' hl'
    rw [List.map_map]
    exact List.map_congr_left fun e he => write_eventToProto hcons (hmem e (hl' e he))
  rw [hsent, getLast?_rev hrec hbound hmem, hwrites l fun _ he => he]
  refine ⟨fun k hk => ?_, fun i e hi => ?_, fun hset hcut hidle hstart k hk => ?_⟩
  · exact mapAt_follow (q := fun k => matchesWatch k w.key w.rangeEnd) hasc hl hk (hcopy k hk)
  · rw [List.getElem?_map, Option.map_eq_some_iff] at hi
    obtain ⟨x, hx, rfl⟩ := hi
    have hxl := List.mem_of_getElem? hx
    have hkey := (List.mem_filter.mp (hl.subset hxl)).2
    rw [Bool.and_eq_true] at hkey
    rw [← List.map_take, hwrites _ fun e he => List.mem_of_mem_take he,
      write_eventToProto hcons (hmem x hxl), prevKv_eventToProto hcons (hmem x hxl)]
    exact (mapAt_follow_take (q := fun k => matchesWatch k w.key w.rangeEnd) hasc hl hkey.1
      (hcopy _ hkey.1) hx).symm
  · have hlen := congrArg List.length (hsent.symm.trans (((hall hset hcut).1 hidle).trans
      (wanted_eq hcons hbound w)))
    rw [List.length_map, List.length_map] at hlen
    rw [hl.eq_of_length hlen]
    exact replay_wantedEntries hcons hk (hcopy k hk) hstart

/-- A client that starts from nothing holds what the store holds. -/
theorem wholeHandOff_mirrors :
    ∃ s w, Reach Whole.step Whole.Ok (.start oneKey.redis [.put ⟨[99], [3], 0, false⟩]) s ∧
      s.sys.watches 1 = some w ∧
      (∀ k, matchesWatch k w.key w.rangeEnd = true →
        replay (fun _ => none) ((s.sys.eventsSent 1).map ProtoEvent.write) k =
          contents s.pool.shared.redis k) ∧
      (contents s.pool.shared.redis [99]).map KeyValue.value = some [3] := by
  obtain ⟨s, hs, hp⟩ := exists_of_run Whole.step Whole.Ok
    (.start oneKey.redis [.put ⟨[99], [3], 0, false⟩]) wholeHandOff
    (fun s => (s.sys.watches 1).any fun w : Watch => decide
      ((∀ e ∈ s.pool.shared.redis.events, oneKey.redis.counter < e.rev →
        entryEvent e ∈ s.pool.shared.emitted) ∧ s.sys.feed.lock = .free ∧ w.pc = .selecting ∧
        (s.sys.feed.disp.sub w.sub).ch = [] ∧ (s.sys.feed.disp.sub w.sub).cancelled = false ∧
        w.startRevision = 1 ∧ (s.pool.shared.redis.counter = 2) ∧
        (contents s.pool.shared.redis [99]).map KeyValue.value = some [3])) (by decide +kernel)
  obtain ⟨w, hw, hp⟩ := (Option.any_eq_true _ _).mp hp
  obtain ⟨hall, hlock, hpc, hch, hcut, hstart, hcounter, hvalue⟩ := of_decide_eq_true hp
  have hcons := (whole_recorded oneKey_recorded (by decide) hs).1.toConsistent
  have hmirrors := watch_mirrors _ oneKey_recorded (by decide) _ s hs 1 w hw
    (fun _ => none) fun k _ => by rw [hstart]; exact (congrFun (contentsAt_zero hcons) k).symm
  exact ⟨s, w, hs, hw, hmirrors.2.2 ⟨hall, hlock⟩ hcut (Or.inl ⟨hpc, hch⟩) (by omega),
    hvalue⟩

end REtcd.Server
