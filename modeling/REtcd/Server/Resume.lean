import REtcd.Server.Mirror

/-!
# Resuming a watch

A client that loses its watch asks for a new one from the revision after the last one it has seen.
The server may have died meanwhile, at any moment, and may have been started again on the database
that it left behind, where both reads of `prime` are answered; requests that were under way are
gone, and with them the events that they owed to the sink.  `Seen` is what the client has been sent
by then, over all lives of the server.

`resume_exact` says that this is exactly the entries of the stream from the first revision that the
client asked for to the last one it has seen: the seams show neither a gap nor a repetition.  An
event that one life of the server never handed over is read from the stream in the next.
-/

namespace REtcd.Server

open Base Store

/-- The revision that a client asks for next, when it has asked for `next` and was sent `part`. -/
def resumeAt (next : ℤ) (part : List ProtoEvent) : ℤ :=
  (part.getLast?.map fun e => e.rev + 1).getD next

/-- A client has asked for the range from revision `first` on, when the database was `redis₀`.  By
now the database is `redis`, the client will ask for `next`, and it has seen `seen`. -/
inductive Seen (key rangeEnd : Key) (first : ℤ) (redis₀ : Redis) :
    Redis → ℤ → List ProtoEvent → Prop
  | nothing : Seen key rangeEnd first redis₀ redis₀ first []
  -- the server is started, and dies in the state `s`; what was sent last may not have arrived
  | life {redis : Redis} {next : ℤ} {seen : List ProtoEvent} {reqs : List Request} {s : Whole}
      {id : ℤ} {w : Watch} {part : List ProtoEvent} :
      Seen key rangeEnd first redis₀ redis next seen →
      Reach Whole.step Whole.Ok (.start redis reqs) s → s.sys.watches id = some w →
      w.key = key → w.rangeEnd = rangeEnd → w.startRevision = next →
      part <+: s.sys.eventsSent id →
      Seen key rangeEnd first redis₀ s.pool.shared.redis (resumeAt next part) (seen ++ part)
  -- the client is not connected in this life
  | away {redis : Redis} {next : ℤ} {seen : List ProtoEvent} {reqs : List Request} {s : Whole} :
      Seen key rangeEnd first redis₀ redis next seen →
      Reach Whole.step Whole.Ok (.start redis reqs) s →
      Seen key rangeEnd first redis₀ s.pool.shared.redis next seen

def entriesBetween (r : Redis) (key rangeEnd : Key) (first next : ℤ) : List Entry :=
  r.events.filter fun e => (matchesWatch (eventWrite e).key key rangeEnd &&
    decide (first - 1 < e.rev)) && decide (e.rev ≤ next - 1)

section Between

variable {r r' : Redis} {key rangeEnd : Key} {first next : ℤ}

theorem entriesBetween_grow (h : Consistent r) (h' : Consistent r') (hp : r.events <+: r'.events)
    (hnext : next = first ∨ next ≤ r.counter + 1) :
    entriesBetween r' key rangeEnd first next = entriesBetween r key rangeEnd first next := by
  obtain ⟨more, hmore⟩ := hp
  rw [entriesBetween, ← hmore, List.filter_append]
  refine List.append_right_eq_self.mpr (List.filter_eq_nil_iff.mpr fun e he => ?_)
  obtain ⟨i, hi⟩ := List.getElem?_of_mem he
  have hget : r'.events[r.events.length + i]? = some e := by
    rw [← hmore, List.getElem?_append_right (by omega), Nat.add_sub_cancel_left]
    exact hi
  have hrev := h'.revs _ _ hget
  have hcounter := h.counter
  simp only [Bool.and_eq_true, decide_eq_true_eq, not_and]
  omega

theorem entriesBetween_append (h : Consistent r) {last : ℤ} (h1 : first ≤ next)
    (h2 : next ≤ last) : entriesBetween r key rangeEnd first next ++
      entriesBetween r key rangeEnd next last = entriesBetween r key rangeEnd first last := by
  have hasc : Ascending Entry.rev r.events := h.revs_pairwise
  have hsplit := hasc.filter_append (fun e => (matchesWatch (eventWrite e).key key rangeEnd &&
    decide (first - 1 < e.rev)) && decide (e.rev ≤ last - 1)) (next - 1)
  rw [entriesBetween, entriesBetween, entriesBetween, ← hsplit]
  congr 1
  · refine List.filter_congr fun e _ => ?_
    by_cases he : e.rev ≤ next - 1
    · simp [he, show e.rev ≤ last - 1 by omega]
    · simp [he]
  · refine List.filter_congr fun e _ => ?_
    by_cases he : next - 1 < e.rev
    · simp [he, show first - 1 < e.rev by omega]
    · simp [he]

end Between

section Seen

variable {key rangeEnd : Key} {first next : ℤ} {redis₀ redis : Redis} {seen : List ProtoEvent}

structure SeenInv (key rangeEnd : Key) (first : ℤ) (redis : Redis) (next : ℤ)
    (seen : List ProtoEvent) : Prop where
  recorded : Recorded redis
  bounded : redis.counter < 10 ^ 14
  le : first ≤ next
  reached : next = first ∨ next ≤ redis.counter + 1
  seen : seen = (entriesBetween redis key rangeEnd first next).map
    fun e => eventToProto (entryEvent e)

theorem SeenInv.away (h : SeenInv key rangeEnd first redis next seen) {reqs : List Request}
    {s : Whole} (hs : Reach Whole.step Whole.Ok (.start redis reqs) s) :
    SeenInv key rangeEnd first s.pool.shared.redis next seen := by
  obtain ⟨hrec, hb⟩ := whole_recorded h.recorded h.bounded hs
  have hp := whole_isPrefix hs
  have hle := counter_le_of_isPrefix h.recorded.toConsistent hrec.toConsistent hp
  refine ⟨hrec, hb, h.le, h.reached.imp_right fun hr => by omega, ?_⟩
  rw [entriesBetween_grow h.recorded.toConsistent hrec.toConsistent hp h.reached]
  exact h.seen

/-- What a client sees in one life goes on where the last one ended. -/
theorem SeenInv.life (h : SeenInv key rangeEnd first redis next seen) {reqs : List Request}
    {s : Whole} (hs : Reach Whole.step Whole.Ok (.start redis reqs) s) {id : ℤ} {w : Watch}
    (hw : s.sys.watches id = some w) (hkey : w.key = key) (hend : w.rangeEnd = rangeEnd)
    (hstart : w.startRevision = next) {part : List ProtoEvent}
    (hpart : part <+: s.sys.eventsSent id) :
    SeenInv key rangeEnd first s.pool.shared.redis (resumeAt next part) (seen ++ part) := by
  have h' := h.away hs
  have hcons := h'.recorded.toConsistent
  have hasc : Ascending Entry.rev s.pool.shared.redis.events := hcons.revs_pairwise
  obtain ⟨hpre, _⟩ := whole_missesNothing h.recorded h.bounded hs hw
  obtain ⟨l, hl, rfl⟩ := entries_of_isPrefix hcons h'.bounded (hpart.trans hpre)
  rw [wantedEntries, hkey, hend, hstart] at hl
  have hmem : ∀ e ∈ l, e ∈ s.pool.shared.redis.events ∧ next ≤ e.rev := by
    intro e he
    have := List.mem_filter.mp (hl.subset he)
    rw [Bool.and_eq_true, decide_eq_true_eq] at this
    exact ⟨this.1, by omega⟩
  -- the part that was seen reaches up to its last entry
  have hlast : resumeAt next (l.map fun e => eventToProto (entryEvent e)) - 1 =
      (l.getLast?.map Entry.rev).getD (next - 1) := by
    have hrev := getLast?_rev h'.recorded h'.bounded fun e he => (hmem e he).1
    rw [resumeAt, ← hrev]
    cases (l.map fun e => eventToProto (entryEvent e)).getLast? with
    | none => rfl
    | some e => simp
  generalize resumeAt next (l.map fun e => eventToProto (entryEvent e)) = last at hlast ⊢
  have hpicked : l = entriesBetween s.pool.shared.redis key rangeEnd next last := by
    rw [entriesBetween, hlast]
    refine hasc.eq_filter_of_isPrefix (c := next - 1) (fun e he => ?_) hl
    rw [Bool.and_eq_true, decide_eq_true_eq] at he
    exact he.2
  have hup : next ≤ last ∧ (last = next ∨ last ≤ s.pool.shared.redis.counter + 1) := by
    cases he : l.getLast? with
    | none =>
      rw [he] at hlast
      simp only [Option.map_none, Option.getD_none] at hlast
      omega
    | some e =>
      rw [he] at hlast
      simp only [Option.map_some, Option.getD_some] at hlast
      obtain ⟨hev, hge⟩ := hmem e (List.mem_of_getLast? he)
      have := (hcons.rev_mem hev).2
      omega
  have hle := h.le
  refine ⟨h'.recorded, h'.bounded, by omega, ?_, ?_⟩
  · rcases h'.reached with hr | hr <;> omega
  · rw [h'.seen, ← entriesBetween_append hcons h.le hup.1, List.map_append, ← hpicked]

theorem seen_inv (h : Recorded redis₀) (hb : redis₀.counter < 10 ^ 14)
    (hseen : Seen key rangeEnd first redis₀ redis next seen) :
    SeenInv key rangeEnd first redis next seen := by
  induction hseen with
  | nothing =>
    refine ⟨h, hb, le_rfl, Or.inl rfl, ?_⟩
    have hnil : entriesBetween redis₀ key rangeEnd first first = [] := by
      refine List.filter_eq_nil_iff.mpr fun e _ => ?_
      simp only [Bool.and_eq_true, decide_eq_true_eq, not_and]
      omega
    rw [hnil, List.map_nil]
  | life _ hs hw hkey hend hstart hpart ih => exact ih.life hs hw hkey hend hstart hpart
  | away _ hs ih => exact ih.away hs

end Seen

/-- **A resumed watch shows no seam.**  Over any number of lives of the server, each of which starts
with both reads of `prime` answered and may end at any moment, a client that goes on from the last
revision it has seen has been sent exactly the entries of its range from the first revision it asked
for up to the last one it has seen, each once and in order.  If it held the range as it was before
the first revision, it now holds it as it was at the last one. -/
theorem resume_exact (key rangeEnd : Key) (first : ℤ) (redis₀ : Redis) (h : Recorded redis₀)
    (hb : redis₀.counter < 10 ^ 14) (redis : Redis) (next : ℤ) (seen : List ProtoEvent)
    (hseen : Seen key rangeEnd first redis₀ redis next seen) :
    seen = (entriesBetween redis key rangeEnd first next).map
        (fun e => eventToProto (entryEvent e)) ∧
      ∀ copy : Key → Option KeyValue, ∀ k, matchesWatch k key rangeEnd = true →
        copy k = contentsAt redis (first - 1) k →
        replay copy (seen.map ProtoEvent.write) k = contentsAt redis (next - 1) k := by
  have hinv := seen_inv h hb hseen
  have hcons := hinv.recorded.toConsistent
  refine ⟨hinv.seen, fun copy k hk hcopy => ?_⟩
  have hwrites : seen.map ProtoEvent.write =
      (entriesBetween redis key rangeEnd first next).map eventWrite := by
    rw [hinv.seen, List.map_map]
    exact List.map_congr_left fun e he => write_eventToProto hcons (List.mem_filter.mp he).1
  have hle := hinv.le
  rw [hwrites]
  exact replay_between (q := fun k => matchesWatch k key rangeEnd) hcons.revs_pairwise (by omega) hk
    hcopy

def served (first : ℤ) : List WholeAct :=
  [.watch (.create 0 ⟨[97], [0], first⟩), .watch (.revision 0 true), .watch (.confirm 0 true),
    .watch (.register 1), .watch (.watch 1 .go), .watch (.watch 1 (.read readBatchSize)),
    .watch (.watch 1 .go), .watch (.watch 1 (.send true))]

/-- The server dies when a put has committed its event and not yet handed it over; the next one reads
it from the stream. -/
theorem crashed_resume :
    ∃ redis seen, Seen [97] [0] 1 oneKey.redis redis 3 seen ∧
      seen = (entriesBetween redis [97] [0] 1 3).map (fun e => eventToProto (entryEvent e)) ∧
      seen.map ProtoEvent.rev = [1, 2] := by
  obtain ⟨s, hs, hp⟩ := exists_of_run Whole.step Whole.Ok
    (.start oneKey.redis [.put ⟨[99], [3], 0, false⟩]) (served 1 ++ [.serve 0 (.plain 6)])
    (fun s => (s.sys.watches 1).any (fun w : Watch => decide
        (w.key = [97] ∧ w.rangeEnd = [0] ∧ w.startRevision = 1 ∧ s.pool.shared.emitted = [] ∧
          (s.sys.eventsSent 1).map ProtoEvent.rev = [1])) &&
      (run Whole.step Whole.Ok (served 2) (.start s.pool.shared.redis [])).any fun s' =>
        (s'.sys.watches 1).any fun w : Watch => decide
          (w.key = [97] ∧ w.rangeEnd = [0] ∧ w.startRevision = 2 ∧
            (s'.sys.eventsSent 1).map ProtoEvent.rev = [2])) (by decide +kernel)
  rw [Bool.and_eq_true] at hp
  obtain ⟨hp, hp'⟩ := hp
  obtain ⟨w, hw, hp⟩ := (Option.any_eq_true _ _).mp hp
  obtain ⟨hkey, hend, hstart, _, hrevs⟩ := of_decide_eq_true hp
  obtain ⟨s', hs', hp'⟩ := (Option.any_eq_true _ _).mp hp'
  obtain ⟨w', hw', hp'⟩ := (Option.any_eq_true _ _).mp hp'
  obtain ⟨hkey', hend', hstart', hrevs'⟩ := of_decide_eq_true hp'
  have hnext : ∀ (n r : ℤ) (l : List ProtoEvent), l.map ProtoEvent.rev = [r] →
      resumeAt n l = r + 1 := by
    intro n r l hl
    obtain ⟨e, rfl⟩ := List.length_eq_one_iff.mp (by simpa using congrArg List.length hl)
    cases hl
    rfl
  have hseen₀ : Seen [97] [0] 1 oneKey.redis oneKey.redis 1 [] := .nothing
  have hseen₁ := Seen.life hseen₀ hs hw hkey hend hstart
    (List.prefix_refl (s.sys.eventsSent 1))
  rw [hnext _ _ _ hrevs] at hseen₁
  have hseen₂ := Seen.life hseen₁ (reach_of_run hs') hw' hkey' hend' hstart'
    (List.prefix_refl (s'.sys.eventsSent 1))
  rw [hnext _ _ _ hrevs'] at hseen₂
  refine ⟨_, _, hseen₂, ?_, ?_⟩
  · exact (resume_exact _ _ _ _ oneKey_recorded (by decide) _ _ _ hseen₂).1
  · rw [List.nil_append, List.map_append, hrevs, hrevs']
    rfl

end REtcd.Server
