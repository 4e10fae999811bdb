import REtcd.Base.Ascending
import REtcd.Base.Replay

/-!
# Copies that follow a log

The records of a log carry ascending numbers, and each records a write: `num` and `write` read them
off.  `mapAt num write l c` is the map at the number `c`, that is after the records up to `c`.

A reader keeps a copy of the keys that it is interested in.  Its copy was right at `c`, and it gets
a beginning of the records after `c` that concern its keys.  Then the copy is what the map was at
the number of the last record that it got (`mapAt_follow`), and it was what the map was just before
each of the records when it got that one (`mapAt_follow_take`).
-/

namespace Base

section Prefix

variable {α β : Type} [LinearOrder β] {f : α → β} {l t : List α} {p : α → Bool}

/-- **A beginning of the picked records** is the picked records up to the last of them. -/
theorem Ascending.eq_filter_of_isPrefix (h : Ascending f l) {c : β}
    (hc : ∀ x, p x = true → c < f x) (ht : t <+: l.filter p) :
    t = l.filter (fun x => p x && decide (f x ≤ (t.getLast?.map f).getD c)) := by
  obtain ⟨rest, hrest⟩ := ht
  have hasc := h.filter p
  rw [← hrest, Ascending, List.pairwise_append] at hasc
  obtain ⟨hasct, _, hcross⟩ := hasc
  have hsplit : (t ++ rest).filter (fun x => decide (f x ≤ (t.getLast?.map f).getD c)) = t := by
    rw [List.filter_append, List.filter_eq_self.mpr, List.filter_eq_nil_iff.mpr, List.append_nil]
    · intro y hy
      rw [decide_eq_true_eq, not_le]
      cases hlast : t.getLast? with
      | none =>
        have hyl : y ∈ l.filter p := by
          rw [← hrest]
          exact List.mem_append_right _ hy
        exact hc y (List.mem_filter.mp hyl).2
      | some e => exact hcross e (List.mem_of_getLast? hlast) y hy
    · intro x hx
      obtain ⟨e, hlast, hle⟩ := le_getLast hasct hx
      rw [hlast]
      simpa using hle
  rw [hrest, List.filter_filter] at hsplit
  refine hsplit.symm.trans (List.filter_congr fun x _ => ?_)
  exact Bool.and_comm _ _

theorem Ascending.take_eq_filter (h : Ascending f l) (ht : t <+: l.filter p) {i : ℕ} {x : α}
    (hx : t[i]? = some x) : t.take i = l.filter (fun y => p y && decide (f y < f x)) := by
  obtain ⟨rest, hrest⟩ := ht
  obtain ⟨hi, hget⟩ := List.getElem?_eq_some_iff.mp hx
  have hsplit : t.take i ++ (x :: (t.drop (i + 1) ++ rest)) = l.filter p := by
    rw [← hrest, ← hget, ← List.cons_append, ← List.drop_eq_getElem_cons hi, ← List.append_assoc,
      List.take_append_drop]
  have hasc := h.filter p
  rw [← hsplit, Ascending, List.pairwise_append] at hasc
  obtain ⟨_, hlater, hcross⟩ := hasc
  have hbelow : (l.filter p).filter (fun y => decide (f y < f x)) = t.take i := by
    rw [← hsplit, List.filter_append, List.filter_eq_self.mpr, List.filter_eq_nil_iff.mpr,
      List.append_nil]
    · intro y hy
      rw [decide_eq_true_eq, not_lt]
      rcases List.mem_cons.mp hy with rfl | hy
      · exact le_rfl
      · exact ((List.pairwise_cons.mp hlater).1 y hy).le
    · intro y hy
      rw [decide_eq_true_eq]
      exact hcross y hy x List.mem_cons_self
  rw [← hbelow, List.filter_filter]
  refine List.filter_congr fun y _ => ?_
  exact Bool.and_comm _ _

end Prefix

section Copies

variable {α K V : Type} [DecidableEq K] (num : α → ℤ) (write : α → KeyWrite K V)

/-- The map after the records up to the number `c`. -/
def mapAt (l : List α) (c : ℤ) : K → Option V :=
  replay (fun _ => none) ((l.filter fun x => decide (num x ≤ c)).map write)

variable {num write} {l : List α} {q : K → Bool} {c d : ℤ} {m : K → Option V} {k : K}

/-- A copy that is right at `c` is right at `d` after the records in between. -/
theorem replay_between (h : Ascending num l) (hcd : c ≤ d) (hk : q k = true)
    (hm : m k = mapAt num write l c k) :
    replay m ((l.filter fun x => (q (write x).key && decide (c < num x)) &&
      decide (num x ≤ d)).map write) k = mapAt num write l d k := by
  have hsplit := h.filter_append (fun x => decide (num x ≤ d)) c
  have hlow : l.filter (fun x => decide (num x ≤ d) && decide (num x ≤ c)) =
      l.filter (fun x => decide (num x ≤ c)) := by
    refine List.filter_congr fun x _ => ?_
    by_cases hx : num x ≤ c
    · simp [hx, hx.trans hcd]
    · simp [hx]
  have hpicked : (l.filter fun x => (q (write x).key && decide (c < num x)) &&
      decide (num x ≤ d)).map write =
      ((l.filter fun x => decide (num x ≤ d) && decide (c < num x)).map write).filter
        (fun w => q w.key) := by
    rw [List.filter_map, List.filter_filter]
    congr 1
    refine List.filter_congr fun x _ => ?_
    rw [Bool.and_assoc, Bool.and_comm (decide (c < num x))]
    rfl
  rw [hpicked, replay_filter fun w _ hw => by rw [hw]; exact hk, mapAt, ← hsplit, hlow,
    List.map_append, replay_append]
  exact replay_eq_replay_iff.mpr (Or.inr hm)

variable {t : List α} (h : Ascending num l)
  (ht : t <+: l.filter fun x => q (write x).key && decide (c < num x))

include h ht

/-- **A copy that follows the log** is the map at the number of the last record it got. -/
theorem mapAt_follow (hk : q k = true) (hm : m k = mapAt num write l c k) :
    replay m (t.map write) k = mapAt num write l ((t.getLast?.map num).getD c) k := by
  have hlow : c ≤ (t.getLast?.map num).getD c := by
    cases hlast : t.getLast? with
    | none => exact le_rfl
    | some e =>
      have := (List.mem_filter.mp (ht.subset (List.mem_of_getLast? hlast))).2
      rw [Bool.and_eq_true, decide_eq_true_eq] at this
      exact this.2.le
  have habove : ∀ x, (q (write x).key && decide (c < num x)) = true → c < num x := by
    intro x hx
    rw [Bool.and_eq_true, decide_eq_true_eq] at hx
    exact hx.2
  have heq := h.eq_filter_of_isPrefix habove ht
  rw [heq]
  refine (replay_between h hlow hk hm).trans ?_
  rw [← heq]

/-- **Before it got a record**, the copy was the map just before the record's number. -/
theorem mapAt_follow_take (hk : q k = true) (hm : m k = mapAt num write l c k) {i : ℕ} {x : α}
    (hx : t[i]? = some x) :
    replay m ((t.take i).map write) k = mapAt num write l (num x - 1) k := by
  have hmem := (List.mem_filter.mp (ht.subset (List.mem_of_getElem? hx))).2
  rw [Bool.and_eq_true, decide_eq_true_eq] at hmem
  rw [h.take_eq_filter ht hx, ← replay_between (d := num x - 1) h (by omega) hk hm]
  congr 2
  refine List.filter_congr fun y _ => ?_
  rw [decide_eq_decide.mpr Int.le_sub_one_iff]

end Copies

end Base
