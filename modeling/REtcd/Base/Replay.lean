import Mathlib.Data.List.Induction
import Mathlib.Logic.Function.Basic

/-!
# Replaying a log of writes

A log is a list of writes, each of which sets one key to a value or removes it.  `replay m l` is
the map that `m` becomes when the log is applied in order.  A key's value depends on its last
write only (`replay_eq_last`), so two maps that a log is applied to agree afterwards on every key
the log writes (`replay_congr_of_mem`), and no other key changes (`replay_of_not_mem`): they agree
on a key afterwards iff it is written or they agreed before (`replay_eq_replay_iff`).
-/

namespace Base

/-- A write of one key: `none` removes it. -/
structure KeyWrite (K V : Type) where
  key : K
  val : Option V

section

variable {K V : Type} [DecidableEq K]

def KeyWrite.apply (m : K → Option V) (w : KeyWrite K V) : K → Option V :=
  Function.update m w.key w.val

def replay (m : K → Option V) (l : List (KeyWrite K V)) : K → Option V := l.foldl KeyWrite.apply m

def lastWrite (k : K) (l : List (KeyWrite K V)) : Option (KeyWrite K V) :=
  (l.filter (fun w => w.key = k)).getLast?

@[simp] theorem replay_nil (m : K → Option V) : replay m [] = m := rfl

theorem replay_append (m : K → Option V) (l l' : List (KeyWrite K V)) :
    replay m (l ++ l') = replay (replay m l) l' := List.foldl_append

theorem replay_concat (m : K → Option V) (l : List (KeyWrite K V)) (w : KeyWrite K V) :
    replay m (l ++ [w]) = Function.update (replay m l) w.key w.val := replay_append m l [w]

theorem lastWrite_concat (k : K) (l : List (KeyWrite K V)) (w : KeyWrite K V) :
    lastWrite k (l ++ [w]) = if w.key = k then some w else lastWrite k l := by
  rw [lastWrite, List.filter_append]
  by_cases h : w.key = k
  · rw [if_pos h, List.filter_cons_of_pos (by simpa using h), List.filter_nil,
      List.getLast?_concat]
  · rw [if_neg h, List.filter_cons_of_neg (by simpa using h), List.filter_nil, List.append_nil]
    rfl

/-- **The last write of a key decides its value.** -/
theorem replay_eq_last (m : K → Option V) (l : List (KeyWrite K V)) (k : K) :
    replay m l k = match lastWrite k l with
      | some w => w.val
      | none => m k := by
  induction l using List.reverseRecOn with
  | nil => rfl
  | append_singleton l w ih =>
    rw [replay_concat, lastWrite_concat]
    by_cases h : w.key = k
    · subst h
      rw [if_pos rfl, Function.update_self]
    · rw [if_neg h, Function.update_of_ne (Ne.symm h), ih]

theorem lastWrite_eq_none {k : K} {l : List (KeyWrite K V)} :
    lastWrite k l = none ↔ ∀ w ∈ l, w.key ≠ k := by
  rw [lastWrite, List.getLast?_eq_none_iff, List.filter_eq_nil_iff]
  simp

theorem replay_of_not_mem {m : K → Option V} {l : List (KeyWrite K V)} {k : K}
    (h : ∀ w ∈ l, w.key ≠ k) : replay m l k = m k := by
  rw [replay_eq_last, lastWrite_eq_none.mpr h]

/-- On a key that the log writes, the map it started from does not matter. -/
theorem replay_congr_of_mem {m m' : K → Option V} {l : List (KeyWrite K V)} {k : K}
    {w : KeyWrite K V} (hw : w ∈ l) (hk : w.key = k) : replay m l k = replay m' l k := by
  rw [replay_eq_last, replay_eq_last]
  cases h : lastWrite k l with
  | some w => rfl
  | none => exact absurd hk (lastWrite_eq_none.mp h w hw)

/-- **Two maps agree on a key after a log iff the log writes the key or they agreed before.** -/
theorem replay_eq_replay_iff {m m' : K → Option V} {l : List (KeyWrite K V)} {k : K} :
    replay m l k = replay m' l k ↔ (∃ w ∈ l, w.key = k) ∨ m k = m' k := by
  constructor
  · intro h
    by_cases hw : ∃ w ∈ l, w.key = k
    · exact Or.inl hw
    · have hno : ∀ w ∈ l, w.key ≠ k := fun w hw' hk => hw ⟨w, hw', hk⟩
      rw [replay_of_not_mem hno, replay_of_not_mem hno] at h
      exact Or.inr h
  · rintro (⟨w, hw, hk⟩ | h)
    · exact replay_congr_of_mem hw hk
    · rw [replay_eq_last, replay_eq_last, h]

theorem replay_filter {m : K → Option V} {l : List (KeyWrite K V)} {k : K}
    {p : KeyWrite K V → Bool} (h : ∀ w ∈ l, w.key = k → p w = true) :
    replay m (l.filter p) k = replay m l k := by
  have hl : lastWrite k (l.filter p) = lastWrite k l := by
    rw [lastWrite, lastWrite, List.filter_filter]
    congr 1
    refine List.filter_congr fun w hw => ?_
    by_cases hk : w.key = k
    · simp [hk, h w hw hk]
    · simp [hk]
  rw [replay_eq_last, replay_eq_last, hl]

end

end Base
