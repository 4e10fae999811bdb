import Mathlib.Data.Nat.Notation
import Mathlib.Logic.Function.Basic

/-!
# A function that is called once

The first caller of `Do` runs the function, the others wait until it has returned, and whoever comes
later goes on at once.  Each caller takes its steps at any time (`OnceCalls.step`).

What holds in every state is `OnceCalls.Fits`.  From it: the caller that is about to run the function
finds that it has not run (`Fits.not_ran`), whoever is back from `Do` finds that it has run
(`Fits.ran_of_returned`), and nobody waits for ever (`Fits.progress`).
-/

namespace Base

/-- Nobody has called `Do` yet, the first call has not returned, or it has. -/
inductive Once where
  | fresh
  | running
  | finished
  deriving DecidableEq, Repr

/-- Where a caller of `Do` stands: before it, before the function, after the function, or after
`Do`. -/
inductive OnceCall where
  | calling
  | inside
  | leaving
  | returned
  deriving DecidableEq, Repr

def Once.next : Once → OnceCall → Option (Once × OnceCall)
  | .fresh, .calling => some (.running, .inside)
  | .finished, .calling => some (.finished, .returned)
  | .running, .calling => none
  | o, .inside => some (o, .leaving)
  | _, .leaving => some (.finished, .returned)
  | _, .returned => none

structure OnceCalls where
  once : Once
  calls : ℕ → OnceCall

namespace OnceCalls

def start : OnceCalls := ⟨.fresh, fun _ => .calling⟩

def step (s : OnceCalls) (i : ℕ) : Option (Bool × OnceCalls) :=
  (s.once.next (s.calls i)).map fun (o, c) =>
    (decide (s.calls i = .inside), ⟨o, Function.update s.calls i c⟩)

def Runs (s : OnceCalls) (i : ℕ) : Prop := s.calls i = .inside ∨ s.calls i = .leaving

def Ran (s : OnceCalls) : Prop := s.once = .finished ∨ ∃ i, s.calls i = .leaving

structure Fits (s : OnceCalls) : Prop where
  runs : s.once = .running → ∃ i, s.Runs i
  running : ∀ i, s.Runs i → s.once = .running
  unique : ∀ i j, s.Runs i → s.Runs j → i = j
  finished : ∀ i, s.calls i = .returned → s.once = .finished

theorem fits_start : Fits start where
  runs h := by cases h
  running i h := by rcases h with h | h <;> cases h
  unique i j h := by rcases h with h | h <;> cases h
  finished i h := by cases h

variable {s s' : OnceCalls} {i : ℕ} {ran : Bool}

theorem step_cases (h : s.step i = some (ran, s')) :
    (s.once = .fresh ∧ s.calls i = .calling ∧ ran = false ∧
      s' = ⟨.running, Function.update s.calls i .inside⟩) ∨
    (s.once = .finished ∧ s.calls i = .calling ∧ ran = false ∧
      s' = ⟨.finished, Function.update s.calls i .returned⟩) ∨
    (s.calls i = .inside ∧ ran = true ∧ s' = ⟨s.once, Function.update s.calls i .leaving⟩) ∨
    (s.calls i = .leaving ∧ ran = false ∧ s' = ⟨.finished, Function.update s.calls i .returned⟩) := by
  rw [step] at h
  cases hc : s.calls i with
  | calling =>
    cases ho : s.once with
    | fresh =>
      rw [hc, ho] at h
      cases h
      exact Or.inl ⟨rfl, rfl, rfl, rfl⟩
    | running =>
      rw [hc, ho] at h
      cases h
    | finished =>
      rw [hc, ho] at h
      cases h
      exact Or.inr (Or.inl ⟨rfl, rfl, rfl, rfl⟩)
  | inside =>
    rw [hc, Once.next] at h
    cases h
    exact Or.inr (Or.inr (Or.inl ⟨rfl, rfl, rfl⟩))
  | leaving =>
    rw [hc, Once.next] at h
    cases h
    exact Or.inr (Or.inr (Or.inr ⟨rfl, rfl, rfl⟩))
  | returned =>
    rw [hc, Once.next] at h
    cases h

theorem calls_of_ne {o : Once} {c : OnceCall} {j : ℕ} (h : j ≠ i) :
    OnceCalls.calls ⟨o, Function.update s.calls i c⟩ j = s.calls j := Function.update_of_ne h ..

theorem calls_self {o : Once} {c : OnceCall} :
    OnceCalls.calls ⟨o, Function.update s.calls i c⟩ i = c := Function.update_self ..

theorem runs_of_ne {o : Once} {c : OnceCall} {j : ℕ} (h : j ≠ i) :
    Runs ⟨o, Function.update s.calls i c⟩ j ↔ s.Runs j := by
  rw [Runs, calls_of_ne h, Runs]

theorem Fits.step (h : s.Fits) (hs : s.step i = some (ran, s')) : s'.Fits := by
  rcases step_cases hs with ⟨ho, _, _, rfl⟩ | ⟨ho, _, _, rfl⟩ | ⟨hc, _, rfl⟩ | ⟨hc, _, rfl⟩
  · -- nobody else runs the function, since it has not been called
    have hnone : ∀ j, ¬ s.Runs j := by
      intro j hj
      rw [h.running j hj] at ho
      cases ho
    have hown : ∀ j, Runs ⟨.running, Function.update s.calls i .inside⟩ j → j = i := by
      intro j hj
      by_contra hne
      exact hnone j ((runs_of_ne hne).mp hj)
    refine ⟨fun _ => ⟨i, Or.inl calls_self⟩, fun _ _ => rfl, ?_, fun j hj => ?_⟩
    · intro j k hj hk
      rw [hown j hj, hown k hk]
    · by_cases hne : j = i
      · subst hne
        rw [calls_self] at hj
        cases hj
      · rw [calls_of_ne hne] at hj
        rw [h.finished j hj] at ho
        cases ho
  · have hruns : ∀ j, Runs ⟨.finished, Function.update s.calls i .returned⟩ j → s.Runs j := by
      intro j hj
      by_cases hne : j = i
      · subst hne
        rw [Runs, calls_self] at hj
        rcases hj with hj | hj <;> cases hj
      · exact (runs_of_ne hne).mp hj
    refine ⟨fun h => (by cases h), fun j hj => ?_, fun j k hj hk => ?_, fun _ _ => rfl⟩
    · have := h.running j (hruns j hj)
      rw [ho] at this
      cases this
    · exact h.unique j k (hruns j hj) (hruns k hk)
  · have hi : s.Runs i := Or.inl hc
    have hruns : ∀ j, Runs ⟨s.once, Function.update s.calls i .leaving⟩ j → s.Runs j := by
      intro j hj
      by_cases hne : j = i
      · subst hne
        exact hi
      · exact (runs_of_ne hne).mp hj
    refine ⟨fun _ => ⟨i, Or.inr calls_self⟩, fun _ _ => h.running i hi, ?_, fun j hj => ?_⟩
    · exact fun j k hj hk => h.unique j k (hruns j hj) (hruns k hk)
    · by_cases hne : j = i
      · subst hne
        rw [calls_self] at hj
        cases hj
      · rw [calls_of_ne hne] at hj
        exact h.finished j hj
  · have hi : s.Runs i := Or.inr hc
    -- the one that leaves was the only one
    have hnone : ∀ j, ¬ Runs ⟨.finished, Function.update s.calls i .returned⟩ j := by
      intro j hj
      by_cases hne : j = i
      · subst hne
        rw [Runs, calls_self] at hj
        rcases hj with hj | hj <;> cases hj
      · exact hne (h.unique j i ((runs_of_ne hne).mp hj) hi)
    refine ⟨fun h => (by cases h), fun j hj => absurd hj (hnone j), ?_, fun _ _ => rfl⟩
    exact fun j k hj => absurd hj (hnone j)

theorem Fits.not_ran (h : s.Fits) (hi : s.calls i = .inside) : ¬ s.Ran := by
  have hrun := h.running i (Or.inl hi)
  rintro (hover | ⟨j, hj⟩)
  · rw [hover] at hrun
    cases hrun
  · have := h.unique i j (Or.inl hi) (Or.inr hj)
    subst this
    rw [hi] at hj
    cases hj

theorem Fits.ran_of_returned (h : s.Fits) (hi : s.calls i = .returned) : s.Ran :=
  Or.inl (h.finished i hi)

theorem ran_step (hs : s.step i = some (true, s')) : s.calls i = .inside ∧ s'.Ran := by
  rcases step_cases hs with ⟨_, _, h, _⟩ | ⟨_, _, h, _⟩ | ⟨hc, _, rfl⟩ | ⟨_, h, _⟩
  · cases h
  · cases h
  · exact ⟨hc, Or.inr ⟨i, calls_self⟩⟩
  · cases h

theorem ran_iff_step (h : s.Fits) (hs : s.step i = some (false, s')) : s'.Ran ↔ s.Ran := by
  rcases step_cases hs with ⟨ho, hc, _, rfl⟩ | ⟨ho, _, _, rfl⟩ | ⟨_, h, _⟩ | ⟨hc, _, rfl⟩
  · constructor
    · rintro (hover | ⟨j, hj⟩)
      · cases hover
      · by_cases hne : j = i
        · subst hne
          rw [calls_self] at hj
          cases hj
        · rw [calls_of_ne hne] at hj
          exact Or.inr ⟨j, hj⟩
    · rintro (hover | ⟨j, hj⟩)
      · rw [ho] at hover
        cases hover
      · have := h.running j (Or.inr hj)
        rw [ho] at this
        cases this
  · exact ⟨fun _ => Or.inl ho, fun _ => Or.inl rfl⟩
  · cases h
  · exact ⟨fun _ => Or.inr ⟨i, hc⟩, fun _ => Or.inl rfl⟩

/-- As long as a caller has not returned, one of them can go on. -/
theorem Fits.progress (h : s.Fits) (i : ℕ) : s.calls i = .returned ∨ ∃ j, s.step j ≠ none := by
  have hstep : ∀ j, s.Runs j → s.step j ≠ none := by
    rintro j (hj | hj)
    · rw [OnceCalls.step, hj, Once.next]
      exact Option.some_ne_none _
    · rw [OnceCalls.step, hj, Once.next]
      exact Option.some_ne_none _
  cases hc : s.calls i with
  | calling =>
    right
    cases ho : s.once with
    | running =>
      obtain ⟨j, hj⟩ := h.runs ho
      exact ⟨j, hstep j hj⟩
    | fresh | finished =>
      refine ⟨i, ?_⟩
      rw [OnceCalls.step, hc, ho]
      exact Option.some_ne_none _
  | inside => exact Or.inr ⟨i, hstep i (Or.inl hc)⟩
  | leaving => exact Or.inr ⟨i, hstep i (Or.inr hc)⟩
  | returned => exact Or.inl rfl

end OnceCalls

end Base
