import Mathlib.Data.Nat.Notation
import Mathlib.Tactic.SplitIfs

/-!
# Machines

A machine takes one step for each action, if the action is possible in its state: its steps are a
function `σ → α → Option σ`.  `Reach step ok s₀ s` says that steps lead from `s₀` to `s` and that
every state after `s₀` on the way satisfies `ok`.  `Reach.inv` is the induction over such runs and
`Reach.simulate` the one over the runs of two machines that are related.  `reach_of_run` and
`exists_of_run` make a run from a list of actions, and `run_countP` bounds how many of them can be of
one kind.  `guarded g step` takes only the steps that `g` lets through.
-/

namespace Base

variable {σ α : Type} {step : σ → α → Option σ} {ok ok' : σ → Prop} {s₀ s s' : σ}

/-- The states that are reached through states which satisfy `ok`. -/
inductive Reach (step : σ → α → Option σ) (ok : σ → Prop) (s₀ : σ) : σ → Prop
  | refl : Reach step ok s₀ s₀
  | tail {s s' : σ} (a : α) : Reach step ok s₀ s → step s a = some s' → ok s' →
      Reach step ok s₀ s'

/-- **Invariants**: what holds at first and is kept by every step holds all along. -/
theorem Reach.inv {I : σ → Prop} (h₀ : I s₀)
    (hstep : ∀ s a s', I s → step s a = some s' → ok s' → I s') (h : Reach step ok s₀ s) : I s := by
  induction h with
  | refl => exact h₀
  | tail a _ hs hok ih => exact hstep _ a _ ih hs hok

theorem Reach.mono (hok : ∀ s, ok s → ok' s) (h : Reach step ok s₀ s) : Reach step ok' s₀ s := by
  induction h with
  | refl => exact .refl
  | tail a _ hs h ih => exact .tail a ih hs (hok _ h)

theorem Reach.trans (h : Reach step ok s₀ s) (h' : Reach step ok s s') : Reach step ok s₀ s' := by
  induction h' with
  | refl => exact h
  | tail a _ hs hok ih => exact .tail a ih hs hok

/-- **Simulation**: if every step of one machine is matched by steps of another, so that related states
stay related, then every run of the one is matched by a run of the other. -/
theorem Reach.simulate {τ β : Type} {step' : τ → β → Option τ} {okτ : τ → Prop} {R : σ → τ → Prop}
    {t₀ : τ} (h₀ : R s₀ t₀)
    (hstep : ∀ s a s' t, R s t → step s a = some s' → ok s' →
      ∃ t', Reach step' okτ t t' ∧ R s' t')
    (h : Reach step ok s₀ s) : ∃ t, Reach step' okτ t₀ t ∧ R s t := by
  induction h with
  | refl => exact ⟨t₀, .refl, h₀⟩
  | tail a _ hs hok ih =>
    obtain ⟨t, ht, hr⟩ := ih
    obtain ⟨t', ht', hr'⟩ := hstep _ a _ t hr hs hok
    exact ⟨t', ht.trans ht', hr'⟩

/-- The state after a list of actions, if each is possible and keeps to `ok`. -/
def run (step : σ → α → Option σ) (ok : σ → Prop) [DecidablePred ok] : List α → σ → Option σ
  | [], s => some s
  | a :: as, s =>
    match step s a with
    | none => none
    | some s' => if ok s' then run step ok as s' else none

theorem reach_of_run [DecidablePred ok] {as : List α} (h : run step ok as s₀ = some s) :
    Reach step ok s₀ s := by
  induction as generalizing s₀ with
  | nil =>
    rw [run, Option.some.injEq] at h
    exact h ▸ .refl
  | cons a as ih =>
    rw [run] at h
    cases hs : step s₀ a with
    | none =>
      rw [hs] at h
      cases h
    | some s₁ =>
      rw [hs] at h
      dsimp only at h
      split_ifs at h with hok
      exact (Reach.tail a .refl hs hok).trans (ih h)

theorem exists_of_run (step : σ → α → Option σ) (ok : σ → Prop) [DecidablePred ok] (s₀ : σ)
    (as : List α) (p : σ → Bool) (h : (run step ok as s₀).any p = true) :
    ∃ s, Reach step ok s₀ s ∧ p s = true := by
  obtain ⟨s, hs, hp⟩ := (Option.any_eq_true p _).mp h
  exact ⟨s, reach_of_run hs, hp⟩

/-- **Termination**: if a measure never rises and the actions of one kind lower it, a run has at most
as many of them as the measure says at its start. -/
theorem run_countP [DecidablePred ok] (m : σ → ℕ) (p : α → Bool)
    (h : ∀ s a s', step s a = some s' → m s' + (if p a then 1 else 0) ≤ m s) {as : List α}
    (hr : run step ok as s₀ = some s) : m s + as.countP p ≤ m s₀ := by
  induction as generalizing s₀ with
  | nil =>
    rw [run, Option.some.injEq] at hr
    rw [hr, List.countP_nil]
    exact Nat.le_refl _
  | cons a as ih =>
    rw [run] at hr
    cases hs : step s₀ a with
    | none =>
      rw [hs] at hr
      cases hr
    | some s₁ =>
      rw [hs] at hr
      dsimp only at hr
      split_ifs at hr
      have hrest := ih hr
      have hfirst := h s₀ a s₁ hs
      rw [List.countP_cons]
      omega

/-! ### Guards -/

section Guards

variable {g : σ → α → Prop} [∀ s a, Decidable (g s a)]

/-- The steps of which the guard `g` approves. -/
def guarded (g : σ → α → Prop) [∀ s a, Decidable (g s a)] (step : σ → α → Option σ) (s : σ)
    (a : α) : Option σ :=
  if g s a then step s a else none

theorem guarded_eq_some {a : α} (h : guarded g step s a = some s') :
    g s a ∧ step s a = some s' := by
  unfold guarded at h
  split_ifs at h with hg
  exact ⟨hg, h⟩

theorem Reach.of_guarded (h : Reach (guarded g step) ok s₀ s) : Reach step ok s₀ s := by
  induction h with
  | refl => exact .refl
  | tail a _ hs hok ih => exact .tail a ih (guarded_eq_some hs).2 hok

end Guards

end Base
