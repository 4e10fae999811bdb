import Mathlib.Data.List.Basic

/-!
# Noninterference by unwinding

A machine with many parties, and a part of it that one party, the observer, can tell.  `view` is
that part of a state, `input` says which actions concern the observer and how they appear in its
view; the other actions are hidden.  If hidden actions leave the view as it is and each input is a
step of the machine `seen` on views, then every run of the machine shows up as a run on its inputs
(`Observer.run`).  So two runs with the same inputs end in the same view, whatever else happens in
them (`Observer.noninterference`).
-/

namespace Base

variable {σ α ν ι : Type}

/-- An observer of the machine `step`, to whom it looks like the machine `seen`. -/
structure Observer (step : σ → α → Option σ) (seen : ν → ι → Option ν) where
  view : σ → ν
  input : σ → α → Option ι
  hidden : ∀ {s a s'}, input s a = none → step s a = some s' → view s' = view s
  shown : ∀ {s a i s'}, input s a = some i → step s a = some s' → seen (view s) i = some (view s')

namespace Observer

variable {step : σ → α → Option σ} {seen : ν → ι → Option ν} (o : Observer step seen)

def inputs : σ → List α → List ι
  | _, [] => []
  | s, a :: as =>
    match step s a with
    | none => []
    | some s' => (o.input s a).toList ++ inputs s' as

/-- **A run is a run on its inputs.** -/
theorem run {as : List α} {s s' : σ} (h : as.foldlM step s = some s') :
    (o.inputs s as).foldlM seen (o.view s) = some (o.view s') := by
  induction as generalizing s with
  | nil =>
    cases h
    rfl
  | cons a as ih =>
    rw [List.foldlM_cons] at h
    cases hstep : step s a with
    | none =>
      rw [hstep] at h
      cases h
    | some t =>
      rw [hstep] at h
      have hrest := ih h
      simp only [inputs, hstep]
      cases hin : o.input s a with
      | none =>
        rw [o.hidden hin hstep] at hrest
        exact hrest
      | some i =>
        rw [Option.toList_some, List.singleton_append, List.foldlM_cons, o.shown hin hstep]
        exact hrest

/-- **Noninterference**: the inputs decide what the observer sees. -/
theorem noninterference (o' : Observer step seen) {as bs : List α} {s s' t t' : σ}
    (hview : o.view s = o'.view t) (hin : o.inputs s as = o'.inputs t bs)
    (hs : as.foldlM step s = some s') (ht : bs.foldlM step t = some t') :
    o.view s' = o'.view t' := by
  have h := o.run hs
  rw [hview, hin, o'.run ht] at h
  exact (Option.some.inj h).symm

end Observer

end Base
