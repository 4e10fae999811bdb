import REtcd.Base.Prog

/-!
# Programs among other clients, with a rely condition

What a program achieves can depend on what other clients do between its commands, and what they may
do can depend on how far it has come.  A ghost state follows the program's own commands (`next`);
`Relies` says that every command of the others meets the condition of the ghost state it falls in.

`Keeps` is the program's side: from a state with the invariant of the ghost state, each of its
commands is as promised (`guar`) and leads to the invariant of the next ghost state.  Together they
give what holds of the whole run (`Keeps.sound`).
-/

namespace Base.Prog

variable {C : Type} {R : C → Type} {α β S E Γ : Type}

section

variable (exec : E → (c : C) → S → R c × S) (next : Γ → Call C R S → Γ)

/-- The commands of the others, before each command of the program and after its last one, meet the
condition of the ghost state. -/
def Relies (rely : Γ → C → Prop) : Prog C R α → (ℕ → List (E × C) × E) → S → Γ → Prop
  | ret _, t, _, g => ∀ x ∈ (t 0).1, rely g x.2
  | call c k, t, s, g =>
    (∀ x ∈ (t 0).1, rely g x.2) ∧
      let before := others exec (t 0).1 s
      let out := exec (t 0).2 c before
      Relies rely (k out.1) (fun n => t (n + 1)) out.2 (next g ⟨0, c, out.1, before, out.2⟩)

variable (env : E → Prop) (inv : Γ → S → Prop) (guar : Call C R S → Prop)

/-- From the invariant of `g`, each command is as promised and leads to the invariant of the next
ghost state; at the end the result and the ghost state have `Q`. -/
def Keeps : Prog C R α → Γ → (α → Γ → Prop) → Prop
  | ret a, g, Q => Q a g
  | call c k, g, Q => ∀ e s, env e → inv g s →
      guar ⟨0, c, (exec e c s).1, s, (exec e c s).2⟩ ∧
      inv (next g ⟨0, c, (exec e c s).1, s, (exec e c s).2⟩) (exec e c s).2 ∧
      Keeps (k (exec e c s).1) (next g ⟨0, c, (exec e c s).1, s, (exec e c s).2⟩) Q

end

variable {exec : E → (c : C) → S → R c × S} {next : Γ → Call C R S → Γ} {env : E → Prop}
  {inv : Γ → S → Prop} {guar : Call C R S → Prop}

theorem keeps_bind {p : Prog C R α} {f : α → Prog C R β} {g : Γ} {Q : α → Γ → Prop}
    {Q' : β → Γ → Prop} (hp : p.Keeps exec next env inv guar g Q)
    (hf : ∀ a g', Q a g' → (f a).Keeps exec next env inv guar g' Q') :
    (p >>= f).Keeps exec next env inv guar g Q' := by
  induction p generalizing g with
  | ret a => exact hf a g hp
  | call c k ih =>
    intro e s he hs
    obtain ⟨hguar, hinv, hk⟩ := hp e s he hs
    exact ⟨hguar, hinv, ih _ hk⟩

theorem keeps_cmd {c : C} {f : R c → Prog C R β} {g : Γ} {Q : β → Γ → Prop}
    (hnext : ∀ r s s', next g ⟨0, c, r, s, s'⟩ = g)
    (hguar : ∀ r s s', guar ⟨0, c, r, s, s'⟩)
    (hinv : ∀ e s, env e → inv g s → inv g (exec e c s).2)
    (hf : ∀ r, (f r).Keeps exec next env inv guar g Q) :
    (cmd c >>= f).Keeps exec next env inv guar g Q := by
  intro e s he hs
  refine ⟨hguar _ _ _, ?_, ?_⟩
  · rw [hnext]
    exact hinv e s he hs
  · rw [hnext]
    exact hf _

theorem relies_of_forall {rely : Γ → C → Prop} {t : ℕ → List (E × C) × E}
    (h : ∀ g n, ∀ x ∈ (t n).1, rely g x.2) (p : Prog C R α) (s : S) (g : Γ) :
    p.Relies exec next rely t s g := by
  induction p generalizing t s g with
  | ret a => exact h g 0
  | call c k ih => exact ⟨h g 0, ih _ (fun g n => h g (n + 1)) _ _⟩

/-- **A program that keeps its promises does so among others that meet the rely condition**: all
its commands are as promised, and the run ends in a state with the invariant. -/
theorem Keeps.sound {rely : Γ → C → Prop}
    (hrely : ∀ g e c s, rely g c → inv g s → inv g (exec e c s).2) {p : Prog C R α} {g : Γ}
    {Q : α → Γ → Prop} (hp : p.Keeps exec next env inv guar g Q) {t : ℕ → List (E × C) × E} {s : S}
    (ht : ∀ n, env (t n).2) (hr : p.Relies exec next rely t s g) (hs : inv g s) :
    (∀ x ∈ trace exec p t s, guar x) ∧
      ∃ g', Q (among exec p t s).1 g' ∧ inv g' (among exec p t s).2 := by
  induction p generalizing g t s with
  | ret a =>
    refine ⟨?_, g, hp, others_inv (fun e c s hc hs => hrely g e c s hc hs) hr hs⟩
    intro x hx
    cases hx
  | call c k ih =>
    obtain ⟨hblock, hrest⟩ := hr
    have hbefore := others_inv (fun e c s hc hs => hrely g e c s hc hs) hblock hs
    obtain ⟨hguar, hinv, hk⟩ := hp (t 0).2 _ (ht 0) hbefore
    obtain ⟨hall, hend⟩ := ih _ hk (fun n => ht (n + 1)) hrest hinv
    refine ⟨?_, hend⟩
    intro x hx
    rcases List.mem_cons.mp hx with rfl | hx
    · exact hguar
    · exact hall x hx

end Base.Prog
