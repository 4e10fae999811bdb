import REtcd.Base.Prog

/-!
# Calls that take effect at once

An object answers calls `A`, one after the other: `call f a t` is the answer to `a` and the next
state, where `f` is what the surroundings decide.  A client of it is a program over these calls.
An implementation gives a program over a store's commands for each call, and `subst impl p` is the
client `p` with every call replaced by its implementation.

`Linearizes` says that a call takes effect with the first command of its implementation, as long as
the surroundings are `fair`: this command does to the store what the call does to the object,
whatever comes after it is quiet, and what is returned in the end is the object's answer.  Then
every run of any number of clients on the store, however their commands are interleaved, goes with a
run of the same clients on the object itself (`Linearizes.run`), in which every call is one step,
taken while its implementation runs; and a client that has returned has returned the same there
(`Follows.ret`).
-/

namespace Base

variable {A C : Type} {RA : A → Type} {RC : C → Type} {α S T E F : Type}

namespace Prog

/-- The client with every call replaced by its implementation. -/
def subst (impl : (a : A) → Prog C RC (RA a)) : Prog A RA α → Prog C RC α
  | ret x => ret x
  | call a k => impl a >>= fun r => subst impl (k r)

theorem subst_bind {β : Type} (impl : (a : A) → Prog C RC (RA a)) (p : Prog A RA α)
    (f : α → Prog A RA β) : subst impl (p >>= f) = subst impl p >>= fun x => subst impl (f x) := by
  induction p with
  | ret x => rfl
  | call a k ih =>
    simp only [call_bind, subst, bind_assoc]
    exact congrArg (impl a >>= ·) (funext ih)

theorem uses_subst {impl : (a : A) → Prog C RC (RA a)} {valid : A → Prop} {P : C → Prop}
    (h : ∀ a, valid a → (impl a).Uses P) {p : Prog A RA α} (hp : p.Uses valid) :
    (subst impl p).Uses P := by
  induction p with
  | ret x => trivial
  | call a k ih => exact uses_bind (h a hp.1) fun r => ih r (hp.2 r)

end Prog

/-- Every call takes effect with the first command of its implementation. -/
structure Linearizes (impl : (a : A) → Prog C RC (RA a)) (exec : E → (c : C) → S → RC c × S)
    (call : F → (a : A) → T → RA a × T) (Abs : S → T → Prop) (ok : S → Prop) (fair : E → Prop)
    (valid : A → Prop) (quiet : C → Prop) : Prop where
  silent : ∀ e c s t, quiet c → Abs s t → ok (exec e c s).2 → Abs (exec e c s).2 t
  effect : ∀ a, valid a → ∃ c k, impl a = .call c k ∧ ∀ e s t, fair e → Abs s t →
    ok (exec e c s).2 → ∃ f, Abs (exec e c s).2 (call f a t).2 ∧ (k (exec e c s).1).Uses quiet ∧
      (k (exec e c s).1).Returns (· = (call f a t).1)

/-- Where a client stands on the store, and where on the object: between two calls, or within the
implementation of a call that has been answered already. -/
inductive Follows (impl : (a : A) → Prog C RC (RA a)) (valid : A → Prop) (quiet : C → Prop) :
    Prog C RC α → Prog A RA α → Prop
  | between {p : Prog A RA α} : p.Uses valid → Follows impl valid quiet (.subst impl p) p
  | within {a : A} {k : RA a → Prog A RA α} {v : RA a} {rest : Prog C RC (RA a)} :
      rest.Uses quiet → rest.Returns (· = v) → (∀ x, (k x).Uses valid) →
      Follows impl valid quiet (rest >>= fun x => .subst impl (k x)) (k v)

section

variable {impl : (a : A) → Prog C RC (RA a)} {valid : A → Prop} {quiet : C → Prop}

/-- A client of the store that has returned has returned on the object, the same value.  (No
implementation returns without a command.) -/
theorem Follows.ret (himpl : ∀ a, valid a → ∃ c k, impl a = .call c k) {x : α} {q : Prog A RA α}
    (h : Follows impl valid quiet (.ret x) q) : q = .ret x := by
  have hsubst : ∀ p : Prog A RA α, p.Uses valid → .ret x = Prog.subst impl p → p = .ret x := by
    intro p hp heq
    cases p with
    | ret y =>
      cases heq
      rfl
    | call a k =>
      obtain ⟨c, k', hc⟩ := himpl a hp.1
      rw [Prog.subst, hc] at heq
      cases heq
  obtain ⟨y, hy⟩ : ∃ y, (Prog.ret x : Prog C RC α) = y := ⟨_, rfl⟩
  rw [hy] at h
  cases h with
  | between hp => exact hsubst q hp hy
  | @within a k v rest hq hv hk =>
    cases rest with
    | ret r =>
      obtain rfl : r = v := hv
      exact hsubst _ (hk r) hy
    | call c k' => cases hy

/-- A client that is about to issue a command: it starts the next call, or it goes on with one that
has been answered. -/
theorem Follows.call {c : C} {k : RC c → Prog C RC α} {q : Prog A RA α}
    (h : Follows impl valid quiet (.call c k) q) :
    (q.Uses valid ∧ Prog.subst impl q = .call c k) ∨
      quiet c ∧ ∀ r, Follows impl valid quiet (k r) q := by
  obtain ⟨y, hy⟩ : ∃ y, Prog.call c k = y := ⟨_, rfl⟩
  rw [hy] at h
  cases h with
  | between hp => exact Or.inl ⟨hp, hy.symm⟩
  | @within a k' v rest hq hv hk =>
    cases rest with
    | ret r =>
      obtain rfl : r = v := hv
      exact Or.inl ⟨hk r, hy.symm⟩
    | call c' k'' =>
      cases hy
      exact Or.inr ⟨hq.1, fun r => .within (hq.2 r) (hv r) hk⟩

def Pool.Follow (impl : (a : A) → Prog C RC (RA a)) (valid : A → Prop) (quiet : C → Prop)
    (pool : Pool C RC α S) (obj : Pool A RA α T) : Prop :=
  ∀ (i : ℕ) p, pool.procs[i]? = some p → ∃ q, obj.procs[i]? = some q ∧ Follows impl valid quiet p q

theorem Pool.Follow.advance {pool : Pool C RC α S} {obj obj' : Pool A RA α T}
    (h : pool.Follow impl valid quiet obj) {i : ℕ} {p' : Prog C RC α} {q' : Prog A RA α}
    (hi : i < pool.procs.length) (hq : obj'.procs[i]? = some q')
    (hobj : ∀ j, i ≠ j → obj'.procs[j]? = obj.procs[j]?) (hf : Follows impl valid quiet p' q')
    (s : S) : Pool.Follow impl valid quiet ⟨s, pool.procs.set i p'⟩ obj' := by
  intro j x hj
  by_cases hij : i = j
  · subst hij
    rw [List.getElem?_set_self hi] at hj
    cases hj
    exact ⟨q', hq, hf⟩
  · rw [List.getElem?_set_ne hij] at hj
    rw [hobj j hij]
    exact h j x hj

variable {exec : E → (c : C) → S → RC c × S} {call : F → (a : A) → T → RA a × T}
  {Abs : S → T → Prop} {ok : S → Prop} {fair : E → Prop}
  (h : Linearizes impl exec call Abs ok fair valid quiet)

include h

/-- One command of one client is one call of the object, or none. -/
theorem Linearizes.step {pool : Pool C RC α S} {obj : Pool A RA α T}
    (habs : Abs pool.shared obj.shared) (hf : pool.Follow impl valid quiet obj) {m : ℕ × E}
    (hfair : fair m.2) (hok : ok (Pool.step exec pool m).shared) :
    ∃ ms : List (ℕ × F), (ms.map Prod.fst).Sublist [m.1] ∧
      Abs (Pool.step exec pool m).shared (Pool.run call obj ms).shared ∧
      (Pool.step exec pool m).Follow impl valid quiet (Pool.run call obj ms) := by
  rcases Pool.step_cases exec pool m with ⟨hs, _⟩ | ⟨c, k, hp, hs, _⟩
  · rw [hs]
    exact ⟨[], List.nil_sublist _, habs, hf⟩
  · rw [hs] at hok ⊢
    obtain ⟨q, hq, hfol⟩ := hf m.1 _ hp
    have hlt := (List.getElem?_eq_some_iff.mp hp).1
    rcases hfol.call with ⟨hvalid, heq⟩ | ⟨hquiet, hrest⟩
    · cases q with
      | ret x => cases heq
      | call a k' =>
        obtain ⟨c', k₀, hc, heffect⟩ := h.effect a hvalid.1
        rw [Prog.subst, hc] at heq
        cases heq
        obtain ⟨f, habs', huses, hreturns⟩ := heffect m.2 pool.shared obj.shared hfair habs hok
        have hstep : Pool.run call obj [(m.1, f)] =
            ⟨(call f a obj.shared).2, obj.procs.set m.1 (k' (call f a obj.shared).1)⟩ := by
          simp only [Pool.run_cons, Pool.run_nil, Pool.step, hq]
        refine ⟨[(m.1, f)], List.Sublist.refl _, ?_, ?_⟩
        · rw [hstep]
          exact habs'
        · rw [hstep]
          exact hf.advance hlt (List.getElem?_set_self (List.getElem?_eq_some_iff.mp hq).1)
            (fun j hj => List.getElem?_set_ne hj) (.within huses hreturns hvalid.2) _
    · refine ⟨[], List.nil_sublist _, h.silent _ _ _ _ hquiet habs hok, ?_⟩
      exact hf.advance hlt hq (fun _ _ => rfl) (hrest _) _

/-- **Every run on the store is a run on the object**, with the same answers. -/
theorem Linearizes.run {pool : Pool C RC α S} {obj : Pool A RA α T}
    (habs : Abs pool.shared obj.shared) (hf : pool.Follow impl valid quiet obj)
    (ms : List (ℕ × E)) (hfair : ∀ m ∈ ms, fair m.2)
    (hok : ∀ ms', ms' <+: ms → ok (Pool.run exec pool ms').shared) :
    ∃ ms' : List (ℕ × F), (ms'.map Prod.fst).Sublist (ms.map Prod.fst) ∧
      Abs (Pool.run exec pool ms).shared (Pool.run call obj ms').shared ∧
      (Pool.run exec pool ms).Follow impl valid quiet (Pool.run call obj ms') := by
  induction ms generalizing pool obj with
  | nil => exact ⟨[], List.nil_sublist _, habs, hf⟩
  | cons m ms ih =>
    obtain ⟨ms₁, hsub₁, habs₁, hf₁⟩ := h.step habs hf (hfair m List.mem_cons_self)
      (hok [m] ⟨ms, rfl⟩)
    obtain ⟨ms₂, hsub₂, habs₂, hf₂⟩ := ih habs₁ hf₁
      (fun m' hm' => hfair m' (List.mem_cons_of_mem m hm'))
      fun ms' hms' => hok (m :: ms') (List.cons_prefix_cons.mpr ⟨rfl, hms'⟩)
    refine ⟨ms₁ ++ ms₂, ?_, ?_, ?_⟩
    · rw [List.map_append, List.map_cons]
      exact hsub₁.append hsub₂
    · rw [Pool.run_append]
      exact habs₂
    · rw [Pool.run_append]
      exact hf₂

end

end Base
