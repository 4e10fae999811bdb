import REtcd.Base.Prog

/-!
# Programs that keep a protocol

A protocol tells a program which commands it may issue next, depending on what the commands before
have done: `P.may o c` says that in state `o` of the protocol the command `c` is allowed, and
`P.next o c s r s'` is the state after `c` was answered with `r` and has turned the store from `s`
into `s'`.  A program may return in the state `P.rest` only.

`Composed K` says that the predicate `K` holds of a sequence of programs if it holds of its parts, so
that it has to be proved for the smallest parts only.

`Obeys P does o p` says that `p` keeps the protocol from the state `o` on, whatever the store does
among the things that `does` lists.  It is checked along the program: `obeys_bind` for a sequence,
`obeys_of_uses` for commands that leave the protocol at rest.  `Pool.step_obeys` says that the
programs of a pool still keep the protocol after the next command of one of them, so that at every
moment of a run the state of the protocol tells what a program is about to do.
-/

namespace Base

/-- What holds of programs that return at once and of sequences of programs of which it holds. -/
structure Composed {C : Type} {R : C → Type} (K : {α : Type} → Prog C R α → Prop) : Prop where
  ret : ∀ {α : Type} (a : α), K (.ret a : Prog C R α)
  bind : ∀ {α β : Type} {p : Prog C R α} {f : α → Prog C R β}, K p → (∀ a, K (f a)) → K (p >>= f)

structure Protocol (C : Type) (R : C → Type) (S O : Type) where
  rest : O
  may : O → C → Prop
  next : O → (c : C) → S → R c → S → O

variable {C : Type} {R : C → Type} {S E O α β : Type}

namespace Prog

variable (P : Protocol C R S O) (does : (c : C) → S → R c → S → Prop)

/-- `p` keeps the protocol from the state `o` on. -/
def Obeys : O → Prog C R α → Prop
  | o, ret _ => o = P.rest
  | o, call c k => P.may o c ∧ ∀ s r s', does c s r s' → Obeys (P.next o c s r s') (k r)

variable {P does}

/-- A sequence keeps the protocol if its second part does so from the state at rest. -/
theorem obeys_bind {p : Prog C R α} {f : α → Prog C R β} {o : O} (hp : p.Obeys P does o)
    (hf : ∀ a, (f a).Obeys P does P.rest) : (p >>= f).Obeys P does o := by
  induction p generalizing o with
  | ret a =>
    obtain rfl : o = P.rest := hp
    exact hf a
  | call c k ih => exact ⟨hp.1, fun s r s' hs => ih r (hp.2 s r s' hs)⟩

theorem obeys_composed : Composed fun {α : Type} (p : Prog C R α) => p.Obeys P does P.rest where
  ret _ := rfl
  bind := obeys_bind

/-- Commands that leave the protocol at rest may come in any order. -/
theorem obeys_of_uses {Q : C → Prop} (hmay : ∀ c, Q c → P.may P.rest c)
    (hrest : ∀ c s r s', Q c → does c s r s' → P.next P.rest c s r s' = P.rest) {p : Prog C R α}
    (hp : p.Uses Q) : p.Obeys P does P.rest := by
  induction p with
  | ret a => exact rfl
  | call c k ih =>
    refine ⟨hmay c hp.1, fun s r s' hs => ?_⟩
    rw [hrest c s r s' hp.1 hs]
    exact ih r (hp.2 r)

end Prog

namespace Pool

variable {P : Protocol C R S O} {does : (c : C) → S → R c → S → Prop}
  {exec : E → (c : C) → S → R c × S}

/-- **After its next command a program still keeps the protocol**, and the others are where they
were. -/
theorem step_obeys {pool : Pool C R α S} {i : ℕ} {c : C} {k : R c → Prog C R α}
    (hi : pool.procs[i]? = some (.call c k)) {state : Prog C R α → O}
    (h : ∀ p ∈ pool.procs, p.Obeys P does (state p)) {e : E}
    (hd : does c pool.shared (exec e c pool.shared).1 (exec e c pool.shared).2)
    (hstate : state (k (exec e c pool.shared).1) = P.next (state (.call c k)) c pool.shared
      (exec e c pool.shared).1 (exec e c pool.shared).2) :
    ∀ p ∈ (step exec pool (i, e)).procs, p.Obeys P does (state p) := by
  intro p hp
  simp only [step, hi] at hp
  rcases List.mem_or_eq_of_mem_set hp with hp | rfl
  · exact h p hp
  · rw [hstate]
    exact (h _ (List.mem_of_getElem? hi)).2 _ _ _ hd

end Pool

theorem perm_filterMap_set {β γ : Type} (f : β → Option γ) {l : List β} {i : ℕ} {a : β}
    (h : l[i]? = some a) (b : β) :
    ((f a).toList ++ (l.set i b).filterMap f).Perm ((f b).toList ++ l.filterMap f) := by
  have hcons : ∀ x (l : List β), (x :: l).filterMap f = (f x).toList ++ l.filterMap f := by
    intro x l
    cases hx : f x with
    | none => rw [List.filterMap_cons_none hx, Option.toList_none, List.nil_append]
    | some y => rw [List.filterMap_cons_some hx, Option.toList_some, List.singleton_append]
  induction l generalizing i with
  | nil => cases h
  | cons x l ih =>
    cases i with
    | zero =>
      cases h
      rw [List.set_cons_zero, hcons, hcons]
      exact List.perm_append_comm_assoc _ _ _
    | succ i =>
      rw [List.getElem?_cons_succ] at h
      rw [List.set_cons_succ, hcons, hcons]
      refine (List.perm_append_comm_assoc _ _ _).trans ?_
      refine ((ih h).append_left _).trans ?_
      exact List.perm_append_comm_assoc _ _ _

end Base
