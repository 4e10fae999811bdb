import Mathlib.Data.List.Basic
import Mathlib.Data.List.Pairwise

/-!
# Programs over atomic commands

A server talks to its store in commands, each of which the store runs at once,
and between any two of them other clients may run theirs.  `Prog C R α` is such
a server routine: it returns, or it issues a command `c : C` and goes on with
the reply in `R c`.  The store is a function `exec e c s`, the reply and the next
state of command `c` in state `s`; `e` is what the surroundings decide (a clock,
an order, a fault).

* `Exec step p s a s'`: run alone, `p` turns `s` into `s'` and returns `a`.
  `exec_bind` takes a sequence apart and `exec_inv` is the invariant rule.
* `among`: one program with blocks of other clients' commands between its own.
* `Pool`: any number of programs, scheduled in any order.  `Pool.run_inv` is the
  invariant rule, `Pool.calls` the history of the commands, `Pool.calls_pairwise`
  orders it, and `Pool.run_path` reads every program's progress off the history.
-/

namespace Base

/-- A program that issues commands of type `C`; command `c` is answered in `R c`. -/
inductive Prog (C : Type) (R : C → Type) (α : Type) : Type where
  | ret (a : α) : Prog C R α
  | call (c : C) (k : R c → Prog C R α) : Prog C R α

variable {C : Type} {R : C → Type} {α β γ S E : Type}

namespace Prog

def bind : Prog C R α → (α → Prog C R β) → Prog C R β
  | ret a, f => f a
  | call c k, f => call c (fun r => (k r).bind f)

instance : Monad (Prog C R) where
  pure := ret
  bind := bind

def cmd (c : C) : Prog C R (R c) := call c ret

@[simp] theorem pure_eq (a : α) : (pure a : Prog C R α) = ret a := rfl

@[simp] theorem ret_bind (a : α) (f : α → Prog C R β) : (ret a >>= f) = f a := rfl

@[simp] theorem call_bind (c : C) (k : R c → Prog C R α) (f : α → Prog C R β) :
    (call c k >>= f) = call c (fun r => k r >>= f) := rfl

@[simp] theorem cmd_bind (c : C) (f : R c → Prog C R β) : (cmd c >>= f) = call c f := rfl

@[simp] theorem map_eq (f : α → β) (p : Prog C R α) : f <$> p = p >>= fun a => ret (f a) := rfl

theorem bind_assoc (p : Prog C R α) (f : α → Prog C R β) (g : β → Prog C R γ) :
    (p >>= f >>= g) = p >>= fun a => f a >>= g := by
  induction p with
  | ret a => rfl
  | call c k ih =>
    simp only [call_bind]
    exact congrArg (call c) (funext ih)

/-! ### The commands a program can issue -/

/-- Every command that `p` can issue, whatever the replies, satisfies `P`. -/
def Uses (P : C → Prop) : Prog C R α → Prop
  | ret _ => True
  | call c k => P c ∧ ∀ r, (k r).Uses P

theorem uses_bind {P : C → Prop} {p : Prog C R α} {f : α → Prog C R β}
    (hp : p.Uses P) (hf : ∀ a, (f a).Uses P) : (p >>= f).Uses P := by
  induction p with
  | ret a => exact hf a
  | call c k ih => exact ⟨hp.1, fun r => ih r (hp.2 r)⟩

theorem uses_cmd {P : C → Prop} {c : C} {f : R c → Prog C R β} (hc : P c)
    (hf : ∀ r, (f r).Uses P) : (cmd c >>= f).Uses P := ⟨hc, hf⟩

theorem uses_mono {P Q : C → Prop} (h : ∀ c, P c → Q c) {p : Prog C R α} (hp : p.Uses P) :
    p.Uses Q := by
  induction p with
  | ret a => trivial
  | call c k ih => exact ⟨h c hp.1, fun r => ih r (hp.2 r)⟩

/-! ### The values a program can return -/

def Returns (P : α → Prop) : Prog C R α → Prop
  | ret a => P a
  | call _ k => ∀ r, (k r).Returns P

theorem returns_bind {Q : α → Prop} {P : β → Prop} {p : Prog C R α} {f : α → Prog C R β}
    (hp : p.Returns Q) (hf : ∀ a, Q a → (f a).Returns P) : (p >>= f).Returns P := by
  induction p with
  | ret a => exact hf a hp
  | call c k ih => exact fun r => ih r (hp r)

theorem returns_mono {P Q : α → Prop} {p : Prog C R α} (hp : p.Returns P) (h : ∀ a, P a → Q a) :
    p.Returns Q := by
  induction p with
  | ret a => exact h a hp
  | call c k ih => exact fun r => ih r (hp r)

theorem returns_of_forall {P : α → Prop} (h : ∀ a, P a) (p : Prog C R α) : p.Returns P := by
  induction p with
  | ret a => exact h a
  | call c k ih => exact ih

/-- Nothing that is done once a value is known changes it. -/
theorem returns_after (p : Prog C R α) {P : β → Prop} {b : β} (hb : P b) :
    (p >>= fun _ => ret b).Returns P :=
  returns_bind (Q := fun _ => True) (returns_of_forall (fun _ => trivial) p) fun _ _ => hb

/-! ### The first command of a program -/

/-- The first command of `p` is `c`, and after the reply `r` the rest satisfies `K r`. -/
def First (c : C) (K : R c → Prog C R α → Prop) (p : Prog C R α) : Prop :=
  ∃ k, p = call c k ∧ ∀ r, K r (k r)

theorem first_cmd {c : C} {K : R c → Prog C R α → Prop} {f : R c → Prog C R α}
    (h : ∀ r, K r (f r)) : (cmd c >>= f).First c K := ⟨f, rfl, h⟩

theorem First.mono {c : C} {K K' : R c → Prog C R α → Prop} {p : Prog C R α} (hp : p.First c K)
    (h : ∀ r q, K r q → K' r q) : p.First c K' := by
  obtain ⟨k, rfl, hk⟩ := hp
  exact ⟨k, rfl, fun r => h r _ (hk r)⟩

theorem First.uses {P : C → Prop} {c : C} {p : Prog C R α} (hp : p.First c fun _ q => q.Uses P)
    (hc : P c) : p.Uses P := by
  obtain ⟨k, rfl, hk⟩ := hp
  exact ⟨hc, hk⟩

theorem First.bind {c : C} {K : R c → Prog C R α → Prop} {K' : R c → Prog C R β → Prop}
    {p : Prog C R α} {f : α → Prog C R β} (hp : p.First c K)
    (hf : ∀ r q, K r q → K' r (q >>= f)) : (p >>= f).First c K' := by
  obtain ⟨k, rfl, hk⟩ := hp
  exact ⟨fun r => k r >>= f, rfl, fun r => hf r _ (hk r)⟩

/-! ### Running alone -/

/-- `p` run alone turns `s` into `s'` and returns `a`; `step c s r s'` is one command. -/
inductive Exec (step : (c : C) → S → R c → S → Prop) : Prog C R α → S → α → S → Prop
  | ret (a : α) (s : S) : Exec step (ret a) s a s
  | call {c : C} {k : R c → Prog C R α} {s s₁ s₂ : S} {r : R c} {a : α} :
      step c s r s₁ → Exec step (k r) s₁ a s₂ → Exec step (call c k) s a s₂

variable {step : (c : C) → S → R c → S → Prop}

@[simp] theorem exec_ret {a b : α} {s s' : S} :
    Exec step (ret a) s b s' ↔ b = a ∧ s' = s := by
  constructor
  · intro h
    cases h
    exact ⟨rfl, rfl⟩
  · rintro ⟨rfl, rfl⟩
    exact .ret _ _

@[simp] theorem exec_call {c : C} {k : R c → Prog C R α} {s s' : S} {a : α} :
    Exec step (call c k) s a s' ↔ ∃ r s₁, step c s r s₁ ∧ Exec step (k r) s₁ a s' := by
  constructor
  · intro h
    cases h with
    | call hs hk => exact ⟨_, _, hs, hk⟩
  · rintro ⟨r, s₁, hs, hk⟩
    exact .call hs hk

theorem exec_cmd {c : C} {f : R c → Prog C R α} {s s' : S} {a : α} :
    Exec step (cmd c >>= f) s a s' ↔ ∃ r s₁, step c s r s₁ ∧ Exec step (f r) s₁ a s' := exec_call

theorem Exec.mono {step' : (c : C) → S → R c → S → Prop} {p : Prog C R α} {s s' : S} {a : α}
    (h : Exec step p s a s') (hs : ∀ c s r s', step c s r s' → step' c s r s') :
    Exec step' p s a s' := by
  induction h with
  | ret => exact .ret _ _
  | call h _ ih => exact .call (hs _ _ _ _ h) ih

/-- **A sequence runs one part after the other.** -/
theorem exec_bind {p : Prog C R α} {f : α → Prog C R β} {s s' : S} {b : β} :
    Exec step (p >>= f) s b s' ↔ ∃ a s₁, Exec step p s a s₁ ∧ Exec step (f a) s₁ b s' := by
  induction p generalizing s with
  | ret a => simp
  | call c k ih =>
    simp only [call_bind, exec_call, ih]
    constructor
    · rintro ⟨r, s₁, hs, a, s₂, hk, hf⟩
      exact ⟨a, s₂, ⟨r, s₁, hs, hk⟩, hf⟩
    · rintro ⟨a, s₂, ⟨r, s₁, hs, hk⟩, hf⟩
      exact ⟨r, s₁, hs, a, s₂, hk, hf⟩

theorem exec_first {c : C} {K : R c → Prog C R α → Prop} {p : Prog C R α} {s s' : S} {a : α}
    (hp : p.First c K) (h : Exec step p s a s') :
    ∃ r s₁ q, step c s r s₁ ∧ K r q ∧ Exec step q s₁ a s' := by
  obtain ⟨k, rfl, hk⟩ := hp
  obtain ⟨r, s₁, hs, h⟩ := exec_call.mp h
  exact ⟨r, s₁, k r, hs, hk r, h⟩

theorem exec_returns {P : α → Prop} {p : Prog C R α} {s s' : S} {a : α} (hp : p.Returns P)
    (h : Exec step p s a s') : P a := by
  induction h with
  | ret => exact hp
  | call _ _ ih => exact ih (hp _)

/-- **The invariant rule.** -/
theorem exec_inv {P : C → Prop} {I : S → Prop}
    (hI : ∀ c s r s', P c → step c s r s' → I s → I s')
    {p : Prog C R α} {s s' : S} {a : α} (hp : p.Uses P) (h : Exec step p s a s') (hs : I s) :
    I s' := by
  induction h with
  | ret => exact hs
  | call h _ ih => exact ih (hp.2 _) (hI _ _ _ _ hp.1 h hs)

/-- A program runs to its end when every command is answered. -/
theorem exists_exec (ht : ∀ c s, ∃ r s', step c s r s') (p : Prog C R α) (s : S) :
    ∃ a s', Exec step p s a s' := by
  induction p generalizing s with
  | ret a => exact ⟨a, s, .ret a s⟩
  | call c k ih =>
    obtain ⟨r, s₁, hs⟩ := ht c s
    obtain ⟨a, s', hk⟩ := ih r s₁
    exact ⟨a, s', .call hs hk⟩

/-! ### Stopping -/

/-- `p` run alone until it is stopped, after at most `n` commands; the `i`-th runs under `e i`. -/
def upto (exec : E → (c : C) → S → R c × S) : Prog C R α → (ℕ → E) → ℕ → S → S
  | ret _, _, _, s => s
  | call _ _, _, 0, s => s
  | call c k, e, n + 1, s =>
    upto exec (k (exec (e 0) c s).1) (fun i => e (i + 1)) n (exec (e 0) c s).2

@[simp] theorem upto_zero (exec : E → (c : C) → S → R c × S) (p : Prog C R α) (e : ℕ → E) (s : S) :
    upto exec p e 0 s = s := by
  cases p with
  | ret a => rfl
  | call c k => rfl

@[simp] theorem upto_ret (exec : E → (c : C) → S → R c × S) (a : α) (e : ℕ → E) (n : ℕ) (s : S) :
    upto exec (ret a : Prog C R α) e n s = s := by
  cases n with
  | zero => rfl
  | succ n => rfl

theorem upto_cmd (exec : E → (c : C) → S → R c × S) (c : C) (k : R c → Prog C R α) (e : ℕ → E)
    (n : ℕ) (s : S) :
    upto exec (cmd c >>= k) e (n + 1) s =
      upto exec (k (exec (e 0) c s).1) (fun i => e (i + 1)) n (exec (e 0) c s).2 := rfl

/-! ### One program among other clients -/

def others (exec : E → (c : C) → S → R c × S) (l : List (E × C)) (s : S) : S :=
  l.foldl (fun s x => (exec x.1 x.2 s).2) s

/-- `p` with other clients' commands in between: before its `n`-th command the block
`(t n).1` runs, and the command itself runs under `(t n).2`; after the last one comes the
next block. -/
def among (exec : E → (c : C) → S → R c × S) : Prog C R α → (ℕ → List (E × C) × E) → S → α × S
  | ret a, t, s => (a, others exec (t 0).1 s)
  | call c k, t, s =>
    let out := exec (t 0).2 c (others exec (t 0).1 s)
    among exec (k out.1) (fun n => t (n + 1)) out.2

@[simp] theorem others_nil (exec : E → (c : C) → S → R c × S) (s : S) : others exec [] s = s := rfl

theorem exec_among {exec : E → (c : C) → S → R c × S} {t : ℕ → List (E × C) × E}
    (ht : ∀ n, (t n).1 = []) (hs : ∀ n c s, step c s (exec (t n).2 c s).1 (exec (t n).2 c s).2)
    (p : Prog C R α) (s : S) : Exec step p s (among exec p t s).1 (among exec p t s).2 := by
  induction p generalizing t s with
  | ret a =>
    rw [among, ht 0]
    exact .ret a s
  | call c k ih =>
    rw [among, ht 0]
    exact .call (hs 0 c s) (ih _ (fun n => ht (n + 1)) (fun n => hs (n + 1)) _)

theorem among_returns {exec : E → (c : C) → S → R c × S} {P : α → Prop} {p : Prog C R α}
    (hp : p.Returns P) (t : ℕ → List (E × C) × E) (s : S) : P (among exec p t s).1 := by
  induction p generalizing t s with
  | ret a => exact hp
  | call c k ih => exact ih _ (hp _) _ _

theorem among_first {exec : E → (c : C) → S → R c × S} {c : C} {K : R c → Prog C R α → Prop}
    {p : Prog C R α} (hp : p.First c K) (t : ℕ → List (E × C) × E) (s : S) :
    ∃ q, K (exec (t 0).2 c (others exec (t 0).1 s)).1 q ∧ among exec p t s =
      among exec q (fun n => t (n + 1)) (exec (t 0).2 c (others exec (t 0).1 s)).2 := by
  obtain ⟨k, rfl, hk⟩ := hp
  exact ⟨_, hk _, rfl⟩

theorem others_inv {exec : E → (c : C) → S → R c × S} {P : C → Prop} {I : S → Prop}
    (hI : ∀ e c s, P c → I s → I (exec e c s).2) {l : List (E × C)} (hl : ∀ x ∈ l, P x.2)
    {s : S} (hs : I s) : I (others exec l s) := by
  induction l generalizing s with
  | nil => exact hs
  | cons x l ih =>
    exact ih (fun y hy => hl y (List.mem_cons_of_mem _ hy))
      (hI _ _ _ (hl x List.mem_cons_self) hs)

end Prog

/-! ## Many programs -/

structure Pool (C : Type) (R : C → Type) (α S : Type) where
  shared : S
  procs : List (Prog C R α)

/-- One command of the history: who issued it, the reply, and the states around it. -/
structure Call (C : Type) (R : C → Type) (S : Type) where
  proc : ℕ
  cmd : C
  reply : R cmd
  before : S
  after : S

namespace Prog

/-- The commands that `p` itself issues among other clients, in order. -/
def trace (exec : E → (c : C) → S → R c × S) :
    Prog C R α → (ℕ → List (E × C) × E) → S → List (Call C R S)
  | ret _, _, _ => []
  | call c k, t, s =>
    let before := others exec (t 0).1 s
    let out := exec (t 0).2 c before
    ⟨0, c, out.1, before, out.2⟩ :: trace exec (k out.1) (fun n => t (n + 1)) out.2

/-- **The invariant rule among other clients**: `I l s` relates the state to the commands that the
program itself has issued so far; its own commands keep it, and so do those of the others. -/
theorem trace_inv {exec : E → (c : C) → S → R c × S} {P O : C → Prop} {Q : E → Prop}
    {I : List (Call C R S) → S → Prop}
    (hown : ∀ l e c s, Q e → P c → I l s →
      I (l ++ [⟨0, c, (exec e c s).1, s, (exec e c s).2⟩]) (exec e c s).2)
    (hother : ∀ l e c s, O c → I l s → I l (exec e c s).2)
    {p : Prog C R α} (hp : p.Uses P) {t : ℕ → List (E × C) × E} (hQ : ∀ n, Q (t n).2)
    (hO : ∀ n, ∀ x ∈ (t n).1, O x.2) {l : List (Call C R S)} {s : S} (h : I l s) :
    I (l ++ trace exec p t s) (among exec p t s).2 := by
  induction p generalizing t l s with
  | ret a =>
    rw [trace, List.append_nil]
    exact others_inv (hother l) (hO 0) h
  | call c k ih =>
    have hbefore : I l (others exec (t 0).1 s) := others_inv (hother l) (hO 0) h
    have hafter := hown l _ c _ (hQ 0) hp.1 hbefore
    have hrest := ih (exec (t 0).2 c (others exec (t 0).1 s)).1 (hp.2 _) (fun n => hQ (n + 1))
      (fun n => hO (n + 1)) hafter
    rw [List.append_assoc] at hrest
    exact hrest

end Prog

namespace Pool

variable (exec : E → (c : C) → S → R c × S)

/-- Program `m.1` runs its next command under `m.2`; a finished one does nothing. -/
def step (pool : Pool C R α S) (m : ℕ × E) : Pool C R α S :=
  match pool.procs[m.1]? with
  | some (.call c k) =>
    let out := exec m.2 c pool.shared
    ⟨out.2, pool.procs.set m.1 (k out.1)⟩
  | _ => pool

def run (pool : Pool C R α S) (ms : List (ℕ × E)) : Pool C R α S := ms.foldl (step exec) pool

def call? (pool : Pool C R α S) (m : ℕ × E) : List (Call C R S) :=
  match pool.procs[m.1]? with
  | some (.call c _) =>
    let out := exec m.2 c pool.shared
    [⟨m.1, c, out.1, pool.shared, out.2⟩]
  | _ => []

/-- The commands that a schedule runs, in order. -/
def calls (pool : Pool C R α S) : List (ℕ × E) → List (Call C R S)
  | [] => []
  | m :: ms => call? exec pool m ++ calls (step exec pool m) ms

@[simp] theorem run_nil (pool : Pool C R α S) : run exec pool [] = pool := rfl

@[simp] theorem run_cons (pool : Pool C R α S) (m : ℕ × E) (ms : List (ℕ × E)) :
    run exec pool (m :: ms) = run exec (step exec pool m) ms := rfl

/-- A step does nothing, or it is one command of one program. -/
theorem step_cases (pool : Pool C R α S) (m : ℕ × E) :
    (step exec pool m = pool ∧ call? exec pool m = []) ∨
    ∃ c k, pool.procs[m.1]? = some (.call c k) ∧
      step exec pool m = ⟨(exec m.2 c pool.shared).2,
        pool.procs.set m.1 (k (exec m.2 c pool.shared).1)⟩ ∧
      call? exec pool m = [⟨m.1, c, (exec m.2 c pool.shared).1, pool.shared,
        (exec m.2 c pool.shared).2⟩] := by
  unfold step call?
  cases hp : pool.procs[m.1]? with
  | none => exact Or.inl ⟨rfl, rfl⟩
  | some p =>
    cases p with
    | ret a => exact Or.inl ⟨rfl, rfl⟩
    | call c k => exact Or.inr ⟨c, k, rfl, rfl, rfl⟩

theorem length_run (pool : Pool C R α S) (ms : List (ℕ × E)) :
    (run exec pool ms).procs.length = pool.procs.length := by
  induction ms generalizing pool with
  | nil => rfl
  | cons m ms ih =>
    rw [run_cons, ih]
    rcases step_cases exec pool m with ⟨hs, _⟩ | ⟨c, k, _, hs, _⟩
    · rw [hs]
    · rw [hs, List.length_set]

theorem run_append (pool : Pool C R α S) (ms ms' : List (ℕ × E)) :
    run exec pool (ms ++ ms') = run exec (run exec pool ms) ms' := List.foldl_append

theorem run_skip (pool : Pool C R α S) {ms : List (ℕ × E)} {i : ℕ} (h : ∀ m ∈ ms, m.1 ≠ i) :
    (run exec pool ms).procs[i]? = pool.procs[i]? := by
  induction ms generalizing pool with
  | nil => rfl
  | cons m ms ih =>
    rw [run_cons, ih _ fun m hm => h m (List.mem_cons_of_mem _ hm)]
    rcases step_cases exec pool m with ⟨hs, _⟩ | ⟨c, k, _, hs, _⟩
    · rw [hs]
    · rw [hs, List.getElem?_set_ne (h m List.mem_cons_self)]

theorem step_call {pool : Pool C R α S} {i : ℕ} {c : C} {k : R c → Prog C R α}
    (h : pool.procs[i]? = some (.call c k)) (e : E) :
    (step exec pool (i, e)).shared = (exec e c pool.shared).2 ∧
      (step exec pool (i, e)).procs[i]? = some (k (exec e c pool.shared).1) := by
  have hlt := (List.getElem?_eq_some_iff.mp h).1
  simp only [step, h]
  exact ⟨trivial, List.getElem?_set_self hlt⟩

theorem run_call {pool : Pool C R α S} {i : ℕ} {c : C} {k : R c → Prog C R α}
    (h : pool.procs[i]? = some (.call c k)) (e : E) {ms : List (ℕ × E)} (hms : ∀ m ∈ ms, m.1 ≠ i) :
    (run exec pool ((i, e) :: ms)).procs[i]? = some (k (exec e c pool.shared).1) := by
  rw [run_cons, run_skip exec _ hms]
  exact (step_call exec h e).2

theorem step_ret {pool : Pool C R α S} {i : ℕ} {a : α} (h : pool.procs[i]? = some (.ret a))
    (e : E) : step exec pool (i, e) = pool := by
  simp only [step, h]

/-- The programs of the pool issue only commands in `P`. -/
def Uses (P : C → Prop) (pool : Pool C R α S) : Prop := ∀ p ∈ pool.procs, p.Uses P

theorem step_uses {P : C → Prop} {pool : Pool C R α S} (h : pool.Uses P) (m : ℕ × E) :
    (step exec pool m).Uses P := by
  rcases step_cases exec pool m with ⟨hs, _⟩ | ⟨c, k, hp, hs, _⟩
  · rw [hs]
    exact h
  · rw [hs]
    intro p hmem
    rcases List.mem_or_eq_of_mem_set hmem with hm | rfl
    · exact h p hm
    · exact (h _ (List.mem_of_getElem? hp)).2 _

variable {exec}

theorem step_inv {P : C → Prop} {I : S → Prop} (hI : ∀ e c s, P c → I s → I (exec e c s).2)
    {pool : Pool C R α S} (h : pool.Uses P) (hs : I pool.shared) (m : ℕ × E) :
    I (step exec pool m).shared := by
  rcases step_cases exec pool m with ⟨he, _⟩ | ⟨c, k, hp, he, _⟩
  · rw [he]
    exact hs
  · rw [he]
    exact hI _ _ _ (h _ (List.mem_of_getElem? hp)).1 hs

theorem run_uses {P : C → Prop} {pool : Pool C R α S} (h : pool.Uses P) (ms : List (ℕ × E)) :
    (run exec pool ms).Uses P := by
  induction ms generalizing pool with
  | nil => exact h
  | cons m ms ih => exact ih (step_uses exec h m)

/-- **The invariant rule**: what every command in `P` keeps, every schedule of programs that
issue only such commands keeps. -/
theorem run_inv {P : C → Prop} {I : S → Prop} (hI : ∀ e c s, P c → I s → I (exec e c s).2)
    {pool : Pool C R α S} (h : pool.Uses P) (hs : I pool.shared) (ms : List (ℕ × E)) :
    I (run exec pool ms).shared := by
  induction ms generalizing pool with
  | nil => exact hs
  | cons m ms ih => exact ih (step_uses exec h m) (step_inv hI h hs m)

/-! ### The history -/

/-- Every command of the history is one its program can issue, answered by the store in a
state that satisfies the invariant. -/
theorem calls_inv {P : C → Prop} {I : S → Prop} (hI : ∀ e c s, P c → I s → I (exec e c s).2)
    {pool : Pool C R α S} (h : pool.Uses P) (hs : I pool.shared) (ms : List (ℕ × E)) :
    ∀ x ∈ calls exec pool ms, P x.cmd ∧ I x.before ∧
      ∃ e, exec e x.cmd x.before = (x.reply, x.after) := by
  induction ms generalizing pool with
  | nil => simp [calls]
  | cons m ms ih =>
    intro x hx
    rw [calls, List.mem_append] at hx
    rcases hx with hx | hx
    · rcases step_cases exec pool m with ⟨_, hc⟩ | ⟨c, k, hp, _, hc⟩
      · simp [hc] at hx
      · rw [hc, List.mem_singleton] at hx
        subst hx
        exact ⟨(h _ (List.mem_of_getElem? hp)).1, hs, m.2, rfl⟩
    · exact ih (step_uses exec h m) (step_inv hI h hs m) x hx

/-- The state only moves up along a preorder that every command respects. -/
theorem calls_le {P : C → Prop} (le : S → S → Prop) (hrefl : ∀ s, le s s)
    (htrans : ∀ s t u, le s t → le t u → le s u) (hle : ∀ e c s, P c → le s (exec e c s).2)
    {pool : Pool C R α S} (h : pool.Uses P) (ms : List (ℕ × E)) :
    (∀ x ∈ calls exec pool ms, le pool.shared x.before ∧
      le x.after (run exec pool ms).shared) ∧ le pool.shared (run exec pool ms).shared := by
  induction ms generalizing pool with
  | nil => simp [calls, hrefl]
  | cons m ms ih =>
    obtain ⟨hc, hr⟩ := ih (step_uses exec h m)
    have hstep : le pool.shared (step exec pool m).shared := by
      rcases step_cases exec pool m with ⟨he, _⟩ | ⟨c, k, hp, he, _⟩
      · rw [he]
        exact hrefl _
      · rw [he]
        exact hle _ _ _ (h _ (List.mem_of_getElem? hp)).1
    refine ⟨fun x hx => ?_, htrans _ _ _ hstep hr⟩
    rw [calls, List.mem_append] at hx
    rcases hx with hx | hx
    · rcases step_cases exec pool m with ⟨_, he⟩ | ⟨c, k, hp, hs, he⟩
      · simp [he] at hx
      · rw [he, List.mem_singleton] at hx
        subst hx
        refine ⟨hrefl _, ?_⟩
        rw [hs] at hr
        rw [run_cons, hs]
        exact hr
    · exact ⟨htrans _ _ _ hstep (hc x hx).1, (hc x hx).2⟩

/-- **The history is in order**: a later command starts above where an earlier one ended. -/
theorem calls_pairwise {P : C → Prop} (le : S → S → Prop) (hrefl : ∀ s, le s s)
    (htrans : ∀ s t u, le s t → le t u → le s u) (hle : ∀ e c s, P c → le s (exec e c s).2)
    {pool : Pool C R α S} (h : pool.Uses P) (ms : List (ℕ × E)) :
    (calls exec pool ms).Pairwise (fun x y => le x.after y.before) := by
  induction ms generalizing pool with
  | nil => exact List.Pairwise.nil
  | cons m ms ih =>
    have hu := step_uses exec h m
    rw [calls, List.pairwise_append]
    rcases step_cases exec pool m with ⟨_, he⟩ | ⟨c, k, hp, hs, he⟩
    · simp [he, ih hu]
    · rw [he]
      refine ⟨List.pairwise_singleton _ _, ih hu, fun x hx y hy => ?_⟩
      rw [List.mem_singleton] at hx
      subst hx
      have := ((calls_le le hrefl htrans hle hu ms).1 y hy).1
      rw [hs] at this
      exact this

/-- **The invariant rule of one history**: what holds at first and is kept by the commands that the
schedule ran, not by all that there are, holds before each of them and at the end. -/
theorem calls_keep {I : S → Prop} {pool : Pool C R α S} {ms : List (ℕ × E)} (hs : I pool.shared)
    (hI : ∀ x ∈ calls exec pool ms, I x.before → I x.after) :
    (∀ x ∈ calls exec pool ms, I x.before) ∧ I (run exec pool ms).shared := by
  induction ms generalizing pool with
  | nil => simpa [calls] using hs
  | cons m ms ih =>
    simp only [calls, List.mem_append] at hI ⊢
    have hnext : I (step exec pool m).shared := by
      rcases step_cases exec pool m with ⟨he, _⟩ | ⟨c, k, _, he, hc⟩
      · rw [he]
        exact hs
      · rw [he]
        exact hI _ (Or.inl (by rw [hc]; exact List.mem_cons_self)) hs
    obtain ⟨hcalls, hend⟩ := ih hnext fun y hy => hI y (Or.inr hy)
    refine ⟨?_, hend⟩
    rintro x (hx | hx)
    · rcases step_cases exec pool m with ⟨_, hc⟩ | ⟨c, k, _, _, hc⟩
      · simp [hc] at hx
      · rw [hc, List.mem_singleton] at hx
        subst hx
        exact hs
    · exact hcalls x hx

theorem calls_proc {pool : Pool C R α S} {ms : List (ℕ × E)} {x : Call C R S}
    (hx : x ∈ calls exec pool ms) : ∃ p, pool.procs[x.proc]? = some p := by
  have hlt : x.proc < pool.procs.length := by
    induction ms generalizing pool with
    | nil => simp [calls] at hx
    | cons m ms ih =>
      rw [calls, List.mem_append] at hx
      rcases hx with hx | hx
      · rcases step_cases exec pool m with ⟨_, hc⟩ | ⟨c, k, hp, _, hc⟩
        · simp [hc] at hx
        · rw [hc, List.mem_singleton] at hx
          subst hx
          exact (List.getElem?_eq_some_iff.mp hp).1
      · have := ih hx
        rwa [← run_nil exec (step exec pool m), ← run_cons, length_run] at this
  exact ⟨_, List.getElem?_eq_getElem hlt⟩

/-! ### Progress of one program -/

/-- `Path p l q`: `p` issues the commands of `l`, gets their replies and becomes `q`. -/
inductive Path : Prog C R α → List (Call C R S) → Prog C R α → Prop
  | nil (p : Prog C R α) : Path p [] p
  | cons {i : ℕ} {c : C} {r : R c} {s s' : S} {k : R c → Prog C R α} {l : List (Call C R S)}
      {q : Prog C R α} : Path (k r) l q → Path (.call c k) (⟨i, c, r, s, s'⟩ :: l) q

theorem Path.returns {P : α → Prop} {p : Prog C R α} {l : List (Call C R S)} {a : α}
    (h : Path p l (.ret a)) (hp : p.Returns P) : P a := by
  generalize hq : Prog.ret a = q at h
  induction h with
  | nil p =>
    subst hq
    exact hp
  | cons _ ih => exact ih (hp _) hq

theorem Path.uses {P : C → Prop} {p q : Prog C R α} {l : List (Call C R S)} (h : Path p l q)
    (hp : p.Uses P) : ∀ x ∈ l, P x.cmd := by
  induction h with
  | nil p => simp
  | cons _ ih =>
    intro x hx
    rcases List.mem_cons.mp hx with rfl | hx
    · exact hp.1
    · exact ih (hp.2 _) x hx

theorem Path.first {c : C} {K : R c → Prog C R α → Prop} {p : Prog C R α} {l : List (Call C R S)}
    {a : α} (h : Path p l (.ret a)) (hp : p.First c K) :
    ∃ i r s s' l' q, l = ⟨i, c, r, s, s'⟩ :: l' ∧ K r q ∧ Path q l' (.ret a) := by
  obtain ⟨k, rfl, hk⟩ := hp
  cases h with
  | cons h => exact ⟨_, _, _, _, _, _, rfl, hk _, h⟩

/-- A program has issued nothing yet, or its first command has been answered. -/
theorem Path.begun {c : C} {K : R c → Prog C R α → Prop} {p q : Prog C R α} {l : List (Call C R S)}
    (h : Path p l q) (hp : p.First c K) :
    l = [] ∨ ∃ i r s s' l' p', l = ⟨i, c, r, s, s'⟩ :: l' ∧ K r p' ∧ Path p' l' q := by
  obtain ⟨k, rfl, hk⟩ := hp
  cases h with
  | nil => exact Or.inl rfl
  | cons h => exact Or.inr ⟨_, _, _, _, _, _, rfl, hk _, h⟩

theorem Path.bind {p : Prog C R α} {f : α → Prog C R β} {l : List (Call C R S)} {b : β}
    (h : Path (p >>= f) l (.ret b)) :
    ∃ a l₁ l₂, l = l₁ ++ l₂ ∧ Path p l₁ (.ret a) ∧ Path (f a) l₂ (.ret b) := by
  induction p generalizing l with
  | ret a => exact ⟨a, [], l, rfl, .nil _, h⟩
  | call c k ih =>
    rw [Prog.call_bind] at h
    cases h with
    | cons h =>
      obtain ⟨a, l₁, l₂, rfl, h₁, h₂⟩ := ih _ h
      exact ⟨a, _ :: l₁, l₂, rfl, h₁.cons, h₂⟩

theorem Path.cmd {c : C} {f : R c → Prog C R β} {l : List (Call C R S)} {b : β}
    (h : Path (Prog.cmd c >>= f) l (.ret b)) :
    ∃ i r s s' l', l = ⟨i, c, r, s, s'⟩ :: l' ∧ Path (f r) l' (.ret b) := by
  rw [Prog.cmd_bind] at h
  cases h with
  | cons h => exact ⟨_, _, _, _, _, rfl, h⟩

theorem Path.ret {a b : α} {l : List (Call C R S)} (h : Path (.ret a) l (.ret b)) :
    b = a ∧ l = [] := by
  cases h with
  | nil => exact ⟨rfl, rfl⟩

/-- **Every program of the pool has run through its own commands of the history.** -/
theorem run_path {pool : Pool C R α S} {i : ℕ} {p : Prog C R α} (hp : pool.procs[i]? = some p)
    (ms : List (ℕ × E)) :
    ∃ q, (run exec pool ms).procs[i]? = some q ∧
      Path p ((calls exec pool ms).filter (fun x => x.proc = i)) q := by
  induction ms generalizing pool p with
  | nil => exact ⟨p, hp, .nil p⟩
  | cons m ms ih =>
    rw [calls, List.filter_append, run_cons]
    rcases step_cases exec pool m with ⟨hs, hc⟩ | ⟨c, k, hm, hs, hc⟩
    · rw [hs, hc]
      exact ih hp
    · rw [hc]
      by_cases hi : m.1 = i
      · subst hi
        rw [hm, Option.some.injEq] at hp
        subst hp
        have hk : (step exec pool m).procs[m.1]? = some (k (exec m.2 c pool.shared).1) := by
          rw [hs, List.getElem?_set_self]
          exact (List.getElem?_eq_some_iff.mp hm).1
        obtain ⟨q, hq, hpath⟩ := ih hk
        exact ⟨q, hq, by simpa using hpath.cons⟩
      · have hk : (step exec pool m).procs[i]? = some p := by
          rw [hs, List.getElem?_set_ne hi]
          exact hp
        obtain ⟨q, hq, hpath⟩ := ih hk
        exact ⟨q, hq, by simpa [hi] using hpath⟩

end Pool

namespace Prog

/-- Among other clients, a program runs through its own commands. -/
theorem trace_path (exec : E → (c : C) → S → R c × S) (p : Prog C R α)
    (t : ℕ → List (E × C) × E) (s : S) :
    Pool.Path p (trace exec p t s) (.ret (among exec p t s).1) := by
  induction p generalizing t s with
  | ret a => exact .nil _
  | call c k ih => exact .cons (ih _ _ _)

theorem trace_calls {exec : E → (c : C) → S → R c × S} {P : C → Prop} {I : S → Prop}
    (hI : ∀ e c s, P c → I s → I (exec e c s).2) {p : Prog C R α} (hp : p.Uses P)
    {t : ℕ → List (E × C) × E} (ht : ∀ n, ∀ x ∈ (t n).1, P x.2) {s : S} (hs : I s) :
    ∀ x ∈ trace exec p t s, I x.before ∧ ∃ e, exec e x.cmd x.before = (x.reply, x.after) := by
  induction p generalizing t s with
  | ret a => simp [trace]
  | call c k ih =>
    have hbefore : I (others exec (t 0).1 s) := others_inv hI (ht 0) hs
    intro x hx
    rw [trace] at hx
    rcases List.mem_cons.mp hx with rfl | hx
    · exact ⟨hbefore, (t 0).2, rfl⟩
    · exact ih _ (hp.2 _) (fun n => ht (n + 1)) (hI _ _ _ hp.1 hbefore) x hx

end Prog

end Base
