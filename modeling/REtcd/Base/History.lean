import REtcd.Base.Prog

/-!
# Histories

`Pool.calls` lists the commands of a run in order.  Each of them starts where the one before has
ended (`Chained`), so what holds at some point of the history and is kept by the commands after it
holds at each of them (`Chained.after`).

`noting exec note` runs the same commands and keeps a record beside the store, which the commands do
not read: the history is what it is without the record (`calls_noting`).

`Earns ok l p` says that `p` issues a command only if `ok` allows it after what `p` has issued before.
-/

namespace Base

variable {C : Type} {R : C → Type} {S G E α β : Type}

/-! ### Order -/

/-- Every call begins in the state in which the one before has ended, and the first one in `s`. -/
def Chained : S → List (Call C R S) → Prop
  | _, [] => True
  | s, x :: l => x.before = s ∧ Chained x.after l

theorem Pool.calls_chained {exec : E → (c : C) → S → R c × S} (pool : Pool C R α S)
    (ms : List (ℕ × E)) : Chained pool.shared (Pool.calls exec pool ms) := by
  induction ms generalizing pool with
  | nil => trivial
  | cons m ms ih =>
    have hrest := ih (Pool.step exec pool m)
    rw [Pool.calls]
    rcases Pool.step_cases exec pool m with ⟨hs, hc⟩ | ⟨c, k, _, hs, hc⟩
    · rw [hs] at hrest ⊢
      rw [hc]
      exact hrest
    · rw [hs] at hrest ⊢
      rw [hc]
      exact ⟨rfl, hrest⟩

section Chained

variable {I : S → Prop} {s : S} {x : Call C R S} {l l' : List (Call C R S)}

/-- What holds at first and is kept by the calls before `x` holds when `x` begins. -/
theorem Chained.before (h : Chained s (l ++ x :: l')) (hs : I s)
    (hI : ∀ y ∈ l, I y.before → I y.after) : I x.before := by
  induction l generalizing s with
  | nil =>
    obtain ⟨rfl, _⟩ := h
    exact hs
  | cons y l ih =>
    obtain ⟨rfl, hrest⟩ := h
    exact ih hrest (hI y List.mem_cons_self hs) fun z hz => hI z (List.mem_cons_of_mem _ hz)

theorem Chained.drop (h : Chained s (l ++ x :: l')) : Chained x.after l' := by
  induction l generalizing s with
  | nil => exact h.2
  | cons y l ih => exact ih h.2

/-- What holds when `x` has ended and is kept by the calls after it holds when each of them
begins. -/
theorem Chained.after (h : Chained s (l ++ x :: l')) (hx : I x.after)
    (hI : ∀ y ∈ l', I y.before → I y.after) : ∀ y ∈ l', I y.before := by
  intro y hy
  obtain ⟨l₁, l₂, rfl⟩ := List.append_of_mem hy
  exact h.drop.before hx fun z hz => hI z (List.mem_append_left _ hz)

/-- What holds when `x` begins and is kept from then on holds when each of the calls from `x` on
begins. -/
theorem Chained.since (h : Chained s (l ++ x :: l')) (hx : I x.before)
    (hI : ∀ y ∈ x :: l', I y.before → I y.after) : ∀ y ∈ x :: l', I y.before := by
  intro y hy
  rcases List.mem_cons.mp hy with rfl | hy
  · exact hx
  · exact h.after (hI x List.mem_cons_self hx) (fun z hz => hI z (List.mem_cons_of_mem _ hz)) y hy

end Chained

theorem split_of_filter {γ : Type} {p : γ → Bool} {l l₁ l₂ : List γ} {x : γ}
    (h : l.filter p = l₁ ++ x :: l₂) :
    ∃ l₁' l₂', l = l₁' ++ x :: l₂' ∧ l₁'.filter p = l₁ ∧ l₂'.filter p = l₂ := by
  obtain ⟨m₁, m₂, rfl, h₁, h₂⟩ := List.filter_eq_append_iff.mp h
  obtain ⟨n₁, n₂, rfl, hn, _, h₃⟩ := List.filter_eq_cons_iff.mp h₂
  refine ⟨m₁ ++ n₁, n₂, by rw [List.append_assoc], ?_, h₃⟩
  rw [List.filter_append, h₁, List.filter_eq_nil_iff.mpr hn, List.append_nil]

/-! ### Records -/

def noting (exec : E → (c : C) → S → R c × S) (note : E → (c : C) → S → G → G) (e : E) (c : C)
    (s : S × G) : R c × S × G :=
  ((exec e c s.1).1, (exec e c s.1).2, note e c (exec e c s.1).2 s.2)

def Call.bare (x : Call C R (S × G)) : Call C R S := ⟨x.proc, x.cmd, x.reply, x.before.1, x.after.1⟩

def Pool.bare (pool : Pool C R α (S × G)) : Pool C R α S := ⟨pool.shared.1, pool.procs⟩

section Noting

variable {exec : E → (c : C) → S → R c × S} {note : E → (c : C) → S → G → G}

theorem Pool.step_noting (pool : Pool C R α (S × G)) (m : ℕ × E) :
    (Pool.step (noting exec note) pool m).bare = Pool.step exec pool.bare m ∧
      (Pool.call? (noting exec note) pool m).map Call.bare = Pool.call? exec pool.bare m := by
  simp only [Pool.step, Pool.call?, Pool.bare]
  cases hp : pool.procs[m.1]? with
  | none => exact ⟨rfl, rfl⟩
  | some p => cases p <;> exact ⟨rfl, rfl⟩

theorem Pool.calls_noting (pool : Pool C R α (S × G)) (ms : List (ℕ × E)) :
    (Pool.calls (noting exec note) pool ms).map Call.bare = Pool.calls exec pool.bare ms := by
  induction ms generalizing pool with
  | nil => rfl
  | cons m ms ih =>
    rw [Pool.calls, Pool.calls, List.map_append, ih, (Pool.step_noting pool m).1,
      (Pool.step_noting pool m).2]

end Noting

/-! ### Commands that have to be earned -/

/-- `p` issues a command only if `ok` allows it after the calls before, at first those in `l`. -/
def Prog.Earns (ok : List (Call C R S) → C → Prop) : List (Call C R S) → Prog C R α → Prop
  | _, .ret _ => True
  | l, .call c k => ok l c ∧ ∀ i r s s', Prog.Earns ok (l ++ [⟨i, c, r, s, s'⟩]) (k r)

namespace Prog

variable {ok : List (Call C R S) → C → Prop} {l : List (Call C R S)}

theorem earns_bind {p : Prog C R α} {f : α → Prog C R β} (hp : p.Earns ok l)
    (hf : ∀ a l', l <+: l' → (f a).Earns ok l') : (p >>= f).Earns ok l := by
  induction p generalizing l with
  | ret a => exact hf a l List.prefix_rfl
  | call c k ih =>
    refine ⟨hp.1, fun i r s s' => ih r (hp.2 i r s s') fun a l' hl => ?_⟩
    exact hf a l' ((List.prefix_append l _).trans hl)

end Prog

theorem Pool.Path.earned {ok : List (Call C R S) → C → Prop} {p q : Prog C R α}
    {l l₁ l₂ : List (Call C R S)} {x : Call C R S} (h : Pool.Path p l q) {l₀ : List (Call C R S)}
    (hp : p.Earns ok l₀) (hl : l = l₁ ++ x :: l₂) : ok (l₀ ++ l₁) x.cmd := by
  induction h generalizing l₀ l₁ with
  | nil p =>
    rw [List.nil_eq, List.append_eq_nil_iff] at hl
    cases hl.2
  | @cons i c r s s' k l q hpath ih =>
    cases l₁ with
    | nil =>
      rw [List.nil_append, List.cons.injEq] at hl
      rw [List.append_nil, ← hl.1]
      exact hp.1
    | cons y l₁ =>
      rw [List.cons_append, List.cons.injEq] at hl
      have := ih (hp.2 i r s s') hl.2
      rw [hl.1, List.append_assoc] at this
      exact this

end Base
