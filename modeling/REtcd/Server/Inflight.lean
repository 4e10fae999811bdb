import Mathlib.Data.List.Induction
import Mathlib.Order.Bounds.Basic
import Mathlib.Tactic.Ring

/-!
# The high-water mark of concurrent requests

`UnaryMetricsInterceptor` wraps every unary RPC: it counts the RPC in `inflightCur`, raises
`inflightMax` to the new count in a loop of `Load` and `CompareAndSwap`, runs the handler and takes
the RPC out of the count again.  The operations on the two atomics and on the gauge are the steps of
the model, and RPCs take them in any order.

* `inflight_exact`: `inflightCur` is the number of RPCs that are counted, and `inflightMax` is the
  greatest value that `inflightCur` ever had, as soon as no RPC has a count to record.
* `interceptor_waitFree`: with `n` RPCs the body of the loop runs at most `n + 1` times for each of
  them, whatever the others do.  A swap fails only if the mark has risen, and the mark never falls.
-/

namespace REtcd.Server

/-! ### The interceptor -/

structure Gauges where
  inflightCur : ℤ
  inflightMax : ℤ
  inflightRequests : ℤ
  deriving DecidableEq, Repr

/-- Where an RPC is in the interceptor; each but the last names the step that is next. -/
inductive Rpc where
  /-- `inflightCur.Add(1)`. -/
  | arriving
  /-- `inflightRequests.Inc()`. -/
  | counted (cur : ℤ)
  /-- `inflightMax.Load()`. -/
  | loading (cur : ℤ)
  /-- `inflightMax.CompareAndSwap(m, cur)`. -/
  | swapping (cur m : ℤ)
  /-- The handler, and then `inflightCur.Add(-1)`. -/
  | handling
  /-- `inflightRequests.Dec()`. -/
  | leaving
  | done
  deriving DecidableEq, Repr

def interceptor (g : Gauges) : Rpc → Gauges × Rpc
  | .arriving => ({ g with inflightCur := g.inflightCur + 1 }, .counted (g.inflightCur + 1))
  | .counted cur => ({ g with inflightRequests := g.inflightRequests + 1 }, .loading cur)
  | .loading cur =>
    (g, if cur ≤ g.inflightMax then .handling else .swapping cur g.inflightMax)
  | .swapping cur m =>
    if g.inflightMax = m then ({ g with inflightMax := cur }, .handling) else (g, .loading cur)
  | .handling => ({ g with inflightCur := g.inflightCur - 1 }, .leaving)
  | .leaving => ({ g with inflightRequests := g.inflightRequests - 1 }, .done)
  | .done => (g, .done)

structure Inflight where
  gauges : Gauges
  rpcs : List Rpc
  deriving DecidableEq, Repr

namespace Inflight

def start (n : ℕ) : Inflight := ⟨⟨0, 0, 0⟩, List.replicate n .arriving⟩

def step (s : Inflight) (i : ℕ) : Inflight :=
  match s.rpcs[i]? with
  | none => s
  | some st => ⟨(interceptor s.gauges st).1, s.rpcs.set i (interceptor s.gauges st).2⟩

def run (s : Inflight) (ms : List ℕ) : Inflight := ms.foldl step s

theorem run_concat (s : Inflight) (ms : List ℕ) (i : ℕ) :
    s.run (ms ++ [i]) = (s.run ms).step i := by
  rw [run, run, List.foldl_append]
  rfl

theorem step_cases (s : Inflight) (i : ℕ) :
    s.step i = s ∧ s.rpcs[i]? = none ∨ ∃ st, s.rpcs[i]? = some st ∧
      s.step i = ⟨(interceptor s.gauges st).1, s.rpcs.set i (interceptor s.gauges st).2⟩ := by
  rw [step]
  cases h : s.rpcs[i]? with
  | none => exact Or.inl ⟨rfl, rfl⟩
  | some st => exact Or.inr ⟨st, rfl, rfl⟩

end Inflight

/-! ### Counting -/

def Rpc.inCur : Rpc → Bool
  | .counted _ | .loading _ | .swapping _ _ | .handling => true
  | _ => false

def Rpc.inGauge : Rpc → Bool
  | .loading _ | .swapping _ _ | .handling | .leaving => true
  | _ => false

/-- What an RPC that has not left the loop yet is to record. -/
def Rpc.recording : Rpc → Option ℤ
  | .counted cur | .loading cur | .swapping cur _ => some cur
  | _ => none

theorem countP_set_add {α : Type} (p : α → Bool) {l : List α} {i : ℕ} {a : α} (h : l[i]? = some a)
    (b : α) : ((l.set i b).countP p : ℤ) = l.countP p - (p a).toNat + (p b).toNat := by
  induction l generalizing i with
  | nil => cases h
  | cons x l ih =>
    cases i with
    | zero =>
      cases h
      rw [List.set_cons_zero, List.countP_cons, List.countP_cons]
      cases ha : p a <;> cases hb : p b <;> simp
    | succ i =>
      rw [List.getElem?_cons_succ] at h
      rw [List.set_cons_succ, List.countP_cons, List.countP_cons, Nat.cast_add, ih h, Nat.cast_add]
      ring

structure Counts (s : Inflight) : Prop where
  cur : s.gauges.inflightCur = s.rpcs.countP Rpc.inCur
  gauge : s.gauges.inflightRequests = s.rpcs.countP Rpc.inGauge

theorem interceptor_counts (g : Gauges) (st : Rpc) :
    (interceptor g st).1.inflightCur =
        g.inflightCur - st.inCur.toNat + ((interceptor g st).2.inCur).toNat ∧
      (interceptor g st).1.inflightRequests =
        g.inflightRequests - st.inGauge.toNat + ((interceptor g st).2.inGauge).toNat := by
  cases st with
  | loading cur =>
    rw [interceptor]
    split_ifs <;> simp [Rpc.inCur, Rpc.inGauge]
  | swapping cur m =>
    rw [interceptor]
    split_ifs <;> simp [Rpc.inCur, Rpc.inGauge]
  | _ => simp [interceptor, Rpc.inCur, Rpc.inGauge]

theorem Counts.step {s : Inflight} (h : Counts s) (i : ℕ) : Counts (s.step i) := by
  rcases s.step_cases i with ⟨hs, _⟩ | ⟨st, hst, hs⟩
  · rw [hs]
    exact h
  · obtain ⟨hcur, hgauge⟩ := interceptor_counts s.gauges st
    rw [hs]
    constructor
    · rw [countP_set_add _ hst, ← h.cur, hcur]
    · rw [countP_set_add _ hst, ← h.gauge, hgauge]

theorem counts_run (n : ℕ) (ms : List ℕ) : Counts ((Inflight.start n).run ms) := by
  induction ms using List.reverseRecOn with
  | nil =>
    constructor
    · simp [Inflight.run, Inflight.start, List.countP_replicate, Rpc.inCur]
    · simp [Inflight.run, Inflight.start, List.countP_replicate, Rpc.inGauge]
  | append_singleton ms i ih =>
    rw [Inflight.run_concat]
    exact ih.step i

/-! ### The mark -/

def curHistory (n : ℕ) (ms : List ℕ) : Set ℤ :=
  {c | ∃ ms', ms' <+: ms ∧ c = ((Inflight.start n).run ms').gauges.inflightCur}

theorem curHistory_concat (n : ℕ) (ms : List ℕ) (i : ℕ) :
    curHistory n (ms ++ [i]) =
      insert ((Inflight.start n).run (ms ++ [i])).gauges.inflightCur (curHistory n ms) := by
  ext c
  constructor
  · rintro ⟨ms', hp, rfl⟩
    rcases List.prefix_concat_iff.mp hp with rfl | hp
    · exact Set.mem_insert _ _
    · exact Set.mem_insert_of_mem _ ⟨ms', hp, rfl⟩
  · rintro (rfl | ⟨ms', hp, rfl⟩)
    · exact ⟨_, List.prefix_rfl, rfl⟩
    · exact ⟨ms', hp.trans (List.prefix_append _ _), rfl⟩

/-- Whatever count there was is recorded, or an RPC is about to record at least as much; and nothing
else is recorded.  `H` are the counts that there were. -/
structure Marked (H : Set ℤ) (s : Inflight) : Prop where
  cur : s.gauges.inflightCur ∈ H
  max : s.gauges.inflightMax ∈ H
  covered : ∀ c ∈ H, c ≤ s.gauges.inflightMax ∨
    ∃ st ∈ s.rpcs, ∃ c', st.recording = some c' ∧ c ≤ c'
  recording : ∀ st ∈ s.rpcs, ∀ c, st.recording = some c → c ∈ H
  behind : ∀ c m, .swapping c m ∈ s.rpcs → m ≤ s.gauges.inflightMax ∧ m < c

theorem interceptor_max_le {H : Set ℤ} {s : Inflight} (h : Marked H s) {st : Rpc}
    (hst : st ∈ s.rpcs) : s.gauges.inflightMax ≤ (interceptor s.gauges st).1.inflightMax := by
  cases st with
  | swapping c m =>
    have := h.behind c m hst
    rw [interceptor]
    split_ifs
    · show s.gauges.inflightMax ≤ c
      omega
    · exact le_rfl
  | _ => exact le_rfl

/-- What an RPC was to record it still is to record after its step, or it is recorded. -/
theorem interceptor_records (g : Gauges) {st : Rpc} {c : ℤ} (h : st.recording = some c) :
    (interceptor g st).2.recording = some c ∨ c ≤ (interceptor g st).1.inflightMax := by
  cases st with
  | counted cur => exact Or.inl h
  | loading cur =>
    cases h
    rw [interceptor]
    split_ifs with hle
    · exact Or.inr hle
    · exact Or.inl rfl
  | swapping cur m =>
    cases h
    rw [interceptor]
    split_ifs
    · exact Or.inr le_rfl
    · exact Or.inl rfl
  | _ => cases h

theorem interceptor_recording {g : Gauges} {st : Rpc} {c : ℤ}
    (h : (interceptor g st).2.recording = some c) :
    st.recording = some c ∨ c = (interceptor g st).1.inflightCur := by
  cases st with
  | arriving =>
    cases h
    exact Or.inr rfl
  | counted cur => exact Or.inl h
  | loading cur =>
    rw [interceptor] at h
    split_ifs at h
    · cases h
    · exact Or.inl h
  | swapping cur m =>
    rw [interceptor] at h
    split_ifs at h
    · cases h
    · exact Or.inl h
  | _ => cases h

theorem interceptor_max (g : Gauges) (st : Rpc) :
    (interceptor g st).1.inflightMax = g.inflightMax ∨
      st.recording = some (interceptor g st).1.inflightMax := by
  cases st with
  | swapping cur m =>
    rw [interceptor]
    split_ifs
    · exact Or.inr rfl
    · exact Or.inl rfl
  | _ => exact Or.inl rfl

theorem interceptor_cur (g : Gauges) (st : Rpc) :
    (interceptor g st).1.inflightCur ≤ g.inflightCur ∨
      (interceptor g st).2.recording = some (interceptor g st).1.inflightCur := by
  cases st with
  | arriving => exact Or.inr rfl
  | swapping cur m =>
    rw [interceptor]
    split_ifs <;> exact Or.inl le_rfl
  | handling =>
    left
    show g.inflightCur - 1 ≤ g.inflightCur
    omega
  | _ => exact Or.inl le_rfl

/-- An RPC that goes on to a swap has found a smaller mark. -/
theorem interceptor_swapping {g : Gauges} {st : Rpc} {c m : ℤ}
    (h : (interceptor g st).2 = .swapping c m) :
    st = .loading c ∧ m = g.inflightMax ∧ m < c ∧ (interceptor g st).1 = g := by
  cases st with
  | loading cur =>
    rw [interceptor] at h ⊢
    split_ifs at h with hle
    cases h
    exact ⟨rfl, rfl, by omega, rfl⟩
  | swapping cur m' =>
    rw [interceptor] at h
    split_ifs at h
  | _ => cases h

theorem Marked.step {H : Set ℤ} {s : Inflight} (h : Marked H s) (i : ℕ) :
    Marked (insert (s.step i).gauges.inflightCur H) (s.step i) := by
  rcases s.step_cases i with ⟨hs, _⟩ | ⟨st, hst, hs⟩
  · rw [hs, Set.insert_eq_of_mem h.cur]
    exact h
  have hmem := List.mem_of_getElem? hst
  have hlt := (List.getElem?_eq_some_iff.mp hst).1
  have hle := interceptor_max_le h hmem
  rw [hs]
  generalize hg : (interceptor s.gauges st).1 = g at hle
  generalize hst' : (interceptor s.gauges st).2 = st'
  have hin : st' ∈ s.rpcs.set i st' := List.mem_set hlt st'
  -- what was covered before is covered still
  have hcovered : ∀ c ∈ H, c ≤ g.inflightMax ∨
      ∃ st ∈ s.rpcs.set i st', ∃ c', st.recording = some c' ∧ c ≤ c' := by
    intro c hc
    rcases h.covered c hc with hmax | ⟨st₀, hst₀, c', hrec, hcc⟩
    · exact Or.inl (hmax.trans hle)
    · obtain ⟨j, hj⟩ := List.mem_iff_getElem?.mp hst₀
      by_cases hij : i = j
      · subst hij
        rw [hst, Option.some.injEq] at hj
        subst hj
        rcases interceptor_records s.gauges hrec with hstill | hmax
        · exact Or.inr ⟨st', hin, c', hst' ▸ hstill, hcc⟩
        · exact Or.inl (hcc.trans (hg ▸ hmax))
      · refine Or.inr ⟨st₀, List.mem_of_getElem? (i := j) ?_, c', hrec, hcc⟩
        rw [List.getElem?_set_ne hij]
        exact hj
  refine ⟨Set.mem_insert _ _, ?_, ?_, ?_, ?_⟩
  · rcases interceptor_max s.gauges st with hsame | hrec
    · rw [← hg, hsame]
      exact Set.mem_insert_of_mem _ h.max
    · rw [← hg]
      exact Set.mem_insert_of_mem _ (h.recording st hmem _ hrec)
  · rintro c (rfl | hc)
    · rcases interceptor_cur s.gauges st with hcur | hrec
      · rw [← hg]
        rcases hcovered _ h.cur with hmax | ⟨st₀, hst₀, c', hrec, hcc⟩
        · exact Or.inl (hcur.trans (hg ▸ hmax))
        · exact Or.inr ⟨st₀, hst₀, c', hrec, hcur.trans hcc⟩
      · exact Or.inr ⟨st', hin, _, hst' ▸ hrec, by rw [hg]⟩
    · exact hcovered c hc
  · intro st₀ hst₀ c hc
    rcases List.mem_or_eq_of_mem_set hst₀ with hold | rfl
    · exact Set.mem_insert_of_mem _ (h.recording st₀ hold c hc)
    · rcases interceptor_recording (hst' ▸ hc) with hrec | rfl
      · exact Set.mem_insert_of_mem _ (h.recording st hmem c hrec)
      · rw [hg]
        exact Set.mem_insert _ _
  · intro c m hcm
    rcases List.mem_or_eq_of_mem_set hcm with hold | heq
    · obtain ⟨hmax, hlt⟩ := h.behind c m hold
      exact ⟨hmax.trans hle, hlt⟩
    · obtain ⟨_, rfl, hlt, _⟩ := interceptor_swapping (hst'.trans heq.symm)
      exact ⟨hle, hlt⟩

theorem marked_run (n : ℕ) (ms : List ℕ) :
    Marked (curHistory n ms) ((Inflight.start n).run ms) := by
  induction ms using List.reverseRecOn with
  | nil =>
    have hfresh : ∀ st ∈ (Inflight.start n).rpcs, st = .arriving :=
      fun st hst => List.eq_of_mem_replicate hst
    have hzero : (0 : ℤ) ∈ curHistory n [] := ⟨[], List.prefix_rfl, rfl⟩
    refine ⟨hzero, hzero, ?_, ?_, ?_⟩
    · rintro c ⟨ms', hp, rfl⟩
      rw [List.prefix_nil.mp hp]
      exact Or.inl le_rfl
    · intro st hst c hc
      rw [hfresh st hst] at hc
      cases hc
    · intro c m hcm
      cases hfresh _ hcm
  | append_singleton ms i ih =>
    rw [curHistory_concat, Inflight.run_concat]
    exact ih.step i

/-- **The counts are exact.**  In every state of every run `inflightCur` and the gauge count the RPCs
between their two updates, and when no RPC has a count to record, `inflightMax` is the greatest
value that `inflightCur` has ever had. -/
theorem inflight_exact (n : ℕ) (ms : List ℕ) :
    ((Inflight.start n).run ms).gauges.inflightCur =
        ((Inflight.start n).run ms).rpcs.countP Rpc.inCur ∧
      ((Inflight.start n).run ms).gauges.inflightRequests =
        ((Inflight.start n).run ms).rpcs.countP Rpc.inGauge ∧
      ((∀ st ∈ ((Inflight.start n).run ms).rpcs, st.recording = none) →
        IsGreatest (curHistory n ms) ((Inflight.start n).run ms).gauges.inflightMax) := by
  have hmarked := marked_run n ms
  refine ⟨(counts_run n ms).cur, (counts_run n ms).gauge, fun hquiet => ⟨hmarked.max, ?_⟩⟩
  intro c hc
  rcases hmarked.covered c hc with hle | ⟨st, hst, c', hrec, _⟩
  · exact hle
  · rw [hquiet st hst] at hrec
    cases hrec

/-- Two RPCs at the same time: the second one swaps first, so the swap of the first one fails, and
when it loads the mark again there is nothing left to do. -/
theorem twoRpcs_exact :
    IsGreatest (curHistory 2 [0, 1, 0, 1, 0, 1, 1, 0, 0, 1]) 2 :=
  (inflight_exact 2 [0, 1, 0, 1, 0, 1, 1, 0, 0, 1]).2.2 (by decide)

/-! ### The loop ends -/

def Rpc.atLoop : Rpc → Bool
  | .loading _ => true
  | _ => false

namespace Inflight

def loads (s : Inflight) (i : ℕ) : List ℕ → ℕ
  | [] => 0
  | j :: ms => (decide (j = i) && s.rpcs[i]?.any Rpc.atLoop).toNat + (s.step j).loads i ms

theorem loads_concat (s : Inflight) (i : ℕ) (ms : List ℕ) (j : ℕ) :
    s.loads i (ms ++ [j]) =
      s.loads i ms + (decide (j = i) && (s.run ms).rpcs[i]?.any Rpc.atLoop).toNat := by
  induction ms generalizing s with
  | nil => simp [loads, run]
  | cons k ms ih =>
    rw [List.cons_append, loads, loads, ih, Nat.add_assoc]
    rfl

theorem length_run (n : ℕ) (ms : List ℕ) : ((start n).run ms).rpcs.length = n := by
  induction ms using List.reverseRecOn with
  | nil => exact List.length_replicate
  | append_singleton ms i ih =>
    rw [run_concat]
    rcases ((start n).run ms).step_cases i with ⟨hs, _⟩ | ⟨st, _, hs⟩
    · rw [hs]
      exact ih
    · rw [hs, List.length_set]
      exact ih

/-- The mark is a number of RPCs. -/
theorem max_bounds (n : ℕ) (ms : List ℕ) :
    0 ≤ ((start n).run ms).gauges.inflightMax ∧ ((start n).run ms).gauges.inflightMax ≤ n := by
  obtain ⟨ms', _, hmax⟩ := (marked_run n ms).max
  have hle := List.countP_le_length (p := Rpc.inCur) (l := ((start n).run ms').rpcs)
  rw [length_run] at hle
  rw [hmax, (counts_run n ms').cur]
  exact ⟨Int.natCast_nonneg _, by exact_mod_cast hle⟩

theorem loads_eq_zero {n i : ℕ} (h : n ≤ i) (ms : List ℕ) : (start n).loads i ms = 0 := by
  induction ms using List.reverseRecOn with
  | nil => rfl
  | append_singleton ms j ih =>
    have hnone : ((start n).run ms).rpcs[i]? = none := by
      rw [List.getElem?_eq_none_iff, length_run]
      exact h
    rw [loads_concat, ih, hnone, Option.any_none, Bool.and_false]
    rfl

end Inflight

/-- How often an RPC may have entered the loop by now: in the loop, each time the mark was above what
it was the time before. -/
def Rpc.Allows (n : ℕ) (g : Gauges) (k : ℕ) : Rpc → Prop
  | .arriving | .counted _ => k = 0
  | .loading _ => (k : ℤ) ≤ g.inflightMax
  | .swapping _ m => (k : ℤ) ≤ m + 1
  | _ => k ≤ n + 1

theorem Rpc.Allows.step {n k : ℕ} {H : Set ℤ} {s : Inflight} (h : Marked H s)
    (hn : 0 ≤ s.gauges.inflightMax ∧ s.gauges.inflightMax ≤ n) {st : Rpc} (hst : st ∈ s.rpcs)
    (hk : st.Allows n s.gauges k) :
    (interceptor s.gauges st).2.Allows n (interceptor s.gauges st).1 (k + st.atLoop.toNat) := by
  cases st with
  | arriving => exact hk
  | counted cur =>
    have hzero : k = 0 := hk
    show ((k + 0 : ℕ) : ℤ) ≤ s.gauges.inflightMax
    omega
  | loading cur =>
    have hk : (k : ℤ) ≤ s.gauges.inflightMax := hk
    rw [interceptor]
    split_ifs
    · show k + 1 ≤ n + 1
      omega
    · show ((k + 1 : ℕ) : ℤ) ≤ s.gauges.inflightMax + 1
      omega
  | swapping cur m =>
    have hk : (k : ℤ) ≤ m + 1 := hk
    obtain ⟨hm, hlt⟩ := h.behind cur m hst
    rw [interceptor]
    split_ifs with hsame
    · show k + 0 ≤ n + 1
      omega
    · -- the mark has risen since it was loaded
      show ((k + 0 : ℕ) : ℤ) ≤ s.gauges.inflightMax
      omega
  | _ => exact hk

theorem Rpc.Allows.mono {n k : ℕ} {g g' : Gauges} (hle : g.inflightMax ≤ g'.inflightMax)
    {st : Rpc} (hk : st.Allows n g k) : st.Allows n g' k := by
  cases st with
  | loading cur =>
    have hk : (k : ℤ) ≤ g.inflightMax := hk
    exact hk.trans hle
  | _ => exact hk

theorem allows_run (n i : ℕ) (ms : List ℕ) {st : Rpc}
    (hst : ((Inflight.start n).run ms).rpcs[i]? = some st) :
    st.Allows n ((Inflight.start n).run ms).gauges ((Inflight.start n).loads i ms) := by
  induction ms using List.reverseRecOn generalizing st with
  | nil =>
    have : st = .arriving := List.eq_of_mem_replicate (List.mem_of_getElem? hst)
    rw [this]
    rfl
  | append_singleton ms j ih =>
    have hmarked := marked_run n ms
    have hmax := Inflight.max_bounds n ms
    rw [Inflight.run_concat] at hst ⊢
    rw [Inflight.loads_concat]
    rcases ((Inflight.start n).run ms).step_cases j with ⟨hs, hnone⟩ | ⟨st₀, hst₀, hs⟩
    · rw [hs] at hst ⊢
      have hne : j ≠ i := by
        rintro rfl
        rw [hnone] at hst
        cases hst
      rw [decide_eq_false hne, Bool.false_and]
      exact ih hst
    · rw [hs] at hst ⊢
      by_cases hij : j = i
      · subst hij
        rw [List.getElem?_set_self (List.getElem?_eq_some_iff.mp hst₀).1, Option.some.injEq] at hst
        subst hst
        rw [decide_eq_true rfl, Bool.true_and, hst₀, Option.any_some]
        exact (ih hst₀).step hmarked hmax (List.mem_of_getElem? hst₀)
      · rw [List.getElem?_set_ne hij] at hst
        rw [decide_eq_false hij, Bool.false_and]
        exact (ih hst).mono (interceptor_max_le hmarked (List.mem_of_getElem? hst₀))

/-- **The loop is wait-free.**  In every run with `n` RPCs, each enters the body of its loop at most
`n + 1` times. -/
theorem interceptor_waitFree (n i : ℕ) (ms : List ℕ) : (Inflight.start n).loads i ms ≤ n + 1 := by
  cases hst : ((Inflight.start n).run ms).rpcs[i]? with
  | none =>
    rw [List.getElem?_eq_none_iff, Inflight.length_run] at hst
    rw [Inflight.loads_eq_zero hst]
    exact Nat.zero_le _
  | some st =>
    have hallows := allows_run n i ms hst
    have hmax := Inflight.max_bounds n ms
    cases st with
    | arriving | counted =>
      have hallows : (Inflight.start n).loads i ms = 0 := hallows
      omega
    | loading cur =>
      have hallows : (((Inflight.start n).loads i ms : ℕ) : ℤ) ≤ _ := hallows
      omega
    | swapping cur m =>
      have hallows : (((Inflight.start n).loads i ms : ℕ) : ℤ) ≤ m + 1 := hallows
      have := ((marked_run n ms).behind cur m (List.mem_of_getElem? hst)).1
      omega
    | _ => exact hallows

end REtcd.Server
