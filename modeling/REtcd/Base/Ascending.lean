import Mathlib.Data.List.Nodup
import Mathlib.Data.List.Pairwise
import Mathlib.Order.Lattice

/-!
# Lists in strictly ascending order

A log lists its records in strictly ascending order of a number that each carries: the list is
`Ascending f`, where `f` reads off the number.  A reader that has come to the number `c` has seen
the records with `f ≤ c`, and the lemmas below say how this part of the log grows and how the rest,
`c < f`, shrinks when it takes the next record.  `p` picks the records that the reader is after.

A sparse index of such a log has an entry for every `m`-th record (`Sparse`), so a search that
starts two entries back passes fewer than `2 * m` records (`Sparse.narrow`).
-/

namespace Base

variable {α β : Type} [LinearOrder β] {f : α → β} {l : List α}

def Ascending (f : α → β) (l : List α) : Prop := l.Pairwise fun a b => f a < f b

theorem le_getLast (h : Ascending f l) {x : α} (hx : x ∈ l) :
    ∃ e, l.getLast? = some e ∧ f x ≤ f e := by
  obtain ⟨t, e, rfl⟩ : ∃ t e, l = t ++ [e] := by
    rcases List.eq_nil_or_concat l with rfl | ⟨t, e, rfl⟩
    · cases hx
    · exact ⟨t, e, List.concat_eq_append⟩
  refine ⟨e, List.getLast?_concat, ?_⟩
  rcases List.mem_append.mp hx with hx | hx
  · exact le_of_lt ((List.pairwise_append.mp h).2.2 x hx e (List.mem_singleton_self e))
  · rw [List.mem_singleton.mp hx]

theorem pairwise_or {R : α → α → Prop} (h : l.Pairwise R) {x y : α} (hx : x ∈ l) (hy : y ∈ l)
    (hne : x ≠ y) : R x y ∨ R y x := by
  have : Std.Symm (fun a b => R a b ∨ R b a) := ⟨fun _ _ => Or.symm⟩
  have hor : l.Pairwise (fun a b => R a b ∨ R b a) := h.imp Or.inl
  exact hor.forall hx hy hne

theorem Ascending.filter (h : Ascending f l) (p : α → Bool) : Ascending f (l.filter p) :=
  List.Pairwise.filter p h

theorem ascending_concat {x : α} :
    Ascending f (l ++ [x]) ↔ Ascending f l ∧ ∀ y ∈ l, f y < f x := by
  rw [Ascending, List.pairwise_append]
  simp [Ascending]

theorem Ascending.eq_of_eq (h : Ascending f l) {x y : α} (hx : x ∈ l) (hy : y ∈ l)
    (he : f x = f y) : x = y := by
  by_contra hne
  rcases pairwise_or h hx hy hne with hlt | hlt
  · exact absurd he hlt.ne
  · exact absurd he hlt.ne'

theorem Ascending.lt_of_lt (h : Ascending f l) {i j : ℕ} {x y : α} (hx : l[i]? = some x)
    (hy : l[j]? = some y) (hij : i < j) : f x < f y := by
  obtain ⟨hi, rfl⟩ := List.getElem?_eq_some_iff.mp hx
  obtain ⟨hj, rfl⟩ := List.getElem?_eq_some_iff.mp hy
  exact List.pairwise_iff_getElem.mp h i j hi hj hij

theorem Ascending.le_of_le (h : Ascending f l) {i j : ℕ} {x y : α} (hx : l[i]? = some x)
    (hy : l[j]? = some y) (hij : i ≤ j) : f x ≤ f y := by
  rcases hij.lt_or_eq with hlt | rfl
  · exact (h.lt_of_lt hx hy hlt).le
  · rw [hx, Option.some.injEq] at hy
    rw [hy]

theorem Ascending.eq_singleton (h : Ascending f l) {x : α} (hx : x ∈ l) (hall : ∀ y ∈ l, y = x) :
    l = [x] := by
  cases l with
  | nil => cases hx
  | cons a t =>
    obtain ⟨hlt, _⟩ := List.pairwise_cons.mp h
    obtain rfl := hall a List.mem_cons_self
    cases t with
    | nil => rfl
    | cons b t =>
      obtain rfl := hall b (by simp)
      exact absurd (hlt b (by simp)) (lt_irrefl _)

/-- **The records up to `c` and the ones after it.** -/
theorem Ascending.filter_append (h : Ascending f l) (p : α → Bool) (c : β) :
    l.filter (fun x => p x && decide (f x ≤ c)) ++ l.filter (fun x => p x && decide (c < f x)) =
      l.filter p := by
  induction l with
  | nil => rfl
  | cons a t ih =>
    obtain ⟨hlt, ht⟩ := List.pairwise_cons.mp h
    rw [List.filter_cons, List.filter_cons, List.filter_cons, ← ih ht]
    by_cases hp : p a = true
    · by_cases hc : f a ≤ c
      · simp [hp, hc]
      · have hnone : t.filter (fun x => p x && decide (f x ≤ c)) = [] := by
          rw [List.filter_eq_nil_iff]
          intro x hx
          have := lt_trans (not_le.mp hc) (hlt x hx)
          simp [this]
        simp [hp, hc, hnone, not_le.mp hc]
    · simp [hp]

/-- **The next record**: if nothing picked lies between `c` and `x`, the picked records up to `x`
are those up to `c` and `x`. -/
theorem Ascending.filter_le_concat (h : Ascending f l) {p : α → Bool} {c : β} {x : α} (hx : x ∈ l)
    (hp : p x = true) (hc : c < f x) (hgap : ∀ y ∈ l, p y = true → c < f y → f x ≤ f y) :
    l.filter (fun y => p y && decide (f y ≤ f x)) =
      l.filter (fun y => p y && decide (f y ≤ c)) ++ [x] := by
  rw [← h.filter_append (fun y => p y && decide (f y ≤ f x)) c]
  congr 1
  · refine List.filter_congr fun y _ => ?_
    by_cases hy : f y ≤ c
    · simp [hy, hy.trans hc.le]
    · simp [hy]
  · refine (h.filter _).eq_singleton (by simp [hx, hp, hc]) fun y hy => ?_
    simp only [List.mem_filter, Bool.and_eq_true, decide_eq_true_eq] at hy
    obtain ⟨hyl, ⟨hpy, hle⟩, hcy⟩ := hy
    exact h.eq_of_eq hyl hx (le_antisymm hle (hgap y hyl hpy hcy))

/-- **Taking the next record**: the first of the picked records after `c` is the next one, and the
ones after it are left. -/
theorem Ascending.filter_lt_cons (h : Ascending f l) {p : α → Bool} {c : β} {x : α} {t : List α}
    (he : l.filter (fun y => p y && decide (c < f y)) = x :: t) :
    x ∈ l ∧ p x = true ∧ c < f x ∧ (∀ y ∈ l, p y = true → c < f y → f x ≤ f y) ∧
      t = l.filter (fun y => p y && decide (f x < f y)) := by
  have hmem : ∀ y, y ∈ x :: t ↔ y ∈ l ∧ p y = true ∧ c < f y := by
    intro y
    rw [← he]
    simp
  obtain ⟨hxl, hp, hc⟩ := (hmem x).mp List.mem_cons_self
  have hasc : Ascending f (x :: t) := he ▸ h.filter _
  obtain ⟨hlt, _⟩ := List.pairwise_cons.mp hasc
  refine ⟨hxl, hp, hc, ?_, ?_⟩
  · intro y hy hpy hcy
    rcases List.mem_cons.mp ((hmem y).mpr ⟨hy, hpy, hcy⟩) with rfl | hyt
    · exact le_rfl
    · exact (hlt y hyt).le
  · have ht : t = (x :: t).filter (fun y => decide (f x < f y)) := by
      rw [List.filter_cons, if_neg (by simp), List.filter_eq_self.mpr]
      intro y hy
      simpa using hlt y hy
    rw [ht, ← he, List.filter_filter]
    refine List.filter_congr fun y _ => ?_
    by_cases hy : f x < f y
    · simp [hy, hc.trans hy]
    · simp [hy]

/-- **Taking a batch**: the first records after `c` are the ones up to the last of them. -/
theorem Ascending.take_filter (h : Ascending f l) (c : β) (n : ℕ) {t : List α}
    (ht : t = (l.filter fun x => decide (c < f x)).take n) :
    t = l.filter (fun x => decide (c < f x) && decide (f x ≤ (t.getLast?.map f).getD c)) := by
  have hasc : Ascending f (l.filter fun x => decide (c < f x)) := h.filter _
  have hsplit := List.take_append_drop n (l.filter fun x => decide (c < f x))
  rw [← ht] at hsplit
  rw [← hsplit, Ascending, List.pairwise_append] at hasc
  obtain ⟨hasct, _, hcross⟩ := hasc
  have hfilter : t = (l.filter fun x => decide (c < f x)).filter
      (fun x => decide (f x ≤ (t.getLast?.map f).getD c)) := by
    rw [← hsplit, List.filter_append, List.filter_eq_self.mpr, List.filter_eq_nil_iff.mpr,
      List.append_nil]
    · intro y hy
      rw [decide_eq_true_eq, not_le]
      rcases List.eq_nil_or_concat t with hnil | ⟨u, e, hcon⟩
      · have hyl : y ∈ l.filter fun x => decide (c < f x) := by
          rw [← hsplit]
          exact List.mem_append_right _ hy
        rw [hnil]
        simpa using (List.mem_filter.mp hyl).2
      · have hlast : t.getLast? = some e := by simp [hcon]
        rw [hlast]
        exact hcross e (List.mem_of_getLast? hlast) y hy
    · intro x hx
      obtain ⟨e, hlast, hle⟩ := le_getLast hasct hx
      rw [hlast]
      simpa using hle
  rw [List.filter_filter] at hfilter
  refine hfilter.trans (List.filter_congr fun x _ => ?_)
  exact Bool.and_comm _ _

theorem Ascending.length_filter_between (h : Ascending f l) {i j : ℕ} {a b : β}
    (ha : (l[i]?).map f = some a) (hb : ∀ x, l[j]? = some x → b ≤ f x) :
    (l.filter fun x => decide (a < f x) && decide (f x < b)).length ≤ j - (i + 1) := by
  obtain ⟨x, hx, rfl⟩ := Option.map_eq_some_iff.mp ha
  generalize hp : (fun y => decide (f x < f y) && decide (f y < b)) = p
  -- nothing up to position `i` is above `a`, and nothing from position `j` on is below `b`
  have hlow : ((l.take j).take (i + 1)).filter p = [] := by
    rw [List.filter_eq_nil_iff, List.take_take]
    intro y hy
    obtain ⟨k, hk, hky⟩ := List.mem_take_iff_getElem.mp hy
    have hle := h.le_of_le (List.getElem?_eq_some_iff.mpr ⟨by omega, hky⟩) hx (by omega)
    simp [← hp, not_lt.mpr hle]
  have hhigh : (l.drop j).filter p = [] := by
    rw [List.filter_eq_nil_iff]
    intro y hy
    obtain ⟨k, hk, hky⟩ := List.mem_drop_iff_getElem.mp hy
    have hj : l[j]? = some l[j] := List.getElem?_eq_getElem (by omega)
    have hle := h.le_of_le hj (List.getElem?_eq_some_iff.mpr ⟨by omega, hky⟩) (by omega)
    simp [← hp, not_lt.mpr ((hb _ hj).trans hle)]
  have hmid : l.filter p = ((l.take j).drop (i + 1)).filter p := by
    conv_lhs => rw [← List.take_append_drop j l, List.filter_append, hhigh, List.append_nil,
      ← List.take_append_drop (i + 1) (l.take j), List.filter_append, hlow, List.nil_append]
  rw [hmid]
  refine (List.length_filter_le _ _).trans ?_
  rw [List.length_drop, List.length_take]
  omega

/-! ### Sparse indices -/

/-- `idx` has an entry for every `m`-th record of `l`, beginning with the first; `g` reads off the
number of the record that an entry stands for. -/
def Sparse {γ : Type} (m : ℕ) (f : α → β) (g : γ → β) (l : List α) (idx : List γ) : Prop :=
  ∀ k, (idx[k]?).map g = (l[k * m]?).map f

section Sparse

variable {γ : Type} {m : ℕ} {g : γ → β} {idx : List γ}

omit [LinearOrder β] in
theorem sparse_nil : Sparse m f g [] [] := fun k => by simp

omit [LinearOrder β] in
/-- The next record is due for an entry. -/
theorem Sparse.concat_due (h : Sparse m f g l idx) (hm : 0 < m) (hlen : l.length = idx.length * m)
    {x : α} {y : γ} (he : g y = f x) : Sparse m f g (l ++ [x]) (idx ++ [y]) := by
  intro k
  rcases lt_trichotomy k idx.length with hk | rfl | hk
  · have hlt : k * m < l.length := by
      rw [hlen]
      exact Nat.mul_lt_mul_of_pos_right hk hm
    rw [List.getElem?_append_left hk, List.getElem?_append_left hlt, h k]
  · rw [← hlen, List.getElem?_concat_length, List.getElem?_concat_length, Option.map_some,
      Option.map_some, he]
  · have hle : (l ++ [x]).length ≤ k * m := by
      have := Nat.mul_le_mul_right m (Nat.succ_le_of_lt hk)
      rw [List.length_append, List.length_singleton, hlen]
      rw [Nat.succ_mul] at this
      omega
    rw [List.getElem?_eq_none (by simp; omega), List.getElem?_eq_none hle]
    rfl

omit [LinearOrder β] in
/-- The next record is not. -/
theorem Sparse.concat (h : Sparse m f g l idx) (hlen : l.length < idx.length * m) (x : α) :
    Sparse m f g (l ++ [x]) idx := by
  intro k
  by_cases hk : k < idx.length
  · have hsome : (l[k * m]?).isSome := by
      rw [← Option.isSome_map (f := f), ← h k, List.getElem?_eq_getElem hk]
      rfl
    rw [List.getElem?_append_left (by simpa using hsome), h k]
  · have hle : (l ++ [x]).length ≤ k * m := by
      have := Nat.mul_le_mul_right m (not_lt.mp hk)
      rw [List.length_append, List.length_singleton]
      omega
    rw [List.getElem?_eq_none (not_lt.mp hk), List.getElem?_eq_none hle]
    rfl

/-- **An index narrows a search**: from the entry at `j` on, fewer than `2 * m` records are below
what the second entry after it is at or above. -/
theorem Sparse.narrow (h : Sparse m f g l idx) (hl : Ascending f l) (hm : 0 < m) {j : ℕ} {y : γ}
    (hy : idx[j]? = some y) {b : β} (hb : ∀ z, idx[j + 2]? = some z → b ≤ g z) :
    (l.filter fun x => decide (g y < f x) && decide (f x < b)).length < 2 * m := by
  have hstart : (l[j * m]?).map f = some (g y) := by rw [← h j, hy, Option.map_some]
  have hend (x : α) (hx : l[(j + 2) * m]? = some x) : b ≤ f x := by
    have hk := h (j + 2)
    rw [hx, Option.map_some] at hk
    obtain ⟨z, hz, he⟩ := Option.map_eq_some_iff.mp hk
    exact he ▸ hb z hz
  refine (hl.length_filter_between hstart hend).trans_lt ?_
  rw [Nat.add_mul]
  omega

end Sparse

end Base
