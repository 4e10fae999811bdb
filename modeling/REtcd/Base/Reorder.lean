import REtcd.Base.Ascending
import Std.Data.ExtTreeMap

/-!
# Reorder buffers

A reorder buffer takes values in any order and lets them go in the order of their integer keys: it
holds back a value whose turn has not come (`put`), and then lets go of all those whose turn it is,
one key after the other (`drain`).  If a key never arrives, everything that is held back can be let
go at once (`flush`).

* `Orderly key out b` is the invariant over whole runs: what has left is `out`, strictly ascending
  and below `b.next`, and what is held back is not below it.
* `drain_put` is confluence: a value that arrives late may as well have been there before the
  buffer was drained.  Hence `acceptAll_eq`: after any values, buffer and output are those of
  draining once with all values in place, and `acceptAll_congr`: their order does not matter.
-/

namespace Base

/-! ### Maps with integer keys -/

section Maps

variable {α : Type}

theorem getElem?_insert (m : Std.ExtTreeMap ℤ α) (k a : ℤ) (v : α) :
    (m.insert k v)[a]? = if k = a then some v else m[a]? := by
  rw [Std.ExtTreeMap.getElem?_insert]
  simp only [Std.compare_eq_iff_eq]

theorem getElem?_erase (m : Std.ExtTreeMap ℤ α) (k a : ℤ) :
    (m.erase k)[a]? = if k = a then none else m[a]? := by
  rw [Std.ExtTreeMap.getElem?_erase]
  simp only [Std.compare_eq_iff_eq]

theorem mem_iff_getElem? {m : Std.ExtTreeMap ℤ α} {r : ℤ} : r ∈ m ↔ (m[r]?).isSome := by
  rw [Std.ExtTreeMap.mem_iff_isSome_getElem?]

theorem keys_sorted (m : Std.ExtTreeMap ℤ α) : m.keys.Pairwise (· < ·) :=
  Std.ExtTreeMap.ordered_keys.imp fun hlt => Std.compare_eq_lt.mp hlt

theorem mem_keys_iff_getElem? {m : Std.ExtTreeMap ℤ α} {r : ℤ} : r ∈ m.keys ↔ (m[r]?).isSome := by
  rw [Std.ExtTreeMap.mem_keys, mem_iff_getElem?]

theorem size_erase_lt {m : Std.ExtTreeMap ℤ α} {k : ℤ} (h : (m[k]?).isSome) :
    (m.erase k).size < m.size := by
  have hm : k ∈ m := mem_iff_getElem?.mpr h
  have hpos : m.size ≠ 0 := by
    intro h0
    rw [← Std.ExtTreeMap.eq_empty_iff_size_eq_zero] at h0
    subst h0
    simp at hm
  rw [Std.ExtTreeMap.size_erase, if_pos (Std.ExtTreeMap.contains_iff_mem.mpr hm)]
  omega

end Maps

/-- Values that wait for their turn; `next` is the key whose turn it is. -/
structure Reorder (α : Type) where
  next : ℤ
  held : Std.ExtTreeMap ℤ α

namespace Reorder

variable {α : Type}

def put (r : ℤ) (a : α) (b : Reorder α) : Reorder α := { b with held := b.held.insert r a }

def pop (b : Reorder α) : Reorder α := ⟨b.next + 1, b.held.erase b.next⟩

/-- Values leave until the one whose turn it is has not arrived. -/
def drain (b : Reorder α) : Reorder α × List α :=
  match _h : b.held[b.next]? with
  | none => (b, [])
  | some a => ((drain b.pop).1, a :: (drain b.pop).2)
termination_by b.held.size
decreasing_by all_goals exact size_erase_lt (Option.isSome_iff_exists.mpr ⟨a, _h⟩)

/-- All values leave in the order of their keys, and the missing ones are given up. -/
def flush (b : Reorder α) : Reorder α × List α :=
  (⟨b.held.keys.getLast?.getD (b.next - 1) + 1, ∅⟩, b.held.keys.filterMap fun r => b.held[r]?)

theorem eq_of_held {b c : Reorder α} (hn : b.next = c.next)
    (hh : ∀ r : ℤ, b.held[r]? = c.held[r]?) : b = c := by
  obtain ⟨n, m⟩ := b
  obtain ⟨n', m'⟩ := c
  rw [Reorder.mk.injEq]
  exact ⟨hn, Std.ExtTreeMap.ext_getElem? hh⟩

section Drain

variable {b : Reorder α} {r : ℤ} {a : α}

@[simp] theorem put_next : (b.put r a).next = b.next := rfl

theorem put_held (k : ℤ) : (b.put r a).held[k]? = if r = k then some a else b.held[k]? :=
  getElem?_insert _ _ _ _

theorem pop_held (k : ℤ) : b.pop.held[k]? = if b.next = k then none else b.held[k]? :=
  getElem?_erase _ _ _

theorem drain_none (h : b.held[b.next]? = none) : b.drain = (b, []) := by
  rw [drain]
  split
  · rfl
  · rename_i h'
    rw [h] at h'
    cases h'

theorem drain_some (h : b.held[b.next]? = some a) :
    b.drain = (b.pop.drain.1, a :: b.pop.drain.2) := by
  rw [drain]
  split
  · rename_i h'
    rw [h] at h'
    cases h'
  · rename_i a' h'
    rw [h, Option.some.injEq] at h'
    rw [h']

/-- **Induction along the drain.** -/
theorem drain_induct {P : Reorder α → Prop} (hnone : ∀ b, b.held[b.next]? = none → P b)
    (hsome : ∀ b a, b.held[b.next]? = some a → P b.pop → P b) (b : Reorder α) : P b := by
  induction b using drain.induct with
  | case1 b h => exact hnone b h
  | case2 b a h ih => exact hsome b a h ih

theorem drain_settled (b : Reorder α) : b.drain.1.held[b.drain.1.next]? = none := by
  induction b using drain_induct with
  | hnone b h =>
    rw [drain_none h]
    exact h
  | hsome b a h ih =>
    rw [drain_some h]
    exact ih

theorem le_drain_next (b : Reorder α) : b.next ≤ b.drain.1.next := by
  induction b using drain_induct with
  | hnone b h => rw [drain_none h]
  | hsome b a h ih =>
    rw [drain_some h]
    have : b.next + 1 ≤ b.pop.drain.1.next := ih
    dsimp only
    omega

theorem drain_size_le (b : Reorder α) : b.drain.1.held.size ≤ b.held.size := by
  induction b using drain_induct with
  | hnone b h => rw [drain_none h]
  | hsome b a h ih =>
    rw [drain_some h]
    exact ih.trans (size_erase_lt (Option.isSome_iff_exists.mpr ⟨a, h⟩)).le

theorem drain_passed (b : Reorder α) (h1 : b.next ≤ r) (h2 : r < b.drain.1.next) :
    (b.held[r]?).isSome := by
  induction b using drain_induct with
  | hnone b h =>
    rw [drain_none h] at h2
    dsimp only at h2
    omega
  | hsome b x h ih =>
    rw [drain_some h] at h2
    by_cases hrn : b.next = r
    · rw [← hrn, h]
      rfl
    · have hnext : b.pop.next = b.next + 1 := rfl
      have := ih (by omega) h2
      rwa [pop_held, if_neg hrn] at this

theorem put_pop (h : b.next < r) : (b.put r a).pop = b.pop.put r a := by
  refine eq_of_held rfl fun k => ?_
  rw [pop_held, put_held, put_held, pop_held, put_next]
  by_cases hk : b.next = k
  · rw [if_pos hk, if_neg (by omega), if_pos hk]
  · rw [if_neg hk, if_neg hk]

/-- **Confluence**: a value that arrives after the drain may as well have been there before. -/
theorem drain_put (b : Reorder α) (h : b.drain.1.next ≤ r) :
    (b.put r a).drain =
      ((b.drain.1.put r a).drain.1, b.drain.2 ++ (b.drain.1.put r a).drain.2) := by
  induction b using drain_induct with
  | hnone b hb =>
    rw [drain_none hb]
    rfl
  | hsome b x hb ih =>
    rw [drain_some hb] at h ⊢
    have hle := le_drain_next b.pop
    have hnext : b.pop.next = b.next + 1 := rfl
    dsimp only at h
    have hlt : b.next < r := by omega
    have hx : (b.put r a).held[(b.put r a).next]? = some x := by
      rw [put_held, if_neg (by rw [put_next]; omega)]
      exact hb
    rw [drain_some hx, put_pop hlt, ih h]
    rfl

end Drain

/-! ### The invariant -/

section Orderly

variable {key : α → ℤ} {out : List α} {b : Reorder α} {a : α}

/-- What has left is ascending and below `next`; what is held back stands under its key and is not
below `next`. -/
structure Orderly (key : α → ℤ) (out : List α) (b : Reorder α) : Prop where
  keyed : ∀ r a, b.held[r]? = some a → key a = r ∧ b.next ≤ r
  ascending : Ascending key out
  below : ∀ a ∈ out, key a < b.next

theorem Orderly.put (h : Orderly key out b) (ha : b.next ≤ key a) :
    Orderly key out (b.put (key a) a) := by
  refine ⟨fun r x hx => ?_, h.ascending, h.below⟩
  rw [put_held] at hx
  split_ifs at hx with hr
  · cases hx
    exact ⟨hr, hr ▸ ha⟩
  · exact h.keyed r x hx

theorem Orderly.pop (h : Orderly key out b) (ha : b.held[b.next]? = some a) :
    Orderly key (out ++ [a]) b.pop := by
  obtain ⟨hkey, _⟩ := h.keyed _ _ ha
  refine ⟨fun r x hx => ?_, ascending_concat.mpr ⟨h.ascending, fun y hy => ?_⟩, fun y hy => ?_⟩
  · rw [pop_held] at hx
    split_ifs at hx with hr
    obtain ⟨hxr, hle⟩ := h.keyed r x hx
    refine ⟨hxr, ?_⟩
    show b.next + 1 ≤ r
    omega
  · rw [hkey]
    exact h.below y hy
  · show key y < b.next + 1
    rcases List.mem_append.mp hy with hy | hy
    · have := h.below y hy
      omega
    · rw [List.mem_singleton.mp hy, hkey]
      omega

theorem Orderly.drain (h : Orderly key out b) : Orderly key (out ++ b.drain.2) b.drain.1 := by
  induction b using drain_induct generalizing out with
  | hnone b hb =>
    rw [drain_none hb, List.append_nil]
    exact h
  | hsome b a hb ih =>
    rw [drain_some hb, ← List.singleton_append, ← List.append_assoc]
    exact ih (h.pop hb)

theorem mem_flush {a : α} : a ∈ b.flush.2 ↔ ∃ r : ℤ, b.held[r]? = some a := by
  rw [flush, List.mem_filterMap]
  constructor
  · rintro ⟨r, _, hr⟩
    exact ⟨r, hr⟩
  · rintro ⟨r, hr⟩
    exact ⟨r, mem_keys_iff_getElem?.mpr (Option.isSome_iff_exists.mpr ⟨a, hr⟩), hr⟩

theorem lt_flush_next {r : ℤ} (hr : (b.held[r]?).isSome) : r < b.flush.1.next := by
  obtain ⟨last, hlast, hle⟩ := le_getLast (f := fun r : ℤ => r) (keys_sorted b.held)
    (mem_keys_iff_getElem?.mpr hr)
  show r < b.held.keys.getLast?.getD (b.next - 1) + 1
  rw [hlast, Option.getD_some]
  omega

theorem Orderly.le_flush_next (h : Orderly key out b) : b.next ≤ b.flush.1.next := by
  show b.next ≤ b.held.keys.getLast?.getD (b.next - 1) + 1
  cases hl : b.held.keys.getLast? with
  | none =>
    rw [Option.getD_none]
    omega
  | some last =>
    obtain ⟨a, ha⟩ := Option.isSome_iff_exists.mp
      (mem_keys_iff_getElem?.mp (List.mem_of_getLast? hl))
    have := (h.keyed _ _ ha).2
    rw [Option.getD_some]
    omega

theorem Orderly.flush (h : Orderly key out b) : Orderly key (out ++ b.flush.2) b.flush.1 := by
  have hheld : ∀ a ∈ b.flush.2, ∃ r, b.held[r]? = some a ∧ key a = r ∧ b.next ≤ r := by
    intro a ha
    obtain ⟨r, hr⟩ := mem_flush.mp ha
    exact ⟨r, hr, h.keyed r a hr⟩
  refine ⟨fun r x hx => ?_, ?_, fun x hx => ?_⟩
  · rw [Reorder.flush, Std.ExtTreeMap.getElem?_empty] at hx
    cases hx
  · refine List.pairwise_append.mpr ⟨h.ascending, ?_, fun x hx y hy => ?_⟩
    · refine List.pairwise_filterMap.mpr ((keys_sorted b.held).imp fun hlt x hx y hy => ?_)
      rw [(h.keyed _ _ hx).1, (h.keyed _ _ hy).1]
      exact hlt
    · obtain ⟨r, _, hyr, hle⟩ := hheld y hy
      have := h.below x hx
      omega
  · rcases List.mem_append.mp hx with hx | hx
    · exact (h.below x hx).trans_le h.le_flush_next
    · obtain ⟨r, hr, hxr, _⟩ := hheld x hx
      rw [hxr]
      exact lt_flush_next (Option.isSome_iff_exists.mpr ⟨x, hr⟩)

end Orderly

/-! ### Values in any order -/

section Accept

variable {key : α → ℤ} {b : Reorder α} {a : α} {l l' : List α}

def accept (key : α → ℤ) (a : α) (b : Reorder α) : Reorder α × List α :=
  if key a < b.next then (b, []) else (b.put (key a) a).drain

theorem accept_late (h : key a < b.next) : b.accept key a = (b, []) := if_pos h

theorem accept_due (h : b.next ≤ key a) : b.accept key a = (b.put (key a) a).drain :=
  if_neg (by omega)

theorem le_accept_next (a : α) (b : Reorder α) : b.next ≤ (b.accept key a).1.next := by
  by_cases h : key a < b.next
  · rw [accept_late h]
  · rw [accept_due (by omega)]
    exact le_drain_next (b.put (key a) a)

def acceptAll (key : α → ℤ) : List α → Reorder α → Reorder α × List α
  | [], b => (b, [])
  | a :: l, b =>
    (acceptAll key l (b.accept key a).1 |>.1,
      (b.accept key a).2 ++ (acceptAll key l (b.accept key a).1).2)

def fill (key : α → ℤ) : List α → Reorder α → Reorder α
  | [], b => b
  | a :: l, b => fill key l (if key a < b.next then b else b.put (key a) a)

theorem fill_next (l : List α) (b : Reorder α) : (b.fill key l).next = b.next := by
  induction l generalizing b with
  | nil => rfl
  | cons a l ih =>
    rw [fill, ih]
    split_ifs <;> rfl

theorem fill_held_of_not_mem {r : ℤ} (h : ∀ a ∈ l, key a = r → r < b.next) :
    (b.fill key l).held[r]? = b.held[r]? := by
  induction l generalizing b with
  | nil => rfl
  | cons a l ih =>
    rw [fill]
    split_ifs with ha
    · exact ih fun x hx => h x (List.mem_cons_of_mem _ hx)
    · have hne : key a ≠ r := by
        intro hr
        have := h a List.mem_cons_self hr
        omega
      rw [ih (b := b.put (key a) a) fun x hx => h x (List.mem_cons_of_mem _ hx), put_held,
        if_neg hne]

theorem fill_held_of_mem (ha : a ∈ l) (hle : b.next ≤ key a)
    (hone : ∀ x ∈ l, key x = key a → x = a) : (b.fill key l).held[key a]? = some a := by
  induction l generalizing b with
  | nil => cases ha
  | cons x l ih =>
    rw [fill]
    by_cases hmem : a ∈ l
    · refine ih hmem ?_ fun y hy => hone y (List.mem_cons_of_mem _ hy)
      split_ifs
      · exact hle
      · exact hle
    · -- the value comes first and no other with its key comes later
      have hx : x = a := ((List.mem_cons.mp ha).resolve_right hmem).symm
      subst hx
      rw [if_neg (by omega), fill_held_of_not_mem, put_held, if_pos rfl]
      intro y hy hkey
      exact absurd (hone y (List.mem_cons_of_mem _ hy) hkey ▸ hy) hmem

theorem put_self (h : b.held[key a]? = some a) : b.put (key a) a = b := by
  refine eq_of_held rfl fun r => ?_
  rw [put_held]
  split_ifs with hr
  · rw [← hr, h]
  · rfl

/-- One value for each key, among the given ones and those held back, which stand under theirs. -/
structure Single (key : α → ℤ) (l : List α) (b : Reorder α) : Prop where
  keyed : ∀ r a, b.held[r]? = some a → key a = r
  one : ∀ a ∈ l, ∀ x ∈ l, key a = key x → a = x
  held : ∀ a ∈ l, ∀ x, b.held[key a]? = some x → a = x

theorem Single.tail (h : Single key (a :: l) b) : Single key l b :=
  ⟨h.keyed, fun x hx y hy => h.one x (List.mem_cons_of_mem _ hx) y (List.mem_cons_of_mem _ hy),
    fun x hx => h.held x (List.mem_cons_of_mem _ hx)⟩

theorem Single.put (h : Single key (a :: l) b) : Single key l (b.put (key a) a) := by
  refine ⟨fun r x hx => ?_, h.tail.one, fun x hx y hy => ?_⟩
  · rw [put_held] at hx
    split_ifs at hx with hr
    · cases hx
      exact hr
    · exact h.keyed r x hx
  · rw [put_held] at hy
    split_ifs at hy with hr
    · cases hy
      exact h.one x (List.mem_cons_of_mem _ hx) a List.mem_cons_self hr.symm
    · exact h.held x (List.mem_cons_of_mem _ hx) y hy

/-- **Draining on the way comes to the same as draining once with all values in place.** -/
theorem acceptAll_drain (h : Single key l b) :
    (b.drain.1.acceptAll key l).1 = (b.fill key l).drain.1 ∧
      b.drain.2 ++ (b.drain.1.acceptAll key l).2 = (b.fill key l).drain.2 := by
  induction l generalizing b with
  | nil => exact ⟨rfl, List.append_nil _⟩
  | cons a l ih =>
    rw [acceptAll, fill, accept]
    by_cases hover : key a < b.drain.1.next
    · -- the value's turn is over: it was there before, or has never counted
      have hfill : (if key a < b.next then b else b.put (key a) a) = b := by
        split_ifs with ha
        · rfl
        · obtain ⟨x, hx⟩ := Option.isSome_iff_exists.mp (drain_passed b (by omega) hover)
          exact put_self (h.held a List.mem_cons_self x hx ▸ hx)
      rw [if_pos hover, hfill]
      exact ih h.tail
    · have hnot : ¬ key a < b.next := by
        have := le_drain_next b
        omega
      rw [if_neg hover, if_neg hnot]
      have hput := drain_put b (a := a) (r := key a) (by omega)
      have hih := ih h.put
      rw [hput] at hih
      refine ⟨hih.1, ?_⟩
      rw [← hih.2, List.append_assoc]

theorem acceptAll_eq (h : Single key l b) (hb : b.held[b.next]? = none) :
    b.acceptAll key l = (b.fill key l).drain := by
  have hd := acceptAll_drain h
  rw [drain_none hb] at hd
  exact Prod.ext hd.1 hd.2

/-- **The order of arrival does not matter**, nor does it matter how often a value arrives. -/
theorem acceptAll_congr (h : Single key l b) (hb : b.held[b.next]? = none)
    (hmem : ∀ a, a ∈ l ↔ a ∈ l') : b.acceptAll key l = b.acceptAll key l' := by
  have h' : Single key l' b := by
    refine ⟨h.keyed, fun x hx y hy => ?_, fun x hx => h.held x ((hmem x).mpr hx)⟩
    exact h.one x ((hmem x).mpr hx) y ((hmem y).mpr hy)
  rw [acceptAll_eq h hb, acceptAll_eq h' hb]
  congr 1
  refine eq_of_held (by rw [fill_next, fill_next]) fun r => ?_
  by_cases hex : ∃ a ∈ l, key a = r ∧ b.next ≤ key a
  · obtain ⟨a, ha, rfl, hle⟩ := hex
    rw [fill_held_of_mem ha hle fun x hx hk => h.one x hx a ha hk,
      fill_held_of_mem ((hmem a).mp ha) hle fun x hx hk => h'.one x hx a ((hmem a).mp ha) hk]
  · have hlow : ∀ a ∈ l, key a = r → r < b.next := by
      intro a ha hr
      by_contra hle
      exact hex ⟨a, ha, hr, by omega⟩
    rw [fill_held_of_not_mem hlow,
      fill_held_of_not_mem fun a ha => hlow a ((hmem a).mpr ha)]

end Accept

end Reorder

end Base
