import Mathlib.Data.List.Basic
import Mathlib.Data.List.Pairwise
import Mathlib.Data.List.Sort
import Mathlib.Order.Lattice

/-!
# Finite sets kept as ascending lists

A `SortedSet` is a strictly ascending list, so a set is listed in one order only and no member
twice.  Insertion and deletion keep the list ascending, and `mem_insert` and `mem_erase` say
what they do to the members.
-/

namespace Base

/-- A finite set, as the strictly ascending list of its members. -/
structure SortedSet (α : Type) [LinearOrder α] where
  toList : List α
  sorted : toList.Pairwise (· < ·)

namespace SortedSet

variable {α : Type} [LinearOrder α]

instance : Membership α (SortedSet α) := ⟨fun s a => a ∈ s.toList⟩

instance (a : α) (s : SortedSet α) : Decidable (a ∈ s) := inferInstanceAs (Decidable (a ∈ s.toList))

theorem mem_def {a : α} {s : SortedSet α} : a ∈ s ↔ a ∈ s.toList := Iff.rfl

@[ext] theorem ext {s t : SortedSet α} (h : ∀ a, a ∈ s ↔ a ∈ t) : s = t := by
  obtain ⟨l, hl⟩ := s
  obtain ⟨l', hl'⟩ := t
  obtain rfl : l = l' := hl.eq_of_mem_iff hl' h
  rfl

def empty : SortedSet α := ⟨[], List.Pairwise.nil⟩

@[simp] theorem not_mem_empty (a : α) : a ∉ (empty : SortedSet α) := List.not_mem_nil

def insertList (a : α) : List α → List α
  | [] => [a]
  | b :: l => if a < b then a :: b :: l else if a = b then b :: l else b :: insertList a l

theorem mem_insertList {a x : α} {l : List α} : x ∈ insertList a l ↔ x = a ∨ x ∈ l := by
  induction l with
  | nil => simp [insertList]
  | cons b l ih =>
    rw [insertList]
    split_ifs with hlt he
    · simp
    · subst he
      simp
    · rw [List.mem_cons, ih, List.mem_cons]
      tauto

theorem sorted_insertList {a : α} {l : List α} (h : l.Pairwise (· < ·)) :
    (insertList a l).Pairwise (· < ·) := by
  induction l with
  | nil => simp [insertList]
  | cons b l ih =>
    obtain ⟨hb, hl⟩ := List.pairwise_cons.mp h
    rw [insertList]
    split_ifs with hlt he
    · refine List.pairwise_cons.mpr ⟨fun x hx => ?_, h⟩
      rcases List.mem_cons.mp hx with rfl | hx
      · exact hlt
      · exact lt_trans hlt (hb x hx)
    · exact h
    · refine List.pairwise_cons.mpr ⟨fun x hx => ?_, ih hl⟩
      rcases mem_insertList.mp hx with rfl | hx
      · exact lt_of_le_of_ne (not_lt.mp hlt) (Ne.symm he)
      · exact hb x hx

def insert (a : α) (s : SortedSet α) : SortedSet α :=
  ⟨insertList a s.toList, sorted_insertList s.sorted⟩

def erase (a : α) (s : SortedSet α) : SortedSet α :=
  ⟨s.toList.filter (· ≠ a), s.sorted.filter _⟩

@[simp] theorem mem_insert {a x : α} {s : SortedSet α} : x ∈ s.insert a ↔ x = a ∨ x ∈ s :=
  mem_insertList

@[simp] theorem mem_erase {a x : α} {s : SortedSet α} : x ∈ s.erase a ↔ x ≠ a ∧ x ∈ s := by
  rw [mem_def, erase, List.mem_filter, decide_eq_true_eq, and_comm]
  rfl

end SortedSet

end Base
