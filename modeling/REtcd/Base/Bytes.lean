import Mathlib.Data.List.Lex
import Mathlib.Tactic.Positivity
import Mathlib.Tactic.Ring

/-!
# Byte strings

A key is a list of bytes, compared byte by byte; a proper beginning of a string comes before it.
What carries every range scan is that everything between two strings shares whatever beginning the
two share (`isPrefix_of_between`).

`bigEndian n v` are the last `n` base-256 digits of an integer, highest first, and `ofBigEndian`
reads digits back.  Each undoes the other: `ofBigEndian_bigEndian` modulo `256 ^ n`, and
`bigEndian_ofBigEndian` byte for byte.
-/

namespace Base

instance byteOrder : LinearOrder UInt8 where
  le_refl a := Nat.le_refl a.toNat
  le_trans a b c h h' := Nat.le_trans h h'
  le_antisymm a b h h' := UInt8.toNat_inj.mp (Nat.le_antisymm h h')
  le_total a b := Nat.le_total a.toNat b.toNat
  lt_iff_le_not_ge a b := Nat.lt_iff_le_and_not_ge
  toDecidableLE := inferInstance

abbrev Bytes := List UInt8

section Order

variable {α : Type} [LinearOrder α]

theorem cons_lt_cons {a b : α} {l l' : List α} :
    a :: l < b :: l' ↔ a < b ∨ a = b ∧ l < l' := List.cons_lt_cons_iff

theorem cons_le_cons {a b : α} {l l' : List α} :
    a :: l ≤ b :: l' ↔ a < b ∨ a = b ∧ l ≤ l' := by
  rw [← not_lt, cons_lt_cons, not_or, not_lt, not_and]
  constructor
  · rintro ⟨h, h'⟩
    rcases lt_or_eq_of_le h with hlt | rfl
    · exact Or.inl hlt
    · exact Or.inr ⟨rfl, not_lt.mp (h' rfl)⟩
  · rintro (h | ⟨rfl, h⟩)
    · exact ⟨h.le, fun he => absurd h (he ▸ lt_irrefl _)⟩
    · exact ⟨le_rfl, fun _ => not_lt.mpr h⟩

theorem nil_le (l : List α) : [] ≤ l := by
  rw [← not_lt]
  exact List.not_lt_nil l

/-- **Between two strings with a common beginning, every string has it.** -/
theorem isPrefix_of_between {p a b k : List α} (ha : p <+: a) (hb : p <+: b)
    (hak : a ≤ k) (hkb : k < b) : p <+: k := by
  induction p generalizing a b k with
  | nil => exact List.nil_prefix
  | cons x p ih =>
    obtain ⟨a', rfl⟩ := ha
    obtain ⟨b', rfl⟩ := hb
    cases k with
    | nil => exact absurd hak (not_le.mpr (List.nil_lt_cons x (p ++ a')))
    | cons y k =>
      rw [List.cons_append] at hak hkb
      rw [cons_le_cons] at hak
      rw [cons_lt_cons] at hkb
      have hxy : x = y := by
        rcases hak with h | ⟨h, _⟩
        · rcases hkb with h' | ⟨h', _⟩
          · exact absurd h (not_lt.mpr h'.le)
          · exact h'.symm
        · exact h
      subst hxy
      have hak' : p ++ a' ≤ k := by
        rcases hak with h | ⟨_, h⟩
        · exact absurd h (lt_irrefl x)
        · exact h
      have hkb' : k < p ++ b' := by
        rcases hkb with h | ⟨_, h⟩
        · exact absurd h (lt_irrefl x)
        · exact h
      exact List.prefix_cons_inj x |>.mpr (ih ⟨a', rfl⟩ ⟨b', rfl⟩ hak' hkb')

end Order

/-! ### Big-endian digits -/

/-- The last `n` base-256 digits of `v`, pushed onto `acc` from the lowest one on. -/
def bigEndianOnto : ℕ → ℤ → Bytes → Bytes
  | 0, _, acc => acc
  | n + 1, v, acc => bigEndianOnto n (v / 256) (UInt8.ofNat (v % 256).toNat :: acc)

def bigEndian (n : ℕ) (v : ℤ) : Bytes := bigEndianOnto n v []

/-- The number with these base-256 digits. -/
def ofBigEndian (l : Bytes) : ℤ := l.foldl (fun v b => v * 256 + b.toNat) 0

theorem bigEndianOnto_eq (n : ℕ) (v : ℤ) (acc : Bytes) :
    bigEndianOnto n v acc = bigEndian n v ++ acc := by
  induction n generalizing v acc with
  | zero => rfl
  | succ n ih =>
    rw [bigEndian, bigEndianOnto, bigEndianOnto, ih, ih (v / 256) [_], List.append_assoc]
    rfl

theorem bigEndian_succ (n : ℕ) (v : ℤ) :
    bigEndian (n + 1) v = bigEndian n (v / 256) ++ [UInt8.ofNat (v % 256).toNat] := by
  rw [bigEndian, bigEndianOnto, bigEndianOnto_eq]

@[simp] theorem bigEndian_length (n : ℕ) (v : ℤ) : (bigEndian n v).length = n := by
  induction n generalizing v with
  | zero => rfl
  | succ n ih => rw [bigEndian_succ, List.length_append, ih, List.length_singleton]

theorem ofBigEndian_concat (l : Bytes) (b : UInt8) :
    ofBigEndian (l ++ [b]) = ofBigEndian l * 256 + b.toNat := by
  rw [ofBigEndian, List.foldl_append]
  rfl

theorem emod_mul_add (v : ℤ) {m : ℤ} (hm : 0 < m) : v / 256 % m * 256 + v % 256 = v % (m * 256) := by
  have h0 := Int.emod_nonneg (v / 256) hm.ne'
  have h1 := Int.emod_lt_of_pos (v / 256) hm
  have hq : v / 256 = m * (v / 256 / m) + v / 256 % m := (Int.mul_ediv_add_emod _ _).symm
  have hv : v = (v / 256 % m * 256 + v % 256) + m * 256 * (v / 256 / m) := by
    have hr : m * 256 * (v / 256 / m) = 256 * (m * (v / 256 / m)) := by ring
    rw [hr]
    omega
  conv_rhs => rw [hv, Int.add_mul_emod_self_left]
  exact (Int.emod_eq_of_lt (by omega) (by omega)).symm

/-- **Reading the last `n` digits back gives the number modulo `256 ^ n`.** -/
theorem ofBigEndian_bigEndian (n : ℕ) (v : ℤ) : ofBigEndian (bigEndian n v) = v % 256 ^ n := by
  induction n generalizing v with
  | zero => simp [bigEndian, bigEndianOnto, ofBigEndian]
  | succ n ih =>
    have hb : ((UInt8.ofNat (v % 256).toNat).toNat : ℤ) = v % 256 := by
      have h0 := Int.emod_nonneg v (by decide : (256 : ℤ) ≠ 0)
      have h1 := Int.emod_lt_of_pos v (by decide : (0 : ℤ) < 256)
      rw [UInt8.toNat_ofNat']
      omega
    rw [bigEndian_succ, ofBigEndian_concat, ih, hb, pow_succ, emod_mul_add v (by positivity)]

/-- **Writing a number's digits again gives the bytes it was read from.** -/
theorem bigEndian_ofBigEndian (l : Bytes) : bigEndian l.length (ofBigEndian l) = l := by
  induction l using List.reverseRecOn with
  | nil => rfl
  | append_singleton l b ih =>
    have hb := b.toNat_lt
    have hdiv : (ofBigEndian l * 256 + b.toNat) / 256 = ofBigEndian l := by omega
    have hmod : ((ofBigEndian l * 256 + b.toNat) % 256).toNat = b.toNat := by omega
    rw [List.length_append, List.length_singleton, bigEndian_succ, ofBigEndian_concat, hdiv, hmod,
      ih, UInt8.ofNat_toNat]

end Base
