import Mathlib.Order.Bounds.Basic
import REtcd.Store.History
import REtcd.Store.RedisStore

/-!
# Prefix scans

`prefixLexRange` turns a prefix into bounds for `ZRANGEBYLEX`.  `mem_prefixLexRange` says that a
key lies within the bounds iff it begins with the prefix, for all byte strings: also when the
prefix ends in `0xff`, where the successor is shorter, or has no other byte, where there is no
successor.  The successor is the least string above everything that begins with the prefix
(`lexSuccessor_isLeast`), and there is one unless all bytes are `0xff` (`lexSuccessor_eq_none`).
-/

namespace REtcd.Store.RedisStore

open Base

/-- The successor byte by byte: increment the tail if that works, else the first byte. -/
theorem lexSuccessor_cons (a : UInt8) (p : Key) :
    lexSuccessor (a :: p) = match lexSuccessor p with
      | some q => some (a :: q)
      | none => if a = 0xff then none else some [a + 1] := by
  unfold lexSuccessor
  rw [List.reverse_cons, List.dropWhile_append]
  cases hd : p.reverse.dropWhile (fun b => decide (b = 0xff)) with
  | nil =>
    by_cases ha : a = 0xff
    · simp [ha]
    · simp [ha]
  | cons b rest => simp

theorem lt_add_one_iff {a b : UInt8} (ha : a ≠ 0xff) : b < a + 1 ↔ b ≤ a := by
  have hne : a.toNat ≠ 255 := fun h => ha (UInt8.toNat_inj.mp h)
  have hlt := a.toNat_lt
  have hsucc : (a + 1).toNat = a.toNat + 1 := by
    rw [UInt8.toNat_add]
    exact Nat.mod_eq_of_lt (by simp; omega)
  rw [UInt8.lt_iff_toNat_lt, UInt8.le_iff_toNat_le, hsucc]
  omega

theorem not_lt_of_eq_max {a b : UInt8} (ha : a = 0xff) : ¬ a < b := by
  rw [ha, UInt8.lt_iff_toNat_lt]
  have := b.toNat_lt
  simp
  omega

/-- **The strings from `p` up to its successor are the ones that begin with `p`.** -/
theorem isPrefix_iff_lexSuccessor (p k : Key) :
    p <+: k ↔ p ≤ k ∧ ∀ q, lexSuccessor p = some q → k < q := by
  induction p generalizing k with
  | nil => simp [lexSuccessor, nil_le]
  | cons a p ih =>
    rw [lexSuccessor_cons]
    cases k with
    | nil => simp
    | cons b k =>
      rw [List.cons_prefix_cons, ih, cons_le_cons]
      cases hs : lexSuccessor p with
      | some q =>
        simp only [Option.some.injEq, forall_eq', cons_lt_cons]
        constructor
        · rintro ⟨rfl, hle, hlt⟩
          exact ⟨Or.inr ⟨rfl, hle⟩, Or.inr ⟨rfl, hlt⟩⟩
        · rintro ⟨h | ⟨rfl, hle⟩, h' | ⟨h', hlt⟩⟩
          · exact absurd h (not_lt.mpr h'.le)
          · exact absurd h (h' ▸ lt_irrefl _)
          · exact absurd h' (lt_irrefl _)
          · exact ⟨rfl, hle, hlt⟩
      | none =>
        by_cases ha : a = 0xff
        · simp only [if_pos ha, reduceCtorEq, false_imp_iff, implies_true, and_true]
          exact ⟨fun h => Or.inr h, fun h => h.resolve_left (not_lt_of_eq_max ha)⟩
        · simp only [if_neg ha, reduceCtorEq, false_imp_iff, implies_true, and_true,
            Option.some.injEq, forall_eq', cons_lt_cons, lt_add_one_iff ha]
          constructor
          · rintro ⟨rfl, hle⟩
            exact ⟨Or.inr ⟨rfl, hle⟩, Or.inl le_rfl⟩
          · rintro ⟨h | ⟨rfl, hle⟩, h' | ⟨_, h'⟩⟩
            · exact absurd h (not_lt.mpr h')
            · exact absurd h' (List.not_lt_nil _)
            · exact ⟨rfl, hle⟩
            · exact ⟨rfl, hle⟩

/-- **A key lies within the bounds of a prefix iff it begins with the prefix.** -/
theorem mem_prefixLexRange (p k : Key) :
    ((prefixLexRange p).1.below k && (prefixLexRange p).2.above k) = true ↔ p <+: k := by
  rw [isPrefix_iff_lexSuccessor, prefixLexRange]
  by_cases hp : p = []
  · subst hp
    simp [LexBound.below, LexBound.above, nil_le, lexSuccessor]
  · rw [if_neg hp]
    cases hs : lexSuccessor p with
    | none => simp [LexBound.below, LexBound.above]
    | some q => simp [LexBound.below, LexBound.above]

/-! ### The successor -/

/-- The strings above everything that begins with `p`. -/
def beyond (p : Key) : Set Key := {x | ∀ k, p <+: k → k < x}

theorem lt_of_mem_beyond {p x : Key} (hx : x ∈ beyond p) : p < x := hx p List.prefix_rfl

/-- A string above everything that begins with `p` does not begin with `p` itself. -/
theorem exists_le_of_mem_beyond {p x : Key} (hx : x ∈ beyond p) :
    ∃ q, lexSuccessor p = some q ∧ q ≤ x := by
  by_contra hno
  push Not at hno
  exact lt_irrefl x (hx x ((isPrefix_iff_lexSuccessor p x).mpr ⟨(lt_of_mem_beyond hx).le, hno⟩))

/-- **The successor is the least string above everything that begins with the prefix.** -/
theorem lexSuccessor_isLeast {p q : Key} (h : lexSuccessor p = some q) : IsLeast (beyond p) q := by
  constructor
  · intro k hk
    exact ((isPrefix_iff_lexSuccessor p k).mp hk).2 q h
  · intro x hx
    obtain ⟨q', hq', hle⟩ := exists_le_of_mem_beyond hx
    rw [h, Option.some.injEq] at hq'
    exact hq' ▸ hle

theorem lexSuccessor_eq_none {p : Key} : lexSuccessor p = none ↔ ∀ b ∈ p, b = 0xff := by
  induction p with
  | nil => simp [lexSuccessor]
  | cons a p ih =>
    rw [lexSuccessor_cons, List.forall_mem_cons, ← ih]
    cases lexSuccessor p with
    | some q => simp
    | none => simp

/-- **The bounds of a prefix are exact**: a key lies within them iff it begins with the prefix.
`lexSuccessor` returns the least string above everything that begins with its argument whenever
there is such a string, and it fails exactly when all bytes are `0xff`. -/
theorem prefixLexRange_exact :
    (∀ p k : Key,
      ((prefixLexRange p).1.below k && (prefixLexRange p).2.above k) = true ↔ p <+: k) ∧
    (∀ p q : Key, lexSuccessor p = some q ↔ IsLeast (beyond p) q) ∧
    (∀ p : Key, (beyond p).Nonempty → ∃ q, lexSuccessor p = some q) ∧
    ∀ p : Key, lexSuccessor p = none ↔ ∀ b ∈ p, b = 0xff := by
  refine ⟨mem_prefixLexRange, fun p q => ⟨lexSuccessor_isLeast, fun hq => ?_⟩, ?_,
    fun p => lexSuccessor_eq_none⟩
  · obtain ⟨q', hq', _⟩ := exists_le_of_mem_beyond hq.1
    rw [hq', (lexSuccessor_isLeast hq').unique hq]
  · rintro p ⟨x, hx⟩
    obtain ⟨q, hq, _⟩ := exists_le_of_mem_beyond hx
    exact ⟨q, hq⟩

/-! ### The scan -/

def scan (pre : Key) (s : Redis) : List Key :=
  s.keyindex.toList.filter
    (fun k => (prefixLexRange pre).1.below k && (prefixLexRange pre).2.above k)

/-- **The scan finds the stored keys that begin with the prefix.** -/
theorem mem_scan {s : Redis} (h : Consistent s) {pre k : Key} :
    k ∈ scan pre s ↔ (s.kv k).isSome ∧ pre <+: k := by
  rw [scan, List.mem_filter, mem_prefixLexRange, ← SortedSet.mem_def, h.index]

theorem range_exec {pre : Key} {w w' : World} {x : Result (ℤ × List KeyValue)}
    (h : Prog.Exec step (range pre) w x w') :
    w' = w ∧ x = .ok (rangeRev (.ok w.redis.revision),
      decodeAll (scan pre w.redis) ((scan pre w.redis).map w.redis.kv)) := by
  obtain ⟨r, w₁, hs, h⟩ := Prog.exec_cmd.mp h
  obtain ⟨env, _, he⟩ := step_iff.mp hs
  rw [Cmd.run, Prod.mk.injEq] at he
  obtain ⟨rfl, rfl⟩ := he
  obtain ⟨r, w₁, hs, h⟩ := Prog.exec_cmd.mp h
  obtain ⟨env, _, he⟩ := step_iff.mp hs
  rw [Cmd.run, Prod.mk.injEq] at he
  obtain ⟨rfl, rfl⟩ := he
  dsimp only at h
  change Prog.Exec step (if scan pre w.redis = [] then _ else _) w x w' at h
  split_ifs at h with hm
  · obtain ⟨rfl, rfl⟩ := Prog.exec_ret.mp h
    rw [hm]
    exact ⟨rfl, rfl⟩
  · obtain ⟨r, w₁, hs, h⟩ := Prog.exec_cmd.mp h
    obtain ⟨env, _, he⟩ := step_iff.mp hs
    rw [Cmd.run, Prod.mk.injEq] at he
    obtain ⟨rfl, rfl⟩ := he
    obtain ⟨rfl, rfl⟩ := Prog.exec_ret.mp h
    exact ⟨rfl, rfl⟩

end REtcd.Store.RedisStore
