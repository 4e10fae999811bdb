import REtcd.Store.Event

/-!
# The blob format across Lua and Go

The scripts write a blob with `enc64` and read its numbers with `dec64`, at 1-based offsets; Go reads
it with `decodeKV`, at 0-based offsets and as signed numbers.  `blob_codec` says that both read back
what was written, and that writing again what Go has read gives the same bytes.

The numbers are below `2 ^ 53`, where a Lua number is exact and Go's sign bit is not set.
-/

namespace REtcd.Store

open Base

/-- The integers that a Lua number holds exactly, without a sign. -/
def LuaExact (n : ℤ) : Prop := 0 ≤ n ∧ n < 2 ^ 53

theorem beInt64_eq_dec64 (data : Bytes) (off : ℕ) :
    beInt64 data off = toInt64 (dec64 data (off + 1)) := rfl

/-! ### From numbers to a blob and back -/

theorem dec64_blob {c m v l : ℤ} (hc : LuaExact c) (hm : LuaExact m) (hv : LuaExact v)
    (hl : LuaExact l) (value : Bytes) :
    dec64 (blob c m v l value) 1 = c ∧ dec64 (blob c m v l value) 9 = m ∧
      dec64 (blob c m v l value) 17 = v ∧ dec64 (blob c m v l value) 25 = l := by
  have hlt : ∀ {n : ℤ}, LuaExact n → n < 2 ^ 64 := fun hn => hn.2.trans (by decide)
  exact ⟨dec64_blob_create hc.1 (hlt hc), dec64_blob_mod hm.1 (hlt hm),
    dec64_blob_version hv.1 (hlt hv), dec64_blob_lease hl.1 (hlt hl)⟩

theorem blob_drop (c m v l : ℤ) (value : Bytes) : (blob c m v l value).drop 32 = value := by
  rw [blob]
  simp [List.drop_append, List.drop_eq_nil_of_le]

/-- **Go reads back what Lua has written.** -/
theorem decodeKV_blob_exact (key : Key) {c m v l : ℤ} (hc : LuaExact c) (hm : LuaExact m)
    (hv : LuaExact v) (hl : LuaExact l) (value : Bytes) :
    decodeKV key (blob c m v l value) = some
      { key := key, value := value, createRevision := c, modRevision := m, version := v,
        lease := l } := by
  have hlen := blob_length c m v l value
  have hlt : ∀ {n : ℤ}, LuaExact n → toInt64 n = n := fun hn =>
    toInt64_of_lt (hn.2.trans (by decide))
  obtain ⟨h1, h9, h17, h25⟩ := dec64_blob hc hm hv hl value
  rw [decodeKV, if_neg (by omega)]
  simp only [beInt64_eq_dec64, h1, h9, h17, h25, hlt hc, hlt hm, hlt hv, hlt hl, blob_drop]

/-! ### From a blob to numbers and back -/

/-- Eight bytes are the encoding of the number that they are read as. -/
theorem enc64_dec64 {data : Bytes} {off : ℕ} (h : off + 7 ≤ data.length) (hoff : 1 ≤ off) :
    enc64 (dec64 data off) = (data.drop (off - 1)).take 8 := by
  have hlen : ((data.drop (off - 1)).take 8).length = 8 := by
    rw [List.length_take, List.length_drop]
    omega
  have := bigEndian_ofBigEndian ((data.drop (off - 1)).take 8)
  rw [hlen] at this
  exact this

theorem blob_dec64 {data : Bytes} (h : 32 ≤ data.length) :
    blob (dec64 data 1) (dec64 data 9) (dec64 data 17) (dec64 data 25) (data.drop 32) = data := by
  have hstep : ∀ n, (data.drop n).take 8 ++ data.drop (n + 8) = data.drop n := by
    intro n
    rw [← List.drop_drop, List.take_append_drop]
  rw [blob, enc64_dec64 (by omega) (by omega), enc64_dec64 (by omega) (by omega),
    enc64_dec64 (by omega) (by omega), enc64_dec64 (by omega) (by omega)]
  simp only [List.append_assoc]
  rw [hstep 24, hstep 16, hstep 8, hstep 0, List.drop_zero]

/-- **The blob format round-trips across Lua and Go.**  What the scripts encode from four numbers
below `2 ^ 53` and any value, `decodeKV` decodes to these numbers and this value, and `dec64` reads
the same numbers at its offsets.  Conversely, every string of at least 32 bytes whose four leading
words are below `2 ^ 53` is the encoding of what `decodeKV` decodes it to. -/
theorem blob_codec :
    (∀ (key : Key) (c m v l : ℤ) (value : Bytes),
      LuaExact c → LuaExact m → LuaExact v → LuaExact l →
      decodeKV key (blob c m v l value) = some
        { key := key, value := value, createRevision := c, modRevision := m, version := v,
          lease := l } ∧
      dec64 (blob c m v l value) 1 = c ∧ dec64 (blob c m v l value) 9 = m ∧
        dec64 (blob c m v l value) 17 = v ∧ dec64 (blob c m v l value) 25 = l) ∧
    ∀ (key : Key) (data : Bytes), 32 ≤ data.length →
      (∀ i < 4, ofBigEndian ((data.drop (8 * i)).take 8) < 2 ^ 53) →
      ∃ kv, decodeKV key data = some kv ∧
        blob kv.createRevision kv.modRevision kv.version kv.lease kv.value = data := by
  constructor
  · intro key c m v l value hc hm hv hl
    exact ⟨decodeKV_blob_exact key hc hm hv hl value, dec64_blob hc hm hv hl value⟩
  · intro key data hlen hword
    have hint : ∀ i < 4, beInt64 data (8 * i) = dec64 data (8 * i + 1) := fun i hi =>
      toInt64_of_lt ((hword i hi).trans (by decide))
    have hdec : decodeKV key data = some
        { key := key, value := data.drop 32, createRevision := dec64 data 1,
          modRevision := dec64 data 9, version := dec64 data 17, lease := dec64 data 25 } := by
      rw [decodeKV, if_neg (by omega), hint 0 (by omega), hint 1 (by omega), hint 2 (by omega),
        hint 3 (by omega)]
    exact ⟨_, hdec, blob_dec64 hlen⟩

end REtcd.Store
