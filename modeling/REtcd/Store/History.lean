import Mathlib.Algebra.Order.Group.Nat
import REtcd.Base.Ascending
import REtcd.Base.Replay
import REtcd.Store.Commit

/-!
# The stream is the history of the store

`Consistent s` ties the four representations together: the counter counts the stream's entries,
entry number `i` has revision `i + 1`, replaying the stream gives the blobs, the index lists their
keys, and each entry carries the blob that its key held just before.  An empty database is
consistent, and a commit keeps it so (`Consistent.commit`), hence every command does
(`exec_consistent`).

From it follows what a reader of one key relies on: a key holds what its last entry wrote
(`Consistent.kv_eq_last`), and the mod revision in its blob is that entry's revision
(`Consistent.field_mod`).
-/

namespace REtcd.Store

open Base

def Entry.write (e : Entry) : KeyWrite Key Blob := ⟨e.key, if e.type = .put then e.data else none⟩

def replayed (l : List Entry) : Key → Option Blob := replay (fun _ => none) (l.map Entry.write)

def lastEntry (key : Key) (l : List Entry) : Option Entry :=
  (l.filter (fun e => e.key = key)).getLast?

theorem replayed_concat (l : List Entry) (e : Entry) :
    replayed (l ++ [e]) = Function.update (replayed l) e.key e.write.val := by
  rw [replayed, List.map_append]
  exact replay_concat _ _ _

theorem lastEntry_concat (key : Key) (l : List Entry) (e : Entry) :
    lastEntry key (l ++ [e]) = if e.key = key then some e else lastEntry key l := by
  rw [lastEntry, List.filter_append]
  by_cases h : e.key = key
  · rw [if_pos h, List.filter_cons_of_pos (by simpa using h), List.filter_nil, List.getLast?_concat]
  · rw [if_neg h, List.filter_cons_of_neg (by simpa using h), List.filter_nil, List.append_nil]
    rfl

theorem mem_of_lastEntry {key : Key} {l : List Entry} {e : Entry} (h : lastEntry key l = some e) :
    e ∈ l ∧ e.key = key := by
  have := List.mem_filter.mp (List.mem_of_getLast? h)
  exact ⟨this.1, by simpa using this.2⟩

/-- A key holds what its last entry wrote. -/
theorem replayed_eq_last (l : List Entry) (key : Key) :
    replayed l key = (lastEntry key l).bind (fun e => e.write.val) := by
  induction l using List.reverseRecOn with
  | nil => rfl
  | append_singleton l e ih =>
    rw [replayed_concat, lastEntry_concat]
    by_cases h : e.key = key
    · rw [if_pos h, ← h, Function.update_self]
      rfl
    · rw [if_neg h, Function.update_of_ne (Ne.symm h), ih]

theorem getElem?_concat_cases {α : Type} {l : List α} {a x : α} {i : ℕ}
    (h : (l ++ [a])[i]? = some x) : l[i]? = some x ∨ i = l.length ∧ x = a := by
  rcases lt_trichotomy i l.length with hi | rfl | hi
  · rw [List.getElem?_append_left hi] at h
    exact Or.inl h
  · rw [List.getElem?_concat_length, Option.some.injEq] at h
    exact Or.inr ⟨rfl, h.symm⟩
  · rw [List.getElem?_eq_none (by rw [List.length_append]; exact hi)] at h
    cases h

/-! ### The invariant -/

/-- Counter, stream, blobs and index tell the same history. -/
structure Consistent (s : Redis) : Prop where
  counter : s.counter = s.events.length
  bound : s.counter < 2 ^ 63
  revs : ∀ (i : ℕ) (e : Entry), s.events[i]? = some e → e.rev = i + 1
  ids : s.events.Pairwise (fun a b => a.id < b.id)
  blobs : s.kv = replayed s.events
  index : ∀ k, k ∈ s.keyindex ↔ (s.kv k).isSome
  images : ∀ i e, s.events[i]? = some e → e.prevData = replayed (s.events.take i) e.key
  puts : ∀ e ∈ s.events, e.type = .put → ∃ c v l value, e.data = some (blob c e.rev v l value)
  deletes : ∀ e ∈ s.events, e.type = .delete → e.data = none ∧ e.prevData.isSome

theorem consistent_empty : Consistent Redis.empty where
  counter := rfl
  bound := by decide
  revs i e h := by cases h
  ids := List.Pairwise.nil
  blobs := rfl
  index k := by simp [Redis.empty]
  images i e h := by cases h
  puts e h := by cases h
  deletes e h := by cases h

theorem Consistent.frame {s s' : Redis} (h : Consistent s) (hf : Frame s s') : Consistent s' where
  counter := by rw [hf.counter, hf.events, h.counter]
  bound := by rw [hf.counter]; exact h.bound
  revs := by rw [hf.events]; exact h.revs
  ids := by rw [hf.events]; exact h.ids
  blobs := by rw [hf.kv, hf.events]; exact h.blobs
  index := by rw [hf.keyindex, hf.kv]; exact h.index
  images := by rw [hf.events]; exact h.images
  puts := by rw [hf.events]; exact h.puts
  deletes := by rw [hf.events]; exact h.deletes

theorem Consistent.id_le_lastID {s : Redis} (h : Consistent s) {e : Entry} (he : e ∈ s.events) :
    e.id ≤ s.lastID := by
  obtain ⟨x, hx, hle⟩ := le_getLast h.ids he
  rw [Redis.lastID, hx]
  exact hle

theorem Committed.write_val {s s' : Redis} {e : Entry} (hc : Committed s s' e) :
    e.write.val = e.data := by
  rw [Entry.write]
  cases ht : e.type with
  | put => rfl
  | delete => exact (hc.delete ht).1.symm

/-- **A commit keeps the history.** -/
theorem Consistent.commit {s s' : Redis} {e : Entry} (h : Consistent s) (hc : Committed s s' e) :
    Consistent s' where
  counter := by
    rw [hc.counter, hc.events, h.counter, List.length_append]
    rfl
  bound := by
    rw [hc.counter]
    have := hc.room
    omega
  revs i x hx := by
    rw [hc.events] at hx
    rcases getElem?_concat_cases hx with hx | ⟨rfl, rfl⟩
    · exact h.revs i x hx
    · rw [hc.rev, h.counter]
  ids := by
    rw [hc.events, List.pairwise_append]
    refine ⟨h.ids, List.pairwise_singleton _ _, fun a ha b hb => ?_⟩
    rw [List.mem_singleton.mp hb]
    exact lt_of_le_of_lt (h.id_le_lastID ha) hc.id
  blobs := by rw [hc.kv, hc.events, replayed_concat, hc.write_val, h.blobs]
  index k := by
    rw [hc.index, hc.kv]
    by_cases hk : k = e.key
    · rw [if_pos hk, hk, Function.update_self]
    · rw [if_neg hk, Function.update_of_ne hk]
      exact h.index k
  images i x hx := by
    rw [hc.events] at hx ⊢
    rcases getElem?_concat_cases hx with hx | ⟨rfl, rfl⟩
    · rw [List.take_append_of_le_length (List.getElem?_eq_some_iff.mp hx).1.le]
      exact h.images i x hx
    · rw [List.take_left, hc.prev, h.blobs]
  puts x hx ht := by
    rw [hc.events, List.mem_append, List.mem_singleton] at hx
    rcases hx with hx | rfl
    · exact h.puts x hx ht
    · exact hc.put ht
  deletes x hx ht := by
    rw [hc.events, List.mem_append, List.mem_singleton] at hx
    rcases hx with hx | rfl
    · exact h.deletes x hx ht
    · exact hc.delete ht

theorem Consistent.effect {s s' : Redis} (h : Consistent s) (he : Effect s s') : Consistent s' := by
  rcases he with hf | ⟨e, hc⟩
  · exact h.frame hf
  · exact h.commit hc

/-- **Every command keeps the history**, also one that fails. -/
theorem exec_consistent (env : Env) (c : Cmd) (w : World) (hc : c.Issued)
    (h : Consistent w.redis) : Consistent (exec env c w).2.redis :=
  h.effect (exec_effect env hc w)

/-! ### The stream only grows -/

theorem Effect.isPrefix {s s' : Redis} (h : Effect s s') : s.events <+: s'.events := by
  rcases h with hf | ⟨e, hc⟩
  · rw [hf.events]
  · rw [hc.events]
    exact List.prefix_append _ _

theorem exec_isPrefix (env : Env) (c : Cmd) (w : World) (hc : c.Issued) :
    w.redis.events <+: (exec env c w).2.redis.events := (exec_effect env hc w).isPrefix

/-! ### What a key holds -/

namespace Consistent

variable {s : Redis} (h : Consistent s)

include h

theorem counter_nonneg : 0 ≤ s.counter := by
  rw [h.counter]
  exact Int.natCast_nonneg _

theorem rev_mem {e : Entry} (he : e ∈ s.events) : 0 < e.rev ∧ e.rev ≤ s.counter := by
  obtain ⟨i, hi⟩ := List.getElem?_of_mem he
  have hlt := (List.getElem?_eq_some_iff.mp hi).1
  rw [h.revs i e hi, h.counter]
  omega

theorem revs_text (hb : s.counter < 10 ^ 14) :
    s.events.map (fun e => parseInt (luaTostring e.rev)) =
      (List.range s.counter.toNat).map (fun i : ℕ => some (i + 1 : ℤ)) := by
  have hn : s.counter.toNat = s.events.length := by rw [h.counter, Int.toNat_natCast]
  rw [hn]
  refine List.ext_getElem? fun i => ?_
  rw [List.getElem?_map, List.getElem?_map]
  rcases lt_or_ge i s.events.length with hi | hi
  · have hm := List.getElem?_eq_getElem hi
    have hr := h.revs i _ hm
    obtain ⟨hpos, hle⟩ := h.rev_mem (List.getElem_mem hi)
    rw [hm, List.getElem?_range hi, Option.map_some, Option.map_some,
      parseInt_luaTostring hpos.le (by omega), hr]
  · rw [List.getElem?_eq_none hi, List.getElem?_eq_none (by rw [List.length_range]; exact hi)]
    rfl

theorem revs_pairwise : s.events.Pairwise (fun a b => a.rev < b.rev) := by
  rw [List.pairwise_iff_getElem]
  intro i j hi hj hij
  rw [h.revs i _ (List.getElem?_eq_getElem hi), h.revs j _ (List.getElem?_eq_getElem hj)]
  omega

theorem le_lastEntry {x : Entry} (hx : x ∈ s.events) :
    ∃ e, lastEntry x.key s.events = some e ∧ x.rev ≤ e.rev :=
  le_getLast (h.revs_pairwise.filter _) (List.mem_filter.mpr ⟨hx, by simp⟩)

theorem eq_of_rev_eq {e e' : Entry} (he : e ∈ s.events) (he' : e' ∈ s.events)
    (hr : e.rev = e'.rev) : e = e' := by
  obtain ⟨i, hi⟩ := List.getElem?_of_mem he
  obtain ⟨j, hj⟩ := List.getElem?_of_mem he'
  rw [h.revs i e hi, h.revs j e' hj] at hr
  have hij : i = j := by omega
  rw [hij, hj, Option.some.injEq] at hi
  exact hi.symm

/-- **A key holds what its last entry wrote.** -/
theorem kv_eq_last (key : Key) :
    s.kv key = (lastEntry key s.events).bind (fun e => e.write.val) := by
  rw [h.blobs, replayed_eq_last]

/-- What a part of the stream replays to was written by its last entry for the key, a put. -/
theorem written {l : List Entry} {key : Key} {raw : Blob} (hl : ∀ e ∈ l, e ∈ s.events)
    (hk : replayed l key = some raw) :
    ∃ e c v lease value, lastEntry key l = some e ∧ e.type = .put ∧
      raw = blob c e.rev v lease value := by
  rw [replayed_eq_last] at hk
  obtain ⟨e, he, hv⟩ := Option.bind_eq_some_iff.mp hk
  rw [Entry.write] at hv
  dsimp only at hv
  split_ifs at hv with ht
  obtain ⟨c, v, lease, value, hd⟩ := h.puts e (hl e (mem_of_lastEntry he).1) ht
  rw [hd, Option.some.injEq] at hv
  exact ⟨e, c, v, lease, value, he, ht, hv.symm⟩

/-- A stored blob was written by the last entry of its key, a put. -/
theorem stored {key : Key} {raw : Blob} (hk : s.kv key = some raw) :
    ∃ e c v lease value, lastEntry key s.events = some e ∧ e.type = .put ∧
      raw = blob c e.rev v lease value :=
  h.written (fun _ he => he) (h.blobs ▸ hk)

theorem stored_length {key : Key} {raw : Blob} (hk : s.kv key = some raw) : 32 ≤ raw.length := by
  obtain ⟨e, c, v, l, value, _, _, rfl⟩ := h.stored hk
  exact blob_length _ _ _ _ _

/-- **The mod revision of a stored blob is the revision of its key's last entry.** -/
theorem field_mod {key : Key} {raw : Blob} (hk : s.kv key = some raw) :
    ∃ e, lastEntry key s.events = some e ∧ e.type = .put ∧ field (some raw) 9 = e.rev := by
  obtain ⟨e, c, v, l, value, he, ht, rfl⟩ := h.stored hk
  obtain ⟨hpos, hle⟩ := h.rev_mem (mem_of_lastEntry he).1
  have := h.bound
  exact ⟨e, he, ht, (field_blob _ _ _ _ _ _).trans (dec64_blob_mod hpos.le (by omega))⟩

theorem deleted_last {key : Key} {e : Entry} (hl : lastEntry key s.events = some e)
    (hk : s.kv key = none) : e.type = .delete := by
  rw [h.kv_eq_last, hl, Option.bind_some, Entry.write] at hk
  cases ht : e.type with
  | delete => rfl
  | put =>
    obtain ⟨c, v, lease, value, hd⟩ := h.puts e (mem_of_lastEntry hl).1 ht
    rw [ht, hd] at hk
    cases hk

theorem decode_isSome {key : Key} {raw : Blob} (hk : s.kv key = some raw) :
    (decodeKV key raw).isSome := decodeKV_isSome (h.stored_length hk)

theorem prevData_length {e : Entry} {raw : Blob} (he : e ∈ s.events) (hp : e.prevData = some raw) :
    32 ≤ raw.length := by
  obtain ⟨i, hi⟩ := List.getElem?_of_mem he
  rw [h.images i e hi] at hp
  obtain ⟨e', c, v, lease, value, _, _, rfl⟩ := h.written (fun _ => List.mem_of_mem_take) hp
  exact blob_length _ _ _ _ _

end Consistent

end REtcd.Store
