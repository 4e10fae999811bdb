import REtcd.Server.HalfOpen

/-!
# Items newer than their list

A client that lists and then watches from the revision in the header must not be given a value that
is newer than that revision.  The single-key path of `Range` takes the larger of the value's mod
revision and the counter, so it never does this.  The range path reads the counter before the
values: a put of a listed key that falls in between is in the answer, with a mod revision above the
header's (`list_item_newer`).  `list_not_newer_iff` says that this is the only way.
-/

namespace REtcd.Server

open Base Store

/-- The value that a reader of `s` finds under the key was put after revision `rev`. -/
def PutAfter (rev : ℤ) (s : Redis) (k : Key) : Prop :=
  ∃ e, lastEntry k s.events = some e ∧ e.type = .put ∧ rev < e.rev

theorem modRevision_le_iff {s : Redis} (h : Consistent s) {k : Key} {kv : KeyValue} {rev : ℤ}
    (hk : contents s k = some kv) : kv.modRevision ≤ rev ↔ ¬ PutAfter rev s k := by
  obtain ⟨e, he, ht, hm⟩ := contents_last h hk
  rw [hm, PutAfter, he]
  constructor
  · rintro hle ⟨e', he', _, hlt⟩
    cases he'
    omega
  · intro hno
    by_contra hlt
    exact hno ⟨e, rfl, ht, by omega⟩

theorem PutAfter.contents {rev : ℤ} {s : Redis} {k : Key} (h : Consistent s)
    (hp : PutAfter rev s k) : ∃ kv, contents s k = some kv := by
  obtain ⟨e, he, ht, _⟩ := hp
  cases hk : Server.contents s k with
  | some kv => exact ⟨kv, rfl⟩
  | none =>
    have hdel := h.deleted_last he ((contents_eq_none h).mp hk)
    rw [ht] at hdel
    cases hdel

theorem le_singleRev (kv : KeyValue) (cur : Except GoError ℤ) :
    kv.modRevision ≤ KVServer.singleRev (some kv) cur := by
  cases cur with
  | error err => exact le_rfl
  | ok n =>
    rw [KVServer.singleRev]
    split_ifs with h
    · exact h.le
    · exact le_rfl

theorem kv_mem_scannedKVs {req : RangeRequest} (hr : req.rangeEnd ≠ []) {matched : List Key}
    {s : Redis} {kv : KeyValue} : kv ∈ scannedKVs req matched s ↔
      kv.key ∈ matched ∧ matchesWatch kv.key req.key req.rangeEnd = true ∧
        contents s kv.key = some kv := by
  rw [scannedKVs, List.mem_filter, mem_decodeAll, inRange_eq_matches hr]
  tauto

/-- **When no item is newer than its list.**  Among other clients' complete scripts, every value that
a `Range` returns has a mod revision up to the header's iff the request is for a single key, or only
counts, or no key that its scan found was put between the read of the revision and the read of the
values, as the last write to it. -/
theorem list_not_newer_iff (req : RangeRequest) (t : ℕ → List (Env × Cmd) × Env) (w : World)
    (hw : Consistent w.redis) (hf : ∀ n, (t n).2.fault = none)
    (hi : ∀ n, ∀ x ∈ (t n).1, x.2.Issued) (resp : RangeResponse) (w' : World)
    (hout : Prog.among exec (KVServer.range req) t w = (.ok resp, w')) :
    (∀ kv ∈ resp.kvs, kv.modRevision ≤ resp.header.revision) ↔
      (req.rangeEnd ≠ [] → req.countOnly = false →
        ∀ k ∈ scanned req (firstRead t w).redis, matchesWatch k req.key req.rangeEnd = true →
          ¬ PutAfter (reported (revRead t w).redis) (valueRead t w).redis k) := by
  by_cases hr : req.rangeEnd = []
  · refine iff_of_true ?_ fun hne => absurd hr hne
    rw [among_single hf hr, Prod.mk.injEq, Except.ok.injEq] at hout
    obtain ⟨rfl, _⟩ := hout
    intro kv hkv
    simp only [KVServer.rangeResponse, headerAt] at hkv ⊢
    split_ifs at hkv
    · cases hkv
    · rw [Option.mem_toList] at hkv
      rw [hkv]
      exact le_singleRev kv _
  · have hvals : Consistent (valueRead t w).redis :=
      others_consistent (hi 2) (revRead_consistent hw hi)
    obtain ⟨more, _, ham⟩ := among_range (w := w) hf hr
    rw [ham, Prod.mk.injEq, Except.ok.injEq] at hout
    obtain ⟨rfl, _⟩ := hout
    simp only [KVServer.rangeResponse, headerAt]
    cases hcount : req.countOnly with
    | true =>
      exact iff_of_true (fun kv hkv => absurd hkv List.not_mem_nil) fun _ h => absurd h.symm (by decide)
    | false =>
      rw [if_neg Bool.false_ne_true]
      constructor
      · intro hall _ _ k hk hin hp
        obtain ⟨kv, hkv⟩ := hp.contents hvals
        have hkey := contents_key hkv
        have hmem : kv ∈ scannedKVs req (scanned req (firstRead t w).redis)
            (valueRead t w).redis := by
          rw [kv_mem_scannedKVs hr, hkey]
          exact ⟨hk, hin, hkv⟩
        exact (modRevision_le_iff hvals hkv).mp (hall kv hmem) hp
      · intro hno kv hkv
        obtain ⟨hk, hin, hc⟩ := (kv_mem_scannedKVs hr).mp hkv
        exact (modRevision_le_iff hvals hc).mpr (hno hr rfl kv.key hk hin)

/-- The undisturbed list of the one key is not newer than its header. -/
theorem list_not_newer_undisturbed :
    ∃ resp w', Prog.among exec (KVServer.range ⟨[97], [99], false⟩) undisturbed oneKey =
        (.ok resp, w') ∧ resp.kvs.length = 1 ∧
      ∀ kv ∈ resp.kvs, kv.modRevision ≤ resp.header.revision := by
  refine ⟨_, _, rfl, by decide, ?_⟩
  refine (list_not_newer_iff ⟨[97], [99], false⟩ undisturbed oneKey oneKey_consistent
    (fun _ => rfl) (fun _ x hx => nomatch hx) _ _ rfl).mpr fun _ _ k _ _ => ?_
  rintro ⟨e, he, _, hlt⟩
  have hle := (oneKey_consistent.rev_mem (mem_of_lastEntry he).1).2
  exact absurd (lt_of_lt_of_le hlt hle) (by decide)

def putBeforeValues (n : ℕ) : List (Env × Cmd) × Env :=
  (if n = 2 then [(.plain 6, .evalWrite ⟨[98], .put, [2], 0⟩)] else [], .plain 6)

/-- **An item that is newer than its list**: the key `b` is listed with mod revision 2 under the
header revision 1. -/
theorem list_item_newer :
    ∃ resp w', Prog.among exec (KVServer.range ⟨[97], [99], false⟩) putBeforeValues oneKey =
        (.ok resp, w') ∧ resp.header.revision = 1 ∧ resp.kvs.map KeyValue.modRevision = [2] :=
  ⟨_, _, rfl, by decide, by decide⟩

end REtcd.Server
