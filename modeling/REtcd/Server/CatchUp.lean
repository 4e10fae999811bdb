import REtcd.Server.Feed

/-!
# Reading the stream to catch up

A reader of the stream goes by IDs; what it has seen is told by a revision: `Marks stream lastID n`
says that the entries after `lastID` are the ones with a revision above `n`.  `seek_spec` and
`seek_marks` say where `seekStreamID` starts a reader, `read_spec` how far a batch takes it,
`read_drop` what it leaves, and `scan_spec` what `catchUp` makes of the batch.
-/

namespace REtcd.Server

open Base Store

def Watch.wants (w : Watch) (e : Event) : Bool :=
  decide (w.startRevision ≤ e.rev) && matchesWatch e.key w.key w.rangeEnd

/-- The entries of the stream have IDs, and these ascend as the revisions do. -/
structure Streamed (stream : List Event) : Prop where
  ascending : Ascending Event.rev stream
  id_pos : ∀ e ∈ stream, ∃ i ∈ e.id, StreamID.zero < i
  id_lt : ∀ a ∈ stream, ∀ b ∈ stream, a.rev < b.rev → ∀ i ∈ a.id, ∀ j ∈ b.id, i < j

theorem Logged.streamed {stream : List Event} (h : Logged stream) : Streamed stream :=
  ⟨h.ascending, h.id_pos, h.id_lt⟩

theorem Streamed.lt_iff {stream : List Event} (h : Streamed stream) {a b : Event} (ha : a ∈ stream)
    (hb : b ∈ stream) {i : StreamID} (hi : i ∈ a.id) : (∀ j ∈ b.id, i < j) ↔ a.rev < b.rev := by
  constructor
  · intro hlt
    obtain ⟨j, hj, _⟩ := h.id_pos b hb
    by_contra hle
    rcases (not_lt.mp hle).lt_or_eq with hr | hr
    · exact absurd (hlt j hj) (lt_asymm (h.id_lt b hb a ha hr j hj i hi))
    · obtain rfl := h.ascending.eq_of_eq hb ha hr
      exact absurd (hlt i hi) (lt_irrefl _)
  · exact fun hr j hj => h.id_lt a ha b hb hr i hi j hj

/-- `lastID` is where a reader stands that has seen the revisions up to `n`. -/
def Marks (stream : List Event) (lastID : StreamID) (n : ℤ) : Prop :=
  lastID = .zero ∧ n = 0 ∨ ∃ e ∈ stream, lastID ∈ e.id ∧ e.rev = n

namespace Marks

variable {stream : List Event} {lastID : StreamID} {n : ℤ}

theorem commit (h : Marks stream lastID n) (ev : Event) : Marks (stream ++ [ev]) lastID n := by
  rcases h with h | ⟨e, he, hid, hr⟩
  · exact Or.inl h
  · exact Or.inr ⟨e, List.mem_append_left _ he, hid, hr⟩

theorem bounds (h : Marks stream lastID n) (hl : Logged stream) : 0 ≤ n ∧ n ≤ stream.length := by
  rcases h with ⟨_, rfl⟩ | ⟨e, he, _, rfl⟩
  · omega
  · have := hl.revs e he
    omega

/-- **The entries after `lastID` are the ones above `n`.** -/
theorem lt_iff (h : Marks stream lastID n) (hl : Logged stream) {e : Event} (he : e ∈ stream) :
    (∀ i ∈ e.id, lastID < i) ↔ n < e.rev := by
  rcases h with ⟨rfl, rfl⟩ | ⟨e₀, he₀, hid, rfl⟩
  · obtain ⟨i, hi, hpos⟩ := hl.id_pos e he
    refine iff_of_true (fun j hj => ?_) ?_
    · rwa [Option.mem_unique hj hi]
    · have := (hl.revs e he).1
      omega
  · exact hl.streamed.lt_iff he₀ he hid

end Marks

/-! ### Where a reader starts -/

section Seek

variable {cks : List Checkpoint}

/-- **The binary search** finds the border `m` between the checkpoints below `startRev` and the
others: those before `lo` are known to be below, those from `hi` on are known not to be. -/
theorem seekLoop_spec (hasc : Ascending Checkpoint.rev cks) (startRev : ℤ) (lo hi : ℕ) (idx : ℤ)
    (hle : lo ≤ hi) (hhi : hi ≤ cks.length) (hidx : idx = lo - 1)
    (hlow : ∀ k ck, cks[k]? = some ck → k < lo → ck.rev < startRev)
    (hhigh : ∀ k ck, cks[k]? = some ck → hi ≤ k → startRev ≤ ck.rev) :
    ∃ m ≤ cks.length, Dispatcher.seekLoop cks startRev lo hi idx = m - 1 ∧
      ∀ k ck, cks[k]? = some ck → (ck.rev < startRev ↔ k < m) := by
  fun_induction Dispatcher.seekLoop cks startRev lo hi idx with
  | case1 lo hi idx hlt mid hnone =>
    have := List.getElem?_eq_none_iff.mp hnone
    omega
  | case2 lo hi idx hlt mid ck hck hbelow ih =>
    refine ih (by omega) hhi (by omega) (fun k c hc hk => ?_) hhigh
    exact (hasc.le_of_le hc hck (by omega)).trans_lt hbelow
  | case3 lo hi idx hlt mid ck hck hnot ih =>
    refine ih (by omega) (by omega) hidx hlow fun k c hc hk => ?_
    exact (not_lt.mp hnot).trans (hasc.le_of_le hck hc hk)
  | case4 lo hi idx hge =>
    refine ⟨lo, by omega, hidx, fun k ck hck => ⟨fun hb => ?_, hlow k ck hck⟩⟩
    by_contra hk
    exact absurd hb (not_lt.mpr (hhigh k ck hck (by omega)))

/-- **Where a reader starts**: at the last but one of the checkpoints below `startRev`, or at the
beginning if there are fewer than two. -/
theorem seek_spec (hasc : Ascending Checkpoint.rev cks) (startRev : ℤ) :
    ∃ m ≤ cks.length, (∀ k ck, cks[k]? = some ck → (ck.rev < startRev ↔ k < m)) ∧
      (m < 2 ∧ Dispatcher.seekStreamID cks startRev = .zero ∨
        ∃ ck, 2 ≤ m ∧ cks[m - 2]? = some ck ∧ Dispatcher.seekStreamID cks startRev = ck.id) := by
  obtain ⟨m, hm, hidx, hborder⟩ := seekLoop_spec hasc startRev 0 cks.length (-1) (Nat.zero_le _)
    le_rfl rfl (fun k _ _ hk => absurd hk (Nat.not_lt_zero k)) fun k ck hck hk => by
      rw [List.getElem?_eq_none hk] at hck
      cases hck
  refine ⟨m, hm, hborder, ?_⟩
  rw [Dispatcher.seekStreamID, hidx]
  split_ifs with hneg
  · exact Or.inl ⟨by omega, rfl⟩
  · have htwo : ((m : ℤ) - 1 - 1).toNat = m - 2 := by omega
    obtain ⟨ck, hck⟩ : ∃ ck, cks[m - 2]? = some ck := ⟨_, List.getElem?_eq_getElem (by omega)⟩
    rw [htwo, hck]
    exact Or.inr ⟨ck, by omega, rfl, rfl⟩

/-- **A reader starts below `startRev`.** -/
theorem seek_marks {stream : List Event}
    (hcks : ∀ ck ∈ cks, ∃ e ∈ stream, e.rev = ck.rev ∧ ck.id ∈ e.id)
    (hasc : Ascending Checkpoint.rev cks) (startRev : ℤ) :
    ∃ n, Marks stream (Dispatcher.seekStreamID cks startRev) n ∧ (n = 0 ∨ n < startRev) := by
  obtain ⟨m, _, hborder, ⟨_, hid⟩ | ⟨ck, hm, hck, hid⟩⟩ := seek_spec hasc startRev
  · exact ⟨0, Or.inl ⟨hid, rfl⟩, Or.inl rfl⟩
  · obtain ⟨e, he, her, hmem⟩ := hcks ck (List.mem_of_getElem? hck)
    rw [hid]
    exact ⟨ck.rev, Or.inr ⟨e, he, hmem, her⟩, Or.inr ((hborder _ ck hck).mpr (by omega))⟩

end Seek

/-! ### A batch -/

theorem read_last {stream : List Event} (hs : Streamed stream) {lastID newLastID : StreamID} {k : ℕ}
    {events : List Event} (hr : xread stream lastID k = (events, newLastID)) (hne : events ≠ []) :
    ∃ e, events.getLast? = some e ∧ e ∈ stream ∧ newLastID ∈ e.id := by
  rw [xread, Prod.mk.injEq] at hr
  obtain ⟨hev, hid⟩ := hr
  rw [hev] at hid
  obtain ⟨e, hlast⟩ : ∃ e, events.getLast? = some e :=
    Option.isSome_iff_exists.mp (List.getLast?_isSome.mpr hne)
  have hmem := List.mem_of_getLast? hlast
  rw [← hev] at hmem
  have hstream := (List.mem_filter.mp (List.mem_of_mem_take hmem)).1
  obtain ⟨i, hi, _⟩ := hs.id_pos e hstream
  refine ⟨e, hlast, hstream, ?_⟩
  rw [← hid, hlast, Option.bind_some, Option.mem_def.mp hi, Option.getD_some, Option.mem_def]

/-- **Reading on**: the entries after the last one of a batch are those that the batch has left. -/
theorem read_drop {stream : List Event} (hs : Streamed stream) (lastID : StreamID) {n : ℕ}
    (hn : 1 ≤ n) :
    stream.filter (fun e => decide (∀ i ∈ e.id, (xread stream lastID n).2 < i)) =
      (stream.filter fun e => decide (∀ i ∈ e.id, lastID < i)).drop n := by
  generalize hl : (stream.filter fun e => decide (∀ i ∈ e.id, lastID < i)) = l
  have hread : xread stream lastID n =
      (l.take n, ((l.take n).getLast?.bind Event.id).getD lastID) := by
    rw [xread, hl]
  rw [hread]
  dsimp only
  cases hlast : (l.take n).getLast? with
  | none =>
    have hnil : l = [] := by
      rcases List.take_eq_nil_iff.mp (List.getLast?_eq_none_iff.mp hlast) with h0 | hnil
      · omega
      · exact hnil
    rw [Option.bind_none, Option.getD_none, hl, hnil, List.drop_nil]
  | some e =>
    have hsplit := List.take_append_drop n l
    have hmem : e ∈ l := List.mem_of_mem_take (List.mem_of_getLast? hlast)
    rw [← hl, List.mem_filter, decide_eq_true_eq] at hmem
    obtain ⟨he, hafter⟩ := hmem
    obtain ⟨i, hi, _⟩ := hs.id_pos e he
    rw [Option.bind_some, Option.mem_def.mp hi, Option.getD_some]
    have hasc : Ascending Event.rev l := hl ▸ hs.ascending.filter _
    -- what is after the last entry of the batch is after `lastID`, and has a higher revision
    have hlater : stream.filter (fun x => decide (∀ j ∈ x.id, i < j)) =
        l.filter fun x => decide (e.rev < x.rev) := by
      rw [← hl, List.filter_filter]
      refine List.filter_congr fun x hx => ?_
      rw [← Bool.decide_and, decide_eq_decide, ← hs.lt_iff he hx hi]
      exact ⟨fun h => ⟨h, fun j hj => (hafter i hi).trans (h j hj)⟩, fun h => h.1⟩
    rw [hlater]
    conv_lhs => rw [← hsplit]
    rw [← hsplit, Ascending, List.pairwise_append] at hasc
    obtain ⟨hbatch, _, hcross⟩ := hasc
    rw [List.filter_append, List.filter_eq_nil_iff.mpr, List.nil_append, List.filter_eq_self.mpr]
    · exact fun x hx => decide_eq_true (hcross e (List.mem_of_getLast? hlast) x hx)
    · intro x hx
      obtain ⟨e', hlast', hle⟩ := le_getLast hbatch hx
      obtain rfl := Option.some.inj (hlast.symm.trans hlast')
      simpa using hle

/-- **A read takes the reader on**: it brings the entries above `n` up to the last one, `n'`. -/
theorem read_spec {stream : List Event} (hl : Logged stream) {lastID : StreamID} {n : ℤ}
    (hm : Marks stream lastID n) {k : ℕ} {events : List Event} {newLastID : StreamID}
    (hr : xread stream lastID k = (events, newLastID)) (hne : events ≠ []) :
    ∃ e ∈ events, n ≤ e.rev ∧ Marks stream newLastID e.rev ∧
      events = stream.filter (fun x => decide (n < x.rev) && decide (x.rev ≤ e.rev)) := by
  obtain ⟨e, hlast, hstream, hid⟩ := read_last hl.streamed hr hne
  rw [xread, Prod.mk.injEq] at hr
  have hfilter : (stream.filter fun e => decide (∀ i ∈ e.id, lastID < i)) =
      stream.filter fun e => decide (n < e.rev) :=
    List.filter_congr fun e he => decide_eq_decide.mpr (hm.lt_iff hl he)
  rw [hfilter] at hr
  have htake := hl.ascending.take_filter n k hr.1.symm
  rw [hlast, Option.map_some, Option.getD_some] at htake
  have hmem := List.mem_of_getLast? hlast
  have hlt := hmem
  rw [htake, List.mem_filter, Bool.and_eq_true, decide_eq_true_eq] at hlt
  exact ⟨e, hmem, hlt.2.1.le, Or.inr ⟨e, hstream, hid, rfl⟩, htake⟩

/-- **What `catchUp` makes of a batch**: it matches the wanted events up to the boundary, and
notices an event above it. -/
theorem scan_spec (w : Watch) {events : List Event} (h : Ascending Event.rev events) :
    (w.scan events).1 =
        (events.filter fun e => w.wants e && decide (e.rev ≤ w.boundary)).map eventToProto ∧
      ((w.scan events).2 = true ↔ ∃ e ∈ events, w.boundary < e.rev) := by
  induction events with
  | nil => simp [Watch.scan]
  | cons ev events ih =>
    obtain ⟨hlt, hrest⟩ := List.pairwise_cons.mp h
    obtain ⟨ih1, ih2⟩ := ih hrest
    rw [Watch.scan]
    by_cases hb : w.boundary < ev.rev
    · rw [if_pos hb]
      have hnil : ((ev :: events).filter fun e => w.wants e && decide (e.rev ≤ w.boundary)) = [] := by
        rw [List.filter_eq_nil_iff]
        intro e he
        have : w.boundary < e.rev := by
          rcases List.mem_cons.mp he with rfl | he
          · exact hb
          · exact hb.trans (hlt e he)
        simp [not_le.mpr this]
      rw [hnil]
      exact ⟨rfl, iff_of_true rfl ⟨ev, List.mem_cons_self, hb⟩⟩
    · rw [if_neg hb]
      dsimp only
      have hex : (∃ e ∈ ev :: events, w.boundary < e.rev) ↔ ∃ e ∈ events, w.boundary < e.rev := by
        simp [hb]
      rw [hex]
      by_cases hskip : ev.rev < w.startRevision ∨ matchesWatch ev.key w.key w.rangeEnd = false
      · have hw : w.wants ev = false := by
          rcases hskip with hs | hs
          · simp [Watch.wants, not_le.mpr hs]
          · simp [Watch.wants, hs]
        rw [if_pos hskip, List.filter_cons_of_neg (by simp [hw])]
        exact ⟨ih1, ih2⟩
      · have hw : w.wants ev = true := by
          rw [not_or] at hskip
          simp [Watch.wants, not_lt.mp hskip.1, hskip.2]
        rw [if_neg hskip, List.filter_cons_of_pos (by simp [hw, not_lt.mp hb]), List.map_cons, ih1]
        exact ⟨rfl, ih2⟩

end REtcd.Server
