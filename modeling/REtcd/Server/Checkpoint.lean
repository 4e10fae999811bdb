import REtcd.Server.CatchUp
import REtcd.Server.Ingest

/-!
# The checkpoint index

`maybeCheckpoint` counts the released events and keeps every `checkpointEvery`-th of them, beginning
with the first: the checkpoints are a sparse index of what was released (`Indexed`), as long as
events are released in ascending order.  Whatever was released, they are in ascending order and lead
into the stream (`checkpoints_listed`).

So `seekStreamID` never passes over an event from `startRev` on, and once two checkpoints are below
`startRev` it leaves fewer than `2 * checkpointEvery` released events to skip (`seek_sound_narrow`).
-/

namespace REtcd.Server

open Base Store

namespace Dispatcher

theorem releaseLocked_index (ev : Event) (d : Dispatcher) :
    (d.releaseLocked ev).checkpoints = (d.maybeCheckpoint ev).checkpoints ∧
      (d.releaseLocked ev).ckCounter = (d.maybeCheckpoint ev).ckCounter := by
  obtain ⟨subs, sub, h⟩ := foldl_deliver_frame ev d.subs.val (d.release ev)
  rw [releaseLocked, h, release, maybeCheckpoint, maybeCheckpoint]
  cases ev.id with
  | none => exact ⟨rfl, rfl⟩
  | some id =>
    dsimp only
    split_ifs <;> exact ⟨rfl, rfl⟩

/-! ### Any releases -/

section Listed

variable {stream : List Event} {d : Dispatcher}

/-- The checkpoints ascend and lead into the stream. -/
structure Listed (stream : List Event) (cks : List Checkpoint) : Prop where
  mem : ∀ ck ∈ cks, ∃ e ∈ stream, e.rev = ck.rev ∧ ck.id ∈ e.id
  ascending : Ascending Checkpoint.rev cks

theorem Listed.maybeCheckpoint (h : Listed stream d.checkpoints) {ev : Event} (hev : ev ∈ stream) :
    Listed stream (d.maybeCheckpoint ev).checkpoints := by
  rw [Dispatcher.maybeCheckpoint]
  cases hid : ev.id with
  | none => exact h
  | some id =>
    dsimp only
    split_ifs with hskip hlast
    · exact h
    · refine ⟨fun ck hck => ?_, ascending_concat.mpr ⟨h.ascending, fun ck hck => ?_⟩⟩
      · rcases List.mem_append.mp hck with hck | hck
        · exact h.mem ck hck
        · obtain rfl := List.mem_singleton.mp hck
          exact ⟨ev, hev, rfl, hid⟩
      · obtain ⟨last, hl, hle⟩ := le_getLast h.ascending hck
        exact hle.trans_lt (hlast last hl)
    · exact h

theorem checkpoints_listed {released : List Event} (h₀ : d.checkpoints = [])
    (hsub : ∀ e ∈ released, e ∈ stream) : Listed stream (d.releaseAll released).checkpoints := by
  have hrun : ∀ d : Dispatcher, Listed stream d.checkpoints →
      Listed stream (d.releaseAll released).checkpoints := by
    induction released with
    | nil => exact fun d h => h
    | cons ev evs ih =>
      intro d h
      refine ih (fun e he => hsub e (List.mem_cons_of_mem _ he)) (d.releaseLocked ev) ?_
      rw [(releaseLocked_index ev d).1]
      exact h.maybeCheckpoint (hsub ev List.mem_cons_self)
  refine hrun d ?_
  rw [h₀]
  exact ⟨fun ck hck => absurd hck List.not_mem_nil, List.Pairwise.nil⟩

end Listed

/-! ### Ascending releases -/

/-- The checkpoints are a sparse index of the released events, and `ckCounter` counts those since
the last checkpoint. -/
structure Indexed (released : List Event) (d : Dispatcher) : Prop where
  sparse : Sparse checkpointEvery Event.rev Checkpoint.rev released d.checkpoints
  count : released = [] ∧ d.checkpoints = [] ∨
    d.checkpoints ≠ [] ∧ d.ckCounter < checkpointEvery ∧
      released.length + checkpointEvery =
        d.checkpoints.length * checkpointEvery + d.ckCounter + 1

section Indexed

variable {released : List Event} {d : Dispatcher} {ev : Event}

theorem Indexed.mem (h : Indexed released d) {ck : Checkpoint} (hck : ck ∈ d.checkpoints) :
    ∃ e ∈ released, e.rev = ck.rev := by
  obtain ⟨k, hk⟩ := List.mem_iff_getElem?.mp hck
  have hs := h.sparse k
  rw [hk, Option.map_some] at hs
  obtain ⟨e, he, hr⟩ := Option.map_eq_some_iff.mp hs.symm
  exact ⟨e, List.mem_of_getElem? he, hr⟩

theorem Indexed.release (h : Indexed released d) (hasc : Ascending Event.rev (released ++ [ev]))
    {id : StreamID} (hid : id ∈ ev.id) : Indexed (released ++ [ev]) (d.releaseLocked ev) := by
  obtain ⟨hcks, hcounter⟩ := releaseLocked_index ev d
  rw [maybeCheckpoint, Option.mem_def.mp hid] at hcks hcounter
  dsimp only at hcks hcounter
  have hbelow : ∀ ck ∈ d.checkpoints.getLast?, ck.rev < ev.rev := by
    intro ck hck
    obtain ⟨e, he, hr⟩ := h.mem (List.mem_of_getLast? hck)
    exact hr ▸ (ascending_concat.mp hasc).2 e he
  rw [if_pos hbelow] at hcks
  have hpos : 0 < checkpointEvery := by decide
  have hlen : (released ++ [ev]).length = released.length + 1 := List.length_append
  by_cases hskip : d.checkpoints ≠ [] ∧ d.ckCounter + 1 < checkpointEvery
  · rw [if_pos hskip] at hcks hcounter
    obtain ⟨_, hnil⟩ | ⟨_, _, hcount⟩ := h.count
    · exact absurd hnil hskip.1
    · dsimp only at hcks hcounter
      refine ⟨?_, Or.inr ?_⟩
      · rw [hcks]
        exact h.sparse.concat (by omega) ev
      · rw [hcks, hcounter, hlen]
        exact ⟨hskip.1, hskip.2, by omega⟩
  · rw [if_neg hskip] at hcks hcounter
    have hdue : released.length = d.checkpoints.length * checkpointEvery := by
      obtain ⟨hr, hnil⟩ | ⟨hne, hlt, hcount⟩ := h.count
      · rw [hr, hnil]
        rfl
      · have : ¬ d.ckCounter + 1 < checkpointEvery := fun hlt => hskip ⟨hne, hlt⟩
        omega
    dsimp only at hcks hcounter
    refine ⟨?_, Or.inr ?_⟩
    · rw [hcks]
      exact h.sparse.concat_due hpos hdue rfl
    · rw [hcks, hcounter, hlen, List.length_append, List.length_singleton, Nat.succ_mul]
      exact ⟨by simp, hpos, by omega⟩

theorem indexed_releaseAll (h₀ : d.checkpoints = []) (hasc : Ascending Event.rev released)
    (hid : ∀ e ∈ released, ∃ i, i ∈ e.id) : Indexed released (d.releaseAll released) := by
  induction released using List.reverseRecOn with
  | nil => exact ⟨by rw [releaseAll, List.foldl_nil, h₀]; exact sparse_nil, Or.inl ⟨rfl, h₀⟩⟩
  | append_singleton evs ev ih =>
    obtain ⟨i, hi⟩ := hid ev (by simp)
    rw [releaseAll_append]
    exact (ih (ascending_concat.mp hasc).1 fun e he => hid e (by simp [he])).release hasc hi

end Indexed

/-! ### Seeking -/

/-- The checkpoints below `startRev` are the first `m`. -/
theorem length_below {cks : List Checkpoint} {startRev : ℤ} {m : ℕ} (hm : m ≤ cks.length)
    (hborder : ∀ k ck, cks[k]? = some ck → (ck.rev < startRev ↔ k < m)) :
    (cks.filter fun ck => decide (ck.rev < startRev)).length = m := by
  have hlow : (cks.take m).filter (fun ck => decide (ck.rev < startRev)) = cks.take m := by
    rw [List.filter_eq_self]
    intro ck hck
    obtain ⟨k, hk, hget⟩ := List.mem_take_iff_getElem.mp hck
    exact decide_eq_true ((hborder k ck (List.getElem?_eq_some_iff.mpr ⟨by omega, hget⟩)).mpr
      (by omega))
  have hhigh : (cks.drop m).filter (fun ck => decide (ck.rev < startRev)) = [] := by
    rw [List.filter_eq_nil_iff]
    intro ck hck
    obtain ⟨k, hk, hget⟩ := List.mem_drop_iff_getElem.mp hck
    have := hborder _ ck (List.getElem?_eq_some_iff.mpr ⟨by omega, hget⟩)
    rw [decide_eq_true_eq, this]
    omega
  conv_lhs => rw [← List.take_append_drop m cks, List.filter_append, hlow, hhigh, List.append_nil]
  rw [List.length_take, min_eq_left hm]

/-- **No event from `startRev` on is passed over.** -/
theorem Listed.lt_of_le {stream : List Event} {cks : List Checkpoint} (hl : Listed stream cks)
    (hs : Streamed stream) {startRev : ℤ} {e : Event} (he : e ∈ stream) (hle : startRev ≤ e.rev) :
    ∀ i ∈ e.id, seekStreamID cks startRev < i := by
  obtain ⟨m, _, hborder, ⟨_, hseek⟩ | ⟨ck, hm, hck, hseek⟩⟩ := seek_spec hl.ascending startRev
  · intro i hi
    obtain ⟨j, hj, hpos⟩ := hs.id_pos e he
    rw [hseek, Option.mem_unique hi hj]
    exact hpos
  · obtain ⟨e₀, he₀, hr, hid⟩ := hl.mem ck (List.mem_of_getElem? hck)
    have hlt := (hborder _ ck hck).mpr (by omega)
    rw [hseek]
    exact (hs.lt_iff he₀ he hid).mpr (by omega)

/-- **Seeking is sound and narrow.**  Whatever was released of a stream, in ascending order and with
any gaps: every entry from `startRev` on lies after the ID that `seekStreamID` returns, the
checkpoints ascend, and if two of them are below `startRev`, fewer than `2 * checkpointEvery`
released events below `startRev` lie after that ID. -/
theorem seek_sound_narrow (d : Dispatcher) (h₀ : d.checkpoints = []) (stream : List Event)
    (hs : Streamed stream) (released : List Event) (hsub : ∀ e ∈ released, e ∈ stream)
    (hasc : Ascending Event.rev released) (startRev : ℤ) :
    (∀ e ∈ stream, startRev ≤ e.rev →
      ∀ i ∈ e.id, seekStreamID (d.releaseAll released).checkpoints startRev < i) ∧
    Ascending Checkpoint.rev (d.releaseAll released).checkpoints ∧
    (2 ≤ ((d.releaseAll released).checkpoints.filter fun ck => ck.rev < startRev).length →
      (released.filter fun e =>
        (∀ i ∈ e.id, seekStreamID (d.releaseAll released).checkpoints startRev < i) ∧
          e.rev < startRev).length < 2 * checkpointEvery) := by
  have hl := checkpoints_listed h₀ hsub
  refine ⟨fun e he hle => hl.lt_of_le hs he hle, hl.ascending, fun htwo => ?_⟩
  have hidx := indexed_releaseAll h₀ hasc fun e he =>
    (hs.id_pos e (hsub e he)).imp fun _ hi => hi.1
  obtain ⟨m, hm, hborder, hseek⟩ := seek_spec hl.ascending startRev
  rw [length_below hm hborder] at htwo
  obtain ⟨hlt, _⟩ | ⟨ck, _, hck, hseek⟩ := hseek
  · omega
  · obtain ⟨e₀, he₀, hr, hid⟩ := hl.mem ck (List.mem_of_getElem? hck)
    have hnarrow := hidx.sparse.narrow hasc (by decide) hck (b := startRev) fun ck' hck' => by
      rw [← not_lt, hborder _ ck' hck']
      omega
    have hsame : (released.filter fun e => decide ((∀ i ∈ e.id,
        seekStreamID (d.releaseAll released).checkpoints startRev < i) ∧ e.rev < startRev)) =
        released.filter fun e => decide (ck.rev < e.rev) && decide (e.rev < startRev) := by
      refine List.filter_congr fun e he => ?_
      rw [← Bool.decide_and, decide_eq_decide, hseek, hs.lt_iff he₀ (hsub e he) hid, hr]
    rw [hsame]
    exact hnarrow

def numbered (n : ℕ) : List Event :=
  (List.range n).map fun i : ℕ => ⟨.delete, [97], i + 1, none, none, 0, some ⟨0, i + 1⟩⟩

theorem streamed_numbered (n : ℕ) : Streamed (numbered n) := by
  refine ⟨?_, fun e he => ?_, fun a ha b hb hlt i hi j hj => ?_⟩
  · rw [Ascending, numbered, List.pairwise_map]
    exact List.pairwise_lt_range.imp fun h => by simpa using h
  · obtain ⟨k, _, rfl⟩ := List.mem_map.mp he
    exact ⟨_, rfl, StreamID.lt_iff.mpr (Or.inr ⟨rfl, Nat.succ_pos k⟩)⟩
  · obtain ⟨k, _, rfl⟩ := List.mem_map.mp ha
    obtain ⟨l, _, rfl⟩ := List.mem_map.mp hb
    obtain rfl := Option.some.inj hi
    obtain rfl := Option.some.inj hj
    dsimp only at hlt
    exact StreamID.lt_iff.mpr (Or.inr ⟨rfl, by dsimp only; omega⟩)

/-- After 2000 releases a reader from revision 2000 on seeks past most of them. -/
theorem seek_numbered :
    2 ≤ ((newEventDispatcher.releaseAll (numbered 2000)).checkpoints.filter
      fun ck => ck.rev < 2000).length ∧
    ((numbered 2000).filter fun e =>
      (∀ i ∈ e.id, seekStreamID (newEventDispatcher.releaseAll (numbered 2000)).checkpoints 2000 < i) ∧
        e.rev < 2000).length < 2 * checkpointEvery := by
  have hs := streamed_numbered 2000
  obtain ⟨_, hasc, hnarrow⟩ := seek_sound_narrow newEventDispatcher rfl (numbered 2000) hs
    (numbered 2000) (fun _ he => he) hs.ascending 2000
  have hidx := indexed_releaseAll (d := newEventDispatcher) rfl hs.ascending fun e he =>
    (hs.id_pos e he).imp fun _ hi => hi.1
  have hsecond := hidx.sparse 1
  have hget : (numbered 2000)[1 * checkpointEvery]?.map Event.rev = some 513 := by
    rw [numbered, List.getElem?_map, List.getElem?_range (show 1 * checkpointEvery < 2000 by decide)]
    rfl
  rw [hget] at hsecond
  obtain ⟨ck, hck, hrev⟩ := Option.map_eq_some_iff.mp hsecond
  have htwo : 2 ≤ ((newEventDispatcher.releaseAll (numbered 2000)).checkpoints.filter
      fun ck => decide (ck.rev < 2000)).length := by
    obtain ⟨m, hm, hborder, _⟩ := seek_spec hasc 2000
    rw [length_below hm hborder]
    exact (hborder 1 ck hck).mp (by omega)
  exact ⟨htwo, hnarrow htwo⟩

end Dispatcher

end REtcd.Server
