import REtcd.Server.ListWatch
import REtcd.Store.Sink

/-!
# From the store to the dispatcher

`live_eq_replayed`: a writing operation of the store, run among any other clients, hands exactly one
event to the sink if it succeeds, and this is the event that a catch-up read gets for the stream entry
that its script has appended.
-/

namespace REtcd.Server

open Base Store

def event? : Cmd → Option Event
  | .emit ev => some ev
  | _ => none

def handed (l : List (Call Cmd Reply World)) : List Event := l.filterMap fun x => event? x.cmd

/-- **Live events equal replayed events**: whatever other clients do in between, an operation that
succeeds hands one event to the sink, the one that `parseStreamEvent` reads off the entry which its
script has appended. -/
theorem live_eq_replayed (reqs : List Request) (ms : List (ℕ × Env)) (op : WriteOp)
    (t : ℕ → List (Env × Cmd) × Env) (hi : ∀ n, ∀ x ∈ (t n).1, x.2.Issued)
    (hs : (Prog.among exec op.routine t (Pool.run exec (start reqs) ms).shared).1 = .ok true)
    (hb : (exec (t 0).2 op.script (Prog.others exec (t 0).1
      (Pool.run exec (start reqs) ms).shared)).2.redis.counter < 10 ^ 14) :
    ∃ x l e ev, Prog.trace exec op.routine t (Pool.run exec (start reqs) ms).shared = x :: l ∧
      x.cmd = op.script ∧ x.after.redis.events = x.before.redis.events ++ [e] ∧
      parseStreamEvent e = some ev ∧ handed (x :: l) = [ev] := by
  have hw : Consistent (Prog.others exec (t 0).1 (Pool.run exec (start reqs) ms).shared).redis :=
    Prog.others_inv (I := fun w : World => Consistent w.redis) exec_consistent (hi 0)
      (consistent_run reqs ms)
  have hscript : event? op.script = none := by
    cases op <;> rfl
  obtain ⟨k, hk, hrest⟩ := op.routine_writes
  rw [hk, Prog.among] at hs
  rw [hk, Prog.trace]
  rcases he : exec (t 0).2 op.script (Prog.others exec (t 0).1
    (Pool.run exec (start reqs) ms).shared) with ⟨r, w'⟩
  simp only [he] at hs hb ⊢
  rcases hrest _ _ _ _ hw he hb with ⟨e, ev, _, hc, hev, _, _, hq⟩ | ⟨_, _, hret⟩
  · refine ⟨_, _, e, ev, rfl, rfl, hc.events, hev, ?_⟩
    rw [handed, List.filterMap_cons, hscript, hq]
    rfl
  · have hnot : ((Prog.among exec (k r) (fun n => t (n + 1)) w').1).map id ≠ .ok true :=
      Prog.among_returns hret _ _
    rw [hs] at hnot
    exact absurd rfl hnot

/-- The key `b` is deleted through a transaction while another client writes the key `a`. -/
theorem txnDelete_live :
    ∃ e ev, handed (Prog.trace exec (WriteOp.txn [98] 1 .delete [] 0).routine putBetween oneKey) =
      [ev] ∧ parseStreamEvent e = some ev ∧ ev.type = .delete := by
  obtain ⟨x, l, e, ev, htrace, _, _, hev, hl⟩ := live_eq_replayed [.put ⟨[98], [1], 0, false⟩]
    [(0, .plain 5), (0, .plain 5)] (.txn [98] 1 .delete [] 0) putBetween (by
      intro n x hx
      rw [putBetween] at hx
      split_ifs at hx with h
      · rw [List.mem_singleton.mp hx]
        trivial
      · cases hx) (by decide) (by decide)
  have hd : (handed (Prog.trace exec (WriteOp.txn [98] 1 .delete [] 0).routine putBetween
      oneKey)).map Event.type = [.delete] := by decide
  have hhanded : handed (Prog.trace exec (WriteOp.txn [98] 1 .delete [] 0).routine putBetween
      oneKey) = [ev] := by
    rw [← hl, ← htrace]
    rfl
  rw [hhanded] at hd
  exact ⟨e, ev, hhanded, hev, by simpa using hd⟩

end REtcd.Server
