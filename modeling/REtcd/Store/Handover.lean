import REtcd.Base.Protocol
import REtcd.Store.Sink

/-!
# Who owes the sink an event

A script that appends an entry leaves its caller with one thing to do: if the answer arrives, the
caller hands the event of the entry to the sink, with its very next step; if the answer is lost, the
event is never handed over.  This is a protocol for the routines of the store (`handover`), whose
state is the event that is owed.  Every routine keeps it, those that write (`Writes.hands`) and those
that do not (`hands_of_plain`), as long as revisions are written in full.
-/

namespace REtcd.Store

open Base

/-- Every command but the call of the sink. -/
def Cmd.Silent : Cmd → Prop
  | .emit _ => False
  | _ => True

/-- Whoever owes an event hands it over, and nobody else calls the sink. -/
def handover : Protocol Cmd Reply World (Option Event) where
  rest := none
  may
    | none, c => c.Silent
    | some ev, c => c = .emit ev
  next
    | none, _, w, r, w' => owing w r w'
    | some _, _, _, _, _ => none

/-- What a command can do while revisions are written in full. -/
def Answers (c : Cmd) (w : World) (r : Reply c) (w' : World) : Prop :=
  Consistent w.redis ∧ (∃ env, exec env c w = (r, w')) ∧ w'.redis.counter < 10 ^ 14

/-- The routine hands over what it owes, and pays its debts before it returns. -/
abbrev Hands {α : Type} (p : Routine α) (o : Option Event) : Prop := p.Obeys handover Answers o

theorem exec_plain (env : Env) {c : Cmd} (hc : c.Plain) (w : World) :
    (exec env c w).2.redis.events = w.redis.events := by
  rcases exec_world env c w with h | h
  · rw [h]
  · rw [h]
    cases c with
    | evalWrite | evalTxn | emit => exact hc.elim
    | incrLeaseID =>
      rw [Cmd.run]
      split_ifs <;> rfl
    | _ => rfl

theorem Cmd.Plain.silent {c : Cmd} (hc : c.Plain) : c.Silent := by
  cases c with
  | emit => exact hc
  | _ => trivial

/-! ### The routines of the store -/

theorem hands_of_plain {α : Type} {p : Routine α} (hp : p.Uses Cmd.Plain) : Hands p none := by
  refine Prog.obeys_of_uses (fun c hc => hc.silent) (fun c w r w' hc hd => ?_) hp
  obtain ⟨_, ⟨env, he⟩, _⟩ := hd
  have := exec_plain env hc w
  rw [he] at this
  exact owing_of_events this

/-- **A routine that writes hands over what it owes.** -/
theorem Writes.hands {α : Type} {wrote : α → Bool} {c : Cmd} {p : Routine (Result α)}
    (h : Writes wrote c p) (hc : c.Silent) : Hands p none := by
  obtain ⟨k, rfl, hk⟩ := h
  refine ⟨hc, fun w r w' ⟨hw, ⟨env, he⟩, hb⟩ => ?_⟩
  show Prog.Obeys handover Answers (owing w r w') _
  rcases hk r env w w' hw he hb with ⟨_, ev, x, _, _, howes, _, hq⟩ | ⟨howes, huses, _⟩
  · rw [howes, hq]
    exact ⟨rfl, fun _ _ _ _ => rfl⟩
  · rw [howes]
    exact hands_of_plain huses

namespace RedisStore

theorem currentRevision_hands : Hands currentRevision none := by
  refine hands_of_plain (Prog.uses_cmd trivial fun r => ?_)
  rcases r with err | _ | rev <;> trivial

theorem get_hands (key : Key) : Hands (get key) none := by
  refine hands_of_plain (Prog.uses_cmd trivial fun r => ?_)
  rcases r with err | _ | data <;> trivial

theorem range_hands (pre : Key) : Hands (range pre) none := by
  refine hands_of_plain (Prog.uses_cmd trivial fun r => Prog.uses_cmd trivial fun r' => ?_)
  cases r with
  | error err => trivial
  | ok matched =>
    dsimp only
    split_ifs
    · trivial
    · refine Prog.uses_cmd trivial fun r'' => ?_
      cases r'' <;> trivial

theorem put_hands (key : Key) (value : Bytes) (leaseID : ℤ) :
    Hands (put key value leaseID) none := (put_writes key value leaseID).hands trivial

theorem delete_hands (key : Key) : Hands (delete key) none := (delete_writes key).hands trivial

theorem txn_hands (key : Key) (expected : ℤ) (op : EventType) (value : Bytes) (leaseID : ℤ) :
    Hands (txn key expected op value leaseID) none :=
  (txn_writes key expected op value leaseID).hands trivial

end RedisStore

end REtcd.Store
