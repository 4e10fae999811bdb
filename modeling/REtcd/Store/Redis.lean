import Mathlib.Data.Nat.Log
import Mathlib.Data.Prod.Lex
import REtcd.Base.Bytes
import REtcd.Base.SortedSet

/-!
# The Redis database

What REtcd keeps in Redis, one field for each kind of key, and the Redis commands that the
scripts and the store issue on it:

* `kv:<key>` holds a key's blob, `global:revision` the revision counter, `events` the stream,
  and `keyindex` a sorted set with score 0 throughout, so its order is the byte order of keys;
* `lease:keys:<id>` is the set of keys attached to a lease, `lease:<id>` the lease itself,
  `leases` the set of lease IDs and `lease:id_counter` the last one given out.

The names `kv:`, `lease:`, `lease:keys:` and the fixed ones never meet, so the fields are
independent.  A set's name ends in the text of a number, which Lua and Go write in their own
ways; `NumText` is that text.  Numbers in the scripts are Lua numbers, exact as long as they
are integers below `2 ^ 53`.
-/

namespace REtcd.Store

open Base

abbrev Key := Bytes
abbrev Blob := Bytes

/-- An error as Go reports it, by its text. -/
abbrev GoError := String

/-! ### Numbers as text -/

/-- The text of an integer: its decimal digits, or the 14 digits and the exponent of `%.14g`. -/
inductive NumText where
  | decimal (n : ℤ)
  | scientific (mantissa : ℤ) (exponent : ℕ)
  deriving DecidableEq, Repr

/-- The first 14 digits of `n ≥ 10 ^ 14`, rounded half to even, and the exponent. -/
def scientific (n : ℕ) : ℕ × ℕ :=
  let e := Nat.log 10 n
  let unit := 10 ^ (e - 13)
  let q := n / unit
  let r := n % unit
  let m := if unit < 2 * r ∨ (2 * r = unit ∧ q % 2 = 1) then q + 1 else q
  if m = 10 ^ 14 then (10 ^ 13, e + 1) else (m, e)

/-- Lua's `tostring` of an integer, which prints with `%.14g`. -/
def luaTostring (n : ℤ) : NumText :=
  if n.natAbs < 10 ^ 14 then .decimal n
  else .scientific (n.sign * (scientific n.natAbs).1) (scientific n.natAbs).2

def goDecimal (n : ℤ) : NumText := .decimal n

/-- Go's `strconv.ParseInt(s, 10, 64)`; `none` is its error. -/
def parseInt : NumText → Option ℤ
  | .decimal n => if -2 ^ 63 ≤ n ∧ n < 2 ^ 63 then some n else none
  | .scientific _ _ => none

theorem luaTostring_of_lt {n : ℤ} (h : 0 ≤ n) (h' : n < 10 ^ 14) : luaTostring n = .decimal n := by
  rw [luaTostring, if_pos (by omega)]

theorem parseInt_luaTostring {n : ℤ} (h : 0 ≤ n) (h' : n < 10 ^ 14) :
    parseInt (luaTostring n) = some n := by
  rw [luaTostring_of_lt h h', parseInt, if_pos ⟨by omega, by omega⟩]

/-! ### The stream -/

structure StreamID where
  ms : ℕ
  seq : ℕ
  deriving DecidableEq, Repr

namespace StreamID

def zero : StreamID := ⟨0, 0⟩

def toPair (i : StreamID) : ℕ ×ₗ ℕ := toLex (i.ms, i.seq)

theorem toPair_injective : Function.Injective toPair := by
  rintro ⟨a, b⟩ ⟨c, d⟩ h
  have : (a, b) = (c, d) := h
  simpa using this

instance : LinearOrder StreamID := LinearOrder.lift' toPair toPair_injective

theorem lt_iff {i j : StreamID} : i < j ↔ i.ms < j.ms ∨ i.ms = j.ms ∧ i.seq < j.seq :=
  Prod.Lex.toLex_lt_toLex

/-- The ID that `XADD *` gives at time `now` after `last`. -/
def next (now : ℕ) (last : StreamID) : StreamID :=
  if last.ms < now then ⟨now, 0⟩ else ⟨last.ms, last.seq + 1⟩

theorem lt_next (now : ℕ) (last : StreamID) : last < last.next now := by
  rw [lt_iff, next]
  split_ifs with h
  · exact Or.inl h
  · exact Or.inr ⟨rfl, Nat.lt_succ_self _⟩

end StreamID

/-- `PUT` or `DELETE`: the scripts' operation and the events' type. -/
inductive EventType where
  | put
  | delete
  deriving DecidableEq, Repr

/-- A stream entry.  `rev` is the number whose `tostring` the field `rev` holds; a missing
field is `none`. -/
structure Entry where
  id : StreamID
  type : EventType
  key : Key
  rev : ℤ
  data : Option Blob
  prevData : Option Blob
  deriving DecidableEq, Repr

/-! ### The database -/

/-- `lease:<id>`: the TTL it holds and the expiry it was given, in nanoseconds. -/
structure LeaseData where
  ttl : ℤ
  expiry : ℤ
  deriving DecidableEq, Repr

/-- The whole seconds of a duration, as the client hands them to `EXPIRE`: less than a second counts
as one. -/
def formatSec (dur : ℤ) : ℤ := if 0 < dur ∧ dur < 10 ^ 9 then 1 else dur.tdiv (10 ^ 9)

/-- A lease that is given a new expiry; without time left it is gone. -/
def LeaseData.expire (dur : ℤ) (d : LeaseData) : Option LeaseData :=
  if 0 < formatSec dur then some { d with expiry := formatSec dur * 10 ^ 9 } else none

structure Redis where
  kv : Key → Option Blob
  revision : Option ℤ
  events : List Entry
  keyindex : SortedSet Key
  leaseKeys : NumText → SortedSet Key
  leaseData : ℤ → Option LeaseData
  leases : SortedSet ℤ
  leaseIDCounter : ℤ

namespace Redis

def empty : Redis where
  kv := fun _ => none
  revision := some 0
  events := []
  keyindex := .empty
  leaseKeys := fun _ => .empty
  leaseData := fun _ => none
  leases := .empty
  leaseIDCounter := 0

/-- The revision counter; a missing key counts as 0. -/
def counter (s : Redis) : ℤ := s.revision.getD 0

/-- `INCR global:revision`; `none` is the overflow error at the end of the 64-bit range. -/
def incr (s : Redis) : Option (ℤ × Redis) :=
  if s.counter < 2 ^ 63 - 1 then
    some (s.counter + 1, { s with revision := some (s.counter + 1) })
  else none

def set (key : Key) (blob : Blob) (s : Redis) : Redis :=
  { s with kv := Function.update s.kv key (some blob) }

def del (key : Key) (s : Redis) : Redis := { s with kv := Function.update s.kv key none }

def zadd (key : Key) (s : Redis) : Redis := { s with keyindex := s.keyindex.insert key }

def zrem (key : Key) (s : Redis) : Redis := { s with keyindex := s.keyindex.erase key }

def sadd (name : NumText) (key : Key) (s : Redis) : Redis :=
  { s with leaseKeys := Function.update s.leaseKeys name ((s.leaseKeys name).insert key) }

def srem (name : NumText) (key : Key) (s : Redis) : Redis :=
  { s with leaseKeys := Function.update s.leaseKeys name ((s.leaseKeys name).erase key) }

def lastID (s : Redis) : StreamID := (s.events.getLast?.map Entry.id).getD .zero

/-- `XADD events *`: the new entry's ID and the database with it. -/
def xadd (now : ℕ) (type : EventType) (key : Key) (rev : ℤ) (data prevData : Option Blob)
    (s : Redis) : StreamID × Redis :=
  let sid := s.lastID.next now
  (sid, { s with events := s.events ++ [⟨sid, type, key, rev, data, prevData⟩] })

end Redis

end REtcd.Store
