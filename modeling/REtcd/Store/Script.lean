import REtcd.Store.Redis

/-!
# The Lua scripts

`writeLua` is `write.lua`, the unconditional put or delete of one key, and `txnLua` is
`txn.lua`, the compare-and-swap of one key.  Redis runs a script at once, so each is one function
from the database to the script's result and the new database; `now` is the clock that `XADD *`
reads.

A script that raises an error is not rolled back.  There are two ways to get one: the counter is
at the end of its range, where `INCR` fails before anything is written, and `txn.lua` deletes a
key that is absent, where `XADD` refuses the missing pre-image after the counter has moved.
-/

namespace REtcd.Store

open Base

/-- `enc64`: eight big-endian bytes. -/
def enc64 (v : ℤ) : Bytes := bigEndian 8 v

/-- `dec64(s, off)`: the eight bytes from the 1-based offset `off` on. -/
def dec64 (s : Bytes) (off : ℕ) : ℤ := ofBigEndian ((s.drop (off - 1)).take 8)

/-- The blob layout: create revision, mod revision, version, lease, value. -/
def blob (createRev modRev version lease : ℤ) (value : Bytes) : Blob :=
  enc64 createRev ++ enc64 modRev ++ enc64 version ++ enc64 lease ++ value

/-- A number field of a blob that may be missing or too short. -/
def field (raw : Option Blob) (off : ℕ) : ℤ :=
  match raw with
  | some raw => if 32 ≤ raw.length then dec64 raw off else 0
  | none => 0

/-- What `INCR` reports when the counter is at the end of the 64-bit range. -/
def incrOverflow : GoError := "ERR increment or decrement would overflow"

/-- What `redis.call` reports when an argument is neither a string nor a number. -/
def badArgument : GoError := "ERR Lua redis lib command arguments must be strings or integers"

/-! ### write.lua -/

/-- The arguments of `write.lua`. -/
structure WriteArgs where
  key : Key
  op : EventType
  value : Bytes
  lease : ℤ
  deriving DecidableEq, Repr

/-- The result of `write.lua`; a missing blob is empty and a missing stream ID `none`. -/
structure WriteReply where
  rev : NumText
  existing : Bytes
  newBlob : Bytes
  sid : Option StreamID
  deriving DecidableEq, Repr

/-- `write.lua`, the branch that deletes a present key. -/
def writeDelete (now : ℕ) (a : WriteArgs) (raw : Blob) (s : Redis) :
    Except GoError WriteReply × Redis :=
  let curLease := field (some raw) 25
  match s.incr with
  | none => (.error incrOverflow, s)
  | some (newRev, s) =>
    let s := (s.del a.key).zrem a.key
    let s := if curLease ≠ 0 then s.srem (luaTostring curLease) a.key else s
    let (sid, s) := s.xadd now .delete a.key newRev none (some raw)
    (.ok ⟨luaTostring newRev, raw, [], some sid⟩, s)

/-- `write.lua`, the branch that puts. -/
def writePut (now : ℕ) (a : WriteArgs) (currentRaw : Option Blob) (s : Redis) :
    Except GoError WriteReply × Redis :=
  let curLease := field currentRaw 25
  match s.incr with
  | none => (.error incrOverflow, s)
  | some (newRev, s) =>
    let (createRev, version) :=
      match currentRaw with
      | some raw => if 32 ≤ raw.length then (dec64 raw 1, dec64 raw 17 + 1) else (newRev, 1)
      | none => (newRev, 1)
    let newBlob := blob createRev newRev version a.lease a.value
    let s := (s.set a.key newBlob).zadd a.key
    let s := if curLease ≠ 0 ∧ curLease ≠ a.lease then s.srem (luaTostring curLease) a.key else s
    let s := if a.lease ≠ 0 then s.sadd (luaTostring a.lease) a.key else s
    let (sid, s) := s.xadd now .put a.key newRev (some newBlob) currentRaw
    (.ok ⟨luaTostring newRev, currentRaw.getD [], newBlob, some sid⟩, s)

def writeLua (now : ℕ) (a : WriteArgs) (s : Redis) : Except GoError WriteReply × Redis :=
  match a.op, s.kv a.key with
  -- nothing to delete: the revision stays as it is
  | .delete, none => (.ok ⟨luaTostring s.counter, [], [], none⟩, s)
  | .delete, some raw => writeDelete now a raw s
  | .put, currentRaw => writePut now a currentRaw s

/-! ### txn.lua -/

/-- The arguments of `txn.lua`; `expected = -1` asks that the key be absent. -/
structure TxnArgs where
  key : Key
  expected : ℤ
  value : Bytes
  op : EventType
  lease : ℤ
  deriving DecidableEq, Repr

/-- The result of `txn.lua`; a failed compare gives only the first three parts. -/
structure TxnReply where
  succeeded : Bool
  blob : Bytes
  rev : NumText
  newBlob : Bytes
  sid : Option StreamID
  deriving DecidableEq, Repr

def txnCompare (expected : ℤ) (currentRaw : Option Blob) : Bool :=
  if expected = -1 then currentRaw.isNone else field currentRaw 9 = expected

/-- `txn.lua` after a compare that holds, the branch that deletes. -/
def txnDelete (now : ℕ) (a : TxnArgs) (currentRaw : Option Blob) (s : Redis) :
    Except GoError TxnReply × Redis :=
  match s.incr with
  | none => (.error incrOverflow, s)
  | some (newRev, s) =>
    let s := (s.del a.key).zrem a.key
    match currentRaw with
    | none => (.error badArgument, s)
    | some raw =>
      let (sid, s) := s.xadd now .delete a.key newRev none (some raw)
      (.ok ⟨true, raw, luaTostring newRev, [], some sid⟩, s)

/-- `txn.lua` after a compare that holds, the branch that puts. -/
def txnPut (now : ℕ) (a : TxnArgs) (currentRaw : Option Blob) (s : Redis) :
    Except GoError TxnReply × Redis :=
  match s.incr with
  | none => (.error incrOverflow, s)
  | some (newRev, s) =>
    let createRev := if currentRaw.isSome then field currentRaw 1 else newRev
    let version := if currentRaw.isSome then field currentRaw 17 + 1 else 1
    let newBlob := blob createRev newRev version a.lease a.value
    let s := (s.set a.key newBlob).zadd a.key
    let (sid, s) := s.xadd now .put a.key newRev (some newBlob) currentRaw
    (.ok ⟨true, currentRaw.getD [], luaTostring newRev, newBlob, some sid⟩, s)

def txnLua (now : ℕ) (a : TxnArgs) (s : Redis) : Except GoError TxnReply × Redis :=
  let curGlobalRev := if s.counter < 1 then 1 else s.counter
  let currentRaw := s.kv a.key
  if txnCompare a.expected currentRaw then
    match a.op with
    | .delete => txnDelete now a currentRaw s
    | .put => txnPut now a currentRaw s
  else (.ok ⟨false, currentRaw.getD [], luaTostring curGlobalRev, [], none⟩, s)

/-! ### Fields of a blob -/

@[simp] theorem enc64_length (v : ℤ) : (enc64 v).length = 8 := bigEndian_length 8 v

theorem dec_enc64 {v : ℤ} (h : 0 ≤ v) (h' : v < 2 ^ 64) : ofBigEndian (enc64 v) = v := by
  rw [enc64, ofBigEndian_bigEndian]
  exact Int.emod_eq_of_lt h (by norm_num; exact h')

theorem blob_length (c m v l : ℤ) (value : Bytes) : 32 ≤ (blob c m v l value).length := by
  simp only [blob, List.length_append, enc64_length]
  omega

theorem dec64_append {pre post : Bytes} {v : ℤ} {off : ℕ} (hoff : off = pre.length + 1) (h : 0 ≤ v)
    (h' : v < 2 ^ 64) : dec64 (pre ++ enc64 v ++ post) off = v := by
  rw [dec64, hoff, Nat.add_sub_cancel, List.append_assoc, List.drop_left,
    List.take_left' (enc64_length v), dec_enc64 h h']

theorem field_blob (c m v l : ℤ) (value : Bytes) (off : ℕ) :
    field (some (blob c m v l value)) off = dec64 (blob c m v l value) off := by
  rw [field, if_pos (blob_length c m v l value)]

section Words

variable {c m v l : ℤ} {value : Bytes}

theorem dec64_blob_create (h : 0 ≤ c) (h' : c < 2 ^ 64) : dec64 (blob c m v l value) 1 = c := by
  have hb : blob c m v l value = [] ++ enc64 c ++ (enc64 m ++ enc64 v ++ enc64 l ++ value) := by
    simp only [blob, List.append_assoc, List.nil_append]
  rw [hb]
  exact dec64_append rfl h h'

theorem dec64_blob_mod (h : 0 ≤ m) (h' : m < 2 ^ 64) : dec64 (blob c m v l value) 9 = m := by
  have hb : blob c m v l value = enc64 c ++ enc64 m ++ (enc64 v ++ enc64 l ++ value) := by
    simp only [blob, List.append_assoc]
  rw [hb, dec64_append (by simp) h h']

theorem dec64_blob_version (h : 0 ≤ v) (h' : v < 2 ^ 64) :
    dec64 (blob c m v l value) 17 = v := by
  have hb : blob c m v l value = (enc64 c ++ enc64 m) ++ enc64 v ++ (enc64 l ++ value) := by
    simp only [blob, List.append_assoc]
  rw [hb, dec64_append (by simp) h h']

theorem dec64_blob_lease (h : 0 ≤ l) (h' : l < 2 ^ 64) : dec64 (blob c m v l value) 25 = l := by
  rw [blob, dec64_append (by simp) h h']

end Words

end REtcd.Store
