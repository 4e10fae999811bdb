import REtcd.Store.Script

/-!
# Stored values and events

`decodeKV` reads a blob, `parseStreamEvent` a stream entry, and `makeEvent` builds the event that
a write hands to the sink out of what its script returned.  Bytes in a blob are unsigned; Go reads
each number as a signed 64-bit one (`toInt64`).
-/

namespace REtcd.Store

open Base

structure KeyValue where
  key : Key
  value : Bytes
  createRevision : ℤ
  modRevision : ℤ
  version : ℤ
  lease : ℤ
  deriving DecidableEq, Repr

/-- Go's `int64(n)` of an unsigned 64-bit number. -/
def toInt64 (n : ℤ) : ℤ := if n < 2 ^ 63 then n else n - 2 ^ 64

/-- `int64(binary.BigEndian.Uint64(data[off:off+8]))`. -/
def beInt64 (data : Bytes) (off : ℕ) : ℤ := toInt64 (ofBigEndian ((data.drop off).take 8))

/-- `decodeKV`: `none` for a blob that is too short. -/
def decodeKV (key : Key) (data : Bytes) : Option KeyValue :=
  if data.length < 32 then none
  else some
    { key := key
      createRevision := beInt64 data 0
      modRevision := beInt64 data 8
      version := beInt64 data 16
      lease := beInt64 data 24
      value := data.drop 32 }

/-- A change of one key.  `id` is `none` when the backend gives no stream ID. -/
structure Event where
  type : EventType
  key : Key
  rev : ℤ
  kv : Option KeyValue
  prevKV : Option KeyValue
  createdMs : ℤ
  id : Option StreamID
  deriving DecidableEq, Repr

/-- `parseStreamEvent`: `none` when the revision does not parse. -/
def parseStreamEvent (e : Entry) : Option Event :=
  match parseInt (luaTostring e.rev) with
  | none => none
  | some rev =>
    some
      { type := e.type
        key := e.key
        rev := rev
        kv := if e.type = .put then e.data.bind (decodeKV e.key) else none
        prevKV := e.prevData.bind (fun prev => if prev ≠ [] then decodeKV e.key prev else none)
        createdMs := e.id.ms
        id := some e.id }

def makeEvent (type : EventType) (key : Key) (rev : ℤ) (newBlob prevBlob : Bytes)
    (sid : StreamID) : Event where
  type := type
  key := key
  rev := rev
  kv := if type = .put ∧ 32 ≤ newBlob.length then decodeKV key newBlob else none
  prevKV := if 32 ≤ prevBlob.length then decodeKV key prevBlob else none
  createdMs := sid.ms
  id := some sid

/-! ### What a blob decodes to -/

theorem decodeKV_isSome {key : Key} {data : Bytes} (h : 32 ≤ data.length) :
    (decodeKV key data).isSome := by
  rw [decodeKV, if_neg (by omega)]
  rfl

theorem decodeKV_key {key : Key} {data : Bytes} {kv : KeyValue} (h : decodeKV key data = some kv) :
    kv.key = key := by
  rw [decodeKV] at h
  split_ifs at h
  rw [Option.some.injEq] at h
  rw [← h]

theorem decodeKV_modRevision {key : Key} {data : Bytes} {kv : KeyValue}
    (h : decodeKV key data = some kv) : kv.modRevision = toInt64 (field (some data) 9) := by
  rw [decodeKV] at h
  split_ifs at h with hl
  rw [Option.some.injEq] at h
  rw [← h, field, if_pos (by omega)]
  rfl

theorem toInt64_of_lt {n : ℤ} (h : n < 2 ^ 63) : toInt64 n = n := if_pos h

end REtcd.Store
