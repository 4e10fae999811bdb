import REtcd.Store.Command

/-!
# RedisStore

The store that the server runs on: `put`, `get`, `range`, `delete` and `txn` are each one script
or one or two plain commands, `currentRevision` and `rawRevision` read the counter, and the lease
routines keep `lease:keys:<id>` and `leases`.

A write that appended an event hands the event to the sink as its last step (`emit`), after the
script has returned.
-/

namespace REtcd.Store.RedisStore

open Base

/-- The bytes of a key in an error text, one character each. -/
def keyText (key : Key) : String := String.ofList (key.map fun b => Char.ofNat b.toNat)

/-! ### Range bounds -/

/-- `lexSuccessor`: drop the trailing `0xff` bytes and increment the last one left. -/
def lexSuccessor (s : Key) : Option Key :=
  match s.reverse.dropWhile (· = 0xff) with
  | [] => none
  | b :: rest => some ((b + 1) :: rest).reverse

def prefixLexRange (pre : Key) : LexBound × LexBound :=
  if pre = [] then (.minusInf, .plusInf)
  else match lexSuccessor pre with
    | none => (.incl pre, .plusInf)
    | some next => (.incl pre, .excl next)

/-! ### Reading -/

def rawRevision : Routine (Result ℤ) := do
  match ← issue .getRevision with
  | .error err => return .error err
  | .ok none => return .ok 0
  | .ok (some n) => return .ok (if n < 0 then 0 else n)

def currentRevision : Routine (Result ℤ) := do
  match ← issue .getRevision with
  | .error err => return .error err
  | .ok none => return .ok 1
  | .ok (some rev) => return .ok (if rev < 1 then 1 else rev)

def get (key : Key) : Routine (Result (Option KeyValue)) := do
  match ← issue (.get key) with
  | .error err => return .error ("get " ++ keyText key ++ ": " ++ err)
  | .ok none => return .ok none
  | .ok (some data) => return .ok (decodeKV key data)

/-- The revision that `Range` reports for its reply of `GET global:revision`. -/
def rangeRev : Except GoError (Option ℤ) → ℤ
  | .ok (some v) => if 1 ≤ v then v else 1
  | _ => 1

/-- The values that `Range` builds from the keys and their blobs. -/
def decodeAll (matched : List Key) (vals : List (Option Blob)) : List KeyValue :=
  (matched.zip vals).filterMap (fun x => x.2.bind (decodeKV x.1))

/-- `Range`: the keys that begin with `pre`, and the revision. -/
def range (pre : Key) : Routine (Result (ℤ × List KeyValue)) := do
  let rangeCmd ← issue (.zrangeByLex (prefixLexRange pre).1 (prefixLexRange pre).2)
  let revCmd ← issue .getRevision
  match rangeCmd with
  | .error err => return .error ("zrangebylex keyindex: " ++ err)
  | .ok matched =>
    if matched = [] then return .ok (rangeRev revCmd, [])
    else
      match ← issue (.mget matched) with
      | .error err => return .error ("mget: " ++ err)
      | .ok vals => return .ok (rangeRev revCmd, decodeAll matched vals)

/-! ### Writing -/

/-- `emit`: nothing for a write that appended no event. -/
def emit (type : EventType) (key : Key) (rev : ℤ) (newBlob prevBlob : Bytes)
    (sid : Option StreamID) : Routine Unit :=
  match sid with
  | none => .ret ()
  | some sid =>
    if rev ≤ 0 then .ret ()
    else .call (.emit (makeEvent type key rev newBlob prevBlob sid)) (fun _ => .ret ())

/-- `scriptRev`: the revision in a script's result, 0 if it does not parse. -/
def scriptRev (rev : NumText) : ℤ := (parseInt rev).getD 0

/-- A pre-image that a script returned; the empty string stands for none. -/
def preImage (key : Key) (raw : Bytes) : Option KeyValue := if raw ≠ [] then decodeKV key raw else none

/-- `Put`: the new revision and the overwritten value. -/
def put (key : Key) (value : Bytes) (leaseID : ℤ) : Routine (Result (ℤ × Option KeyValue)) := do
  match ← issue (.evalWrite ⟨key, .put, value, leaseID⟩) with
  | .error err => return .error ("put script: " ++ err)
  | .ok res =>
    emit .put key (scriptRev res.rev) res.newBlob res.existing res.sid
    return .ok (scriptRev res.rev, preImage key res.existing)

/-- `Delete`: the revision and the deleted value. -/
def delete (key : Key) : Routine (Result (ℤ × Option KeyValue)) := do
  match ← issue (.evalWrite ⟨key, .delete, [], 0⟩) with
  | .error err => return .error ("delete script: " ++ err)
  | .ok res =>
    emit .delete key (scriptRev res.rev) [] res.existing res.sid
    return .ok (scriptRev res.rev, preImage key res.existing)

/-- `TxnResult`; `current` is set when the compare fails. -/
structure TxnResult where
  succeeded : Bool
  revision : ℤ
  current : Option KeyValue
  deriving DecidableEq, Repr

/-- The revision of a `TxnResult`: a counter read stands in for one that does not parse. -/
def txnRevision (rev : NumText) : Routine ℤ :=
  if scriptRev rev = 0 then do
    match ← currentRevision with
    | .error _ => return 0
    | .ok v => return v
  else .ret (scriptRev rev)

def txn (key : Key) (expectedModRevision : ℤ) (successOp : EventType) (newValue : Bytes)
    (leaseID : ℤ) : Routine (Result TxnResult) := do
  match ← issue (.evalTxn ⟨key, expectedModRevision, newValue, successOp, leaseID⟩) with
  | .error err => return .error ("txn script: " ++ err)
  | .ok res =>
    let revision ← txnRevision res.rev
    if res.succeeded then
      emit successOp key revision res.newBlob res.blob res.sid
      return .ok ⟨true, revision, none⟩
    else return .ok ⟨false, revision, decodeKV key res.blob⟩

/-! ### Leases -/

def pipeErr : List (Except GoError Unit) → Except GoError Unit
  | [] => .ok ()
  | .ok _ :: rest => pipeErr rest
  | .error err :: _ => .error err

/-- Go's `time.Duration(ttl) * time.Second`, in nanoseconds with 64-bit wrap-around. -/
def seconds (ttl : ℤ) : ℤ := toInt64 (ttl * 10 ^ 9 % 2 ^ 64)

def leaseGrant (ttl : ℤ) : Routine (Result ℤ) := do
  match ← issue .incrLeaseID with
  | .error err => return .error ("incr lease id: " ++ err)
  | .ok id =>
    let r₁ ← issue (.setLease id ttl (seconds ttl))
    let r₂ ← issue (.saddLease id)
    match pipeErr [r₁, r₂] with
    | .error err => return .error ("lease grant: " ++ err)
    | .ok _ => return .ok id

/-- `LeaseRenew`.  What `EXPIRE` answers is not looked at. -/
def leaseRenew (id : ℤ) : Routine (Result ℤ) := do
  match ← issue (.getLease id) with
  | .error err => return .error ("get lease: " ++ err)
  | .ok none => return .error ("lease " ++ toString id ++ " not found")
  | .ok (some ttlStr) =>
    match parseInt (goDecimal ttlStr) with
    | none => return .error ("parse ttl: strconv.ParseInt: parsing \"" ++ toString ttlStr ++
        "\": value out of range")
    | some ttl =>
      let _ ← issue (.renewLease id (seconds ttl))
      return .ok ttl

/-- The delete loop of `LeaseRevoke`, which stops at the first error. -/
def revokeKeys : List Key → Routine (Result Unit)
  | [] => .ret (.ok ())
  | key :: keys => do
    match ← delete key with
    | .error err => return .error ("delete lease key " ++ keyText key ++ ": " ++ err)
    | .ok _ => revokeKeys keys

def leaseRevoke (id : ℤ) : Routine (Result Unit) := do
  match ← issue (.smembersLeaseKeys id) with
  | .error err => return .error ("smembers lease keys: " ++ err)
  | .ok keys =>
    match ← revokeKeys keys with
    | .error err => return .error err
    | .ok _ =>
      let r₁ ← issue (.delLease id)
      let r₂ ← issue (.delLeaseKeys id)
      let r₃ ← issue (.sremLease id)
      match pipeErr [r₁, r₂, r₃] with
      | .error err => return .error ("lease revoke: " ++ err)
      | .ok _ => return .ok ()

/-- The delete loop of the reaper, which ignores errors. -/
def reapKeys : List Key → Routine Unit
  | [] => .ret ()
  | key :: keys => do
    let _ ← delete key
    reapKeys keys

/-- The body of the reaper's loop, for one lease. -/
def reapLease (id : ℤ) : Routine Unit := do
  match ← issue (.existsLease id) with
  | .error _ => return ()
  | .ok true => return ()
  | .ok false =>
    let keys ← issue (.smembersLeaseKeys id)
    reapKeys (keys.toOption.getD [])
    let _ ← issue (.delLeaseKeys id)
    let _ ← issue (.sremLease id)
    return ()

/-- The loop of the reaper over the lease IDs. -/
def reapLeases : List ℤ → Routine Unit
  | [] => .ret ()
  | id :: ids => do
    reapLease id
    reapLeases ids

def reapExpiredLeases : Routine Unit := do
  match ← issue .smembersLeases with
  | .error _ => return ()
  | .ok ids => reapLeases ids

end REtcd.Store.RedisStore
