import REtcd.Store.RedisStore

/-!
# The KV and Lease services

`KVServer` answers `Put`, `Range`, `DeleteRange` and `Txn` with the routines of the store.  A
transaction of one of the two shapes that Kubernetes sends goes to the compare-and-swap script
(`create`, `update`); any other is evaluated operation by operation (`genericTxn`).

`Request` collects what can be asked of the server, with the passing of a lease's TTL as one more
thing that happens on its own, and `Request.serve` is the routine that a request runs.
-/

namespace REtcd.Server

open Base Store

/-! ### Messages -/

structure ResponseHeader where
  clusterId : ℕ
  memberId : ℕ
  revision : ℤ
  deriving DecidableEq, Repr

def headerAt (rev : ℤ) : ResponseHeader := ⟨1, 1, rev⟩

structure PutRequest where
  key : Key
  value : Bytes
  lease : ℤ
  prevKv : Bool
  deriving DecidableEq, Repr

structure PutResponse where
  header : ResponseHeader
  prevKv : Option KeyValue
  deriving DecidableEq, Repr

structure RangeRequest where
  key : Key
  rangeEnd : Key
  countOnly : Bool
  deriving DecidableEq, Repr

structure RangeResponse where
  header : ResponseHeader
  kvs : List KeyValue
  count : ℕ
  deriving DecidableEq, Repr

structure DeleteRangeRequest where
  key : Key
  rangeEnd : Key
  deriving DecidableEq, Repr

structure DeleteRangeResponse where
  header : ResponseHeader
  deleted : ℕ
  deriving DecidableEq, Repr

/-- `Compare.CompareTarget`; a value compare and a lease compare are in `other`. -/
inductive CompareTarget where
  | version
  | create
  | mod
  | other
  deriving DecidableEq, Repr

/-- `Compare.CompareResult`; a number outside the enumeration is `other`. -/
inductive CompareResult where
  | equal
  | greater
  | less
  | notEqual
  | other
  deriving DecidableEq, Repr

/-- The `oneof` that carries what a compare compares with. -/
inductive TargetUnion where
  | version (n : ℤ)
  | createRevision (n : ℤ)
  | modRevision (n : ℤ)
  | other
  deriving DecidableEq, Repr

structure Compare where
  result : CompareResult
  target : CompareTarget
  key : Key
  targetUnion : TargetUnion
  deriving DecidableEq, Repr

namespace Compare

def getVersion (c : Compare) : ℤ :=
  match c.targetUnion with
  | .version n => n
  | _ => 0

def getCreateRevision (c : Compare) : ℤ :=
  match c.targetUnion with
  | .createRevision n => n
  | _ => 0

def getModRevision (c : Compare) : ℤ :=
  match c.targetUnion with
  | .modRevision n => n
  | _ => 0

end Compare

/-- An operation of a transaction; a nested transaction is `other`. -/
inductive RequestOp where
  | put (r : PutRequest)
  | range (r : RangeRequest)
  | deleteRange (r : DeleteRangeRequest)
  | other
  deriving DecidableEq, Repr

inductive ResponseOp where
  | put (r : PutResponse)
  | range (r : RangeResponse)
  | deleteRange (r : DeleteRangeResponse)
  | other
  deriving DecidableEq, Repr

structure TxnRequest where
  compare : List Compare
  success : List RequestOp
  failure : List RequestOp
  deriving DecidableEq, Repr

structure TxnResponse where
  header : ResponseHeader
  succeeded : Bool
  responses : List ResponseOp
  deriving DecidableEq, Repr

namespace KVServer

/-- `header`: the current revision, 0 if it cannot be read. -/
def header : Routine ResponseHeader := do
  match ← RedisStore.currentRevision with
  | .error _ => return headerAt 0
  | .ok rev => return headerAt rev

def put (req : PutRequest) : Routine (Result PutResponse) := do
  match ← RedisStore.put req.key req.value req.lease with
  | .error err => return .error err
  | .ok (rev, prevKV) => return .ok ⟨headerAt rev, if req.prevKv then prevKV else none⟩

/-! ### Range -/

/-- `commonPrefix`: the longest common beginning of two keys. -/
def commonPrefix : Key → Key → Key
  | a :: as, b :: bs => if a = b then a :: commonPrefix as bs else []
  | _, _ => []

/-- The range end that asks for every key from the start key on. -/
def fromKey : Key := [0]

/-- The filter that `Range` and `DeleteRange` put after the scan. -/
def inRange (key rangeEnd : Key) (kv : KeyValue) : Bool :=
  decide (key ≤ kv.key) && (decide (rangeEnd = fromKey) || decide (kv.key < rangeEnd))

def rangeResponse (req : RangeRequest) (rev : ℤ) (kvs : List KeyValue) : RangeResponse :=
  ⟨headerAt rev, if req.countOnly then [] else kvs, kvs.length⟩

/-- The larger of a value's mod revision and the counter, as far as they are there. -/
def singleRev (kv : Option KeyValue) (cur : Except GoError ℤ) : ℤ :=
  let rev := (kv.map KeyValue.modRevision).getD 0
  match cur with
  | .ok curRev => if rev < curRev then curRev else rev
  | .error _ => rev

def range (req : RangeRequest) : Routine (Result RangeResponse) :=
  if req.rangeEnd = [] then do
    match ← RedisStore.get req.key with
    | .error err => return .error err
    | .ok kv =>
      let cur ← RedisStore.currentRevision
      return .ok (rangeResponse req (singleRev kv cur) kv.toList)
  else do
    match ← RedisStore.range (commonPrefix req.key req.rangeEnd) with
    | .error err => return .error err
    | .ok (rev, all) =>
      return .ok (rangeResponse req rev (all.filter (inRange req.key req.rangeEnd)))

/-! ### DeleteRange -/

/-- The loop of `DeleteRange` over the scanned keys; `deleted` counts. -/
def deleteLoop (key rangeEnd : Key) : List KeyValue → ℕ → Routine (Result ℕ)
  | [], deleted => .ret (.ok deleted)
  | kv :: kvs, deleted =>
    if inRange key rangeEnd kv then do
      match ← RedisStore.delete kv.key with
      | .error err => return .error err
      | .ok _ => deleteLoop key rangeEnd kvs (deleted + 1)
    else deleteLoop key rangeEnd kvs deleted

/-- `DeleteRange` up to its header. -/
def deleteKeys (req : DeleteRangeRequest) : Routine (Result ℕ) :=
  if req.rangeEnd = [] then do
    match ← RedisStore.delete req.key with
    | .error err => return .error err
    | .ok (_, prev) => return .ok (if prev.isSome then 1 else 0)
  else do
    match ← RedisStore.range (commonPrefix req.key req.rangeEnd) with
    | .error err => return .error err
    | .ok (_, kvs) => deleteLoop req.key req.rangeEnd kvs 0

def deleteRange (req : DeleteRangeRequest) : Routine (Result DeleteRangeResponse) := do
  match ← deleteKeys req with
  | .error err => return .error err
  | .ok deleted =>
    let h ← header
    return .ok ⟨h, deleted⟩

/-! ### Txn -/

/-- `isCreate`: the put of a create-only transaction. -/
def isCreate (req : TxnRequest) : Option PutRequest :=
  match req.compare, req.success, req.failure with
  | [c], [.put p], [] =>
    if c.target = .mod ∧ c.result = .equal ∧ c.getModRevision = 0 then some p else none
  | _, _, _ => none

/-- `isUpdate`: expected mod revision, key, value and lease of an update. -/
def isUpdate (req : TxnRequest) : Option (ℤ × Key × Bytes × ℤ) :=
  match req.compare, req.success, req.failure with
  | [c], [.put p], [.range _] =>
    if c.target = .mod ∧ c.result = .equal then some (c.getModRevision, c.key, p.value, p.lease)
    else none
  | _, _, _ => none

def create (p : PutRequest) : Routine (Result TxnResponse) := do
  match ← RedisStore.txn p.key (-1) .put p.value p.lease with
  | .error err => return .error err
  | .ok res =>
    return .ok ⟨headerAt res.revision, res.succeeded,
      if res.succeeded then [.put ⟨headerAt res.revision, none⟩] else []⟩

def update (key : Key) (expectedRev : ℤ) (value : Bytes) (lease : ℤ) : Routine (Result TxnResponse) := do
  match ← RedisStore.txn key expectedRev .put value lease with
  | .error err => return .error err
  | .ok res =>
    return .ok ⟨headerAt res.revision, res.succeeded,
      if res.succeeded then [.put ⟨headerAt res.revision, none⟩]
      else [.range ⟨headerAt res.revision, res.current.toList, res.current.toList.length⟩]⟩

def holds (result : CompareResult) (actual expected : ℤ) : Bool :=
  match result with
  | .equal => decide (actual = expected)
  | .notEqual => decide (actual ≠ expected)
  | .greater => decide (expected < actual)
  | .less => decide (actual < expected)
  | .other => false

/-- What `evalCompare` decides about the value it read. -/
def compareKV (c : Compare) (kv : Option KeyValue) : Bool :=
  match c.target with
  | .version => holds c.result ((kv.map KeyValue.version).getD 0) c.getVersion
  | .mod => holds c.result ((kv.map KeyValue.modRevision).getD 0) c.getModRevision
  | .create => holds c.result ((kv.map KeyValue.createRevision).getD 0) c.getCreateRevision
  | .other => false

def evalCompare (c : Compare) : Routine (Result Bool) := do
  match ← RedisStore.get c.key with
  | .error err => return .error err
  | .ok kv => return .ok (compareKV c kv)

/-- `evalCompares`: stops at the first compare that fails. -/
def evalCompares : List Compare → Routine (Result Bool)
  | [] => .ret (.ok true)
  | c :: cs => do
    match ← evalCompare c with
    | .error err => return .error err
    | .ok false => return .ok false
    | .ok true => evalCompares cs

def executeOp : RequestOp → Routine (Result ResponseOp)
  | .put p => do
    match ← RedisStore.put p.key p.value p.lease with
    | .error err => return .error err
    | .ok (rev, _) => return .ok (.put ⟨headerAt rev, none⟩)
  | .range r => do
    match ← range r with
    | .error err => return .error err
    | .ok resp => return .ok (.range resp)
  | .deleteRange r => do
    match ← deleteRange r with
    | .error err => return .error err
    | .ok resp => return .ok (.deleteRange resp)
  | .other => .ret (.ok .other)

/-- The loop of `genericTxn` over its operations. -/
def executeOps : List RequestOp → Routine (Result (List ResponseOp))
  | [] => .ret (.ok [])
  | op :: ops => do
    match ← executeOp op with
    | .error err => return .error err
    | .ok resp =>
      match ← executeOps ops with
      | .error err => return .error err
      | .ok resps => return .ok (resp :: resps)

def genericTxn (req : TxnRequest) : Routine (Result TxnResponse) := do
  match ← evalCompares req.compare with
  | .error err => return .error err
  | .ok succeeded =>
    match ← executeOps (if succeeded then req.success else req.failure) with
    | .error err => return .error err
    | .ok results =>
      let h ← header
      return .ok ⟨h, succeeded, results⟩

def txn (req : TxnRequest) : Routine (Result TxnResponse) :=
  match isCreate req with
  | some p => create p
  | none =>
    match isUpdate req with
    | some (rev, key, value, lease) => update key rev value lease
    | none => genericTxn req

end KVServer

/-- `matchesWatch`: the keys that a key and a range end ask for. -/
def matchesWatch (eventKey key rangeEnd : Key) : Bool :=
  if rangeEnd = [] then decide (eventKey = key)
  else if rangeEnd = KVServer.fromKey then decide (key ≤ eventKey)
  else decide (key ≤ eventKey) && decide (eventKey < rangeEnd)

/-! ### LeaseServer -/

structure LeaseGrantResponse where
  header : ResponseHeader
  id : ℤ
  ttl : ℤ
  deriving DecidableEq, Repr

structure LeaseKeepAliveResponse where
  header : ResponseHeader
  id : ℤ
  ttl : ℤ
  deriving DecidableEq, Repr

namespace LeaseServer

/-- `LeaseGrant`: a TTL that is not positive becomes 30 seconds. -/
def leaseGrant (reqTTL : ℤ) : Routine (Result LeaseGrantResponse) := do
  let ttl := if reqTTL ≤ 0 then 30 else reqTTL
  match ← RedisStore.leaseGrant ttl with
  | .error err => return .error err
  | .ok id => return .ok ⟨headerAt 0, id, ttl⟩

def leaseRevoke (id : ℤ) : Routine (Result ResponseHeader) := do
  match ← RedisStore.leaseRevoke id with
  | .error err => return .error err
  | .ok _ => return .ok (headerAt 0)

/-- One request of a `LeaseKeepAlive` stream and its reply; every error becomes a TTL of 0. -/
def leaseKeepAlive (id : ℤ) : Routine LeaseKeepAliveResponse := do
  match ← RedisStore.leaseRenew id with
  | .error _ => return ⟨headerAt 0, id, 0⟩
  | .ok ttl => return ⟨headerAt 0, id, ttl⟩

end LeaseServer

/-! ### Requests -/

/-- What the server can be asked, a pass of the lease reaper, and the end of a lease's TTL. -/
inductive Request where
  | put (req : PutRequest)
  | range (req : RangeRequest)
  | deleteRange (req : DeleteRangeRequest)
  | txn (req : TxnRequest)
  | leaseGrant (ttl : ℤ)
  | leaseRevoke (id : ℤ)
  | leaseKeepAlive (id : ℤ)
  | reap
  | expire (id : ℤ)
  deriving DecidableEq, Repr

inductive Answer where
  | put (r : Except GoError PutResponse)
  | range (r : Except GoError RangeResponse)
  | deleteRange (r : Except GoError DeleteRangeResponse)
  | txn (r : Except GoError TxnResponse)
  | leaseGrant (r : Except GoError LeaseGrantResponse)
  | leaseRevoke (r : Except GoError ResponseHeader)
  | leaseKeepAlive (r : LeaseKeepAliveResponse)
  | done

def Request.serve : Request → Routine Answer
  | put req => Answer.put <$> KVServer.put req
  | range req => Answer.range <$> KVServer.range req
  | deleteRange req => Answer.deleteRange <$> KVServer.deleteRange req
  | txn req => Answer.txn <$> KVServer.txn req
  | leaseGrant ttl => Answer.leaseGrant <$> LeaseServer.leaseGrant ttl
  | leaseRevoke id => Answer.leaseRevoke <$> LeaseServer.leaseRevoke id
  | leaseKeepAlive id => Answer.leaseKeepAlive <$> LeaseServer.leaseKeepAlive id
  | reap => (fun _ => Answer.done) <$> RedisStore.reapExpiredLeases
  | expire id => .call (.expireLease id) (fun _ => .ret .done)

end REtcd.Server
