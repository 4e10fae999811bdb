import REtcd.Server.Routing

/-!
# What a reported revision separates

`CurrentRevision`, `Range` and a failed `Txn` report the counter as they read it, but never less
than 1.  Among any other clients, the revision `R` that a client is told is the counter of the
moment of its last read (`reads_client`).  So the writes before that moment have revisions up to
`R` and those after it have revisions above `R`, unless the counter was still 0: then `R` is 1, and
so is the revision of the first write that follows (`report_separates_iff`, `report_first_write`).
-/

namespace REtcd.Store

/-- The commands whose reply can carry the counter to the client. -/
def Cmd.readsCounter : Cmd → Bool
  | .getRevision => true
  | .evalTxn _ => true
  | _ => false

end REtcd.Store

namespace REtcd.Server

open Base Store

/-! ### Clients -/

/-- What a client asks for: a request, or the revision, as the watch server does. -/
inductive Client where
  | request (r : Request)
  | currentRevision
  deriving DecidableEq, Repr

/-- The revision that an answer reports as the current one. -/
def Answer.reportedRev : Answer → Option ℤ
  | range (.ok resp) => some resp.header.revision
  | deleteRange (.ok resp) => some resp.header.revision
  | txn (.ok resp) => if resp.succeeded then none else some resp.header.revision
  | _ => none

def Client.routine : Client → Routine (Option ℤ)
  | request r => Answer.reportedRev <$> r.serve
  | currentRevision => Except.toOption <$> RedisStore.currentRevision

theorem Client.issued (c : Client) : c.routine.Uses Cmd.Issued := by
  cases c with
  | request r => exact Prog.uses_bind (serve_issued r) fun _ => trivial
  | currentRevision =>
    exact Prog.uses_bind (RedisStore.currentRevision_uses fun _ => Cmd.Quiet.issued _)
      fun _ => trivial

def clients (cs : List Client) : Pool Cmd Reply (Option ℤ) World := ⟨.empty, cs.map Client.routine⟩

theorem clients_issued (cs : List Client) : (clients cs).Uses Cmd.Issued := by
  intro p hp
  obtain ⟨c, _, rfl⟩ := List.mem_map.mp hp
  exact c.issued

/-! ### The last read of the counter -/

def Answered (x : Call Cmd Reply World) : Prop := ∃ v, x.reply = .ok v

def lastRead (l : List (Call Cmd Reply World)) : Option (Call Cmd Reply World) :=
  (l.filter fun x => x.cmd.readsCounter).getLast?

/-- The last read of the counter finds a state with `Q`, if it is answered. -/
def Reads (l : List (Call Cmd Reply World)) (Q : Redis → Prop) : Prop :=
  ∃ x, lastRead l = some x ∧ (Answered x → Q x.before.redis)

theorem Reads.mono {l : List (Call Cmd Reply World)} {Q Q' : Redis → Prop} (h : Reads l Q)
    (hQ : ∀ s, Q s → Q' s) : Reads l Q' := by
  obtain ⟨x, hx, hq⟩ := h
  exact ⟨x, hx, fun ha => hQ _ (hq ha)⟩

theorem Reads.prepend {l : List (Call Cmd Reply World)} {Q : Redis → Prop} (h : Reads l Q)
    (l' : List (Call Cmd Reply World)) : Reads (l' ++ l) Q := by
  obtain ⟨x, hx, hq⟩ := h
  refine ⟨x, ?_, hq⟩
  rw [lastRead] at hx ⊢
  rw [List.filter_append, List.getLast?_append, hx]
  rfl

/-- Commands of a history: each was run by Redis in a consistent state, one after the other. -/
structure Genuine (l : List (Call Cmd Reply World)) : Prop where
  run : ∀ x ∈ l, x.cmd.Issued ∧ Consistent x.before.redis ∧
    ∃ env, exec env x.cmd x.before = (x.reply, x.after)
  order : l.Pairwise fun x y => x.after.redis.events <+: y.before.redis.events

theorem Genuine.sublist {l l' : List (Call Cmd Reply World)} (h : Genuine l)
    (hl : l'.Sublist l) : Genuine l' :=
  ⟨fun x hx => h.run x (hl.subset hx), h.order.sublist hl⟩

theorem Genuine.counter_le {x y : Call Cmd Reply World} {l : List (Call Cmd Reply World)}
    (h : Genuine (x :: l)) (hy : y ∈ l) : x.before.redis.counter ≤ y.before.redis.counter := by
  obtain ⟨hi, hx, env, he⟩ := h.run x List.mem_cons_self
  obtain ⟨_, hyc, _⟩ := h.run y (List.mem_cons_of_mem _ hy)
  have hp := exec_isPrefix env x.cmd x.before hi
  rw [he] at hp
  exact counter_le_of_isPrefix hx hyc (hp.trans ((List.pairwise_cons.mp h.order).1 y hy))

section Paths

variable {l : List (Call Cmd Reply World)}

theorem genuine_getRevision {i : ℕ} {v : Option ℤ} {w w' : World}
    (h : Genuine (⟨i, .getRevision, .ok v, w, w'⟩ :: l)) : v = w.redis.revision := by
  obtain ⟨_, _, env, he⟩ := h.run _ List.mem_cons_self
  have := run_of_exec_ok he
  rw [Cmd.run, Prod.mk.injEq, Except.ok.injEq] at this
  exact this.1.symm

theorem reads_currentRevision {y : Result ℤ} (hg : Genuine l)
    (h : Pool.Path RedisStore.currentRevision l (.ret y)) :
    Reads l fun s => y = .ok (reported s) := by
  obtain ⟨i, r, w, w', l', rfl, h₁⟩ := h.cmd
  cases r with
  | error err =>
    obtain ⟨rfl, rfl⟩ := h₁.ret
    refine ⟨_, rfl, ?_⟩
    rintro ⟨v, hv⟩
    cases hv
  | ok v =>
    have hv := genuine_getRevision hg
    cases v with
    | none =>
      obtain ⟨rfl, rfl⟩ := h₁.ret
      refine ⟨_, rfl, fun _ => ?_⟩
      show _ = Except.ok (reported w.redis)
      rw [reported, Redis.counter, ← hv]
      rfl
    | some n =>
      obtain ⟨rfl, rfl⟩ := h₁.ret
      refine ⟨_, rfl, fun _ => ?_⟩
      show _ = Except.ok (reported w.redis)
      rw [reported, Redis.counter, ← hv]
      rfl

theorem reads_header {hd : ResponseHeader} (hg : Genuine l)
    (h : Pool.Path KVServer.header l (.ret hd)) : Reads l fun s => hd = headerAt (reported s) := by
  obtain ⟨y, l₁, l₂, rfl, hcur, h₁⟩ := h.bind
  have hr := reads_currentRevision (hg.sublist (List.sublist_append_left _ _)) hcur
  cases y with
  | error err =>
    obtain ⟨rfl, rfl⟩ := h₁.ret
    rw [List.append_nil]
    exact hr.mono fun s hs => by cases hs
  | ok rev =>
    obtain ⟨rfl, rfl⟩ := h₁.ret
    rw [List.append_nil]
    refine hr.mono fun s hs => ?_
    rw [Except.ok.injEq] at hs
    rw [hs]

/-! ### Range -/

theorem reads_single {req : RangeRequest} {resp : RangeResponse} (hr : req.rangeEnd = [])
    (hg : Genuine l) (h : Pool.Path (KVServer.range req) l (.ret (.ok resp))) :
    Reads l fun s => resp.header.revision = reported s := by
  rw [KVServer.range, if_pos hr] at h
  obtain ⟨y, l₁, l₂, rfl, hget, h₁⟩ := h.bind
  obtain ⟨i, r, w, w', l', rfl, hget₁⟩ := hget.cmd
  have hnil : l' = [] := by
    rcases r with err | _ | data
    · exact hget₁.ret.2
    · exact hget₁.ret.2
    · exact hget₁.ret.2
  subst hnil
  cases y with
  | error err => cases h₁.ret.1
  | ok kv =>
    -- the value is the one that the key has at the first read
    obtain ⟨_, hc, env, he⟩ := hg.run _ List.mem_cons_self
    have hkv : kv = contents w.redis req.key := by
      cases r with
      | error err => cases hget₁.ret.1
      | ok v =>
        have hrun := run_of_exec_ok he
        rw [Cmd.run, Prod.mk.injEq, Except.ok.injEq] at hrun
        rw [contents, hrun.1]
        cases v with
        | none =>
          cases hget₁.ret.1
          rfl
        | some data =>
          cases hget₁.ret.1
          rfl
    obtain ⟨cur, l₃, l₄, rfl, hcur, h₂⟩ := h₁.bind
    obtain ⟨hresp, rfl⟩ := h₂.ret
    rw [Except.ok.injEq] at hresp
    rw [List.append_nil] at hg ⊢
    obtain ⟨x, hx, hq⟩ := reads_currentRevision (hg.sublist (List.sublist_append_right _ _)) hcur
    refine Reads.prepend ⟨x, hx, fun ha => ?_⟩ _
    have hmem : x ∈ l₃ := List.mem_of_mem_filter (List.mem_of_getLast? hx)
    rw [hresp, hq ha, hkv]
    exact singleRev_reported hc (hg.counter_le hmem) req.key

theorem reads_prefixRange {pre : Key} {rev : ℤ} {kvs : List KeyValue} (hg : Genuine l)
    (h : Pool.Path (RedisStore.range pre) l (.ret (.ok (rev, kvs)))) :
    Reads l fun s => rev = reported s := by
  obtain ⟨i, r, w, w', l₁, rfl, h₁⟩ := h.cmd
  obtain ⟨j, q, v, v', l₂, rfl, h₂⟩ := h₁.cmd
  have hrev : Answered ⟨j, .getRevision, q, v, v'⟩ →
      RedisStore.rangeRev q = reported v.redis := by
    intro ha
    cases q with
    | error err =>
      obtain ⟨n, hn⟩ := ha
      cases hn
    | ok n =>
      rw [genuine_getRevision (hg.sublist (List.sublist_cons_self _ _)), rangeRev_reported]
  cases r with
  | error err => cases h₂.ret.1
  | ok matched =>
    dsimp only at h₂
    split_ifs at h₂ with hm
    · obtain ⟨hout, rfl⟩ := h₂.ret
      cases hout
      exact ⟨_, rfl, hrev⟩
    · obtain ⟨k, p, u, u', l₃, rfl, h₃⟩ := h₂.cmd
      cases p with
      | error err => cases h₃.ret.1
      | ok vals =>
        obtain ⟨hout, rfl⟩ := h₃.ret
        cases hout
        exact ⟨_, rfl, hrev⟩

theorem reads_range {req : RangeRequest} {resp : RangeResponse} (hg : Genuine l)
    (h : Pool.Path (KVServer.range req) l (.ret (.ok resp))) :
    Reads l fun s => resp.header.revision = reported s := by
  by_cases hr : req.rangeEnd = []
  · exact reads_single hr hg h
  · rw [KVServer.range, if_neg hr] at h
    obtain ⟨y, l₁, l₂, rfl, hscan, h₁⟩ := h.bind
    rcases y with err | ⟨rev, all⟩
    · cases h₁.ret.1
    · obtain ⟨hresp, rfl⟩ := h₁.ret
      rw [Except.ok.injEq] at hresp
      rw [List.append_nil] at hg ⊢
      rw [hresp]
      exact reads_prefixRange hg hscan

/-! ### DeleteRange and Txn -/

theorem reads_deleteRange {req : DeleteRangeRequest} {resp : DeleteRangeResponse} (hg : Genuine l)
    (h : Pool.Path (KVServer.deleteRange req) l (.ret (.ok resp))) :
    Reads l fun s => resp.header.revision = reported s := by
  obtain ⟨y, l₁, l₂, rfl, _, h₁⟩ := h.bind
  cases y with
  | error err => cases h₁.ret.1
  | ok n =>
    obtain ⟨hd, l₃, l₄, rfl, hhead, h₂⟩ := h₁.bind
    obtain ⟨hresp, rfl⟩ := h₂.ret
    cases hresp
    rw [List.append_nil] at hg ⊢
    refine Reads.prepend ?_ _
    refine (reads_header (hg.sublist (List.sublist_append_right _ _)) hhead).mono fun s hs => ?_
    rw [hs]
    rfl

theorem failed_rev {i : ℕ} {a : TxnArgs} {res : TxnReply} {w w' : World}
    (hg : Genuine (⟨i, .evalTxn a, .ok res, w, w'⟩ :: l)) (hs : res.succeeded = false) :
    res.rev = luaTostring (reported w.redis) := by
  obtain ⟨hop, _, env, he⟩ := hg.run _ List.mem_cons_self
  have hrun := run_of_exec_ok he
  rw [Cmd.run, Prod.mk.injEq] at hrun
  rcases txnLua_cases env.now (a := a) hop w.redis with ⟨_, hl⟩ | ⟨_, hl⟩ | ⟨_, e, _, _, _, hl⟩
  · rw [hl, Except.ok.injEq] at hrun
    rw [← hrun.1]
    rfl
  · rw [hl] at hrun
    cases hrun.1
  · rw [hl, Except.ok.injEq] at hrun
    rw [← hrun.1] at hs
    cases hs

theorem reads_storeTxn {key : Key} {expected : ℤ} {op : EventType} {value : Bytes} {lease : ℤ}
    {out : RedisStore.TxnResult} (hg : Genuine l)
    (h : Pool.Path (RedisStore.txn key expected op value lease) l (.ret (.ok out)))
    (hs : out.succeeded = false) : Reads l fun s => out.revision = reported s := by
  obtain ⟨i, r, w, w', l', rfl, h₁⟩ := h.cmd
  cases r with
  | error err => cases h₁.ret.1
  | ok res =>
    obtain ⟨rev, l₁, l₂, rfl, hrev, h₂⟩ := h₁.bind
    have hfail : res.succeeded = false := by
      cases hres : res.succeeded with
      | false => rfl
      | true =>
        rw [hres, if_pos rfl] at h₂
        obtain ⟨_, _, _, _, _, h₃⟩ := h₂.bind
        cases h₃.ret.1
        cases hs
    rw [hfail, if_neg Bool.false_ne_true] at h₂
    obtain ⟨hout, rfl⟩ := h₂.ret
    cases hout
    rw [List.append_nil] at hg ⊢
    have htext := failed_rev hg hfail
    rw [RedisStore.txnRevision] at hrev
    split_ifs at hrev with hz
    · -- the text does not parse: the counter is read again
      obtain ⟨y, l₃, l₄, rfl, hcur, hrev₁⟩ := hrev.bind
      have hr := reads_currentRevision (hg.sublist
        ((List.sublist_append_left l₃ l₄).trans (List.sublist_cons_self _ _))) hcur
      cases y with
      | error err =>
        obtain ⟨rfl, rfl⟩ := hrev₁.ret
        rw [List.append_nil]
        exact (hr.mono fun s hs => by cases hs).prepend [_]
      | ok n =>
        obtain ⟨rfl, rfl⟩ := hrev₁.ret
        rw [List.append_nil]
        refine (hr.mono fun s hs => ?_).prepend [_]
        rw [Except.ok.injEq] at hs
        exact hs
    · obtain ⟨rfl, rfl⟩ := hrev.ret
      refine ⟨_, rfl, fun _ => ?_⟩
      dsimp only
      rw [htext] at hz ⊢
      exact RedisStore.scriptRev_luaTostring_eq hz

theorem reads_genericTxn {req : TxnRequest} {resp : TxnResponse} (hg : Genuine l)
    (h : Pool.Path (KVServer.genericTxn req) l (.ret (.ok resp))) :
    Reads l fun s => resp.header.revision = reported s := by
  obtain ⟨y, l₁, l₂, rfl, _, h₁⟩ := h.bind
  cases y with
  | error err => cases h₁.ret.1
  | ok succeeded =>
    obtain ⟨z, l₃, l₄, rfl, _, h₂⟩ := h₁.bind
    cases z with
    | error err => cases h₂.ret.1
    | ok results =>
      obtain ⟨hd, l₅, l₆, rfl, hhead, h₃⟩ := h₂.bind
      obtain ⟨hresp, rfl⟩ := h₃.ret
      cases hresp
      rw [List.append_nil] at hg ⊢
      rw [← List.append_assoc] at hg ⊢
      refine Reads.prepend ?_ _
      refine (reads_header (hg.sublist (List.sublist_append_right _ _)) hhead).mono fun s hs => ?_
      rw [hs]
      rfl

theorem reads_txn {req : TxnRequest} {resp : TxnResponse} (hg : Genuine l)
    (h : Pool.Path (KVServer.txn req) l (.ret (.ok resp))) (hs : resp.succeeded = false) :
    Reads l fun s => resp.header.revision = reported s := by
  rw [KVServer.txn] at h
  split at h
  · obtain ⟨y, l₁, l₂, rfl, htxn, h₁⟩ := h.bind
    cases y with
    | error err => cases h₁.ret.1
    | ok out =>
      obtain ⟨hresp, rfl⟩ := h₁.ret
      cases hresp
      rw [List.append_nil] at hg ⊢
      exact reads_storeTxn hg htxn hs
  · split at h
    · obtain ⟨y, l₁, l₂, rfl, htxn, h₁⟩ := h.bind
      cases y with
      | error err => cases h₁.ret.1
      | ok out =>
        obtain ⟨hresp, rfl⟩ := h₁.ret
        cases hresp
        rw [List.append_nil] at hg ⊢
        exact reads_storeTxn hg htxn hs
    · exact reads_genericTxn hg h

/-- **A client is told the counter of its last read**, at least 1. -/
theorem reads_client {c : Client} {rev : ℤ} (hg : Genuine l)
    (h : Pool.Path c.routine l (.ret (some rev))) : Reads l fun s => rev = reported s := by
  cases c with
  | currentRevision =>
    obtain ⟨y, l₁, l₂, rfl, hcur, h₁⟩ := h.bind
    obtain ⟨hy, rfl⟩ := h₁.ret
    rw [List.append_nil] at hg ⊢
    refine (reads_currentRevision hg hcur).mono fun s hs => ?_
    rw [hs] at hy
    cases hy
    rfl
  | request r =>
    obtain ⟨a, l₁, l₂, rfl, hserve, h₁⟩ := h.bind
    obtain ⟨ha, rfl⟩ := h₁.ret
    rw [List.append_nil] at hg ⊢
    cases r with
    | range req =>
      obtain ⟨y, l₃, l₄, rfl, hr, hserve₁⟩ := hserve.bind
      obtain ⟨rfl, rfl⟩ := hserve₁.ret
      rw [List.append_nil] at hg ⊢
      cases y with
      | error err => cases ha
      | ok resp =>
        cases ha
        exact reads_range hg hr
    | deleteRange req =>
      obtain ⟨y, l₃, l₄, rfl, hr, hserve₁⟩ := hserve.bind
      obtain ⟨rfl, rfl⟩ := hserve₁.ret
      rw [List.append_nil] at hg ⊢
      cases y with
      | error err => cases ha
      | ok resp =>
        cases ha
        exact reads_deleteRange hg hr
    | txn req =>
      obtain ⟨y, l₃, l₄, rfl, hr, hserve₁⟩ := hserve.bind
      obtain ⟨rfl, rfl⟩ := hserve₁.ret
      rw [List.append_nil] at hg ⊢
      cases y with
      | error err => cases ha
      | ok resp =>
        rw [Answer.reportedRev] at ha
        split_ifs at ha with hs
        cases ha
        exact reads_txn hg hr (by simpa using hs)
    | put | leaseGrant | leaseRevoke | leaseKeepAlive | reap =>
      obtain ⟨y, l₃, l₄, rfl, hr, hserve₁⟩ := hserve.bind
      obtain ⟨rfl, rfl⟩ := hserve₁.ret
      cases ha
    | expire id =>
      cases hserve with
      | cons hserve =>
        obtain ⟨rfl, rfl⟩ := hserve.ret
        cases ha

end Paths

/-! ### Past and future -/

/-- The writes up to `s` have revisions up to `rev`, and those from `s` to `t` above it. -/
def Separates (rev : ℤ) (s t : Redis) : Prop :=
  (∀ e ∈ s.events, e.rev ≤ rev) ∧ ∀ e ∈ t.events.drop s.events.length, rev < e.rev

theorem separates_iff {s t : Redis} (hs : Consistent s) (ht : Consistent t)
    (hp : s.events <+: t.events) :
    Separates (reported s) s t ↔ s.counter ≠ 0 ∨ t.events = s.events := by
  obtain ⟨mid, hmid⟩ := hp
  have hdrop : t.events.drop s.events.length = mid := by
    rw [← hmid, List.drop_left]
  have habove : ∀ e ∈ mid, s.counter < e.rev := by
    intro e he
    rw [← filter_above hs ht hmid.symm] at he
    simpa using List.of_mem_filter he
  have hnn := hs.counter_nonneg
  rw [Separates, hdrop]
  by_cases hz : s.counter = 0
  · have hrep : reported s = 1 := by
      rw [reported, if_pos (by omega)]
    have hnil : s.events = [] := by
      refine List.eq_nil_iff_forall_not_mem.mpr fun e he => ?_
      have := hs.rev_mem he
      omega
    rw [hrep, hnil, ← hmid, hnil, List.nil_append]
    constructor
    · rintro ⟨_, hlate⟩
      right
      -- the first write after an empty store has revision 1
      cases mid with
      | nil => rfl
      | cons e rest =>
        have hrev : e.rev = 1 := by
          have hget : t.events[0]? = some e := by
            rw [← hmid, hnil]
            rfl
          have := ht.revs 0 e hget
          omega
        have := hlate e List.mem_cons_self
        omega
    · rintro (hne | hnone)
      · exact absurd hz hne
      · rw [hnone]
        simp
  · have hrep : reported s = s.counter := by
      rw [reported, if_neg (by omega)]
    rw [hrep]
    exact iff_of_true ⟨fun e he => (hs.rev_mem he).2, habove⟩ (Or.inl hz)

/-- **A reported revision separates past from future iff the counter was not 0 when it was read, or
nothing is written afterwards.**  In every run of any clients: if a client has been told the
revision `rev`, its last read of the counter, when Redis answers it, is the moment that `rev`
stands for. -/
theorem report_separates_iff (cs : List Client) (ms : List (ℕ × Env)) (i : ℕ) (rev : ℤ)
    (ha : (Pool.run exec (clients cs) ms).procs[i]? = some (.ret (some rev))) :
    let s := (Pool.run exec (clients cs) ms).shared.redis
    ∃ x, lastRead ((Pool.calls exec (clients cs) ms).filter fun x => x.proc = i) = some x ∧
      (Answered x → (Separates rev x.before.redis s ↔
        x.before.redis.counter ≠ 0 ∨ s.events = x.before.redis.events)) := by
  intro s
  have hissued := clients_issued cs
  have hrun := Pool.calls_inv (I := fun w => Consistent w.redis) exec_consistent hissued
    consistent_empty ms
  have hgenuine : Genuine (Pool.calls exec (clients cs) ms) :=
    ⟨hrun, Pool.calls_pairwise (fun w w' => w.redis.events <+: w'.redis.events)
      (fun _ => List.prefix_rfl) (fun _ _ _ => List.IsPrefix.trans) exec_isPrefix hissued ms⟩
  have hs : Consistent s :=
    Pool.run_inv (I := fun w => Consistent w.redis) exec_consistent hissued consistent_empty ms
  -- the client has run through its own commands
  have hlt : i < (clients cs).procs.length := by
    rw [← Pool.length_run exec (clients cs) ms]
    exact (List.getElem?_eq_some_iff.mp ha).1
  have hp := List.getElem?_eq_getElem hlt
  generalize (clients cs).procs[i] = p at hp
  obtain ⟨q, hq, hpath⟩ := Pool.run_path hp ms
  rw [ha, Option.some.injEq] at hq
  subst hq
  obtain ⟨c, _, rfl⟩ := List.mem_map.mp (List.mem_of_getElem? hp)
  obtain ⟨x, hx, hread⟩ := reads_client (hgenuine.sublist List.filter_sublist) hpath
  refine ⟨x, hx, fun hans => ?_⟩
  have hmem : x ∈ Pool.calls exec (clients cs) ms :=
    List.mem_of_mem_filter (List.mem_of_mem_filter (List.mem_of_getLast? hx))
  obtain ⟨hi, hc, env, he⟩ := hrun x hmem
  have hfirst := exec_isPrefix env x.cmd x.before hi
  rw [he] at hfirst
  have hrest := ((Pool.calls_le (fun w w' => w.redis.events <+: w'.redis.events)
    (fun _ => List.prefix_rfl) (fun _ _ _ => List.IsPrefix.trans) exec_isPrefix
    hissued ms).1 x hmem).2
  rw [hread hans]
  exact separates_iff hc hs (hfirst.trans hrest)

def putClient : Client := .request (.put ⟨[98], [1], 0, false⟩)

/-- After a put, the revision that a client is told separates. -/
theorem report_after_put :
    (Pool.run exec (clients [putClient, .currentRevision])
      [(0, .plain 5), (1, .plain 6)]).procs[1]? = some (.ret (some 1)) ∧
    ∃ x, lastRead ((Pool.calls exec (clients [putClient, .currentRevision])
        [(0, .plain 5), (1, .plain 6)]).filter fun x => x.proc = 1) = some x ∧
      Separates 1 x.before.redis (Pool.run exec (clients [putClient, .currentRevision])
        [(0, .plain 5), (1, .plain 6)]).shared.redis := by
  have ha : (Pool.run exec (clients [putClient, .currentRevision])
      [(0, .plain 5), (1, .plain 6)]).procs[1]? = some (.ret (some 1)) := rfl
  obtain ⟨x, hx, hsep⟩ := report_separates_iff [putClient, .currentRevision]
    [(0, .plain 5), (1, .plain 6)] 1 1 ha
  refine ⟨ha, x, hx, ?_⟩
  cases hx
  exact (hsep ⟨_, rfl⟩).mpr (Or.inl (by decide))

/-- On an empty store the client is told revision 1, and a write that comes after that has revision 1
too. -/
def ToldFirst (c : Client) : Prop :=
  (Pool.run exec (clients [c, putClient]) [(0, .plain 5), (0, .plain 5)]).procs[0]? =
      some (.ret (some 1)) ∧
    (Pool.run exec (clients [c, putClient]) [(0, .plain 5), (0, .plain 5)]).shared.redis.events =
      [] ∧
    (Pool.run exec (clients [c, putClient])
      [(0, .plain 5), (0, .plain 5), (1, .plain 6)]).shared.redis.events.map Entry.rev = [1]

/-- This happens to a client that asks for the revision, for a range, or for an update that fails. -/
theorem report_first_write :
    ToldFirst .currentRevision ∧ ToldFirst (.request (.range ⟨[97], [99], false⟩)) ∧
      ToldFirst (.request (.txn (updateRequest [98] 5 [98] [98]))) :=
  ⟨⟨rfl, rfl, rfl⟩, ⟨rfl, rfl, rfl⟩, ⟨rfl, rfl, rfl⟩⟩

end REtcd.Server
