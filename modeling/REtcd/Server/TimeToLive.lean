import REtcd.Server.LeaseClock

/-!
# What a lease has left

`LeaseTimeToLive` reads the TTL that a lease was granted, and then with a second command how much of
it is left; anything can happen in between.  Redis answers in seconds, to the nearest one, and with
`-2` or `-1` if there is no such lease or no expiry.

In every punctual run the answer holds (`timeToLive_holds`): if the lease was there at the first read,
the TTL is the granted one, and the lease stays for the time that the answer says, less the half
second by which it may be rounded up.  If the lease goes between the two reads, the answer is a TTL
of 0, not of -1 as for a lease that is gone before.
-/

namespace REtcd.Server

open Base Store

/-! ### The two reads -/

/-- What the client library makes of the answer to `TTL`, in nanoseconds: a number of seconds is
converted, and a negative answer is not. -/
def ttl (s : World × Clock) (id : ℤ) : ℤ :=
  match s.1.redis.leaseData id, s.2.deadline id with
  | none, _ => -2
  | some _, none => -1
  | some _, some d => if d ≤ s.2.now then -2 else ((d - s.2.now + 500) / 1000 : ℕ) * 10 ^ 9

/-- `LeaseTimeToLive` of the store, with the answers to `GET` and `TTL`: the granted TTL and what is
left of it, in seconds. -/
def RedisStore.leaseTimeToLive (get : Result (Option ℤ)) (dur : Result ℤ) : Result (ℤ × ℤ) :=
  match get with
  | .error err => .error ("get lease: " ++ err)
  | .ok none => .ok (0, -1)
  | .ok (some ttlStr) =>
    match parseInt (goDecimal ttlStr) with
    | none => .error ("parse ttl: strconv.ParseInt: parsing \"" ++ toString ttlStr ++
        "\": value out of range")
    | some granted =>
      match dur with
      | .error err => .error ("ttl: " ++ err)
      | .ok dur => .ok (granted, dur.tdiv (10 ^ 9))

structure LeaseTimeToLiveResponse where
  header : ResponseHeader
  id : ℤ
  ttl : ℤ
  grantedTTL : ℤ
  deriving DecidableEq, Repr

def LeaseServer.leaseTimeToLive (id : ℤ) (get : Result (Option ℤ)) (dur : Result ℤ) :
    Result LeaseTimeToLiveResponse :=
  match RedisStore.leaseTimeToLive get dur with
  | .error err => .error err
  | .ok (granted, remaining) => .ok ⟨headerAt 0, id, remaining, granted⟩

theorem leaseTimeToLive_there {id granted dur : ℤ} (h0 : 0 < granted) (h : granted ≤ 9223372036) :
    LeaseServer.leaseTimeToLive id (.ok (some granted)) (.ok dur) =
      .ok ⟨headerAt 0, id, dur.tdiv (10 ^ 9), granted⟩ := by
  have hparse : parseInt (goDecimal granted) = some granted := by
    rw [goDecimal, parseInt, if_pos ⟨by omega, by omega⟩]
  rw [LeaseServer.leaseTimeToLive, RedisStore.leaseTimeToLive]
  dsimp only
  rw [hparse]

theorem ttl_seconds (s : World × Clock) (id : ℤ) :
    (ttl s id).tdiv (10 ^ 9) = 0 ∨ s.1.redis.leaseData id ≠ none ∧
      ∃ d, s.2.deadline id = some d ∧ s.2.now < d ∧
        (ttl s id).tdiv (10 ^ 9) = ((d - s.2.now + 500) / 1000 : ℕ) := by
  cases hdata : s.1.redis.leaseData id with
  | none =>
    left
    rw [ttl, hdata]
    rfl
  | some l =>
    cases hd : s.2.deadline id with
    | none =>
      left
      rw [ttl, hdata, hd]
      rfl
    | some d =>
      rw [ttl, hdata, hd]
      dsimp only
      split_ifs with hover
      · exact Or.inl rfl
      · refine Or.inr ⟨Option.some_ne_none l, d, rfl, not_le.mp hover, ?_⟩
        exact Int.mul_tdiv_cancel _ (by decide)

/-! ### The end of a lease -/

section Runs

variable {reqs : List Request} {ms : List (ℕ × Env)} {x y : Call Cmd Reply (World × Clock)}
  {l₁ l₂ : List (Call Cmd Reply (World × Clock))} {id : ℤ} {i : ℕ} {reqTTL : ℤ} {w w' : World}

theorem moved_deadline (hreq : reqs[i]? = some (.leaseGrant reqTTL))
    (hid : ⟨i, .incrLeaseID, .ok id, w, w'⟩ ∈ Pool.calls exec (start reqs) ms)
    (hshort : reqTTL ≤ 9223372036) (hx : x ∈ timedCalls reqs ms) :
    x.after.2.deadline id = x.before.2.deadline id ∨
      x.after.2.deadline id = some (x.after.2.now + (1000 * grantedTTL reqTTL).toNat) := by
  obtain ⟨_, env, hexec, hnote⟩ := timedCall_exec hx
  rcases note_deadline env x.cmd x.after.1 x.before.2 id with hsame | ⟨henv, dur, d, he, hd⟩
  · rw [← hnote] at hsame
    exact Or.inl hsame
  · exact Or.inr (given_deadline hreq hid hshort hx hexec hnote henv he hd)

theorem deadline_le (hp : Punctual reqs ms) (hreq : reqs[i]? = some (.leaseGrant reqTTL))
    (hid : ⟨i, .incrLeaseID, .ok id, w, w'⟩ ∈ Pool.calls exec (start reqs) ms)
    (hshort : reqTTL ≤ 9223372036) :
    ∀ x ∈ timedCalls reqs ms, ∀ d, x.before.2.deadline id = some d →
      d ≤ x.before.2.now + (1000 * grantedTTL reqTTL).toNat := by
  refine (Pool.calls_keep (I := fun s : World × Clock => ∀ d, s.2.deadline id = some d →
    d ≤ s.2.now + (1000 * grantedTTL reqTTL).toNat) ?_ ?_).1
  · intro d h
    cases h
  · intro x hx hbefore d hd
    rcases moved_deadline hreq hid hshort hx with hsame | hmoved
    · rw [hsame] at hd
      have := hbefore d hd
      have := hp.forward x hx
      omega
    · rw [hmoved, Option.some.injEq] at hd
      exact hd.ge

theorem timedCalls_since {I : World × Clock → Prop} (hh : timedCalls reqs ms = l₁ ++ y :: l₂)
    (hy : I y.before) (hI : ∀ x ∈ timedCalls reqs ms, I x.before → I x.after) :
    ∀ z ∈ y :: l₂, I z.before := by
  have hchain := timedCalls_chained reqs ms
  rw [hh] at hchain hI
  exact hchain.since hy fun x hx => hI x (List.mem_append_right _ hx)

/-- The end of a lease is never moved back. -/
theorem deadline_rises (hp : Punctual reqs ms) (hreq : reqs[i]? = some (.leaseGrant reqTTL))
    (hid : ⟨i, .incrLeaseID, .ok id, w, w'⟩ ∈ Pool.calls exec (start reqs) ms)
    (hshort : reqTTL ≤ 9223372036) (hh : timedCalls reqs ms = l₁ ++ y :: l₂) {d : ℕ}
    (hd : y.before.2.deadline id = some d) :
    ∀ z ∈ y :: l₂, ∃ e, z.before.2.deadline id = some e ∧ d ≤ e := by
  -- a new end is one TTL from then, and the old one was not further away
  refine timedCalls_since (I := fun s => ∃ e, s.2.deadline id = some e ∧ d ≤ e) hh
    ⟨d, hd, le_rfl⟩ ?_
  rintro x hx ⟨e, he, hle⟩
  rcases moved_deadline hreq hid hshort hx with hsame | hmoved
  · rw [← hsame] at he
    exact ⟨e, he, hle⟩
  · refine ⟨_, hmoved, ?_⟩
    have := deadline_le hp hreq hid hshort x hx e he
    have := hp.forward x hx
    omega

/-- **What `LeaseTimeToLive` answers holds.**  In every punctual run, for a lease that a grant has
reported, with a TTL of at most `9223372036` seconds, and that nobody revokes: if the lease was there
at the first read, the answer has the granted TTL and a time between 0 and it; and until half a second
before that time has passed since the second read, the lease is there.  The time is 0 if the lease is
gone at the second read, and -1 if it is gone at the first. -/
theorem timeToLive_holds (reqs : List Request) (ms : List (ℕ × Env)) {i : ℕ} {reqTTL : ℤ}
    {resp : LeaseGrantResponse} (hp : Punctual reqs ms)
    (hreq : reqs[i]? = some (.leaseGrant reqTTL))
    (ha : (Pool.run exec (start reqs) ms).procs[i]? = some (.ret (.leaseGrant (.ok resp))))
    (hshort : reqTTL ≤ 9223372036) (hkeep : Request.leaseRevoke resp.id ∉ reqs)
    (hh : timedCalls reqs ms = l₁ ++ y :: l₂) (hx : x ∈ l₁ ++ [y]) :
    (x.before.1.redis.leaseData resp.id = none →
      LeaseServer.leaseTimeToLive resp.id
        (.ok ((x.before.1.redis.leaseData resp.id).map LeaseData.ttl)) (.ok (ttl y.before resp.id)) =
        .ok ⟨headerAt 0, resp.id, -1, 0⟩) ∧
    (x.before.1.redis.leaseData resp.id ≠ none → ∃ left,
      LeaseServer.leaseTimeToLive resp.id
        (.ok ((x.before.1.redis.leaseData resp.id).map LeaseData.ttl)) (.ok (ttl y.before resp.id)) =
        .ok ⟨headerAt 0, resp.id, left, resp.ttl⟩ ∧
      0 ≤ left ∧ left ≤ resp.ttl ∧
      (y.before.1.redis.leaseData resp.id = none → left = 0) ∧
      ∀ z ∈ y :: l₂, (z.before.2.now : ℤ) + 500 < y.before.2.now + 1000 * left →
        z.before.1.redis.leaseData resp.id ≠ none) := by
  obtain ⟨httl, ⟨w, w', hid⟩, _⟩ := leaseGrant_answered hreq ha
  have hpos := grantedTTL_pos reqTTL
  have hmem : x ∈ timedCalls reqs ms ∧ y ∈ timedCalls reqs ms := by
    rw [hh]
    refine ⟨?_, List.mem_append_right _ List.mem_cons_self⟩
    rcases List.mem_append.mp hx with h | h
    · exact List.mem_append_left _ h
    · rw [List.mem_singleton.mp h]
      exact List.mem_append_right _ List.mem_cons_self
  constructor
  · intro hnone
    rw [hnone]
    rfl
  · intro hthere
    obtain ⟨d₀, h₀⟩ := Option.ne_none_iff_exists'.mp hthere
    have hstored : d₀.ttl = resp.ttl := by
      rw [httl]
      exact stored_ttl hreq hid _ (mem_bare hmem.1) d₀ h₀
    rw [h₀, Option.map_some, hstored,
      leaseTimeToLive_there (by rw [httl]; exact hpos) (by rw [httl]; exact grantedTTL_le hshort)]
    refine ⟨_, rfl, ?_⟩
    rcases ttl_seconds y.before resp.id with hzero | ⟨hy, d, hd, hnow, hleft⟩
    · rw [hzero, httl]
      refine ⟨le_rfl, hpos.le, fun _ => rfl, fun z hz hlt => ?_⟩
      have hnow := timedCalls_since (I := fun s => y.before.2.now ≤ s.2.now) hh le_rfl
        (fun x hx hle => hle.trans (hp.forward x hx)) z hz
      omega
    · rw [hleft, httl]
      have hle := deadline_le hp hreq hid hshort y hmem.2 d hd
      refine ⟨Int.natCast_nonneg _, by omega, fun hnone => absurd hnone hy, fun z hz hlt => ?_⟩
      obtain ⟨e, he, hde⟩ := deadline_rises hp hreq hid hshort hh hd z hz
      have hz' : z ∈ timedCalls reqs ms := by
        rw [hh]
        exact List.mem_append_right _ hz
      refine (alive_until hp hreq hid hshort hkeep z hz' e he).resolve_right ?_
      omega

end Runs

/-- Four seconds after its renewal the lease of `oneLease` is there, and what is answered holds. -/
theorem oneLease_holds :
    ∃ y l₁ l₂, timedCalls oneLease oneLeaseTimes = l₁ ++ y :: l₂ ∧ y.before.2.now = 8000 ∧
      ∃ left, LeaseServer.leaseTimeToLive 1 (.ok ((y.before.1.redis.leaseData 1).map LeaseData.ttl))
          (.ok (ttl y.before 1)) = .ok ⟨headerAt 0, 1, left, 5⟩ ∧
        ∀ z ∈ y :: l₂, (z.before.2.now : ℤ) + 500 < y.before.2.now + 1000 * left →
          z.before.1.redis.leaseData 1 ≠ none := by
  have hp : Punctual oneLease oneLeaseTimes := ⟨by decide +kernel, by decide +kernel⟩
  have ha : (Pool.run exec (start oneLease) oneLeaseTimes).procs[0]? =
      some (.ret (.leaseGrant (.ok ⟨headerAt 0, 1, 5⟩))) := rfl
  obtain ⟨y, hy, hnow, hthere⟩ : ∃ y ∈ timedCalls oneLease oneLeaseTimes,
      y.before.2.now = 8000 ∧ y.before.1.redis.leaseData 1 ≠ none := by decide +kernel
  obtain ⟨l₁, l₂, hh⟩ := List.append_of_mem hy
  have hx : y ∈ l₁ ++ [y] := List.mem_append_right _ (List.mem_singleton_self y)
  obtain ⟨left, hanswer, _, _, _, hkept⟩ :=
    (timeToLive_holds oneLease oneLeaseTimes hp rfl ha (by decide) (by decide) hh hx).2 hthere
  exact ⟨y, l₁, l₂, hh, hnow, left, hanswer, hkept⟩

end REtcd.Server
