import Raft.Settings.Basic
import Raft.Word

/-!
# Backoff

How long a caller waits before it tries again: a delay that doubles with every try up to a bound,
and on top of it a random part of at most half the delay, so that callers spread out.
-/

namespace Raft.BackoffPolicy

/-- The delay before the retry after `attempt` earlier ones, without its random part. -/
def delay (p : BackoffPolicy) (attempt : Nat) : Nat :=
  min (cappedProduct p.baseDelay (Nat.pow 2 (min attempt 16))) p.maxDelay

/-- The random part that a draw chooses: none for a delay of at most one. -/
def jitter (delay draw : Nat) : Nat := if 1 < delay then draw % (delay / 2 + 1) else 0

/-- The delay before a retry, with the random part that a draw chooses. -/
def backoff {ε : Type} (p : BackoffPolicy) (attempt draw : Nat) : Except (Failure ε) Nat :=
  sum (p.delay attempt) (jitter (p.delay attempt) draw)

/-- The shortest and the longest of several backoffs. More than one are enough to see both ends
of the random part; a single one is what the given draw makes it. -/
def backoffRange {ε : Type} (p : BackoffPolicy) (attempt samples draw : Nat) :
    Except (Failure ε) (Nat × Nat) := do
  let delay := p.delay attempt
  let ends := if samples ≤ 1 then (draw, draw) else (0, delay / 2)
  let shortest ← p.backoff attempt ends.1
  let longest ← p.backoff attempt ends.2
  return (shortest, longest)

end Raft.BackoffPolicy
