/-!
# Timers

A follower and a candidate wait for a deadline that every reset draws anew from a range; a leader
waits for its next heartbeat. Times are milliseconds on the node's clock. A draw is any number: it
chooses one value of the range.
-/

namespace Raft

/-- The duration between `lo` and `hi` that a draw chooses; `lo` if the range is empty. -/
def drawDuration (lo hi draw : Nat) : Nat :=
  if hi ≤ lo then lo else lo + draw % (hi - lo + 1)

def remaining (deadline now : Nat) : Nat := deadline - now

/-- The deadline of a follower or a candidate, and the range it is drawn from. -/
structure ElectionTimer where
  deadline : Nat
  lo : Nat
  hi : Nat
  deriving DecidableEq, Repr, Inhabited

namespace ElectionTimer

def start (lo hi now draw : Nat) : ElectionTimer := ⟨now + drawDuration lo hi draw, lo, hi⟩

def reset (t : ElectionTimer) (now draw : Nat) : ElectionTimer := start t.lo t.hi now draw

def isExpired (t : ElectionTimer) (now : Nat) : Bool := t.deadline ≤ now

end ElectionTimer

/-- The deadline of a leader's next heartbeat. -/
structure HeartbeatTimer where
  deadline : Nat
  interval : Nat
  deriving DecidableEq, Repr, Inhabited

namespace HeartbeatTimer

/-- A timer whose first heartbeat is due at once. -/
def start (interval now : Nat) : HeartbeatTimer := ⟨now, interval⟩

def reset (t : HeartbeatTimer) (now : Nat) : HeartbeatTimer :=
  { t with deadline := now + t.interval }

def isExpired (t : HeartbeatTimer) (now : Nat) : Bool := t.deadline ≤ now

end HeartbeatTimer

end Raft
