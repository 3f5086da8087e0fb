/-!
# Draws

A supply of numbers from which random choices are made. Nothing depends on how the numbers are
spread; a choice takes the remainder of a draw.
-/

namespace Raft

/-- The state of the supply, which is also its latest draw. -/
abbrev Seed := Nat

/-- The next draw: a linear congruence modulo 2^64. -/
def nextSeed (seed : Seed) : Seed := (seed * 6364136223846793005 + 1442695040888963407) %
  0x10000000000000000

def draws (seed : Seed) : Nat → List Nat
  | 0 => []
  | n + 1 => nextSeed seed :: draws (nextSeed seed) n

end Raft
