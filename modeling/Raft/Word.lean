/-!
# Counters of 64 bits

Terms, indexes, sequence numbers and durations are natural numbers below `wordSize`. A sum that
leaves this range is not rounded or wrapped: the computation that asked for it ends with the
failure `overflow`, which no handler turns into an ordinary error.
-/

namespace Raft

/-- The number of values of a 64-bit word. -/
def wordSize : Nat := 0x10000000000000000

/-- The number of values of a 32-bit word; node ids lie below it. -/
def halfWordSize : Nat := 0x100000000

def maxWord : Nat := wordSize - 1

/-- How a computation over a store or a node can end without a result: with an error of the
protocol, or because a sum left the range of 64 bits. -/
inductive Failure (ε : Type) where
  | error (e : ε)
  | overflow
  deriving DecidableEq, Repr

/-- The sum of two counters, or `overflow` if it needs more than 64 bits. -/
def sum {ε : Type} (a b : Nat) : Except (Failure ε) Nat :=
  if a + b < wordSize then .ok (a + b) else .error .overflow

/-- The product of two counters, capped at the greatest 64-bit value. -/
def cappedProduct (a b : Nat) : Nat := min (a * b) maxWord

theorem sum_eq_ok_iff {ε : Type} {a b c : Nat} :
    sum (ε := ε) a b = .ok c ↔ a + b < wordSize ∧ a + b = c := by
  unfold sum
  split
  · simp_all
  · simp only [reduceCtorEq, false_iff]
    omega

theorem sum_eq_error_iff {ε : Type} {a b : Nat} {f : Failure ε} :
    sum a b = .error f ↔ f = .overflow ∧ wordSize ≤ a + b := by
  unfold sum
  split
  · simp only [reduceCtorEq, false_iff]
    omega
  · simp only [Except.error.injEq]
    exact ⟨fun h => ⟨h.symm, by omega⟩, fun h => h.1.symm⟩

end Raft
