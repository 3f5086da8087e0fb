import Mathlib.Algebra.Group.Nat.Defs
import Raft.Client.Backoff

/-!
# How long a pause can be

A delay grows with the tries and stops growing after the sixteenth; its random part is at most half
of it. Both together need 64 bits unless the delay is more than two thirds of the greatest word.

* `BackoffPolicy.delay_le_delay`: the longest delay is that after sixteen tries.
* `BackoffPolicy.backoff_eq_ok`: a delay with its random part, where it can be written.
* `BackoffPolicy.backoffs_fit_iff`: where every one of them can; `BackoffPolicy.backoffs_fit` is a
  condition on the settings alone.
-/

namespace Raft.BackoffPolicy

variable {p : BackoffPolicy} {attempt delay draw : Nat}

theorem delay_le_maxDelay (p : BackoffPolicy) (attempt : Nat) : p.delay attempt ≤ p.maxDelay :=
  Nat.min_le_right ..

theorem delay_le_delay (p : BackoffPolicy) (attempt : Nat) : p.delay attempt ≤ p.delay 16 := by
  have hpower : Nat.pow 2 (min attempt 16) ≤ Nat.pow 2 (min 16 16) :=
    Nat.pow_le_pow_right (by decide) (by omega)
  have hproduct := Nat.mul_le_mul_left p.baseDelay hpower
  unfold delay cappedProduct
  omega

theorem jitter_le_half (delay draw : Nat) : jitter delay draw ≤ delay / 2 := by
  unfold jitter
  split
  · exact Nat.le_of_lt_succ (Nat.mod_lt _ (Nat.succ_pos _))
  · exact Nat.zero_le _

theorem jitter_half (delay : Nat) : jitter delay (delay / 2) = delay / 2 := by
  unfold jitter
  split
  · exact Nat.mod_eq_of_lt (Nat.lt_succ_self _)
  · omega

theorem backoff_eq_ok {ε : Type} (h : 3 * p.delay attempt ≤ 2 * maxWord) :
    p.backoff (ε := ε) attempt draw
      = .ok (p.delay attempt + jitter (p.delay attempt) draw) := by
  have hjitter := jitter_le_half (p.delay attempt) draw
  have hword : maxWord = wordSize - 1 := rfl
  have hpos : 0 < wordSize := by decide
  exact sum_eq_ok_iff.2 ⟨by omega, rfl⟩

theorem backoff_eq_overflow {ε : Type} (h : 2 * maxWord < 3 * p.delay attempt) :
    p.backoff (ε := ε) attempt (p.delay attempt / 2) = .error .overflow := by
  have hword : maxWord = 0xffffffffffffffff := rfl
  have hsize : wordSize = 0x10000000000000000 := rfl
  unfold backoff sum
  rw [jitter_half, if_neg (by omega)]

/-- No pause fails just if the longest delay is at most two thirds of the greatest word. -/
theorem backoffs_fit_iff {ε : Type} (p : BackoffPolicy) :
    (∀ attempt draw, p.backoff (ε := ε) attempt draw ≠ .error .overflow)
      ↔ 3 * p.delay 16 ≤ 2 * maxWord := by
  constructor
  · exact fun h => Nat.not_lt.1 fun hlarge => h 16 _ (backoff_eq_overflow hlarge)
  · intro h attempt draw
    have hle := p.delay_le_delay attempt
    rw [backoff_eq_ok (by omega)]
    exact nofun

theorem backoffs_fit {ε : Type} (hdelay : p.maxDelay < 2 ^ 63) (attempt draw : Nat) :
    p.backoff (ε := ε) attempt draw ≠ .error .overflow := by
  have hword : maxWord = 2 ^ 64 - 1 := rfl
  have hle := p.delay_le_maxDelay 16
  exact p.backoffs_fit_iff.2 (by omega) attempt draw

end Raft.BackoffPolicy
