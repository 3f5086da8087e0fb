import Raft.Proofs.Client.Requests
import Raft.Sim.GatewayBench

/-!
# Scripted requests

The bench answers the tries of a gateway from a script, on its own clock. What it records is what
the loop over outcomes makes of these answers, and every one of them is there within the time that
the gateway granted.

* `Sim.GatewayBench.run_pursues`: a run of the bench is the loop, unless its own bound ends it.
* `Sim.GatewayBench.request_pursues`: with a bound on the tries it is the loop, so that the request is
  seen through: `Sim.GatewayBench.request_isSeenThrough`.
-/

namespace Raft.Sim.GatewayBench

open Gateway (Attempt Outcome)

/-- A try as the bench records it. -/
def callOf (a : Attempt) : GatewayCall := ⟨a.target, a.request, a.wait, a.start⟩

theorem answerTo_time_le (target wait : Nat) (script : List ScriptedAnswer) :
    (answerTo target wait script).2.1 ≤ wait := by
  unfold answerTo
  split
  · exact Nat.zero_le _
  · split
    · exact Nat.le_refl _
    · rename_i a rest hearly
      show a.after ≤ wait
      omega

/-- What a bench gives with so much fuel, after so many calls, is a course of tries, unless the fuel
ended it. -/
structure Renders (calls : List GatewayCall) (fuel : Nat) (c : Gateway.Course)
    (given : GatewayResult × GatewayBench) : Prop where
  timely : ∀ a ∈ c.attempts, a.Timely
  gateway : given.2.gateway = c.gateway
  calls : given.2.calls = calls ++ c.attempts.map callOf
  ended : c.result = some given.1 ∨ c.attempts.length = fuel

section Renders

variable {calls : List GatewayCall} {fuel : Nat} {c : Gateway.Course}
  {given : GatewayResult × GatewayBench} {a : Attempt}

/-- No try was made: the result was there before, or there was no fuel for one. -/
theorem Renders.of_attempts_nil (hc : c.attempts = []) (hgateway : given.2.gateway = c.gateway)
    (hcalls : given.2.calls = calls) (hended : c.result = some given.1 ∨ fuel = 0) :
    Renders calls fuel c given where
  timely a ha := by
    rw [hc] at ha
    cases ha
  gateway := hgateway
  calls := by
    rw [hc, hcalls]
    exact (List.append_nil _).symm
  ended := hended.imp_right fun hfuel => by rw [hc, hfuel, List.length_nil]

theorem Renders.prepend (h : Renders (calls ++ [callOf a]) fuel c given) (ha : a.Timely) :
    Renders calls (fuel + 1) (c.prepend a) given where
  timely b hb := by
    rcases List.mem_cons.1 hb with rfl | hb
    · exact ha
    · exact h.timely b hb
  gateway := h.gateway
  calls := by
    rw [h.calls, List.append_assoc]
    rfl
  ended := h.ended.imp_right fun hlength => congrArg (· + 1) hlength

end Renders

theorem run_pursues (s : Submission) (fuel : Nat) (script : List ScriptedAnswer)
    (b : GatewayBench) :
    ∃ outcomes, Renders b.calls fuel (b.gateway.pursue s b.now outcomes) (run s fuel script b) := by
  -- one try for each unit of fuel; its outcome is what the script gives
  induction fuel generalizing s script b with
  | zero =>
    refine ⟨[], ?_⟩
    unfold Gateway.pursue run
    rcases Gateway.move_cases b.gateway s b.now with ⟨-, e, hmove⟩ | ⟨-, hmove⟩
    · rw [hmove]
      exact .of_attempts_nil rfl rfl rfl (Or.inr rfl)
    · rw [hmove]
      exact .of_attempts_nil rfl rfl rfl (Or.inr rfl)
  | succ fuel ih =>
    unfold run
    rcases Gateway.move_cases b.gateway s b.now with ⟨-, e, hmove⟩ | ⟨-, hmove⟩
    · refine ⟨[], ?_⟩
      unfold Gateway.pursue
      rw [hmove]
      exact .of_attempts_nil rfl rfl rfl (Or.inl rfl)
    · rw [hmove]
      dsimp only
      generalize hwait : min b.gateway.settings.requestTimeout (s.deadline - b.now) = wait
      have htime := answerTo_time_le b.gateway.pick.1 wait script
      generalize answerTo b.gateway.pick.1 wait script = given at htime
      obtain ⟨answer, time, script'⟩ := given
      dsimp only at htime ⊢
      have hpursue : ∀ rest, b.gateway.pursue s b.now (⟨answer, time, nextSeed b.seed⟩ :: rest)
          = _ := fun rest => by
        rw [Gateway.pursue, hmove, hwait]
      dsimp only at hpursue
      generalize b.gateway.pick.2.react { s with tries := s.tries + 1 } b.gateway.pick.1 answer
        (b.now + time) (nextSeed b.seed) = reaction at hpursue ⊢
      obtain ⟨verdict, next, asked⟩ := reaction
      cases verdict with
      | give r =>
        refine ⟨[⟨answer, time, nextSeed b.seed⟩], ?_⟩
        rw [hpursue]
        exact ⟨fun a ha => by rw [List.mem_singleton.1 ha]; exact htime, rfl, rfl, Or.inl rfl⟩
      | again pause =>
        obtain ⟨rest, hrest⟩ := ih asked script'
          { b with
            gateway := next
            calls := b.calls ++ [⟨b.gateway.pick.1, s.request, wait, b.now⟩]
            seed := nextSeed b.seed
            now := b.now + time + pause }
        refine ⟨⟨answer, time, nextSeed b.seed⟩ :: rest, ?_⟩
        rw [hpursue]
        exact hrest.prepend htime

/-- With a bound on the tries, a request of the bench is the loop over the outcomes of its tries. -/
theorem request_pursues (b : GatewayBench) (r : ClientRequest) (script : List ScriptedAnswer)
    (hbound : 0 < b.gateway.settings.retry.maxRetries) :
    ∃ outcomes, (∀ a ∈ (b.gateway.course r b.now outcomes).attempts, a.Timely)
      ∧ (b.gateway.course r b.now outcomes).result.map reported = some (b.request r script).1
      ∧ (b.request r script).2.gateway = (b.gateway.course r b.now outcomes).gateway
      ∧ (b.request r script).2.calls
        = (b.gateway.course r b.now outcomes).attempts.map callOf := by
  obtain ⟨outcomes, h⟩ := run_pursues (b.gateway.submission r b.now)
    (script.length + b.gateway.settings.retry.maxRetries + b.gateway.settings.overallTimeout + 1)
    script { b with calls := [] }
  refine ⟨outcomes, h.timely, ?_, h.gateway, h.calls⟩
  rcases h.ended with hresult | hlength
  · exact congrArg (Option.map reported) hresult
  · have hpursues := Gateway.pursues b.gateway (b.gateway.submission r b.now) b.now outcomes
    have hle := hpursues.length_le hbound (Nat.zero_le _)
    dsimp only at hlength
    omega

/-- So the bench sees its requests through: its calls are the tries, its answer is the result. -/
theorem request_isSeenThrough (b : GatewayBench) (r : ClientRequest) (script : List ScriptedAnswer)
    (hmembers : b.gateway.members.Nodup) (hdelay : b.gateway.settings.retry.maxDelay < 2 ^ 63)
    (hbound : 0 < b.gateway.settings.retry.maxRetries) :
    ∃ c, Gateway.IsSeenThrough b.gateway r (b.now + b.gateway.settings.overallTimeout) c
      ∧ c.result.map reported = some (b.request r script).1
      ∧ (b.request r script).2.gateway = c.gateway
      ∧ (b.request r script).2.calls = c.attempts.map callOf := by
  obtain ⟨outcomes, htimely, hends⟩ := request_pursues b r script hbound
  exact ⟨_, Gateway.isSeenThrough hmembers hdelay htimely, hends⟩

end Raft.Sim.GatewayBench
