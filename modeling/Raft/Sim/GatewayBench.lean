import Raft.Client.Gateway
import Raft.Random

/-!
# A gateway with scripted answers

A gateway on a virtual clock whose every call is answered by a script. When the script runs out,
the called node is unavailable.
-/

namespace Raft.Sim

/-- The answer to one call, after some time. An answer that takes as long as the caller waits comes
too late. -/
structure ScriptedAnswer where
  after : Nat
  /-- The answer, given the called node. -/
  answer : NodeId → Except ClientError ClientResponse

/-- A call that a gateway made. -/
structure GatewayCall where
  target : NodeId
  request : ClientRequest
  wait : Nat
  time : Nat

/-- What is reported of a request. A sum out of range takes the caller down with the gateway; it is
reported as an error of the server. -/
def reported (r : GatewayResult) : Except ClientError CommitResult :=
  r.mapError fun
    | .error e => e
    | .overflow => .server "attempt to add with overflow"

/-- A gateway, its clock and its calls. -/
structure GatewayBench where
  gateway : Gateway
  now : Nat := 0
  seed : Seed := 0
  calls : List GatewayCall := []

namespace GatewayBench

/-- The answer of the script to a call, and the time it takes. -/
def answerTo (target wait : Nat) : List ScriptedAnswer →
    Except ClientError ClientResponse × Nat × List ScriptedAnswer
  | [] => (.error (.unavailable target), 0, [])
  | a :: rest =>
    if 0 < a.after ∧ wait ≤ a.after then (.error .timeout, wait, rest)
    else (a.answer target, a.after, rest)

/-- Sees a request through, in at most `fuel` tries. -/
def run (s : Submission) : Nat → List ScriptedAnswer → GatewayBench →
    GatewayResult × GatewayBench
  | 0, _, b => (.error (.error s.lastError), b)
  | fuel + 1, script, b =>
    match b.gateway.move s b.now with
    | (.give r, gateway, _) => (r, { b with gateway })
    | (.ask target wait, gateway, s) =>
      let calls := b.calls ++ [⟨target, s.request, wait, b.now⟩]
      let (answer, time, script) := answerTo target wait script
      let seed := nextSeed b.seed
      let b := { b with gateway, calls, seed, now := b.now + time }
      match b.gateway.react s target answer b.now seed with
      | (.give r, gateway, _) => (r, { b with gateway })
      | (.again pause, gateway, s) => run s fuel script { b with gateway, now := b.now + pause }

/-- Sees a request through. Without a bound on the tries every try that is not a redirect takes
time, so that the overall timeout bounds them. -/
def request (b : GatewayBench) (r : ClientRequest) (script : List ScriptedAnswer) :
    Except ClientError CommitResult × GatewayBench :=
  let s := b.gateway.submission r b.now
  let fuel := script.length + b.gateway.settings.retry.maxRetries
    + b.gateway.settings.overallTimeout + 1
  let (given, b) := run s fuel script { b with calls := [] }
  (reported given, b)

def submit (b : GatewayBench) (command : Bytes) (script : List ScriptedAnswer) :
    Except ClientError CommitResult × GatewayBench :=
  let (r, gateway) := b.gateway.next command
  { b with gateway }.request r script

end GatewayBench

end Raft.Sim
