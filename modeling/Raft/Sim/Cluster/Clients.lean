import Raft.Sim.Cluster.Run
import Raft.Sim.GatewayBench
import Raft.Random

/-!
# Clients of a cluster

Requests that come from outside: commands, sent over the network or straight to a server, wishes to
hand leadership over, requests in the name of a node, and the commands of a gateway.
-/

namespace Raft.Sim.Cluster

/-- The answer to a caller, if it has one by now. -/
def answer? (caller : Caller) (c : Cluster) : Option (Option Answer) := c.answers.lookup caller

/-- The caller does not wait any more. -/
def forget (caller : Caller) (c : Cluster) : Cluster :=
  { c with
    calls := c.calls.filter (·.caller ≠ caller)
    answers := c.answers.filter (·.1 ≠ caller) }

/-- The request id under which the command of a caller waits. -/
def requestId (caller : Caller) : String := s!"r{caller}"

/-- Withdraws the command of a caller. -/
def withdraw (target : Handle) (caller : Caller) (c : Cluster) : Cluster :=
  match c.server? target.place with
  | none => c
  | some s =>
    let (_, waiters) := s.node.applier.waiters.cancel (requestId caller)
    c.putServer target.place { s with
      node := { s.node with applier := { s.node.applier with waiters } } }

/-- Hands a command to a server, and waits for its result. A command that was not answered in time
is withdrawn. -/
def submit (target : Handle) (r : ClientRequest) (wait : Nat) (c : Cluster) :
    Except ClientError ClientResponse × Cluster :=
  if c.reaches target then
    let (caller, c) := c.call target none fun caller => .propose r (requestId caller) caller
    match c.run (answer? caller) wait with
    | (some (some (.client a)), c) => (.ok a, c.forget caller)
    | (some _, c) => (.error (.unavailable target.node), c.forget caller)
    | (none, c) => (.error .timeout, (c.withdraw target caller).forget caller)
  else (.error (.unavailable target.node), c)

/-- Hands a command to the server that was started last at a member. -/
def submitAt (id : NodeId) (r : ClientRequest) (wait : Nat) (c : Cluster) :
    Except ClientError ClientResponse × Cluster :=
  match c.handle? id with
  | some h => c.submit h r wait
  | none => (.error (.unavailable id), c)

/-- Sends a command over the network. -/
def propose (target : NodeId) (r : ClientRequest) (wait : Nat) (c : Cluster) :
    Except ClientError ClientResponse × Cluster :=
  match c.registered.lookup target with
  | some h =>
    if c.blocked.contains target then (.error (.unavailable target), c) else c.submit h r wait
  | none => (.error (.unavailable target), c)

def transfer (h : Handle) (target wait : Nat) (c : Cluster) : Except Error Unit × Cluster :=
  if c.reaches h then
    let (caller, c) := c.call h none fun caller => .transfer target caller
    match c.run (answer? caller) wait with
    | (some (some (.transfer r)), c) => (r, c.forget caller)
    | (some _, c) => (.error (.network (.unavailable h.node)), c.forget caller)
    | (none, c) => (.error (.network (.timeout h.node wait)), c.forget caller)
  else (.error (.network (.unavailable h.node)), c)

/-- Asks the server that was started last at a member to hand leadership over. -/
def transferAt (id target wait : Nat) (c : Cluster) : Except Error Unit × Cluster :=
  match c.handle? id with
  | some h => c.transfer h target wait
  | none => (.error (.network (.unavailable id)), c)

/-- Sends a request in the name of a node. -/
def request (source target : NodeId) (r : Request) (c : Cluster) :
    Except Error Response × Cluster :=
  match c.route source target with
  | .error e => (.error e, c)
  | .ok h =>
    let (caller, c) := c.call h none fun caller => r.toEvent caller
    let c := c.settle
    (c.reply source target ((c.answer? caller).bind id), c.forget caller)

/-- What someone sees who follows the status of a member. -/
inductive Sighting where
  | status (s : Node.Status)
  /-- The event loop ended before. -/
  | closed

/-- Follows the published status of a member until it shows a role with at least a commit index. -/
def watch (id : NodeId) (role commit wait : Nat) (c : Cluster) : Option Sighting × Cluster :=
  let seen (c : Cluster) : Option Sighting :=
    match (c.site? id).bind Site.status? with
    | none => none
    | some s =>
      if s.role.code = role ∧ commit ≤ s.commit then some (.status s)
      else if c.isRunning id then none
      else some .closed
  c.run seen wait

/-! ## Gateways -/

/-- Sees the request of a gateway through, in at most `fuel` tries. -/
def seeThrough (s : Submission) : Nat → Gateway → Cluster →
    GatewayResult × Gateway × Cluster
  | 0, g, c => (.error (.error s.lastError), g, c)
  | fuel + 1, g, c =>
    match g.move s c.now with
    | (.give r, g, _) => (r, g, c)
    | (.ask target wait, g, s) =>
      let (a, c) := c.propose target s.request wait
      let c := { c with seed := nextSeed c.seed }
      match g.react s target a c.now c.seed with
      | (.give r, g, _) => (r, g, c)
      | (.again pause, g, s) => seeThrough s fuel g (c.elapse pause)

/-- Sees the request of a gateway through. A try that is not a redirect takes time or is counted,
so that the bound is met only by servers that redirect to each other for ever. -/
def requestBy (g : Gateway) (r : ClientRequest) (c : Cluster) :
    Except ClientError CommitResult × Gateway × Cluster :=
  let fuel := g.settings.retry.maxRetries + 2 * g.settings.overallTimeout + 1
  let (given, g, c) := seeThrough (g.submission r c.now) fuel g c
  (reported given, g, c)

def putGateway (name : String) (g : Gateway) (c : Cluster) : Cluster :=
  { c with gateways := (name, g) :: c.gateways.filter (·.1 ≠ name) }

end Raft.Sim.Cluster
