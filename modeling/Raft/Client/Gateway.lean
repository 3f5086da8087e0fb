import Raft.Message
import Raft.Client.Backoff
import Raft.Client.Error
import Raft.Error

/-!
# The client gateway

A gateway submits commands for one client and sees each through: it asks the leader it knows of,
or else the members in turn, follows redirects at once, and tries again after a pause when a node
does not answer. Every try of a request carries the same sequence number.
-/

namespace Raft

/-- How a gateway bounds its requests. -/
structure GatewaySettings where
  /-- The bound of one try. -/
  requestTimeout : Nat := 1000
  /-- The bound of a request with all its tries. -/
  overallTimeout : Nat := 30000
  retry : BackoffPolicy := ⟨50, 1000, 20, 500⟩
  deriving DecidableEq, Repr

def GatewaySettings.ofPolicy (p : BackoffPolicy) : GatewaySettings :=
  { requestTimeout := p.timeout, retry := p }

structure Gateway where
  client : String
  members : List NodeId
  settings : GatewaySettings := {}
  /-- The sequence number of the latest command. -/
  lastSequence : Nat := 0
  /-- The leader it knows of. -/
  hint : Option NodeId := none
  /-- How often a member was chosen in turn. -/
  turn : Nat := 0
  deriving DecidableEq, Repr

/-- A request that a gateway sees through. -/
structure Submission where
  request : ClientRequest
  deadline : Nat
  tries : Nat := 0
  /-- Why the last try failed. -/
  lastError : ClientError := .timeout
  deriving DecidableEq, Repr

abbrev GatewayResult := Except (Failure ClientError) CommitResult

/-- What a gateway does next about a request. -/
inductive GatewayMove where
  /-- Ask a node, and wait so long for its answer. -/
  | ask (target : NodeId) (wait : Nat)
  | give (r : GatewayResult)

/-- What a gateway does after a try. -/
inductive GatewayVerdict where
  /-- Try again after a pause. -/
  | again (pause : Nat)
  | give (r : GatewayResult)

/-- Another try after a pause; where the pause cannot be computed, the request ends. -/
def GatewayVerdict.after : Except (Failure ClientError) Nat → GatewayVerdict
  | .ok pause => .again pause
  | .error f => .give (.error f)

namespace Gateway

def generatedIdLength : Nat := 21

def build (client : String) (members : List NodeId) (s : GatewaySettings) :
    Except Error Gateway :=
  if members.isEmpty then
    .error (.settings (.invalid "client needs at least one cluster member"))
  else if s.requestTimeout = 0 ∨ s.overallTimeout = 0 then
    .error (.settings (.invalid "client timeouts must be > 0"))
  else .ok { client, members, settings := s }

/-- The next command of the client, with its sequence number. -/
def next (g : Gateway) (command : Bytes) : ClientRequest × Gateway :=
  let sequence := g.lastSequence + 1
  (⟨g.client, sequence, command⟩, { g with lastSequence := sequence })

def submission (g : Gateway) (r : ClientRequest) (now : Nat) : Submission :=
  { request := r, deadline := now + g.settings.overallTimeout }

/-- The node to ask: the leader it knows of, else the next member in turn. -/
def pick (g : Gateway) : NodeId × Gateway :=
  match g.hint with
  | some leader => (leader, g)
  | none => (g.members.getD (g.turn % g.members.length) 0, { g with turn := g.turn + 1 })

/-- The next move: a try, unless the tries are used up or the time is over. -/
def move (g : Gateway) (s : Submission) (now : Nat) : GatewayMove × Gateway × Submission :=
  if 0 < g.settings.retry.maxRetries ∧ g.settings.retry.maxRetries ≤ s.tries then
    (.give (.error (.error s.lastError)), g, s)
  else if s.deadline ≤ now then
    (.give (.error (.error .timeout)), g, s)
  else
    let (target, g) := g.pick
    (.ask target (min g.settings.requestTimeout (s.deadline - now)), g,
      { s with tries := s.tries + 1 })

/-- The pause before the next try, which does not outlast the request. -/
def pause (g : Gateway) (s : Submission) (now draw : Nat) : Except (Failure ClientError) Nat :=
  (g.settings.retry.backoff (s.tries - 1) draw).map fun delay => min delay (s.deadline - now)

/-- What follows from the answer of a node. A redirect to another node is followed at once; a node
that failed is no longer taken for the leader. -/
def react (g : Gateway) (s : Submission) (target : NodeId)
    (answer : Except ClientError ClientResponse) (now draw : Nat) :
    GatewayVerdict × Gateway × Submission :=
  match answer with
  | .ok (.committed r) => (.give (.ok r), { g with hint := some target }, s)
  | .ok (.stale _) => (.give (.error (.error (.stale s.request.client s.request.sequence))), g, s)
  | .ok (.notLeader hint) =>
    let s := { s with lastError := .notLeader hint }
    match hint.filter (· ≠ target) with
    | some leader => (.again 0, { g with hint := some leader }, s)
    | none => (.after (g.pause s now draw), { g with hint := none }, s)
  | .error e =>
    if e.isRetryable then
      let g := if g.hint = some target then { g with hint := none } else g
      let s := { s with lastError := e }
      (.after (g.pause s now draw), g, s)
    else (.give (.error (.error e)), g, s)

end Gateway

namespace Text

def gateway (g : Gateway) : String :=
  record "RaftClient"
    [("client_id", quoted g.client), ("last_sequence", toString g.lastSequence),
      ("leader_hint", optionNat g.hint)]

end Text

end Raft
