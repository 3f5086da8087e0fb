import Raft.Script.Errors
import Raft.Sim.Cluster.Clients
import Raft.Sim.Cluster.Inspect

/-!
# Reports of a cluster

How a cluster that runs by itself is shown. What is shown per member is a record whose keys are the
ids.
-/

namespace Raft.Script

open Raft.Sim

/-- What there is to show of each member. -/
def perMember {α : Type} (show' : α → Data) (l : List (NodeId × Option α)) : Data :=
  .record (l.filterMap fun item => item.2.map fun a => (toString item.1, show' a))

/-- The published status of a server, whether it runs, and the last index its state machine
applied. -/
def serverStatus (s : Server) : Data :=
  let status := s.status
  .record [("node_id", .nat status.node), ("role", .nat status.role.code),
    ("term", .nat status.term), ("leader", optNat status.leader), ("commit", .nat status.commit),
    ("last", .nat status.lastIndex), ("running", .flag s.isRunning),
    ("applied", .nat s.node.applier.machine.last)]

/-- What a follower of a status saw. -/
def sighting : Option Cluster.Sighting → Data
  | some (.status s) =>
    .record [("role", .nat s.role.code), ("term", .nat s.term), ("leader", optNat s.leader)]
  | some .closed => .text "closed"
  | none => .text "timeout"

/-- The reachable nodes, and those whose traffic is blocked. -/
def network (c : Cluster) : Data :=
  let sorted (ids : List NodeId) : Data := natList (ids.mergeSort fun a b => a ≤ b)
  .record [("registered", sorted c.registeredIds), ("blocked", sorted c.blocked)]

/-- The inspection texts that concern a member. -/
def inspectMember (c : Cluster) (id : NodeId) : Data :=
  .record [("network", .text (Text.network c)), ("transport", .text (Text.transport c id)),
    ("handle", Data.optional (fun h => .text (Text.handle h)) (c.handle? id)),
    ("node", Data.optional (fun s => .text (Text.server s)) (c.server? id))]

def clientResult {α : Type} (show' : α → Data) : Except ClientError α → Data
  | .ok a => show' a
  | .error e => clientError e

end Raft.Script
