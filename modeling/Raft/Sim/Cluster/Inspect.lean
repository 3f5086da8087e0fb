import Raft.Sim.Cluster.Basic
import Raft.Text.Inspect

/-!
# Inspection text of a cluster

The texts of the network and of the ways in which servers are reached.
-/

namespace Raft.Text

open Raft.Sim

/-- Inspection text of the network: the reachable nodes and those whose traffic is blocked. -/
def network (c : Cluster) : String :=
  let sorted (ids : List NodeId) : String :=
    list ((ids.mergeSort fun a b => a ≤ b).map fun id => toString id)
  record "LocalNetwork" [("nodes", sorted c.registeredIds), ("blocked", sorted c.blocked)]

/-- Inspection text of the way in which a node sends. -/
def transport (c : Cluster) (id : NodeId) : String :=
  record "LocalTransport" [("my_id", toString id), ("network", network c)]

def handle (h : Handle) : String := record "NodeHandle" [("node_id", toString h.node)]

def server (s : Server) : String :=
  record "Node"
    [("node_id", toString s.node.id), ("running", if s.isRunning then "true" else "false")]

end Raft.Text
