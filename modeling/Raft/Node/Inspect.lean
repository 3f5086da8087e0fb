import Raft.Node.Basic

/-!
# Inspection text of a node

The text of the role with its state, of the loop, and of the parts that decide elections and
replication.
-/

namespace Raft.Text

open Raft

/-- Inspection text of what all roles share. -/
def sharedState (n : Node) : String :=
  record "SharedState"
    [("node_id", toString n.id), ("hard_state", hardState n.hard),
      ("commit_index", toString n.commit)]

def peerMap (m : PeerMap) : String := braced (m.map fun p => s!"{p.1}: {p.2}")

def role (n : Node) : String :=
  let shared := ("shared_state", sharedState n)
  match n.role with
  | .follower _ => record "FollowerState" [shared]
  | .candidate _ votes =>
    record "CandidateState" [shared, ("votes", braced (votes.map fun v => toString v))]
  | .leader l =>
    record "LeaderState"
      [shared, ("next_index", peerMap l.next), ("match_index", peerMap l.matched),
        ("noop_log_id", optionNat l.noop)]

/-- Inspection texts of a node: its role, its loop, and its parts for elections and replication. -/
def node (n : Node) : List String :=
  let id := toString n.id
  [role n, record "Raft" [("node_id", id)], record "ElectionHandler" [("my_id", id)],
    record "ReplicationHandler" [("my_id", id)]]

end Raft.Text
