import Raft.Settings.Basic
import Raft.Text.Inspect

/-!
# Inspection text of settings

The text of the settings as a whole shows the cluster, and the text of the consensus settings
shows elections and replication; what they leave out is shown by itself.
-/

namespace Raft.Text

open Raft

def member (m : Member) : String :=
  record "NodeMeta" [("id", toString m.id), ("name", quoted m.name)]

def backoffPolicy (p : BackoffPolicy) : String :=
  record "BackoffPolicy"
    [("max_retries", toString p.maxRetries), ("timeout_ms", toString p.timeout),
      ("base_delay_ms", toString p.baseDelay), ("max_delay_ms", toString p.maxDelay)]

def settings (s : Settings) : String :=
  record "RaftNodeConfig"
    [("cluster", record "ClusterConfig"
      [("node_id", toString s.cluster.node),
        ("initial_cluster", list (s.cluster.members.map member)),
        ("db_root_dir", quoted s.cluster.root)])]

def consensusSettings (c : Settings.Consensus) : String :=
  record "RaftConfig"
    [("election", record "ElectionConfig"
        [("election_timeout_min", toString c.election.lo),
          ("election_timeout_max", toString c.election.hi)]),
      ("replication", record "ReplicationConfig"
        [("rpc_append_entries_clock_in_ms", toString c.replication.heartbeat),
          ("append_entries_max_entries_per_replication", toString c.replication.limit)])]

def retrySettings (r : Settings.Retry) : String :=
  record "RetryPolicies"
    [("append_entries", backoffPolicy r.append), ("election", backoffPolicy r.election),
      ("client", backoffPolicy r.client)]

end Raft.Text
