import Raft.Settings.Basic
import Raft.Data.Basic

/-!
# Settings as a data tree

The tree of the settings of a node. Its field names are those of settings files and of the
environment.
-/

namespace Raft.Settings

def ofMember (m : Member) : Data := .record [("id", .nat m.id), ("name", .text m.name)]

def ofPolicy (p : BackoffPolicy) : Data :=
  .record [("max_retries", .nat p.maxRetries), ("timeout_ms", .nat p.timeout),
    ("base_delay_ms", .nat p.baseDelay), ("max_delay_ms", .nat p.maxDelay)]

def ofCluster (c : Cluster) : Data :=
  .record [("node_id", .nat c.node), ("initial_cluster", .list (c.members.map ofMember)),
    ("db_root_dir", .text c.root)]

def ofConsensus (c : Consensus) : Data :=
  .record [
    ("replication", .record [
      ("rpc_append_entries_clock_in_ms", .nat c.replication.heartbeat),
      ("append_entries_max_entries_per_replication", .nat c.replication.limit)]),
    ("election", .record [
      ("election_timeout_min", .nat c.election.lo),
      ("election_timeout_max", .nat c.election.hi)]),
    ("commit_handler", .record [
      ("batch_size", .nat c.commit.batch),
      ("process_interval_ms", .nat c.commit.interval)]),
    ("leadership_transfer", .record [("timeout_ms", .nat c.transfer.timeout)])]

def ofRetry (r : Retry) : Data :=
  .record [("append_entries", ofPolicy r.append), ("election", ofPolicy r.election),
    ("client", ofPolicy r.client)]

def toData (s : Settings) : Data :=
  .record [("cluster", ofCluster s.cluster), ("raft", ofConsensus s.consensus),
    ("retry", ofRetry s.retry)]

end Raft.Settings
