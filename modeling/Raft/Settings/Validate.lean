import Raft.Settings.Basic
import Raft.Error

/-!
# Checked settings

The rules that settings obey before a node starts with them. The first rule that is broken is
reported.
-/

namespace Raft

/-- The error of a broken rule. -/
def SettingsError.broken (text : String) : Except Error Unit :=
  .error (.settings (.invalid text))

/-- Reports a rule unless it is kept. -/
def SettingsError.require (kept : Bool) (text : String) : Except Error Unit :=
  if kept then .ok () else SettingsError.broken text

open SettingsError (require)

namespace Settings

/-- Every id of the list is used once and none is 0. -/
def validateIds : List NodeId → List NodeId → Except Error Unit
  | _, [] => .ok ()
  | seen, id :: rest => do
    require (id ≠ 0) "initial_cluster contains reserved node_id 0"
    require (!seen.contains id) s!"Duplicate node_id {id} in initial_cluster"
    validateIds (id :: seen) rest

/-- The node is a member of a cluster with distinct ids. -/
def Cluster.validate (c : Cluster) : Except Error Unit := do
  require (c.node ≠ 0) "node_id cannot be 0 (reserved for invalid nodes)"
  require (!c.members.isEmpty) "initial_cluster must contain at least one node"
  require (c.members.any fun m => m.id = c.node)
    s!"Current node {c.node} not found in initial_cluster"
  validateIds [] (c.members.map Member.id)

/-- Heartbeats take time and requests carry entries. -/
def Replication.validate (r : Replication) : Except Error Unit := do
  require (r.heartbeat ≠ 0) "rpc_append_entries_clock_in_ms cannot be 0"
  require (r.limit ≠ 0) "append_entries_max_entries_per_replication must be > 0"

/-- The range of election timeouts has more than one value. -/
def Election.validate (e : Election) : Except Error Unit := do
  require (e.lo ≠ 0) "election_timeout_min cannot be 0"
  require (e.lo < e.hi)
    s!"election_timeout_min {e.lo}ms must be less than election_timeout_max {e.hi}ms"

/-- The apply loop makes progress. -/
def Commit.validate (c : Commit) : Except Error Unit := do
  require (c.batch ≠ 0) "batch_size must be > 0"
  require (c.interval ≠ 0) "process_interval_ms must be > 0"

/-- A transfer has time. -/
def Transfer.validate (t : Transfer) : Except Error Unit :=
  require (t.timeout ≠ 0) "leadership_transfer.timeout_ms must be > 0"

/-- Each part is valid, and heartbeats come before the shortest election timeout. -/
def Consensus.validate (c : Consensus) : Except Error Unit := do
  c.replication.validate
  c.election.validate
  c.commit.validate
  c.transfer.validate
  require (c.replication.heartbeat < c.election.lo)
    (s!"heartbeat interval {c.replication.heartbeat}ms must be less than "
      ++ s!"election_timeout_min {c.election.lo}ms")

/-- A policy has a timeout and its delays are in order. -/
def validatePolicy (name : String) (p : BackoffPolicy) : Except Error Unit := do
  require (p.timeout ≠ 0) (name ++ ".timeout_ms must be > 0")
  require (p.baseDelay ≤ p.maxDelay)
    (name ++ s!".base_delay_ms {p.baseDelay} exceeds max_delay_ms {p.maxDelay}")

def Retry.validate (r : Retry) : Except Error Unit := do
  validatePolicy "append_entries" r.append
  validatePolicy "election" r.election
  validatePolicy "client" r.client

/-- Whether the settings obey every rule. -/
def validate (s : Settings) : Except Error Unit := do
  s.cluster.validate
  s.consensus.validate
  s.retry.validate

end Settings

end Raft
