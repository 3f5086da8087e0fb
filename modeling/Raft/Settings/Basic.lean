import Raft.Membership

/-!
# Settings of a node

Everything a node is configured with, with the values used where nothing is given. All durations
are milliseconds.
-/

namespace Raft

/-- How an operation is bounded and tried again. -/
structure BackoffPolicy where
  /-- The most tries; 0 for no bound. -/
  maxRetries : Nat := 3
  timeout : Nat := 100
  baseDelay : Nat := 50
  maxDelay : Nat := 1000
  deriving DecidableEq, Repr, Inhabited

namespace Settings

/-- Who the node is, who the members are, and where it stores its data. -/
structure Cluster where
  node : NodeId := 1
  members : List Member := [1, 2, 3].map Member.ofId
  root : String := "/tmp/quorum-engine/db"
  deriving DecidableEq, Repr, Inhabited

structure Replication where
  heartbeat : Nat := 100
  /-- The most entries in one append request. -/
  limit : Nat := 100
  deriving DecidableEq, Repr, Inhabited

/-- The range of election timeouts. -/
structure Election where
  lo : Nat := 300
  hi : Nat := 600
  deriving DecidableEq, Repr, Inhabited

structure Commit where
  batch : Nat := 100
  interval : Nat := 10
  deriving DecidableEq, Repr, Inhabited

structure Transfer where
  timeout : Nat := 2000
  deriving DecidableEq, Repr, Inhabited

structure Consensus where
  replication : Replication := {}
  election : Election := {}
  commit : Commit := {}
  transfer : Transfer := {}
  deriving DecidableEq, Repr, Inhabited

/-- Requests between nodes, and the requests of clients. -/
structure Retry where
  append : BackoffPolicy := ⟨1, 100, 10, 100⟩
  election : BackoffPolicy := ⟨1, 100, 10, 100⟩
  client : BackoffPolicy := ⟨50, 1000, 20, 500⟩
  deriving DecidableEq, Repr, Inhabited

end Settings

structure Settings where
  cluster : Settings.Cluster := {}
  consensus : Settings.Consensus := {}
  retry : Settings.Retry := {}
  deriving DecidableEq, Repr, Inhabited

namespace Settings

/-- The cluster as this node sees it. -/
def view (s : Settings) : ClusterView := ⟨s.cluster.node, s.cluster.members, none⟩

/-- The same settings for another member. -/
def forNode (s : Settings) (node : NodeId) : Settings :=
  { s with cluster := { s.cluster with node } }

/-- A path below a directory: one slash between them; a directory without a name adds nothing. -/
def joinPath (root name : String) : String :=
  if root.isEmpty then name
  else if root.endsWith "/" then root ++ name
  else root ++ "/" ++ name

def databaseDir (s : Settings) : String := joinPath s.cluster.root (toString s.cluster.node)

end Settings

end Raft
