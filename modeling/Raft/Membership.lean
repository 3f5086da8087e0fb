import Raft.Entry

/-!
# Membership

The fixed members of a cluster as one of them sees it, the size of its quorum, and its best guess
of the current leader.
-/

namespace Raft

/-- One member of the cluster. -/
structure Member where
  id : NodeId
  name : String := ""
  deriving DecidableEq, Repr, Inhabited

/-- More than half of the voters. -/
def majority (voters : Nat) : Nat := voters / 2 + 1

/-- A member with the name that goes with its id. -/
def Member.ofId (id : NodeId) : Member := ⟨id, s!"n{id}"⟩

/-- The cluster as the node `self` sees it. -/
structure ClusterView where
  self : NodeId
  members : List Member
  /-- The believed leader. -/
  leader : Option NodeId := none
  deriving DecidableEq, Repr, Inhabited

namespace ClusterView

def memberIds (v : ClusterView) : List NodeId := v.members.map Member.id

/-- The ids of the other members. -/
def peers (v : ClusterView) : List NodeId := v.memberIds.filter (· ≠ v.self)

def contains (v : ClusterView) (id : NodeId) : Bool := v.memberIds.contains id

/-- The number of votes that decide. -/
def quorum (v : ClusterView) : Nat := majority v.members.length

/-- Remembers a leader; the id 0 stands for none. -/
def mark (v : ClusterView) (id : NodeId) : ClusterView :=
  { v with leader := if id = 0 then none else some id }

def reset (v : ClusterView) : ClusterView := { v with leader := none }

end ClusterView

end Raft
