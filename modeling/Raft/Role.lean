/-!
# Roles

A node is a follower, a candidate or a leader. Published statuses carry the role as a number.
-/

namespace Raft

/-- What a node is in its term. -/
inductive RoleKind where
  | follower
  | candidate
  | leader
  deriving DecidableEq, Repr, Inhabited

namespace RoleKind

def code : RoleKind → Nat
  | follower => 0
  | candidate => 1
  | leader => 2

def name : RoleKind → String
  | follower => "Follower"
  | candidate => "Candidate"
  | leader => "Leader"

def ofCode? (code : Int) : Option RoleKind :=
  if code = 0 then some follower
  else if code = 1 then some candidate
  else if code = 2 then some leader
  else none

end RoleKind

/-- The name of the role with a number; other numbers name no role. -/
def roleName (code : Int) : String := ((RoleKind.ofCode? code).map RoleKind.name).getD "Unknown"

end Raft
