import Raft.Text.Inspect
import Raft.Entry

/-!
# Errors of the client gateway

What a client can be told instead of a result, and which of these answers are worth another try.
-/

namespace Raft

/-- Why a client request failed. -/
inductive ClientError where
  /-- The contacted node does not lead. -/
  | notLeader (hint : Option NodeId)
  /-- No answer in time; the command may still commit later. -/
  | timeout
  | unavailable (node : NodeId)
  /-- The cluster no longer remembers the sequence number. -/
  | stale (client : String) (sequence : Nat)
  | server (text : String)
  deriving DecidableEq, Repr

namespace ClientError

def message : ClientError → String
  | .notLeader hint => "Node is not the leader (hint: " ++ Text.optionNat hint ++ ")"
  | .timeout => "Request timed out"
  | .unavailable node => s!"Node {node} is unavailable"
  | .stale client sequence =>
    s!"Sequence {sequence} of client {client} is older than its applied window"
  | .server text => "Server error: " ++ text

/-- Whether another try, perhaps at another node, can succeed. -/
def isRetryable : ClientError → Bool
  | .notLeader _ => true
  | .timeout => true
  | .unavailable _ => true
  | .stale .. => false
  | .server _ => false

end ClientError

end Raft
