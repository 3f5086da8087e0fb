import Raft.Entry

/-!
# Messages

The requests and answers of the protocol: votes, log replication, the request to start an election
at once, and the requests of clients with their results. `Request` and `Response` join the
messages between nodes.
-/

namespace Raft

/-- A vote given in a term. -/
structure Vote where
  candidate : NodeId
  term : Nat
  deriving DecidableEq, Repr, Inhabited

/-- What a node keeps on stable storage besides the log: its term and its vote. A node that never
stored anything is in term 0 without a vote. -/
structure HardState where
  term : Nat := 0
  vote : Option Vote := none
  deriving DecidableEq, Repr, Inhabited

/-- A candidate asks for a vote and names the end of its log. -/
structure VoteRequest where
  term : Nat
  candidate : NodeId
  lastIndex : Nat
  lastTerm : Nat
  deriving DecidableEq, Repr, Inhabited

/-- The answer to a vote request, with the end of the voter's log. -/
structure VoteResponse where
  term : Nat
  granted : Bool
  lastIndex : Nat
  lastTerm : Nat
  deriving DecidableEq, Repr, Inhabited

/-- A leader sends the entries that follow a position of its log, and its commit index. -/
structure AppendRequest where
  term : Nat
  leader : NodeId
  prevIndex : Nat
  prevTerm : Nat
  entries : List Entry
  commit : Nat
  deriving DecidableEq, Repr, Inhabited

/-- Where a follower's log leaves the leader's: the term it holds at the probed index, if any, and
the first index it holds of that term. A follower whose log is too short names the index after its
last entry. -/
structure ConflictHint where
  index : Nat
  term : Option Nat
  deriving DecidableEq, Repr, Inhabited

/-- The answer to an append request. The match index counts only on success. -/
structure AppendResponse where
  node : NodeId
  term : Nat
  success : Bool
  matchIndex : Nat
  conflict : Option ConflictHint
  deriving DecidableEq, Repr, Inhabited

namespace AppendResponse

/-- The log holds everything up to `matchIndex`. -/
def accepted (node : NodeId) (term matchIndex : Nat) : AppendResponse :=
  ⟨node, term, true, matchIndex, none⟩

/-- The log does not hold the probed position. -/
def conflicting (node : NodeId) (term : Nat) (hint : ConflictHint) : AppendResponse :=
  ⟨node, term, false, 0, some hint⟩

/-- The request is not of this node's term or does not come from its leader. -/
def refused (node : NodeId) (term : Nat) : AppendResponse :=
  ⟨node, term, false, 0, none⟩

/-- Whether the answer asks the leader to probe earlier in the log. -/
def isConflict (r : AppendResponse) : Bool := !r.success && r.conflict.isSome

end AppendResponse

/-- A leader asks a node to start an election without waiting for its timer. -/
structure TimeoutNowRequest where
  term : Nat
  leader : NodeId
  deriving DecidableEq, Repr, Inhabited

/-- Whether the election is started. -/
structure TimeoutNowResponse where
  term : Nat
  accepted : Bool
  deriving DecidableEq, Repr, Inhabited

/-- A request of a client. Retransmissions carry the same sequence number. -/
structure ClientRequest where
  client : String
  sequence : Nat
  command : Bytes
  deriving DecidableEq, Repr, Inhabited

/-- The command that a client request puts into the log. -/
def ClientRequest.toCommand (r : ClientRequest) : Command := ⟨r.client, r.sequence, r.command⟩

/-- Where a command was committed and what the state machine answered. -/
structure CommitResult where
  term : Nat
  index : Nat
  result : Bytes
  deriving DecidableEq, Repr, Inhabited

/-- What a node answers to a client request. -/
inductive ClientResponse where
  | committed (r : CommitResult)
  | notLeader (hint : Option NodeId)
  | stale (lastApplied : Nat)
  deriving DecidableEq, Repr, Inhabited

/-- A request between nodes. -/
inductive Request where
  | vote (r : VoteRequest)
  | append (r : AppendRequest)
  | timeoutNow (r : TimeoutNowRequest)
  deriving DecidableEq, Repr, Inhabited

def Request.term : Request → Nat
  | .vote r => r.term
  | .append r => r.term
  | .timeoutNow r => r.term

/-- What a request between nodes asks for. -/
inductive RequestKind where
  | vote
  | append
  | timeoutNow
  deriving DecidableEq, Repr, Inhabited

def Request.kind : Request → RequestKind
  | .vote _ => .vote
  | .append _ => .append
  | .timeoutNow _ => .timeoutNow

/-- An answer between nodes. -/
inductive Response where
  | vote (r : VoteResponse)
  | append (r : AppendResponse)
  | timeoutNow (r : TimeoutNowResponse)
  deriving DecidableEq, Repr, Inhabited

def Response.term : Response → Nat
  | .vote r => r.term
  | .append r => r.term
  | .timeoutNow r => r.term

namespace Text

def vote (v : Vote) : String :=
  record "VotedFor"
    [("voted_for_id", toString v.candidate), ("voted_for_term", toString v.term)]

def hardState (h : HardState) : String :=
  record "HardState"
    [("current_term", toString h.term), ("voted_for", option (h.vote.map vote))]

def conflictHint (h : ConflictHint) : String :=
  record "ConflictHint"
    [("conflict_index", toString h.index), ("conflict_term", optionNat h.term)]

end Text

end Raft
