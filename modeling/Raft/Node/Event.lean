import Raft.Error
import Raft.Apply.Waiters

/-!
# Events of a node

What reaches a node's event loop: requests of other nodes and of clients, and the outcomes of
requests it sent. Handling an event can queue role events, which the loop handles before anything
else, and produces effects: requests to other nodes and answers to callers.
-/

namespace Raft

/-- Identifies the append request that an outcome belongs to. -/
structure AppendMeta where
  term : Nat
  prevIndex : Nat
  length : Nat
  deriving DecidableEq, Repr, Inhabited

def AppendRequest.meta (r : AppendRequest) : AppendMeta := ⟨r.term, r.prevIndex, r.entries.length⟩

/-- An event of the loop. Requests carry the caller that expects the answer. -/
inductive Event where
  | voteRequest (r : VoteRequest) (caller : Caller)
  | appendRequest (r : AppendRequest) (caller : Caller)
  | timeoutNowRequest (r : TimeoutNowRequest) (caller : Caller)
  /-- A client's command; the request id names the wait for its result. -/
  | propose (r : ClientRequest) (request : String) (caller : Caller)
  | transfer (target : NodeId) (caller : Caller)
  | voteResult (peer : NodeId) (term : Nat) (r : Except Error VoteResponse)
  | appendResult (peer : NodeId) (request : AppendMeta) (r : Except Error AppendResponse)
  | timeoutNowResult (peer : NodeId) (term : Nat) (r : Except Error TimeoutNowResponse)

def Event.caller? : Event → Option Caller
  | .voteRequest _ c => some c
  | .appendRequest _ c => some c
  | .timeoutNowRequest _ c => some c
  | .propose _ _ c => some c
  | .transfer _ c => some c
  | .voteResult .. => none
  | .appendResult .. => none
  | .timeoutNowResult .. => none

/-- What a role asks the loop to do next. -/
inductive RoleEvent where
  | becomeFollower (leader : Option NodeId)
  | becomeCandidate
  | becomeLeader
  | newCommit (index : Nat)
  /-- Handle an event again, in the role that the events before lead to. -/
  | replay (e : Event)

/-- An answer to a caller. -/
inductive Answer where
  | vote (r : Except Error VoteResponse)
  | append (r : Except Error AppendResponse)
  | timeoutNow (r : Except Error TimeoutNowResponse)
  | client (r : ClientResponse)
  | transfer (r : Except Error Unit)

/-! ## Requests between nodes as events -/

/-- The event by which a request reaches its target. -/
def Request.toEvent (caller : Caller) : Request → Event
  | .vote r => .voteRequest r caller
  | .append r => .appendRequest r caller
  | .timeoutNow r => .timeoutNowRequest r caller

/-- The event by which the result of a request reaches its sender. A request that is answered by
another kind of answer counts as not answered. -/
def Request.resultEvent (peer : NodeId) (request : Request) (result : Except Error Response) :
    Event :=
  let failure : Error :=
    match result with
    | .error e => e
    | .ok _ => .network (.unavailable peer)
  match request, result with
  | .vote r, .ok (.vote a) => .voteResult peer r.term (.ok a)
  | .append r, .ok (.append a) => .appendResult peer r.meta (.ok a)
  | .timeoutNow r, .ok (.timeoutNow a) => .timeoutNowResult peer r.term (.ok a)
  | .vote r, _ => .voteResult peer r.term (.error failure)
  | .append r, _ => .appendResult peer r.meta (.error failure)
  | .timeoutNow r, _ => .timeoutNowResult peer r.term (.error failure)

/-- The result that an answer brings to another node; none if the answer is for a client. -/
def Answer.response? : Answer → Option (Except Error Response)
  | .vote r => some (r.map .vote)
  | .append r => some (r.map .append)
  | .timeoutNow r => some (r.map .timeoutNow)
  | .client _ => none
  | .transfer _ => none

/-- What handling an event makes visible outside the node. -/
inductive Effect where
  | send (target : NodeId) (r : Request)
  | answer (caller : Caller) (a : Answer)

def Effect.request? : Effect → Option (NodeId × Request)
  | .send target r => some (target, r)
  | .answer .. => none

def Effect.answer? : Effect → Option (Caller × Answer)
  | .send .. => none
  | .answer c a => some (c, a)

end Raft
