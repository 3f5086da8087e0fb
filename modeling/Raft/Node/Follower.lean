import Raft.Node.Basic
import Raft.Election
import Raft.Replication

/-!
# Followers

A follower gives its vote, takes the entries of its leader into its log, and becomes a candidate
when it has not heard of a leader for an election timeout.
-/

namespace Raft.Node.Follower

/-- Decides a vote request, and stores what it changes before it answers. A granted vote restarts
the timer. -/
def onVoteRequest (r : VoteRequest) (caller : Caller) : Action Node Unit := do
  let n ← get
  let d := Election.decide r n.hard n.log.lastId
  if !d.isEmpty then
    setHard (d.apply n.hard)
  if d.granted then
    resetTimer
  let n ← get
  answer caller (.vote (.ok ⟨n.term, d.granted, n.log.lastId.index, n.log.lastId.term⟩))

/-- Takes the entries of the leader into the log. A request to overwrite committed entries is
answered with the error; any other failure of the log stops the node. -/
def onAppendRequest (r : AppendRequest) (caller : Caller) : Action Node Unit := do
  adoptTerm r.term
  modify fun n => { n with view := n.view.mark r.leader }
  resetTimer
  let n ← get
  match ← tryLog (Replication.handle n.id r n.term n.commit) with
  | .ok out =>
    match out.commit with
    | some index => advanceCommit index
    | none => pure ()
    answer caller (.append (.ok out.response))
  | .error (.replication (.committedConflict index commit)) =>
    answer caller (.append (.error (.replication (.committedConflict index commit))))
  | .error e => Action.fail (Error.persistence "log entries" e)

def handle (e : Event) : Action Node Unit := do
  let n ← get
  match e with
  | .voteRequest r caller => onVoteRequest r caller
  | .appendRequest r caller =>
    if r.term < n.term then
      refuseAppend caller
    else
      onAppendRequest r caller
  | .timeoutNowRequest r caller =>
    if r.term < n.term then
      answerTimeoutNow caller false
    else
      adoptTerm r.term
      answerTimeoutNow caller true
      emit .becomeCandidate
  | .propose _ _ caller =>
    count fun c => { c with clientRedirects := c.clientRedirects + 1 }
    answer caller (.client (.notLeader n.view.leader))
  | .transfer _ caller => answer caller (.transfer (.error (.notLeader n.view.leader)))
  | .voteResult _ _ r => adoptTermOf VoteResponse.term r
  | .appendResult _ _ r => adoptTermOf AppendResponse.term r
  | .timeoutNowResult _ _ r => adoptTermOf TimeoutNowResponse.term r

/-- Becomes a candidate when no leader was heard of for an election timeout. -/
def tick : Action Node Unit := do
  let n ← get
  if n.role.isExpired n.now then
    resetTimer
    emit .becomeCandidate

end Raft.Node.Follower
