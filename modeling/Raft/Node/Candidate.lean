import Raft.Node.Basic
import Raft.Election

/-!
# Candidates

A candidate asked every peer for its vote and waits for the answers. It follows the first sign of
a leader of its term or of a newer term, and starts over in the next term when its time is up.
-/

namespace Raft.Node

/-- Whether so many votes win an election. -/
def isQuorum (n : Node) (votes : Nat) : Bool :=
  majority n.settings.cluster.members.length ≤ votes

def askForVotes : List NodeId → Action Node Unit
  | [] => return
  | peer :: rest => do
    let n ← get
    send peer (.vote ⟨n.term, n.id, n.log.lastId.index, n.log.lastId.term⟩)
    askForVotes rest

/-- Starts an election: enters the next term with a vote for itself, stores that, and asks the
peers. A node that is a quorum by itself is elected at once. -/
def startElection : Action Node Unit := do
  let n ← get
  let term ← Action.ofExcept (sum n.term 1)
  setHard ⟨term, some ⟨n.id, term⟩⟩
  let timer ← newElectionTimer
  modify fun n => { n with view := n.view.reset, role := .candidate timer [n.id] }
  count fun c => { c with electionsStarted := c.electionsStarted + 1 }
  let n ← get
  if n.isQuorum 1 then
    emit .becomeLeader
  else
    askForVotes n.view.peers

namespace Candidate

/-- Enters the term of an outcome if it is newer, and steps down. -/
def followNewer (term : Nat) : Action Node Unit := do
  let n ← get
  if n.term < term then
    adoptTerm term
    emit (.becomeFollower none)

/-- Counts a vote. The vote that completes the quorum makes the candidate a leader. -/
def countVote (peer : NodeId) : Action Node Unit := do
  let n ← get
  match n.role with
  | .candidate timer votes =>
    if votes.contains peer then
      return
    else
      set { n with role := .candidate timer (votes ++ [peer]) }
      if votes.length + 1 = n.view.quorum then
        emit .becomeLeader
  | _ => return

def onVote (peer : NodeId) (r : VoteResponse) : Action Node Unit := do
  let n ← get
  match Election.isVote n.term r.term r.granted with
  | .ok true => countVote peer
  | .ok false => return
  | .error _ => followNewer r.term

def handle (e : Event) : Action Node Unit := do
  let n ← get
  match e with
  | .voteRequest r caller =>
    if n.term < r.term then
      adoptTerm r.term
      stepDownAndReplay none e
    else
      refuseVote caller
  | .appendRequest r caller =>
    if r.term < n.term then
      refuseAppend caller
    else
      adoptTerm r.term
      stepDownAndReplay (some r.leader) e
  | .timeoutNowRequest r caller =>
    if r.term < n.term then
      answerTimeoutNow caller false
    else
      adoptTerm r.term
      answerTimeoutNow caller true
      startElection
  | .propose _ _ caller => answer caller (.client (.notLeader none))
  | .transfer _ caller => answer caller (.transfer (.error (.notLeader none)))
  | .voteResult peer term r =>
    if term = n.term then
      match r with
      | .ok r => onVote peer r
      | .error _ => return
    else
      return
  | .appendResult _ _ r =>
    match r with
    | .ok r => followNewer r.term
    | .error _ => return
  | .timeoutNowResult _ _ r =>
    match r with
    | .ok r => followNewer r.term
    | .error _ => return

/-- Starts over when the election has taken too long. -/
def tick : Action Node Unit := do
  let n ← get
  if n.role.isExpired n.now then
    startElection

end Candidate

end Raft.Node
