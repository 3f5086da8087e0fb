import Raft.Node.Basic
import Raft.Replication

/-!
# Leaders

A leader brings every peer's log into agreement with its own, one append request per peer at a
time, and commits what a majority holds. It takes the commands of clients into its log unless they
are there already, and can hand its leadership over to a peer that holds the whole log.
-/

namespace Raft.Node.Leader

/-- Sends a peer the entries from its next index on, unless the answer to an earlier request is
still awaited. -/
def replicateTo (peer : NodeId) : Action Node Unit := do
  let n ← get
  match n.role with
  | .leader l =>
    if l.inFlight.contains peer then
      return
    else
      let next ← match l.next.lookup peer with
        | some next => pure next
        | none => Action.ofExcept (sum n.log.lastIndex 1)
      let request ← Action.ofExcept (LogStore.appendRequest n.log n.id n.term next n.commit
        n.settings.consensus.replication.limit)
      modifyLeader fun l => { l with inFlight := peer :: l.inFlight }
      send peer (.append request)
  | _ => return

/-- Sends every peer what it is missing. -/
def replicateToAll : List NodeId → Action Node Unit
  | [] => return
  | peer :: rest => do
    replicateTo peer
    replicateToAll rest

/-- Commits the greatest index that a majority holds, if its entry is of the current term. -/
def commitMajority : Action Node Unit := do
  let n ← get
  match n.role with
  | .leader l =>
    match LogStore.majorityIndex? n.log n.term n.commit (l.matched.map (·.2)) with
    | some index => advanceCommit index
    | none => return
  | _ => return

/-- Asks the target of a transfer to start its election once it holds the whole log. The result
says whether it was asked. -/
def askTarget (peer : NodeId) : Action Node Bool := do
  let n ← get
  match n.role with
  | .leader l =>
    match l.transfer with
    | some t =>
      if t.target = peer ∧ t.asked = false ∧ n.log.lastIndex ≤ (l.matched.lookup peer).getD 0 then
        modifyLeader fun l => { l with transfer := some { t with asked := true } }
        send peer (.timeoutNow ⟨n.term, n.id⟩)
        return true
      else
        return false
    | none => return false
  | _ => return false

/-- Ends a transfer without success. -/
def abortTransfer (error : NodeId → Error) : Action Node Unit := do
  let n ← get
  match n.leader?.bind LeaderState.transfer with
  | some t =>
    modifyLeader fun l => { l with transfer := none }
    match t.caller with
    | some caller => answer caller (.transfer (.error (error t.target)))
    | none => return
  | none => return

/-- Enters a newer term and asks the loop to step down. -/
def stepDown (term : Nat) : Action Node Unit := do
  adoptTerm term
  emit (.becomeFollower none)

/-- What a new leader starts with: nothing is known of the peers, and the entry after the last one
is sent next. -/
def initialProgress (peers : List NodeId) (next : Nat) (l : LeaderState) : LeaderState :=
  { l with
    next := peers.foldl (fun m peer => PeerMap.put peer next m) l.next
    matched := peers.foldl (fun m peer => PeerMap.put peer 0 m) l.matched }

/-- The first steps of a new leader: it writes a no-op of its term, through which older entries
commit, and announces itself. -/
def onElected : Action Node Unit := do
  let n ← get
  let index ← Action.ofExcept (sum n.log.lastIndex 1)
  modifyLeader (initialProgress n.view.peers index)
  match ← tryLog (Log.append [.noop index n.term]) with
  | .error e => Action.fail (Error.persistence "no-op entry" e)
  | .ok () =>
    modifyLeader fun l => { l with noop := some index }
    modify fun n => { n with view := n.view.mark n.id }
    count fun c => { c with leadersElected := c.leadersElected + 1 }
    resetTimer
    replicateToAll n.view.peers
    commitMajority

/-- Records that a peer holds the log up to an index, and sends it more if there is more. -/
def onMatched (peer : NodeId) (matched : Nat) : Action Node Unit := do
  let after ← Action.ofExcept (sum matched 1)
  modifyLeader fun l =>
    { l with
      matched := l.matched.put peer (max ((l.matched.lookup peer).getD 0) matched)
      next := l.next.put peer (max ((l.next.lookup peer).getD after) after) }
  commitMajority
  let asked ← askTarget peer
  if asked then
    return
  else
    let n ← get
    match n.leader?.bind fun l => l.next.lookup peer with
    | some next =>
      if next ≤ n.log.lastIndex then
        replicateTo peer
    | none => return

/-- Steps back to where a peer's log may agree, and sends from there. -/
def onConflict (peer : NodeId) (prevIndex : Nat) (hint : ConflictHint) : Action Node Unit := do
  count fun c => { c with appendRejections := Counters.raise peer c.appendRejections }
  let n ← get
  let next ← Action.ofExcept (LogStore.nextAfterConflict n.log hint prevIndex)
  modifyLeader fun l => { l with next := l.next.put peer next }
  replicateTo peer

/-- Handles the outcome of an append request. An outcome of an older term is passed over. -/
def onAppendResult (peer : NodeId) (request : AppendMeta) (r : Except Error AppendResponse) :
    Action Node Unit := do
  let n ← get
  if request.term = n.term then
    modifyLeader fun l => { l with inFlight := l.inFlight.filter (· ≠ peer) }
    match r with
    | .error _ => return
    | .ok r =>
      match Replication.verdict n.term r with
      | .matched index => onMatched peer index
      | .nothing => return
      | .higherTerm term => stepDown term
      | .conflict hint => onConflict peer request.prevIndex hint
  else
    return

/-- The place of a client's request among the entries that are not applied yet. -/
def pendingPlace? (n : Node) (client : String) (sequence : Nat) : Except Error (Option LogId) :=
  if n.applier.lastApplied < n.log.lastIndex then
    (n.log.range (n.applier.lastApplied + 1) n.log.lastIndex).map fun entries =>
      (entries.find? fun e => e.isRequestOf client sequence).map Entry.id
  else .ok none

/-- The place of a client's request in the log: where it is already, or else a new last entry. -/
def place (r : ClientRequest) : Action Node LogId := do
  let n ← get
  match ← Action.ofResult (pendingPlace? n r.client r.sequence) with
  | some id => return id
  | none =>
    let index ← Action.ofExcept (sum n.log.lastIndex 1)
    match ← tryLog (Log.append [.ofCommand index n.term r.toCommand]) with
    | .error e => Action.fail (Error.persistence "client entry" e)
    | .ok () => return ⟨index, n.term⟩

/-- Handles a client's command. During a transfer it is redirected to the target; a command that
was applied before is answered from the session table; any other waits at its place in the log. -/
def onPropose (r : ClientRequest) (request : String) (caller : Caller) : Action Node Unit := do
  let n ← get
  match n.leader?.bind LeaderState.transfer with
  | some t => answer caller (.client (.notLeader (some t.target)))
  | none =>
    match n.applier.sessions.check r.client r.sequence with
    | .applied result => answer caller (.client (.committed result))
    | .stale latest => answer caller (.client (.stale latest))
    | .new =>
      let id ← place r
      modify fun n =>
        let waiters := n.applier.waiters.register id.index ⟨request, id.term, caller⟩
        { n with applier := { n.applier with waiters } }
      replicateToAll n.view.peers
      commitMajority

/-- Handles the wish to hand leadership over. One transfer at a time, to another member. -/
def onTransfer (target : NodeId) (caller : Caller) : Action Node Unit := do
  let n ← get
  match n.leader?.bind LeaderState.transfer with
  | some t => answer caller (.transfer (.error (.election (.transferInProgress t.target))))
  | none =>
    if target = n.id ∨ n.view.contains target = false then
      answer caller (.transfer (.error (.election (.invalidTarget target))))
    else
      count fun c => { c with leadershipTransfers := c.leadershipTransfers + 1 }
      let deadline := n.now + n.settings.consensus.transfer.timeout
      modifyLeader fun l => { l with transfer := some ⟨target, deadline, some caller, false⟩ }
      let asked ← askTarget target
      if asked then
        return
      else
        replicateTo target

/-- Handles the outcome of the request to start an election. Acceptance answers the transfer's
caller; the transfer itself stays until the target's election ends it, or its time is up. -/
def onTimeoutNowResult (term : Nat) (r : Except Error TimeoutNowResponse) :
    Action Node Unit := do
  let n ← get
  if term = n.term then
    match r with
    | .error e => abortTransfer fun _ => e
    | .ok r =>
      if n.term < r.term then
        stepDown r.term
      else if r.accepted then
        match n.leader?.bind LeaderState.transfer with
        | some t =>
          match t.caller with
          | some caller =>
            modifyLeader fun l => { l with transfer := some { t with caller := none } }
            answer caller (.transfer (.ok ()))
          | none => return
        | none => return
      else
        abortTransfer fun target => .election (.transferRejected target r.term)
  else
    return

def handle (e : Event) : Action Node Unit := do
  let n ← get
  match e with
  | .voteRequest r caller =>
    if n.term < r.term then
      adoptTerm r.term
      stepDownAndReplay none e
    else
      refuseVote caller
  | .appendRequest r caller =>
    if n.term < r.term then
      adoptTerm r.term
      stepDownAndReplay (some r.leader) e
    else
      refuseAppend caller
  | .timeoutNowRequest r caller =>
    if n.term < r.term then
      adoptTerm r.term
      stepDownAndReplay (some r.leader) e
    else
      answerTimeoutNow caller false
  | .propose r request caller => onPropose r request caller
  | .transfer target caller => onTransfer target caller
  | .voteResult _ _ r =>
    match r with
    | .ok r => if n.term < r.term then stepDown r.term
    | .error _ => return
  | .appendResult peer request r => onAppendResult peer request r
  | .timeoutNowResult _ term r => onTimeoutNowResult term r

/-- Ends a transfer whose time is up, and sends heartbeats when they are due. -/
def tick : Action Node Unit := do
  let n ← get
  match n.leader?.bind LeaderState.transfer with
  | some t =>
    if t.deadline ≤ n.now then
      abortTransfer fun target =>
        .election (.transferTimeout target n.settings.consensus.transfer.timeout)
  | none => pure ()
  let n ← get
  if n.role.isExpired n.now then
    resetTimer
    replicateToAll n.view.peers

/-- What a leader owes when it steps down: its waiting clients are sent to the next leader, and the
caller of a transfer learns whether the target was asked to take over. -/
def onStepDown (leader : Option NodeId) : Action Node Unit := do
  let n ← get
  let (waiting, waiters) := n.applier.waiters.takeAll
  set { n with
    applier := { n.applier with waiters }
    effects := n.effects ++ waiting.map fun (w : Waiter) =>
      n.departure (.answer w.caller (.client (.notLeader leader))) }
  match n.leader?.bind LeaderState.transfer with
  | some t =>
    modifyLeader fun l => { l with transfer := none }
    match t.caller with
    | some caller =>
      answer caller (.transfer (if t.asked then .ok () else .error (.notLeader leader)))
    | none => return
  | none => return

end Raft.Node.Leader
