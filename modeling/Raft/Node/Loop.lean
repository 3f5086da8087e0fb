import Raft.Node.Follower
import Raft.Node.Candidate
import Raft.Node.Leader

/-!
# The event loop

A node handles one thing at a time: a queued role event if there is one, else a tick when its
deadline has come, else an inbound event. Only a fatal error ends the loop.
-/

namespace Raft.Node

def handle (e : Event) : Action Node Unit := do
  let n ← get
  match n.role with
  | .follower _ => Follower.handle e
  | .candidate .. => Candidate.handle e
  | .leader _ => Leader.handle e

def tick : Action Node Unit := do
  let n ← get
  match n.role with
  | .follower _ => Follower.tick
  | .candidate .. => Candidate.tick
  | .leader _ => Leader.tick

/-- The role to which a node may change, or why it may not. Only a follower becomes a candidate,
only a candidate with a quorum of votes a leader, and a follower stays what it is. -/
def changeRole (target : RoleKind) : Action Node Role := do
  let n ← get
  match target, n.role with
  | .follower, .follower _ => Action.fail (.transition .invalid)
  | .follower, _ => return .follower (← newElectionTimer)
  | .candidate, .follower _ => return .candidate (← newElectionTimer) []
  | .candidate, _ => Action.fail (.transition .invalid)
  | .leader, .candidate _ votes =>
    if n.isQuorum votes.length then
      return .leader { timer := .start n.settings.consensus.replication.heartbeat n.now }
    else
      Action.fail (.transition .notEnoughVotes)
  | .leader, _ => Action.fail (.transition .invalid)

def become (target : RoleKind) : Action Node Unit := do
  let role ← changeRole target
  modify fun n => { n with role }

def handleRole : RoleEvent → Action Node Unit
  | .becomeFollower leader => do
    modify fun n =>
      { n with view := match leader with
          | some id => n.view.mark id
          | none => n.view.reset }
    let n ← get
    match n.role with
    | .follower _ => return
    | .candidate .. => become .follower
    | .leader _ => do
      Leader.onStepDown leader
      become .follower
  | .becomeCandidate => do
    become .candidate
    startElection
  | .becomeLeader => do
    become .leader
    Leader.onElected
  | .newCommit index => modify fun n => { n with signals := n.signals ++ [index] }
  | .replay e => handle e

/-! ## The apply loop -/

/-- Tells the apply loop the commit indexes that it was not told yet. -/
def inform (s : ApplySchedule) (n : Node) : ApplySchedule × Node :=
  let (s, applier) :=
    n.signals.foldl (fun acc index => acc.1.signal n.log acc.2 index) (s, n.applier)
  (s, { n with applier, signals := [] })

/-- The rounds of the apply loop that are due up to a time. -/
def applyUntil (time : Nat) (s : ApplySchedule) (n : Node) : ApplySchedule × Node :=
  let (s, applier) := s.advance n.log n.applier time
  (s, { n with applier })

/-- Takes what the node made visible: first what its event loop did, then the answers of the apply
loop. -/
def takeEffects (n : Node) : List Effect × Node :=
  (n.effects.map Departure.effect ++ n.applier.answers.map fun a => .answer a.1 (.client a.2),
    { n with effects := [], applier := { n.applier with answers := [] } })

/-! ## Starting -/

/-- What outlives a node: its log, its stored hard state and its state machine. -/
structure Remains where
  log : Log := {}
  stored : Option HardState := none
  saveFails : Bool := false
  savesLeft : Nat := 0
  machine : Machine := {}

/-- The same storage with a state machine that has applied nothing. -/
def Remains.withFreshMachine (r : Remains) : Remains :=
  { r with machine := { broken := r.machine.broken } }

/-- What a node leaves behind when it stops. -/
def remains (n : Node) : Remains :=
  ⟨n.log, n.stored, n.saveFails, n.savesLeft, n.applier.machine⟩

/-- The node over other storage. -/
def withRemains (n : Node) (r : Remains) : Node :=
  { n with
    log := r.log
    stored := r.stored
    saveFails := r.saveFails
    savesLeft := r.savesLeft
    applier := { n.applier with machine := r.machine } }

/-- Starts a node over what an earlier run left: a follower in its stored term, committed as far
as its state machine has applied, with the session table of that prefix. -/
def start (settings : Settings) (window : Nat) (r : Remains) (now : Nat) (seed : Seed) :
    Except Error Node := do
  let lastApplied := r.machine.last
  let sessions ← Sessions.rebuild window r.log r.machine lastApplied
  let seed := nextSeed seed
  let election := settings.consensus.election
  return {
    settings
    view := settings.view
    role := .follower (.start election.lo election.hi now seed)
    hard := r.stored.getD {}
    stored := r.stored
    saveFails := r.saveFails
    savesLeft := r.savesLeft
    commit := lastApplied
    log := r.log
    applier := {
      batch := settings.consensus.commit.batch
      lastApplied
      machine := r.machine
      sessions }
    now
    seed }

/-! ## Observing -/

/-- The caller that a transfer of the node still owes an answer. -/
def transferCaller? (n : Node) : Option Caller :=
  (n.leader?.bind LeaderState.transfer).bind Transfer.caller

/-- Whether the node still holds the request of a caller. -/
def holds (n : Node) (caller : Caller) : Bool :=
  (n.applier.waiters.all.any fun w => w.caller = caller)
    || n.transferCaller? == some caller
    || n.queue.any fun e =>
      match e with
      | .replay e => e.caller? == some caller
      | _ => false

/-- A node as its published status shows it. -/
structure Status where
  node : NodeId
  role : RoleKind := .follower
  term : Nat := 0
  leader : Option NodeId := none
  commit : Nat := 0
  lastIndex : Nat := 0
  lastApplied : Nat := 0
  deriving DecidableEq, Repr

def status (n : Node) : Status :=
  ⟨n.id, n.role.kind, n.term, n.view.leader, n.commit, n.log.lastIndex, n.applier.lastApplied⟩

end Raft.Node
