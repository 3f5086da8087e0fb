import Raft.Node.Event
import Raft.Log.Basic
import Raft.Apply.Applier
import Raft.Settings.Basic
import Raft.Timer
import Raft.Metrics
import Raft.Random
import Raft.Role

/-!
# State of a node

A node holds its role with what only that role knows, its term and vote in memory and on stable
storage, its log, its view of the cluster, and the apply loop. Role events wait in a queue. The
small actions of this file are what the handlers of the roles are built of.
-/

namespace Raft

/-- A handover of leadership that is under way. -/
structure Transfer where
  target : NodeId
  deadline : Nat
  /-- The caller, until it is answered. -/
  caller : Option Caller
  /-- The target was asked to start an election. -/
  asked : Bool
  deriving DecidableEq, Repr

/-- A number per peer. -/
abbrev PeerMap := List (NodeId × Nat)

def PeerMap.put (peer : NodeId) (value : Nat) : PeerMap → PeerMap
  | [] => [(peer, value)]
  | (p, old) :: rest => if p = peer then (p, value) :: rest else (p, old) :: put peer value rest

/-- What a leader knows. -/
structure LeaderState where
  timer : HeartbeatTimer
  /-- The index of the next entry to send to each peer. -/
  next : PeerMap := []
  /-- The greatest index known to agree with the leader's log, for each peer. -/
  matched : PeerMap := []
  /-- The index of the no-op written when the leader was elected. -/
  noop : Option Nat := none
  /-- The peers whose answer to an append request is awaited. -/
  inFlight : List NodeId := []
  transfer : Option Transfer := none
  deriving DecidableEq, Repr

/-- A role with what only it knows. A candidate counts the nodes that voted for it. -/
inductive Role where
  | follower (timer : ElectionTimer)
  | candidate (timer : ElectionTimer) (votes : List NodeId)
  | leader (l : LeaderState)
  deriving DecidableEq, Repr

namespace Role

def kind : Role → RoleKind
  | follower _ => .follower
  | candidate .. => .candidate
  | leader _ => .leader

/-- When the role has to act without being told. -/
def deadline : Role → Nat
  | follower timer => timer.deadline
  | candidate timer _ => timer.deadline
  | leader l =>
    match l.transfer with
    | some t => min l.timer.deadline t.deadline
    | none => l.timer.deadline

def isExpired (r : Role) (now : Nat) : Bool :=
  match r with
  | follower timer => timer.isExpired now
  | candidate timer _ => timer.isExpired now
  | leader l => l.timer.isExpired now

end Role

/-- An effect, with what the node held at the moment when it made it visible. -/
structure Departure where
  effect : Effect
  /-- The term and the vote in memory. -/
  hard : HardState
  /-- The term and the vote on stable storage. -/
  stored : Option HardState
  log : Log

/-- A node. -/
structure Node where
  settings : Settings
  view : ClusterView
  role : Role
  /-- The term and the vote in memory. -/
  hard : HardState
  /-- The term and the vote on stable storage; absent if nothing was ever stored. -/
  stored : Option HardState
  /-- Storing the hard state is made to fail. -/
  saveFails : Bool := false
  /-- How many more times it works before it fails. -/
  savesLeft : Nat := 0
  /-- A write to stable storage has failed. -/
  writeFailed : Bool := false
  commit : Nat
  log : Log
  /-- The apply loop, with the sessions and waiters that it shares with the event loop. -/
  applier : Applier
  /-- Role events not handled yet, oldest first. -/
  queue : List RoleEvent := []
  /-- Role events can no longer be queued. -/
  queueClosed : Bool := false
  /-- Commit indexes the apply loop was not told yet, oldest first. -/
  signals : List Nat := []
  /-- What the node made visible, oldest first. -/
  effects : List Departure := []
  counters : Counters := {}
  /-- The time on the node's clock. -/
  now : Nat := 0
  seed : Seed := 0

namespace Node

def id (n : Node) : NodeId := n.view.self

def term (n : Node) : Nat := n.hard.term

def leader? (n : Node) : Option LeaderState :=
  match n.role with
  | .leader l => some l
  | _ => none

/-! ## Small actions -/

/-- An effect that leaves the node now. -/
def departure (n : Node) (e : Effect) : Departure := ⟨e, n.hard, n.stored, n.log⟩

def perform (e : Effect) : Action Node Unit :=
  modify fun n => { n with effects := n.effects ++ [n.departure e] }

def answer (caller : Caller) (a : Answer) : Action Node Unit := perform (.answer caller a)

def send (target : NodeId) (r : Request) : Action Node Unit := perform (.send target r)

/-- A draw from the node's supply. -/
def draw : Action Node Nat := do
  let n ← get
  set { n with seed := nextSeed n.seed }
  return nextSeed n.seed

def newElectionTimer : Action Node ElectionTimer := do
  let d ← draw
  let n ← get
  return .start n.settings.consensus.election.lo n.settings.consensus.election.hi n.now d

def resetTimer : Action Node Unit := do
  let timer ← newElectionTimer
  modify fun n =>
    match n.role with
    | .follower _ => { n with role := .follower timer }
    | .candidate _ votes => { n with role := .candidate timer votes }
    | .leader l => { n with role := .leader { l with timer := l.timer.reset n.now } }

def modifyLeader (f : LeaderState → LeaderState) : Action Node Unit :=
  modify fun n =>
    match n.role with
    | .leader l => { n with role := .leader (f l) }
    | _ => n

/-- Writes term and vote to stable storage. A failure stops the node: it must not answer on a
state that it could not store. -/
def persist : Action Node Unit := do
  let n ← get
  if n.saveFails ∧ n.savesLeft = 0 then
    set { n with writeFailed := true }
    Action.fail (Error.persistence "hard state" (.storage (.hardState "injected save")))
  else
    set { n with stored := some n.hard, savesLeft := n.savesLeft - 1 }

def setHard (h : HardState) : Action Node Unit := do
  modify fun n => { n with hard := h }
  persist

/-- Enters a newer term, without a vote. An older term or the current one changes nothing. -/
def adoptTerm (term : Nat) : Action Node Unit := do
  let n ← get
  if n.term < term then
    setHard ⟨term, none⟩

/-- The error of a queue that takes no more role events. -/
def queueError : Error := .network (.signal "SendError \x7b .. \x7d")

def emit (e : RoleEvent) : Action Node Unit := do
  let n ← get
  if n.queueClosed then
    Action.fail queueError
  else
    set { n with queue := n.queue ++ [e] }

/-- Raises the commit index and tells the loop. -/
def advanceCommit (index : Nat) : Action Node Unit := do
  let n ← get
  if n.commit < index then
    set { n with commit := index }
    emit (.newCommit index)

def onLog {α : Type} (x : Action Log α) : Action Node α := do
  let n ← get
  let r := x.run n.log
  set { n with log := Action.state r }
  Action.ofExcept (Action.outcome r)

/-- Works on the log; an error is a result. An error of storage is that of a write. -/
def tryLog {α : Type} (x : Action Log α) : Action Node (Except Error α) := do
  let n ← get
  let r := x.run n.log
  set { n with log := Action.state r }
  match Action.outcome r with
  | .ok a => return .ok a
  | .error (.error e) =>
    modify fun n => { n with writeFailed := n.writeFailed || e.isStorage }
    return .error e
  | .error .overflow => throw .overflow

def count (f : Counters → Counters) : Action Node Unit :=
  modify fun n => { n with counters := f n.counters }

/-- Asks the loop to step down and to handle the event again as a follower. -/
def stepDownAndReplay (leader : Option NodeId) (e : Event) : Action Node Unit := do
  emit (.becomeFollower leader)
  emit (.replay e)

/-- The answer of a node that gives no vote. -/
def refuseVote (caller : Caller) : Action Node Unit := do
  let n ← get
  answer caller (.vote (.ok ⟨n.term, false, n.log.lastId.index, n.log.lastId.term⟩))

def refuseAppend (caller : Caller) : Action Node Unit := do
  let n ← get
  answer caller (.append (.ok (.refused n.id n.term)))

def answerTimeoutNow (caller : Caller) (accepted : Bool) : Action Node Unit := do
  let n ← get
  answer caller (.timeoutNow (.ok ⟨n.term, accepted⟩))

/-- Enters the term of an outcome, if the request was answered. -/
def adoptTermOf {α : Type} (termOf : α → Nat) (r : Except Error α) : Action Node Unit :=
  match r with
  | .ok a => adoptTerm (termOf a)
  | .error _ => return

end Node

end Raft
