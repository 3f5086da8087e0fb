import Raft.Node.Loop
import Raft.Sim.Callers

/-!
# Nodes under the hand of a test

A testbed holds some nodes of a cluster on one virtual clock. Nothing happens by itself: events are
fed to a node, a request that a node sends is held back until it is delivered, answered or
dropped, and the clock stands still until it is moved. After each event a node handles everything
that follows from it.
-/

namespace Raft.Sim

/-- A node that was started, with its apply loop. -/
structure Running where
  node : Node
  schedule : ApplySchedule
  /-- The fatal error that stopped the node; it takes no more events. -/
  stopped : Option Error := none
  /-- Outcomes of requests that were not handled yet, in the order in which they came. -/
  inbox : List Event := []

/-- A place for a node: what was left there, and the node while one runs. -/
structure Seat where
  settings : Settings
  remains : Node.Remains := {}
  running : Option Running := none
  /-- How often a node was started here. -/
  starts : Nat := 0
  /-- What the nodes before the running one counted. -/
  counted : Counters := {}

/-- What the nodes at a place counted so far. -/
def Seat.counters (s : Seat) : Counters :=
  match s.running with
  | some r => (s.counted.add r.node.counters).add { committedEntries := r.node.applier.count }
  | none => s.counted

/-- A request that a node sent and that was not delivered yet. -/
structure Parcel where
  id : Nat
  source : NodeId
  target : NodeId
  request : Request
  /-- Which start of the sender it belongs to. -/
  start : Nat
  deadline : Nat
  /-- The sender was told that its time ran out. -/
  late : Bool := false

/-- Something a node handled by itself, and how that ended. -/
structure Handled where
  node : NodeId
  event : RoleEvent ⊕ Event
  result : Option Error

structure Testbed where
  /-- The most sessions a node keeps. -/
  window : Nat
  now : Nat := 0
  /-- The places, in the order of their ids. -/
  seats : List (NodeId × Seat) := []
  /-- Requests held back, oldest first. -/
  parcels : List Parcel := []
  nextParcel : Nat := 1
  /-- Nodes whose outbound traffic is blocked. -/
  blocked : List NodeId := []
  callers : Callers := {}
  /-- Answers given since they were last collected. -/
  given : List (Caller × Answer) := []
  /-- What was handled since that was last shown. -/
  trace : List Handled := []
  /-- The requests sent since they were last shown. -/
  sent : List Parcel := []

namespace Testbed

def seat? (t : Testbed) (id : NodeId) : Option Seat := t.seats.lookup id

def putSeat (t : Testbed) (id : NodeId) (s : Seat) : Testbed :=
  { t with seats := t.seats.map fun item => if item.1 = id then (id, s) else item }

/-- The node at a place, unless it is down or stopped. -/
def active? (t : Testbed) (id : NodeId) : Option Running :=
  match (t.seat? id).bind Seat.running with
  | some r => if r.stopped.isNone then some r else none
  | none => none

def putRunning (t : Testbed) (id : NodeId) (r : Running) : Testbed :=
  match t.seat? id with
  | some s => t.putSeat id { s with running := some r }
  | none => t

/-! ## What a node does -/

/-- The time a sender waits for the answer to a request. -/
def patience (s : Settings) : Request → Nat
  | .vote _ => s.retry.election.timeout
  | .append _ => s.retry.append.timeout
  | .timeoutNow _ => s.retry.append.timeout

def capture (source start : Nat) (s : Settings) (t : Testbed) (target : NodeId) (r : Request) :
    Testbed :=
  let p : Parcel := ⟨t.nextParcel, source, target, r, start, t.now + patience s r, false⟩
  { t with
    nextParcel := t.nextParcel + 1
    parcels := t.parcels ++ [p]
    sent := t.sent ++ [p] }

/-- Takes what a node made visible: its requests are held back, its answers given, and its apply
loop is told the new commit indexes. -/
def takeEffects (t : Testbed) (id start : Nat) (r : Running) : Testbed :=
  let (schedule, node) := r.node.inform r.schedule
  let (effects, node) := node.takeEffects
  let t := { t.putRunning id { r with node, schedule } with
    given := t.given ++ effects.filterMap Effect.answer? }
  (effects.filterMap Effect.request?).foldl
    (fun t e => capture id start node.settings t e.1 e.2) t

/-- Lets a node do something. A fatal error stops it. The result is absent if the node is down or
stopped. -/
def onNode {α : Type} (id : NodeId) (x : Action Node α) :
    Action Testbed (Option (Except Error α)) := do
  let t ← get
  match t.active? id, t.seat? id with
  | some r, some seat =>
    let out := x.run { r.node with now := t.now }
    let r := { r with node := Action.state out }
    match Action.outcome out with
    | .ok a =>
      set (t.takeEffects id seat.starts r)
      return some (.ok a)
    | .error .overflow =>
      set (t.takeEffects id seat.starts r)
      throw .overflow
    | .error (.error e) =>
      set (t.takeEffects id seat.starts { r with stopped := if e.isFatal then some e else none })
      return some (.error e)
  | _, _ => return none

/-! ## What follows by itself -/

/-- The order in which outcomes that wait together are handled: answers to vote requests, then to
append requests, then to requests to start an election, each by peer. -/
def urgency : Event → Nat × NodeId
  | .voteResult peer .. => (0, peer)
  | .appendResult peer .. => (1, peer)
  | .timeoutNowResult peer .. => (2, peer)
  | _ => (3, 0)

/-- Whether one outcome is handled before another that came earlier. -/
def isMoreUrgent (a b : Event) : Bool :=
  let (k, p) := urgency a
  let (k', p') := urgency b
  k < k' || (k == k' && p < p')

/-- Takes the outcome that is handled next out of those that wait. -/
def takeUrgent : List Event → Option (Event × List Event)
  | [] => none
  | e :: rest =>
    match takeUrgent rest with
    | none => some (e, [])
    | some (first, others) =>
      if isMoreUrgent first e then some (first, e :: others) else some (e, rest)

/-- Takes what a node handles next: a role event, else an outcome. -/
def takeWork (id : NodeId) : Action Testbed (Option (RoleEvent ⊕ Event)) := do
  let t ← get
  match t.active? id with
  | none => return none
  | some r =>
    match r.node.queue with
    | e :: queue =>
      set (t.putRunning id { r with node := { r.node with queue } })
      return some (.inl e)
    | [] =>
      match takeUrgent r.inbox with
      | some (e, inbox) =>
        set (t.putRunning id { r with inbox })
        return some (.inr e)
      | none => return none

/-- How a node handles what it took. -/
def handleWork : RoleEvent ⊕ Event → Action Node Unit
  | .inl e => Node.handleRole e
  | .inr e => Node.handle e

/-- The error of a result. -/
def errorOf {α : Type} : Option (Except Error α) → Option Error
  | some (.error e) => some e
  | _ => none

/-- Lets a node handle everything that waits, at most `fuel` items. -/
def drainNode : Nat → NodeId → Action Testbed Unit
  | 0, _ => return
  | fuel + 1, id => do
    match ← takeWork id with
    | none => return
    | some work =>
      let result ← onNode id (handleWork work)
      modify fun t => { t with trace := t.trace ++ [⟨id, work, errorOf result⟩] }
      drainNode fuel id

/-- The most items a node handles in a row. Every item leads to a few others at most, and these to
none, so that the bound is not met. -/
def drainLimit : Nat := 100000

/-- Lets the nodes of a list handle everything that waits, one after the other. -/
def drainNodes : List NodeId → Action Testbed Unit
  | [] => return
  | id :: rest => do
    drainNode drainLimit id
    drainNodes rest

/-- Lets all nodes handle everything that waits. -/
def drain : Action Testbed Unit := do
  let t ← get
  drainNodes (t.seats.map (·.1))

/-- Lets a node do something, and then all nodes what follows from it. -/
def feed {α : Type} (id : NodeId) (x : Action Node α) :
    Action Testbed (Option (Except Error α)) := do
  let r ← onNode id x
  drain
  return r

/-- A new outside caller, shown under a name. -/
def call (name : String) : Action Testbed Caller := do
  let t ← get
  let (caller, callers) := t.callers.call name
  set { t with callers }
  return caller

/-- A caller nobody is shown. -/
def callSilently : Action Testbed Caller := do
  let t ← get
  let (caller, callers) := t.callers.callSilently
  set { t with callers }
  return caller

/-! ## Starting and stopping -/

/-- Ends the node at a place, whatever its state. What it stored stays. -/
def kill (id : NodeId) : Action Testbed Unit := do
  let t ← get
  match t.seat? id with
  | some s =>
    match s.running with
    | some r =>
      set (t.putSeat id { s with
        running := none, remains := r.node.remains, counted := s.counters })
    | none => return
  | none => return

/-- Starts a node at a place over what was left there. -/
def start (id : NodeId) : Action Testbed (Except Error Unit) := do
  let t ← get
  match t.seat? id with
  | none => return .error (.network (.unavailable id))
  | some s =>
    let starts := s.starts + 1
    match Node.start s.settings t.window s.remains t.now (starts * 1000003 + id) with
    | .error e => return .error e
    | .ok node =>
      let schedule : ApplySchedule := ⟨s.settings.consensus.commit.interval, t.now, none⟩
      let (schedule, node) := node.applyUntil t.now schedule
      set (t.putSeat id { s with starts, running := some { node, schedule } })
      return .ok ()

/-- Starts a node again. A fresh state machine has applied nothing. -/
def restart (id : NodeId) (fresh : Bool) : Action Testbed (Except Error Unit) := do
  kill id
  if fresh then
    modify fun t =>
      match t.seat? id with
      | some s => t.putSeat id { s with remains := s.remains.withFreshMachine }
      | none => t
  start id

/-- Starts the nodes of a list. -/
def startAll : List NodeId → Action Testbed Unit
  | [] => return
  | id :: rest => do
    discard (start id)
    startAll rest

/-- Changes what a node stores, whether it runs or not. -/
def onRemains (f : Node.Remains → Node.Remains) (id : NodeId) : Action Testbed Unit :=
  modify fun t =>
    match t.seat? id with
    | none => t
    | some s =>
      match s.running with
      | none => t.putSeat id { s with remains := f s.remains }
      | some r =>
        let node := r.node.withRemains (f r.node.remains)
        t.putSeat id { s with running := some { r with node } }

def stored? (t : Testbed) (id : NodeId) : Option Node.Remains :=
  (t.seat? id).map fun s =>
    match s.running with
    | some r => r.node.remains
    | none => s.remains

def setBlocked (id : NodeId) (on : Bool) : Action Testbed Unit :=
  modify fun t =>
    let others := t.blocked.filter (· ≠ id)
    { t with blocked := if on then id :: others else others }

/-- The active leader of the greatest term, the first of several; without a leader the first
place. -/
def leader? (t : Testbed) : Option NodeId :=
  let leaders := t.seats.filterMap fun (id, _) =>
    (t.active? id).bind fun r => if r.node.role.kind = .leader then some (id, r.node.term) else none
  match leaders with
  | [] => t.seats.head?.map (·.1)
  | first :: rest =>
    some (rest.foldl (fun best x => if best.2 < x.2 then x else best) first).1

def counters (t : Testbed) : List (NodeId × Counters) :=
  t.seats.map fun (id, s) => (id, s.counters)

end Testbed

end Raft.Sim
