import Raft.Node.Loop
import Raft.Settings.Validate

/-!
# Servers

A server is a node at work. Its event loop handles one thing at a time: a queued role event if
there is one, else a tick when the deadline of the role has come, else the oldest event of the
inbox. After each it publishes the node's status. Beside it runs the apply loop. Only a fatal error
or an overflow ends the event loop; the status it published last stays, and the apply loop goes on.
-/

namespace Raft

/-- What the event loop handles in one go. -/
inductive Work where
  | role (e : RoleEvent)
  | tick
  | event (e : Event)

def Work.run : Work → Action Node Unit
  | .role e => Node.handleRole e
  | .tick => Node.tick
  | .event e => Node.handle e

/-- A node with its two loops. -/
structure Server where
  node : Node
  schedule : ApplySchedule
  /-- Events that wait to be handled, oldest first. -/
  inbox : List Event := []
  /-- The status published last. -/
  status : Node.Status
  /-- Why the event loop ended. -/
  ended : Option (Failure Error) := none

namespace Server

/-- Starts a server over its storage, if the settings are valid and there is a network to send by.
Opening the storage may fail. -/
def start (settings : Settings) (networked : Bool) (storage : Except Error Node.Remains)
    (window now : Nat) (seed : Seed) : Except Error Server := do
  settings.validate
  if !networked then
    .error (.startFailed s!"node {settings.cluster.node} has no transport configured")
  let node ← Node.start settings window (← storage) now seed
  let schedule : ApplySchedule := ⟨settings.consensus.commit.interval, now, none⟩
  return { node, schedule, status := node.status }

def isRunning (s : Server) : Bool := s.ended.isNone

def receive (s : Server) (e : Event) : Server := { s with inbox := s.inbox ++ [e] }

def setClock (s : Server) (now : Nat) : Server := { s with node := { s.node with now } }

/-! ## The event loop -/

/-- Takes what the event loop handles next. -/
def take? (s : Server) : Option (Work × Server) :=
  if s.isRunning then
    match s.node.queue with
    | e :: queue => some (.role e, { s with node := { s.node with queue } })
    | [] =>
      if s.node.role.deadline ≤ s.node.now then some (.tick, s)
      else
        match s.inbox with
        | e :: inbox => some (.event e, { s with inbox })
        | [] => none
  else none

def publish (s : Server) : Server := { s with status := s.node.status }

/-- Ends the event loop. What still waits is dropped. -/
def stop (s : Server) (why : Failure Error) : Server :=
  { s with ended := some why, inbox := [], node := { s.node with queue := [] } }

/-- Handles something. Errors that are not fatal stay without consequence. -/
def handle (s : Server) (w : Work) : Server :=
  let r := w.run.run s.node
  let s := { s with node := Action.state r }
  match Action.outcome r with
  | .ok () => s.publish
  | .error (.error e) => if e.isFatal then s.stop (.error e) else s.publish
  | .error .overflow => s.stop .overflow

/-! ## Both loops -/

/-- Tells the apply loop what was committed. -/
def inform (s : Server) : Server :=
  let (schedule, node) := s.node.inform s.schedule
  { s with schedule, node }

/-- The rounds of the apply loop that are due. -/
def applyDue (s : Server) : Server :=
  let (schedule, node) := s.node.applyUntil s.node.now s.schedule
  { s with schedule, node }

/-- The next step of the server; none if nothing is to be done now. -/
def step? (s : Server) : Option Server :=
  if s.schedule.isDue s.node.now then some s.applyDue
  else s.take?.map fun (w, s) => (s.handle w).inform

def isIdle (s : Server) : Bool := !s.schedule.isDue s.node.now && s.take?.isNone

def takeEffects (s : Server) : List Effect × Server :=
  let (effects, node) := s.node.takeEffects
  (effects, { s with node })

/-- When the server has to act without being told. -/
def nextDue (s : Server) : Option Nat :=
  let loop := if s.isRunning then some s.node.role.deadline else none
  let apply := if s.schedule.ended.isNone then some s.schedule.next else none
  match loop, apply with
  | some a, some b => some (min a b)
  | some a, none => some a
  | none, b => b

/-- Whether the server still holds the request of a caller. Callers that wait for an entry to be
applied outlive the event loop. -/
def holds (s : Server) (caller : Caller) : Bool :=
  (s.node.applier.waiters.all.any fun w => w.caller = caller)
    || (s.isRunning
      && (s.node.holds caller || s.inbox.any fun e => e.caller? == some caller))

/-- The result of shutting down: the failure that ended the event loop, else the one that ended the
apply loop. -/
def result (s : Server) : Except (Failure Error) Unit :=
  match s.ended with
  | some e => .error e
  | none => s.schedule.ended.getD (.ok ())

end Server

end Raft
