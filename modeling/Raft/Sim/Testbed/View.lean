import Raft.Sim.Testbed.Basic

/-!
# What a testbed shows

After every step the nodes are shown whose look has changed, together with what was handled, what
was sent, and which callers were answered.
-/

namespace Raft.Sim

/-- What only a leader shows. -/
structure LeaderView where
  next : List (NodeId × Option Nat)
  matched : List (NodeId × Option Nat)
  noop : Option Nat
  deriving DecidableEq

/-- How a node that was started looks. -/
structure NodeView where
  role : RoleKind
  hard : HardState
  stored : Option HardState
  commit : Nat
  last : LogId
  leader : Option NodeId
  applied : Nat
  waiters : Nat
  sessions : Nat
  deadline : Nat
  leading : Option LeaderView
  stopped : Option Error
  /-- Why the apply loop ended. -/
  applyEnd : Option (Failure Error)
  deriving DecidableEq

def LeaderView.of (peers : List NodeId) (l : LeaderState) : LeaderView :=
  ⟨peers.map fun p => (p, l.next.lookup p), peers.map fun p => (p, l.matched.lookup p), l.noop⟩

def NodeView.of (r : Running) : NodeView :=
  let n := r.node
  { role := n.role.kind
    hard := n.hard
    stored := n.stored
    commit := n.commit
    last := n.log.lastId
    leader := n.view.leader
    applied := n.applier.lastApplied
    waiters := n.applier.waiters.size
    sessions := n.applier.sessions.size
    deadline := n.role.deadline
    leading := n.leader?.map (LeaderView.of n.view.peers)
    stopped := r.stopped
    applyEnd := match r.schedule.ended with
      | some (.error e) => some e
      | _ => none }

namespace Testbed

/-- How each node looks; nothing for a node that is down. -/
def nodeViews (t : Testbed) : List (NodeId × Option NodeView) :=
  t.seats.map fun (id, s) => (id, s.running.map NodeView.of)

/-- The nodes that look different from before. -/
def changes (before after : List (NodeId × Option NodeView)) :
    List (NodeId × Option NodeView) :=
  after.filter fun item => before.lookup item.1 ≠ some item.2

/-- What a step of a test shows. -/
structure StepView where
  now : Nat
  trace : List Handled
  sent : List Parcel
  answers : List (String × Option Answer)
  nodes : List (NodeId × Option NodeView)

/-- What is new since the views of the nodes that were last shown, and the views now. -/
def report (before : List (NodeId × Option NodeView)) (t : Testbed) :
    StepView × List (NodeId × Option NodeView) × Testbed :=
  let holds (c : Caller) : Bool :=
    t.seats.any fun item => (item.2.running.map fun r => r.node.holds c).getD false
  let (answers, callers) := t.callers.collect t.given holds
  let after := t.nodeViews
  (⟨t.now, t.trace, t.sent, answers, changes before after⟩, after,
    { t with callers, given := [], trace := [], sent := [] })

end Testbed

end Raft.Sim
