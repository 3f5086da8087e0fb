import Raft.Proofs.Network.Basic

/-!
# A node by itself

One node at work, among others of which nothing is known. Any event can come in at any time, with
arbitrary contents; storage can fail at any time, and the node can crash between any two steps. An
act that is not possible changes nothing.

* `Solo` is the node with what came in and what it made visible, `Solo.Act` what can happen to it.
* `Solo.run r acts` starts over the storage `r`.
-/

namespace Raft

/-- The same event from another caller. -/
def Event.withCaller (c : Caller) : Event → Event
  | .voteRequest r _ => .voteRequest r c
  | .appendRequest r _ => .appendRequest r c
  | .timeoutNowRequest r _ => .timeoutNowRequest r c
  | .propose r request _ => .propose r request c
  | .transfer target _ => .transfer target c
  | .voteResult peer term r => .voteResult peer term r
  | .appendResult peer request r => .appendResult peer request r
  | .timeoutNowResult peer term r => .timeoutNowResult peer term r

theorem Event.eq_of_withCaller {e : Event} {c c' : Caller} {target : NodeId}
    (h : e.withCaller c = .transfer target c') : c' = c := by
  cases e with
  | transfer => exact (Event.transfer.inj h).2.symm
  | _ => cases h

/-- A node by itself. -/
structure Solo where
  site : Network.Site
  /-- What came in. The place of an event is the number of its caller. -/
  inbound : List Event := []
  /-- What the event loop made visible. -/
  history : List Departure := []

namespace Solo

/-- What can happen to the node. -/
inductive Act where
  | start (settings : Settings) (window now : Nat) (seed : Seed) (fresh : Bool)
  | crash
  /-- The oldest role event is handled. -/
  | role
  | tick
  | event (e : Event)
  /-- The apply loop takes the oldest commit signal. -/
  | signal
  /-- The apply loop works a round on its own. -/
  | round
  | withdraw (request : String)
  | setClock (now : Nat)
  | disturb (faults : LogFaults) (saves : Option Nat) (broken : Bool)

/-- The server goes on after what it made visible was taken. -/
def settle (s : Server) (n : Solo) : Solo :=
  { n with site := .up s.takeEffects.2, history := n.history ++ s.node.effects }

def onServer (f : Server → Server) (n : Solo) : Solo :=
  match n.site with
  | .up s => n.settle (f s)
  | .down _ => n

/-- The node starts over what is left, or over its log and a fresh state machine. -/
def start (settings : Settings) (window now : Nat) (seed : Seed) (fresh : Bool) (n : Solo) : Solo :=
  match n.site with
  | .up _ => n
  | .down r =>
    let storage := if fresh then r.withFreshMachine else r
    match Server.start settings true (.ok storage) window now seed with
    | .ok s => { n with site := .up s }
    | .error _ => n

def crash (n : Solo) : Solo :=
  match n.site with
  | .up s => { n with site := .down s.node.remains }
  | .down _ => n

/-- Changes what is stored, under a server or not. -/
def onStore (f : Node.Remains → Node.Remains) (n : Solo) : Solo :=
  match n.site with
  | .up s => { n with site := .up { s with node := s.node.withRemains (f s.node.remains) } }
  | .down r => { n with site := .down (f r) }

/-- An event comes in, with the next caller. -/
def receive (e : Event) (n : Solo) : Solo :=
  { n with inbound := n.inbound ++ [e.withCaller n.inbound.length] }

def step (n : Solo) : Act → Solo
  | .start settings window now seed fresh => n.start settings window now seed fresh
  | .crash => n.crash
  | .role => n.onServer Network.workRole
  | .tick => n.onServer (Network.workFree .tick)
  | .event e =>
    (n.receive e).onServer (Network.workFree (.event (e.withCaller n.inbound.length)))
  | .signal => n.onServer Network.takeSignal
  | .round => n.onServer Network.applyRound
  | .withdraw request => n.onServer (Network.withdraw request)
  | .setClock now => n.onServer fun s => s.setClock now
  | .disturb faults saves broken => n.onStore (Network.disturb faults saves broken)

def steps (n : Solo) (acts : List Act) : Solo := acts.foldl step n

/-- The node after some acts, over what an earlier run left. -/
def run (r : Node.Remains) (acts : List Act) : Solo := steps { site := .down r } acts

theorem run_append (r : Node.Remains) (acts later : List Act) :
    run r (acts ++ later) = (run r acts).steps later := List.foldl_append

def server? (n : Solo) : Option Server :=
  match n.site with
  | .up s => some s
  | .down _ => none

/-- The stored term and vote; a node that stored nothing is in term 0 without a vote. -/
def stored (n : Solo) : HardState :=
  match n.site with
  | .up s => s.node.stored.getD {}
  | .down r => r.stored.getD {}

end Solo

end Raft
