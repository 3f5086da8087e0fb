import Mathlib.Logic.Function.Basic
import Raft.Server

/-!
# Clusters under any schedule

A cluster of servers with everything that was ever sent between them. Nothing happens by itself: an
act lets one server start, crash or handle one thing, so that a list of acts is a schedule. Requests
and answers are kept, and may be delivered at any time, any number of times or never; a request that
is delivered again is a new call. An act that is not possible changes nothing.

* `Network` is the cluster, `Network.Act` what can happen in it.
* `Network.run members whole acts` is the cluster after some acts.
* `Network.Leads`, `Network.Commits`, `Network.Asked`, `Network.HasApplied` and `Network.log` say what
  can be seen in it.
-/

namespace Raft

namespace Network

/-- The place of a member: its server, or what the last one there left. -/
inductive Site where
  | up (s : Server)
  | down (r : Node.Remains)

/-- A request from one member to another. -/
structure Letter where
  source : NodeId
  target : NodeId
  request : Request

/-- Whom a caller stands for. -/
inductive Call where
  /-- A letter that was delivered. -/
  | letter (l : Letter)
  /-- A client with its request. -/
  | client (q : ClientRequest)
  /-- Somebody who wants leadership to be handed over. -/
  | operator

/-- An answer that a member gave to a caller. -/
structure Reply where
  node : NodeId
  caller : Caller
  answer : Answer

end Network

/-- A cluster, with everything that was sent in it. -/
structure Network where
  site : NodeId → Network.Site
  sent : List Network.Letter := []
  /-- Whom each caller stands for. -/
  callers : List Network.Call := []
  replies : List Network.Reply := []
  /-- The windows of the session tables that servers were started with. -/
  windows : List Nat := []

namespace Network

/-- What can happen in a cluster. -/
inductive Act where
  /-- A server is started over what is left, or over its log and a fresh state machine. -/
  | start (p : NodeId) (settings : Settings) (window now : Nat) (seed : Seed) (fresh : Bool)
  | crash (p : NodeId)
  /-- The oldest role event is handled. -/
  | role (p : NodeId)
  | tick (p : NodeId)
  /-- A letter reaches its target. -/
  | request (k : Nat)
  /-- The answer to a letter reaches the sender. -/
  | result (k : Nat)
  /-- The sender of a letter learns that there is no answer. -/
  | failure (k : Nat) (e : Error)
  | propose (p : NodeId) (q : ClientRequest) (request : String)
  | transfer (p target : NodeId)
  /-- The apply loop takes the oldest commit signal. -/
  | signal (p : NodeId)
  /-- The apply loop works a round on its own. -/
  | round (p : NodeId)
  /-- A caller does not wait any longer. -/
  | withdraw (p : NodeId) (request : String)
  | setClock (p : NodeId) (now : Nat)
  /-- Storage and state machine are made to fail, or to work again. -/
  | disturb (p : NodeId) (faults : LogFaults) (saves : Option Nat) (broken : Bool)

/-- The cluster before its first start: nothing was stored, and a log may refuse gaps whole. -/
def init (whole : NodeId → Bool) : Network where
  site p := .down { log := { whole := whole p } }

/-! ## What one server does -/

/-- What has to be true of a server is found out by looking at it. -/
def look (n : Network) (p : NodeId) (f : Server → Bool) : Bool :=
  match n.site p with
  | .up s => f s
  | .down _ => false

def put (p : NodeId) (s : Site) (n : Network) : Network :=
  { n with site := Function.update n.site p s }

/-- A server goes on after what it made visible was taken. -/
def settle (p : NodeId) (s : Server) (n : Network) : Network :=
  let (effects, s) := s.takeEffects
  { n with
    site := Function.update n.site p (.up s)
    sent := n.sent ++ effects.filterMap fun e => e.request?.map fun x => ⟨p, x.1, x.2⟩
    replies := n.replies ++ effects.filterMap fun e => e.answer?.map fun x => ⟨p, x.1, x.2⟩ }

/-- The server of a member does something, if there is one. -/
def onServer (p : NodeId) (f : Server → Server) (n : Network) : Network :=
  match n.site p with
  | .up s => n.settle p (f s)
  | .down _ => n

/-- A server handles a tick or an event, unless role events wait. -/
def workFree (w : Work) (s : Server) : Server :=
  if s.isRunning && s.node.queue.isEmpty then s.handle w else s

def work (p : NodeId) (w : Work) (n : Network) : Network := n.onServer p (workFree w)

/-- A server handles its oldest role event. -/
def workRole (s : Server) : Server :=
  match s.node.queue with
  | e :: queue =>
    if s.isRunning then { s with node := { s.node with queue } }.handle (.role e) else s
  | [] => s

/-- The apply loop of a server takes its oldest commit signal. -/
def takeSignal (s : Server) : Server :=
  match s.node.signals with
  | i :: signals =>
    let (schedule, applier) := s.schedule.signal s.node.log s.node.applier i
    { s with schedule, node := { s.node with applier, signals } }
  | [] => s

def applyRound (s : Server) : Server :=
  let (schedule, applier) := s.schedule.round s.node.log s.node.applier
  { s with schedule, node := { s.node with applier } }

def withdraw (request : String) (s : Server) : Server :=
  let waiters := (s.node.applier.waiters.cancel request).2
  { s with node := { s.node with applier := { s.node.applier with waiters } } }

/-- The same storage with other faults. The hard state is stored so many more times, or always. -/
def disturb (faults : LogFaults) (saves : Option Nat) (broken : Bool) (r : Node.Remains) :
    Node.Remains :=
  { r with
    log := { r.log with faults }
    saveFails := saves.isSome
    savesLeft := saves.getD 0
    machine := { r.machine with broken } }

/-- Changes what is stored, under a server or not. -/
def onStore (p : NodeId) (f : Node.Remains → Node.Remains) (n : Network) : Network :=
  match n.site p with
  | .up s => n.put p (.up { s with node := s.node.withRemains (f s.node.remains) })
  | .down r => n.put p (.down (f r))

/-- A session table of a window comes into use. -/
def equip (window : Nat) (n : Network) : Network := { n with windows := n.windows ++ [window] }

/-- A member starts, if its settings name it and the members. -/
def start (members : List Member) (p : NodeId) (settings : Settings) (window now : Nat)
    (seed : Seed) (fresh : Bool) (n : Network) : Network :=
  match n.site p with
  | .up _ => n
  | .down r =>
    if settings.cluster.members = members ∧ settings.cluster.node = p then
      let storage := if fresh then r.withFreshMachine else r
      match Server.start settings true (.ok storage) window now seed with
      | .ok s => (n.equip window).put p (.up s)
      | .error _ => n
    else n

/-- A member crashes. What it stored stays. -/
def crash (p : NodeId) (n : Network) : Network :=
  match n.site p with
  | .up s => n.put p (.down s.node.remains)
  | .down _ => n

/-! ## Messages -/

/-- A caller that is not taken yet. -/
def nextCaller (n : Network) : Caller := n.callers.length

def call (x : Call) (n : Network) : Network := { n with callers := n.callers ++ [x] }

/-- A letter reaches its target, as a call. -/
def deliver (l : Letter) (n : Network) : Network :=
  (n.call (.letter l)).work l.target (.event (l.request.toEvent n.nextCaller))

/-- A client's request reaches a member that can take it up. -/
def propose (p : NodeId) (q : ClientRequest) (request : String) (n : Network) : Network :=
  if n.look p fun s => s.isRunning && s.node.queue.isEmpty then
    (n.call (.client q)).work p (.event (.propose q request n.nextCaller))
  else n

/-- What came of a letter reaches its sender. -/
def inform (l : Letter) (r : Except Error Response) (n : Network) : Network :=
  n.work l.source (.event (l.request.resultEvent l.target r))

/-- An answer reaches whoever sent the letter that was answered. -/
def pass (y : Reply) (n : Network) : Network :=
  match n.callers[y.caller]?, y.answer.response? with
  | some (.letter l), some r => n.inform l r
  | _, _ => n

/-! ## Runs -/

def step (members : List Member) (n : Network) : Act → Network
  | .start p settings window now seed fresh => n.start members p settings window now seed fresh
  | .crash p => n.crash p
  | .role p => n.onServer p workRole
  | .tick p => n.work p .tick
  | .request k =>
    match n.sent[k]? with
    | some l => n.deliver l
    | none => n
  | .result k =>
    match n.replies[k]? with
    | some y => n.pass y
    | none => n
  | .failure k e =>
    match n.sent[k]? with
    | some l => n.inform l (.error e)
    | none => n
  | .propose p q request => n.propose p q request
  | .transfer p target => (n.call .operator).work p (.event (.transfer target n.nextCaller))
  | .signal p => n.onServer p takeSignal
  | .round p => n.onServer p applyRound
  | .withdraw p request => n.onServer p (withdraw request)
  | .setClock p now => n.onServer p fun s => s.setClock now
  | .disturb p faults saves broken => n.onStore p (disturb faults saves broken)

def steps (members : List Member) (n : Network) (acts : List Act) : Network :=
  acts.foldl (step members) n

def run (members : List Member) (whole : NodeId → Bool) (acts : List Act) : Network :=
  (init whole).steps members acts

theorem run_append (members : List Member) (whole : NodeId → Bool) (acts later : List Act) :
    run members whole (acts ++ later) = (run members whole acts).steps members later :=
  List.foldl_append

/-! ## What can be seen -/

/-- The log at the place of a member, whether a server is there or not. -/
def log (n : Network) (p : NodeId) : Log :=
  match n.site p with
  | .up s => s.node.log
  | .down r => r.log

/-- A member is leader in a term, and its event loop is about to take a tick or an event. -/
def Leads (n : Network) (p : NodeId) (t : Nat) : Prop :=
  ∃ s, n.site p = .up s ∧ s.isRunning = true ∧ s.node.queue = [] ∧ s.node.role.kind = .leader
    ∧ s.node.term = t

/-- A member has committed everything up to an index, and is in a term. -/
def Commits (n : Network) (p : NodeId) (t i : Nat) : Prop :=
  ∃ s, n.site p = .up s ∧ i ≤ s.node.commit ∧ s.node.term = t

/-- A member has handled a request of a client under a sequence number. -/
def Asked (n : Network) (client : String) (sequence : Nat) : Prop :=
  ∃ q, .client q ∈ n.callers ∧ q.client = client ∧ q.sequence = sequence

/-- A member has applied a request, and its state machine answered with a result. A state machine
answers a command with its data. -/
def HasApplied (n : Network) (p : NodeId) (q : ClientRequest) (c : CommitResult) : Prop :=
  ∃ s, n.site p = .up s ∧ c.index ≤ s.node.applier.lastApplied
    ∧ s.node.log.get? c.index
      = some ⟨c.index, c.term, .command ⟨q.client, q.sequence, c.result⟩⟩
    ∧ ⟨c.index, c.term, c.result⟩ ∈ s.node.applier.machine.applied
    ∧ s.node.applier.machine.output? c.index = some c.result

/-- The window of the session table that a server is started with. -/
def Act.window? : Act → Option Nat
  | .start _ _ window _ _ _ => some window
  | _ => none

/-- A server is started with a session table of the window, if one is started. -/
def Act.UsesWindow (window : Nat) (a : Act) : Prop := ∀ w ∈ a.window?, w = window

instance (window : Nat) (a : Act) : Decidable (a.UsesWindow window) :=
  inferInstanceAs (Decidable (∀ w ∈ a.window?, w = window))

theorem look_iff {n : Network} {p : NodeId} {f : Server → Bool} :
    n.look p f = true ↔ ∃ s, n.site p = .up s ∧ f s = true := by
  unfold look
  cases n.site p <;> simp

instance (n : Network) (p : NodeId) (t : Nat) : Decidable (n.Leads p t) :=
  decidable_of_iff (n.look p (fun s => s.isRunning && s.node.queue.isEmpty
    && s.node.role.kind == .leader && s.node.term == t) = true) (by
      rw [look_iff]
      simp [Leads, and_assoc])

instance (n : Network) (p : NodeId) (t i : Nat) : Decidable (n.Commits p t i) :=
  decidable_of_iff (n.look p (fun s => i ≤ s.node.commit && s.node.term == t) = true) (by
    rw [look_iff]
    simp [Commits])

instance (n : Network) (client : String) (sequence : Nat) : Decidable (n.Asked client sequence) :=
  decidable_of_iff (n.callers.any (fun
      | .client q => q.client == client && q.sequence == sequence
      | _ => false) = true) (by
    rw [List.any_eq_true]
    constructor
    · rintro ⟨x, hx, h⟩
      split at h
      · rename_i q
        exact ⟨q, hx, by simpa using h⟩
      · cases h
    · rintro ⟨q, hq, hclient, hsequence⟩
      exact ⟨_, hq, by simp [hclient, hsequence]⟩)

end Network

end Raft
