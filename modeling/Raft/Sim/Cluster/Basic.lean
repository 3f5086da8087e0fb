import Raft.Server
import Raft.Client.Gateway

/-!
# A cluster that runs by itself

Servers on one virtual clock, joined by a network without delay. A request goes straight into the
inbox of its target, and its result into the inbox of its sender, unless the traffic of the one who
would send it is blocked. The network reaches a server by the id that the server took, which need
not be the id of its member. A target that is not registered or does not run is unavailable, and so
is one that drops the request.
-/

namespace Raft.Sim

/-- The place of a member: what it stores, and its server while one is there. -/
structure Site where
  settings : Settings
  store : Node.Remains := {}
  server : Option Server := none
  /-- How often a server was started here. -/
  starts : Nat := 0
  /-- The status that the last server published. -/
  lastStatus : Option Node.Status := none

namespace Site

def wasStarted (s : Site) : Bool := 0 < s.starts

/-- The status published last. -/
def status? (s : Site) : Option Node.Status := (s.server.map Server.status).or s.lastStatus

def stored (s : Site) : Node.Remains := (s.server.map fun x => x.node.remains).getD s.store

/-- Changes what is stored here, under a server or not. -/
def onStore (f : Node.Remains → Node.Remains) (s : Site) : Site :=
  match s.server with
  | some x =>
    { s with server := some { x with node := x.node.withRemains (f x.node.remains) } }
  | none => { s with store := f s.store }

/-- Takes the server away. What it stored stays. -/
def vacate (s : Site) : Site :=
  { s with store := s.stored, server := none, lastStatus := s.status? }

end Site

/-- A way to reach a server. -/
structure Handle where
  /-- The member at which it was started. -/
  place : NodeId
  /-- Which start of the member it was. -/
  start : Nat
  /-- The id that the server took. -/
  node : NodeId

/-- The sender of a request between servers, and which start of it sent the request. -/
structure Sender where
  id : NodeId
  start : Nat
  request : Request

/-- A request that a server has not answered yet. -/
structure Call where
  caller : Caller
  target : Handle
  /-- The server that sent it; none if it came from outside. -/
  sender : Option Sender

structure Cluster where
  now : Nat := 0
  /-- The members, in the order in which they were named. -/
  sites : List (NodeId × Site)
  /-- Whether servers open storage of their own under the ids that they take. If not, what is stored
  belongs to the member. -/
  ownStorage : Bool := false
  /-- The storage of servers that are gone, by their ids. -/
  shelf : List (NodeId × Node.Remains) := []
  /-- The servers that the network reaches, by their ids. -/
  registered : List (NodeId × Handle) := []
  /-- Nodes whose outbound traffic is blocked. -/
  blocked : List NodeId := []
  calls : List Call := []
  nextCaller : Caller := 0
  /-- The answers to requests from outside; none for a request that was dropped. -/
  answers : List (Caller × Option Answer) := []
  /-- Gateways by their names. -/
  gateways : List (String × Gateway) := []
  seed : Seed := 0

namespace Cluster

def site? (c : Cluster) (id : NodeId) : Option Site := c.sites.lookup id

def modifySite (id : NodeId) (f : Site → Site) (c : Cluster) : Cluster :=
  { c with sites := c.sites.map fun item => if item.1 = id then (id, f item.2) else item }

def server? (c : Cluster) (id : NodeId) : Option Server := (c.site? id).bind Site.server

def putServer (id : NodeId) (s : Server) (c : Cluster) : Cluster :=
  c.modifySite id fun site => { site with server := some s }

def isRunning (c : Cluster) (id : NodeId) : Bool := (c.server? id).any Server.isRunning

/-- The way to reach the server that was started last at a member, even when it is gone. -/
def handle? (c : Cluster) (id : NodeId) : Option Handle := do
  let site ← c.site? id
  let status ← site.status?
  return ⟨id, site.starts, status.node⟩

/-- Whether the event loop of a server runs. -/
def reaches (c : Cluster) (h : Handle) : Bool :=
  (c.site? h.place).any fun site => site.starts = h.start && site.server.any Server.isRunning

/-- The ids of the servers that the network reaches. -/
def registeredIds (c : Cluster) : List NodeId := c.registered.map (·.1)

def memberIds (c : Cluster) : List NodeId := c.sites.map (·.1)

/-! ## Requests -/

/-- Puts an event into the inbox of the server that was started as the given one of its member. -/
def post (id start : Nat) (e : Event) (c : Cluster) : Cluster :=
  c.modifySite id fun site =>
    match site.server with
    | some s =>
      if site.starts = start ∧ s.isRunning then { site with server := some (s.receive e) } else site
    | none => site

/-- Puts a request into the inbox of a server that runs. -/
def call (target : Handle) (sender : Option Sender) (e : Caller → Event) (c : Cluster) :
    Caller × Cluster :=
  let caller := c.nextCaller
  let added : Call := ⟨caller, target, sender⟩
  let c := { c with nextCaller := caller + 1, calls := c.calls ++ [added] }
  (caller, c.modifySite target.place fun site =>
    { site with server := site.server.map fun s => s.receive (e caller) })

/-- The server that a request reaches, or why it reaches none. -/
def route (c : Cluster) (source target : NodeId) : Except Error Handle :=
  if c.blocked.contains source then .error (.network (.blocked source target))
  else
    match (c.registered.lookup target).filter c.reaches with
    | some h => .ok h
    | none => .error (.network (.unavailable target))

/-- What the answer of a target brings to the source of a request. -/
def reply (c : Cluster) (source target : NodeId) (a : Option Answer) : Except Error Response :=
  match a.bind Answer.response? with
  | none => .error (.network (.unavailable target))
  | some (.error e) => .error e
  | some (.ok r) =>
    if c.blocked.contains target then .error (.network (.blocked target source)) else .ok r

/-- Sends a request from one server to another. -/
def transmit (target : NodeId) (s : Sender) (c : Cluster) : Cluster :=
  match c.route s.id target with
  | .error e => c.post s.id s.start (s.request.resultEvent target (.error e))
  | .ok h => (c.call h (some s) fun caller => s.request.toEvent caller).2

/-- Ends a call with the answer of its target, or without one. -/
def settleCall (a : Option Answer) (c : Cluster) (call : Call) : Cluster :=
  let c := { c with calls := c.calls.filter (·.caller ≠ call.caller) }
  match call.sender with
  | some s =>
    let target := call.target.node
    c.post s.id s.start (s.request.resultEvent target (c.reply s.id target a))
  | none => { c with answers := c.answers ++ [(call.caller, a)] }

/-- Ends the calls to a member that its server does not hold any more. -/
def dropCalls (id : NodeId) (c : Cluster) : Cluster :=
  let held (call : Call) : Bool := (c.server? id).any fun s => s.holds call.caller
  (c.calls.filter fun call => call.target.place = id && !held call).foldl (settleCall none) c

/-- Carries out what a server made visible. -/
def perform (id start : Nat) (c : Cluster) : Effect → Cluster
  | .send target r => c.transmit target ⟨id, start, r⟩
  | .answer caller a =>
    match c.calls.find? (·.caller = caller) with
    | some call => c.settleCall (some a) call
    | none => c

/-! ## Starting and stopping -/

/-- How a server is started. -/
structure StartOptions where
  /-- The id it takes, if it is not the member's. -/
  node : Option NodeId := none
  /-- With an empty state machine. -/
  freshMachine : Bool := false
  networked : Bool := true
  /-- The storage cannot be opened. -/
  badStorage : Bool := false

/-- The most sessions a server keeps. -/
def sessionWindow : Nat := 1024

/-- Registers a server with the network, in place of one with the same id. -/
def register (h : Handle) (c : Cluster) : Cluster :=
  { c with registered := (h.node, h) :: c.registered.filter (·.1 ≠ h.node) }

/-- Puts away the storage that the server of a member opened, if there is a server. -/
def shelve (id : NodeId) (c : Cluster) : Cluster :=
  match c.server? id with
  | some s =>
    let node := s.status.node
    { c with shelf := (node, s.node.remains) :: c.shelf.filter (·.1 ≠ node) }
  | none => c

/-- What a server finds stored that starts at a member under an id. The state machine is the
member's. -/
def found (c : Cluster) (site : Site) (node : NodeId) : Node.Remains :=
  if c.ownStorage then
    let opened := (c.shelf.lookup node).getD { log := { whole := true } }
    { opened with machine := site.stored.machine }
  else site.stored

/-- Starts the server of a member over what is stored, in place of one that is there, and registers
it with the network. -/
def start (id : NodeId) (o : StartOptions) (c : Cluster) : Except Error Unit × Cluster :=
  match c.site? id with
  | none => (.error (.network (.unavailable id)), c)
  | some site =>
    let node := o.node.getD id
    let c := c.shelve id
    let stored := c.found site node
    let store := if o.freshMachine then stored.withFreshMachine else stored
    let storage := if o.badStorage then .error (.storage (.database "")) else .ok store
    let settings := site.settings.forNode node
    match Server.start settings o.networked storage sessionWindow c.now c.seed with
    | .error e => (.error e, c)
    | .ok s =>
      let c := c.modifySite id fun site =>
        { site.vacate with server := some s, starts := site.starts + 1 }
      let c := (c.dropCalls id).register ⟨id, site.starts + 1, node⟩
      (.ok (), { c with seed := nextSeed c.seed })

/-- Makes the server with an id unreachable for the network. -/
def unregister (id : NodeId) (c : Cluster) : Cluster :=
  { c with registered := c.registered.filter (·.1 ≠ id) }

/-- Takes the server of a member away. The network forgets the id of the member, unless the
registration is to stay behind. -/
def remove (id : NodeId) (keepRegistered : Bool) (c : Cluster) : Cluster :=
  let c := ((c.shelve id).modifySite id Site.vacate).dropCalls id
  if keepRegistered then c else c.unregister id

/-- Takes the server of a member away at once, if there is one. -/
def kill (id : NodeId) (keepRegistered : Bool) (c : Cluster) : Option Unit × Cluster :=
  match c.server? id with
  | none => (none, c)
  | some _ => (some (), c.remove id keepRegistered)

/-- Shuts the server of a member down: the result of its loops, if there is a server. -/
def shutdown (id : NodeId) (keepRegistered : Bool) (c : Cluster) :
    Option (Except (Failure Error) Unit) × Cluster :=
  match c.server? id with
  | none => (none, c)
  | some s => (some s.result, c.remove id keepRegistered)

def setBlocked (id : NodeId) (on : Bool) (c : Cluster) : Cluster :=
  let others := c.blocked.filter (· ≠ id)
  { c with blocked := if on then id :: others else others }

end Cluster

end Raft.Sim
