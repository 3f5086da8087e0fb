import Raft.Sim.Cluster.Basic

/-!
# The run of a cluster

At every instant the servers take turns, one step each, until none has anything to do; then the
clock moves on to the next instant at which one has. Whoever waits for a certain time sees the
cluster before the work of that instant is done.
-/

namespace Raft.Sim.Cluster

/-- Lets the server of a member take a step, if it has anything to do. -/
def step (id : NodeId) (c : Cluster) : Cluster :=
  match c.site? id with
  | none => c
  | some site =>
    match site.server.bind fun s => (s.setClock c.now).step? with
    | none => c
    | some s =>
      let (effects, s) := s.takeEffects
      (effects.foldl (perform id site.starts) (c.putServer id s)).dropCalls id

/-- Whether no server has anything to do. -/
def isQuiet (c : Cluster) : Bool :=
  c.sites.all fun item => item.2.server.all fun s => (s.setClock c.now).isIdle

/-- Lets all servers take turns until none has anything to do, at most `rounds` times. -/
def settleWithin : Nat → Cluster → Cluster
  | 0, c => c
  | rounds + 1, c =>
    if c.isQuiet then c else settleWithin rounds (c.memberIds.foldl (fun c id => c.step id) c)

/-- Lets all servers do what is to be done now. Every request leads to few others, and no role acts
twice at one instant, so that the bound is not met. -/
def settle (c : Cluster) : Cluster := c.settleWithin 100000

/-- The next instant at which a server has something to do, if it comes before a given time. -/
def nextInstant (c : Cluster) (finish : Nat) : Nat :=
  let due := c.sites.filterMap fun item => item.2.server.bind Server.nextDue
  min finish (max (c.now + 1) (due.foldl min finish))

/-- Lets time pass until something is seen, at most up to a time; in at most `fuel` instants. -/
def runWithin {α : Type} (seen : Cluster → Option α) (finish : Nat) :
    Nat → Cluster → Option α × Cluster
  | 0, c => (none, c)
  | fuel + 1, c =>
    match seen c with
    | some a => (some a, c)
    | none =>
      if finish ≤ c.now then (none, c)
      else
        let c := c.settle
        match seen c with
        | some a => (some a, c)
        | none => runWithin seen finish fuel { c with now := c.nextInstant finish }

/-- Lets time pass until something is seen, at most for a while. Every instant is later than the one
before, so that there are not more than milliseconds. -/
def run {α : Type} (seen : Cluster → Option α) (ms : Nat) (c : Cluster) : Option α × Cluster :=
  runWithin seen (c.now + ms) (ms + 1) c

def elapse (ms : Nat) (c : Cluster) : Cluster := (run (fun _ => (none : Option Unit)) ms c).2

end Raft.Sim.Cluster
