import Raft.Sim.Testbed.Delivery

/-!
# Moving the clock

When the clock moves, the apply loops do their rounds, and senders learn that the time of their
requests ran out. Nodes act on their own deadlines only if they are told to.
-/

namespace Raft.Sim.Testbed

/-- Tells the senders of overdue requests that their time ran out. The requests stay held back. -/
def expire (t : Testbed) : Testbed :=
  let overdue (p : Parcel) : Bool := !p.late && p.deadline ≤ t.now
  let timeout (p : Parcel) : Error :=
    .network (.timeout p.target
      (((t.seat? p.source).map fun s => patience s.settings p.request).getD 0))
  let due := t.parcels.filter overdue
  let t' := { t with
    parcels := t.parcels.map fun p => if overdue p then { p with late := true } else p }
  due.foldl (fun t p => Action.state ((post p (.error (timeout p))).run t)) t'

/-- The apply loop of a node at a time, and the answers it gave. -/
def advanceApplier (now : Nat) (r : Running) : Running × List (Caller × Answer) :=
  let (schedule, node) := r.node.applyUntil now r.schedule
  let (effects, node) := node.takeEffects
  ({ r with schedule, node }, effects.filterMap Effect.answer?)

def moveTo (now : Nat) : Action Testbed Unit :=
  modify fun t =>
    let seats := t.seats.map fun (id, s) =>
      match s.running with
      | some r =>
        let (r, answers) := advanceApplier now r
        ((id, { s with running := some r }), answers)
      | none => ((id, s), [])
    expire { t with now, seats := seats.map (·.1), given := t.given ++ seats.flatMap (·.2) }

/-- The active node whose deadline comes first, with that deadline. -/
def nextDue (t : Testbed) : Option (NodeId × Nat) :=
  let deadlines := t.seats.filterMap fun (id, _) =>
    (t.active? id).map fun r => (id, r.node.role.deadline)
  match deadlines with
  | [] => none
  | first :: rest => some (rest.foldl (fun best x => if x.2 < best.2 then x else best) first)

/-- One deadline that a node met by itself. -/
structure Tick where
  time : Nat
  node : NodeId
  result : Option (Except Error Unit)

/-- Whether a node is active and its deadline has come. -/
def isDue (t : Testbed) (id : NodeId) : Bool :=
  match t.active? id with
  | some r => r.node.role.deadline ≤ t.now
  | none => false

/-- Moves the clock from deadline to deadline, at most `limit` of them, and lets each node act on
its own. A deadline that went away when the overdue requests were handled is passed over. -/
def runTo (finish : Nat) : Nat → Action Testbed (List Tick)
  | 0 => return []
  | limit + 1 => do
    let t ← get
    match t.nextDue with
    | none => return []
    | some (id, deadline) =>
      if finish < deadline then
        return []
      else
        moveTo (max t.now deadline)
        drain
        if isDue (← get) id then
          let result ← feed id Node.tick
          return ⟨(← get).now, id, result⟩ :: (← runTo finish limit)
        else
          runTo finish limit

/-- Lets time pass, with the nodes acting on their deadlines or not. -/
def elapse (ms : Nat) (acting : Bool) : Action Testbed (List Tick) := do
  let finish := (← get).now + ms
  let ticks ← if acting then runTo finish 400 else pure []
  moveTo finish
  drain
  return ticks

end Raft.Sim.Testbed
