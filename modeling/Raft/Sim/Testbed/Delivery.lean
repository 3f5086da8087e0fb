import Raft.Sim.Testbed.Basic

/-!
# Delivering what was held back

A held back request is delivered to its target, or answered in the target's place. Either way its
result goes back to the sender, unless the sender gave up waiting or is not there any more.
-/

namespace Raft.Sim.Testbed

/-- Which requests are meant. A criterion that is absent is met by all. -/
structure ParcelFilter where
  source : Option NodeId := none
  target : Option NodeId := none
  kind : Option RequestKind := none
  id : Option Nat := none

/-- Whether a request is meant. -/
def ParcelFilter.accepts (f : ParcelFilter) (p : Parcel) : Bool :=
  f.source.all (· == p.source) && f.target.all (· == p.target)
    && f.kind.all (· == p.request.kind) && f.id.all (· == p.id)

/-- Takes the oldest request that is meant. -/
def takeParcel (f : ParcelFilter) : Action Testbed (Option Parcel) := do
  let t ← get
  match t.parcels.find? f.accepts with
  | none => return none
  | some p =>
    set { t with parcels := t.parcels.filter fun q => q.id ≠ p.id }
    return some p

/-- Queues the result of a request at its sender. -/
def post (p : Parcel) (result : Except Error Response) : Action Testbed Unit :=
  modify fun t =>
    match t.seat? p.source, t.active? p.source with
    | some s, some r =>
      if s.starts = p.start then
        t.putRunning p.source { r with inbox := r.inbox ++ [p.request.resultEvent p.target result] }
      else t
    | _, _ => t

/-- Queues the result of a request at its sender, unless the sender gave up waiting, and lets it be
handled. -/
def finish (p : Parcel) (result : Except Error Response) : Action Testbed Unit := do
  if !p.late then
    post p result
  drain

/-- The result of a request: what the target answers, unless the traffic of one of the two is
blocked or the target drops the request. -/
def transmit (p : Parcel) : Action Testbed (Except Error Response) := do
  let t ← get
  if t.blocked.contains p.source then
    return .error (.network (.blocked p.source p.target))
  else
    let caller ← callSilently
    let _ ← feed p.target (Node.handle (p.request.toEvent caller))
    let t ← get
    match (t.given.lookup caller).bind Answer.response? with
    | none => return .error (.network (.unavailable p.target))
    | some (.error e) => return .error e
    | some (.ok response) =>
      if t.blocked.contains p.target then
        return .error (.network (.blocked p.target p.source))
      else
        return .ok response

/-- Delivers a request, and its result to the sender. -/
def deliver (p : Parcel) : Action Testbed (Except Error Response) := do
  let result ← transmit p
  finish p result
  return result

/-- Delivers requests, oldest first, until none is left or the limit is reached. The result lists
the requests delivered. -/
def deliverAll : Nat → Action Testbed (List Nat)
  | 0 => return []
  | limit + 1 => do
    match ← takeParcel {} with
    | none => return []
    | some p =>
      discard (deliver p)
      return p.id :: (← deliverAll limit)

end Raft.Sim.Testbed
