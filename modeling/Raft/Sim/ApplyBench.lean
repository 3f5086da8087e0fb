import Raft.Log.Basic
import Raft.Apply.Applier
import Raft.Sim.Callers
import Raft.Metrics

/-!
# An apply loop on a virtual clock

The apply loop alone, over a log that grows and shrinks under it. Commit signals are taken at once;
the rounds of its interval take place when the clock passes them.
-/

namespace Raft.Sim

/-- An apply loop, its log and its callers. -/
structure ApplyBench where
  log : Log
  applier : Applier
  schedule : ApplySchedule
  now : Nat := 0
  /-- Commit signals can still be sent. -/
  sending : Bool := true
  /-- The loop was started a second time. -/
  restarted : Bool := false
  callers : Callers := {}
  /-- The number of applied commands shown so far. -/
  shown : Nat := 0
  /-- The end of the loop was shown. -/
  endShown : Bool := false

/-- What a step of the bench shows. -/
structure ApplyView where
  applied : List Applied
  answers : List (String × Option ClientResponse)
  /-- The loop's outcome, in the step in which it ended. -/
  ended : Option (Except (Failure Error) Unit)

namespace ApplyBench

/-- The bench at time 0, with the loop's first round done. The state machine has applied the
commands among the first `known` entries. -/
def start (entries : List Entry) (batch interval window lastApplied known : Nat) : ApplyBench :=
  let machine := Machine.ofEntries (entries.take known)
  let log := Log.ofEntries entries
  let (schedule, applier) := ApplySchedule.advance ⟨interval, 0, none⟩ log
    { batch, lastApplied, machine, sessions := Sessions.empty window } 0
  { log, applier, schedule }

def onLog (b : ApplyBench) (x : Action Log Unit) : Except (Failure Error) Unit × ApplyBench :=
  let r := x.run b.log
  (Action.outcome r, { b with log := Action.state r })

def isRunning (b : ApplyBench) : Bool := b.schedule.ended.isNone

/-- Sends a commit signal: whether the loop took it, absent if signals can no longer be sent. -/
def commit (b : ApplyBench) (index : Nat) : Option Bool × ApplyBench :=
  if b.sending then
    let (schedule, applier) := b.schedule.signal b.log b.applier index
    (some b.isRunning, { b with schedule, applier })
  else (none, b)

def register (b : ApplyBench) (index : Nat) (request : String) (term : Nat) : ApplyBench :=
  let (caller, callers) := b.callers.call request
  { b with
    callers
    applier := { b.applier with
      waiters := b.applier.waiters.register index ⟨request, term, caller⟩ } }

def cancel (b : ApplyBench) (request : String) : Option Waiter × ApplyBench :=
  let (w, waiters) := b.applier.waiters.cancel request
  (w, { b with applier := { b.applier with waiters } })

def elapse (b : ApplyBench) (ms : Nat) : ApplyBench :=
  let now := b.now + ms
  let (schedule, applier) := b.schedule.advance b.log b.applier now
  { b with now, schedule, applier }

/-- Asks the loop to stop: whether it still ran. -/
def shutdown (b : ApplyBench) : Bool × ApplyBench :=
  if b.isRunning then (true, { b with schedule := { b.schedule with ended := some (.ok ()) } })
  else (false, b)

/-- Starts the loop again after it ended. That is refused, and can be tried once. -/
def rerun (b : ApplyBench) : Option Error × ApplyBench :=
  if b.isRunning || b.restarted then (none, b)
  else (some (.fatal "commit handler started twice"), { b with restarted := true })

/-- What is new since the last view. -/
def view (b : ApplyBench) : ApplyView × ApplyBench :=
  let (answers, callers) := b.callers.collect b.applier.answers fun c =>
    b.applier.waiters.all.any fun w => w.caller = c
  let ended := if b.endShown then none else b.schedule.ended
  (⟨b.applier.machine.applied.drop b.shown, answers, ended⟩,
    { b with
      callers
      applier := { b.applier with answers := [] }
      shown := b.applier.machine.applied.length
      endShown := b.schedule.ended.isSome })

/-- The counters of the node the loop belongs to. -/
def counters (b : ApplyBench) : Counters := { committedEntries := b.applier.count }

end ApplyBench

end Raft.Sim
