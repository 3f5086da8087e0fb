import Raft.Log.Store
import Raft.Apply.Sessions
import Raft.Apply.Waiters

/-!
# Applying committed entries

The apply loop takes committed entries in log order, a limited number at a time, gives each new
command to the state machine and answers the callers that wait for it. A command that was applied
before is answered with its first result; one older than its client's session is passed over. A
failure to read the log or to apply a command ends the loop.
-/

namespace Raft

/-- The state of the apply loop, and what it shares with the node that feeds it. -/
structure Applier where
  /-- The most entries applied at a time. -/
  batch : Nat
  /-- The greatest commit index the loop was told. -/
  commit : Nat := 0
  lastApplied : Nat := 0
  machine : Machine := {}
  sessions : Sessions := {}
  waiters : Waiters := {}
  /-- The number of entries applied, for the counters. -/
  count : Nat := 0
  /-- Answers given to callers, oldest first. -/
  answers : List (Caller × ClientResponse) := []
  deriving Repr, Inhabited

namespace Applier

/-- Tells the loop a commit index. An older one changes nothing. -/
def signal (a : Applier) (index : Nat) : Applier := { a with commit := max a.commit index }

/-- The result of an entry: none for a no-op and for a stale command. -/
def execute (e : Entry) : Action Applier (Option CommitResult) := do
  match e.payload with
  | .noop => return none
  | .command c =>
    let a ← get
    match a.sessions.check c.client c.sequence with
    | .applied r => return some r
    | .stale _ => return none
    | .new =>
      match a.machine.apply e.index e.term c.data with
      | .error err => Action.fail (.fatal (s!"apply index {e.index} failed: " ++ err.message))
      | .ok (machine, output) =>
        let r : CommitResult := ⟨e.term, e.index, output⟩
        set { a with machine, sessions := a.sessions.record c.client c.sequence r }
        return some r

/-- The answer to a caller that waits for an entry: the result, if there is one and the entry is
of the term the caller expects. -/
def answer (result : Option CommitResult) (term : Nat) (w : Waiter) : ClientResponse :=
  match result with
  | some r => if w.term = term then .committed r else .notLeader none
  | none => .notLeader none

/-- Applies one entry and answers its callers. -/
def applyEntry (e : Entry) : Action Applier Unit := do
  let result ← execute e
  modify fun a =>
    let (woken, waiters) := a.waiters.take e.index
    { a with
      lastApplied := e.index
      count := a.count + 1
      waiters
      answers := a.answers ++ woken.map fun w => (w.caller, answer result e.term w) }

def applyAll : List Entry → Action Applier Unit
  | [] => return
  | e :: rest => do
    applyEntry e
    applyAll rest

/-- Applies the next batch of committed entries. -/
def process {σ : Type} [LogStore σ] (log : σ) : Action Applier Unit := do
  let a ← get
  if a.lastApplied < a.commit then
    let upper := min a.commit (← Action.ofExcept (sum a.lastApplied a.batch))
    match LogStore.range log (a.lastApplied + 1) upper with
    | .error e => Action.fail (.fatal ("read committed entries failed: " ++ e.message))
    | .ok entries => applyAll entries

end Applier

/-- When an apply loop works: on every commit signal and at every multiple of its interval after
its start, until it ends. -/
structure ApplySchedule where
  interval : Nat
  next : Nat
  ended : Option (Except (Failure Error) Unit) := none

namespace ApplySchedule

def isDue (s : ApplySchedule) (now : Nat) : Bool := s.next ≤ now && s.ended.isNone

/-- The outcome of one round of the loop. A failure ends it. -/
def round {σ : Type} [LogStore σ] (s : ApplySchedule) (log : σ) (a : Applier) :
    ApplySchedule × Applier :=
  match s.ended with
  | some _ => (s, a)
  | none =>
    match Applier.process log a with
    | .ok _ a => (s, a)
    | .error e a => ({ s with ended := some (.error e) }, a)

/-- A commit signal: the loop takes it and works a round, unless it ended. -/
def signal {σ : Type} [LogStore σ] (s : ApplySchedule) (log : σ) (a : Applier) (index : Nat) :
    ApplySchedule × Applier :=
  match s.ended with
  | some _ => (s, a)
  | none => s.round log (a.signal index)

/-- The rounds due up to a time, at most `fuel` of them. -/
def runTicks {σ : Type} [LogStore σ] (log : σ) (time : Nat) :
    Nat → ApplySchedule → Applier → ApplySchedule × Applier
  | 0, s, a => (s, a)
  | fuel + 1, s, a =>
    if s.isDue time then
      let (s, a) := s.round log a
      runTicks log time fuel { s with next := s.next + s.interval } a
    else (s, a)

/-- Moves the clock: every round due up to the new time takes place. -/
def advance {σ : Type} [LogStore σ] (s : ApplySchedule) (log : σ) (a : Applier) (time : Nat) :
    ApplySchedule × Applier :=
  runTicks log time (time + 1 - s.next) s a

end ApplySchedule

end Raft
