import Raft.Message

/-!
# Waiting callers

A caller whose command is in the log waits for the entry at its index to be applied. Waiters are
kept by index, and an index of request ids finds the one that a caller withdraws.
-/

namespace Raft

/-- Names one caller that expects one answer. -/
abbrev Caller := Nat

/-- A caller that waits for an entry to be applied. -/
structure Waiter where
  request : String
  /-- The term of the entry the caller expects. -/
  term : Nat
  caller : Caller
  deriving DecidableEq, Repr, Inhabited

/-- Waiters by log index, and the index under which each request id waits. -/
structure Waiters where
  byIndex : List (Nat × List Waiter) := []
  indexOf : List (String × Nat) := []
  deriving Repr, Inhabited

namespace Waiters

/-- The waiters on an index, in the order in which they are stored. -/
def on (w : Waiters) (index : Nat) : List Waiter := (w.byIndex.lookup index).getD []

def insertAt (index : Nat) (x : Waiter) : List (Nat × List Waiter) → List (Nat × List Waiter)
  | [] => [(index, [x])]
  | (i, ws) :: rest =>
    if i = index then (i, ws ++ [x]) :: rest else (i, ws) :: insertAt index x rest

/-- Registers a waiter. A request id that is registered again is found under its new index. -/
def register (w : Waiters) (index : Nat) (x : Waiter) : Waiters where
  byIndex := insertAt index x w.byIndex
  indexOf := (x.request, index) :: w.indexOf.filter (·.1 ≠ x.request)

def take (w : Waiters) (index : Nat) : List Waiter × Waiters :=
  let taken := w.on index
  (taken,
    { byIndex := w.byIndex.filter (·.1 ≠ index)
      indexOf := w.indexOf.filter fun item => !(taken.any fun x => x.request = item.1) })

/-- A list without its first item that satisfies a test; the last item moves into its place. -/
def swapOut (p : Waiter → Bool) (ws : List Waiter) : Option (Waiter × List Waiter) :=
  match ws.findIdx? p with
  | none => none
  | some i =>
    match ws[i]?, ws.getLast? with
    | some x, some last => some (x, (ws.set i last).dropLast)
    | _, _ => none

/-- Sets the waiters on an index; an index without waiters is forgotten. -/
def setAt (index : Nat) (ws : List Waiter) (l : List (Nat × List Waiter)) :
    List (Nat × List Waiter) :=
  match ws with
  | [] => l.filter (·.1 ≠ index)
  | _ => l.map fun item => if item.1 = index then (index, ws) else item

/-- Withdraws the waiter with a request id, if it still waits. -/
def cancel (w : Waiters) (request : String) : Option Waiter × Waiters :=
  match w.indexOf.lookup request with
  | none => (none, w)
  | some index =>
    let w := { w with indexOf := w.indexOf.filter (·.1 ≠ request) }
    match swapOut (fun x => x.request == request) (w.on index) with
    | none => (none, w)
    | some (x, rest) => (some x, { w with byIndex := setAt index rest w.byIndex })

def all (w : Waiters) : List Waiter := w.byIndex.flatMap (·.2)

/-- Removes every waiter, index by index. -/
def takeAll (w : Waiters) : List Waiter × Waiters :=
  (w.byIndex.map (·.1)).foldl
    (fun acc index =>
      let (taken, rest) := acc.2.take index
      (acc.1 ++ taken, rest))
    ([], w)

/-- The number of registered request ids. -/
def size (w : Waiters) : Nat := w.indexOf.length

end Waiters

end Raft
