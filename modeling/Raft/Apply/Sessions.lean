import Raft.Log.Store
import Raft.Apply.Machine

/-!
# Client sessions

For every client the table remembers the results of its greatest applied sequence numbers, as many
as the window allows. A request whose sequence number is remembered is answered from the table; one
older than everything a full session remembers is stale.
-/

namespace Raft

/-- The remembered results of one client, by increasing sequence number. -/
abbrev Session := List (Nat × CommitResult)

namespace Session

/-- Puts a result under its sequence number, over an older result of the same number. -/
def put (sequence : Nat) (r : CommitResult) : Session → Session
  | [] => [(sequence, r)]
  | (s, old) :: rest =>
    if s < sequence then (s, old) :: put sequence r rest
    else if s = sequence then (sequence, r) :: rest
    else (sequence, r) :: (s, old) :: rest

def latest? (s : Session) : Option Nat := s.getLast?.map (·.1)

end Session

/-- What the table knows about a request. -/
inductive SessionCheck where
  /-- Not applied yet. -/
  | new
  /-- Applied, with this result. -/
  | applied (r : CommitResult)
  /-- Older than every sequence number still remembered. -/
  | stale (latest : Nat)
  deriving DecidableEq, Repr

/-- The sessions of all clients. -/
structure Sessions where
  clients : List (String × Session) := []
  window : Nat := 1024
  deriving Repr, Inhabited

namespace Sessions

/-- The empty table. A window of 0 acts as 1. -/
def empty (window : Nat) : Sessions := { window := max window 1 }

def session (t : Sessions) (client : String) : Session := (t.clients.lookup client).getD []

def check (t : Sessions) (client : String) (sequence : Nat) : SessionCheck :=
  let s := t.session client
  match s.lookup sequence with
  | some r => .applied r
  | none =>
    if t.window ≤ s.length then
      match s.head?, s.latest? with
      | some (oldest, _), some latest =>
        if sequence < oldest then .stale latest else .new
      | _, _ => .new
    else .new

def setSession (client : String) (s : Session) : List (String × Session) → List (String × Session)
  | [] => [(client, s)]
  | (c, old) :: rest => if c = client then (c, s) :: rest else (c, old) :: setSession client s rest

/-- Remembers a result. The lowest sequence numbers leave a session that is over its window. -/
def record (t : Sessions) (client : String) (sequence : Nat) (r : CommitResult) : Sessions :=
  let s := (t.session client).put sequence r
  { t with clients := setSession client (s.drop (s.length - t.window)) t.clients }

def latest? (t : Sessions) (client : String) : Option Nat := (t.session client).latest?

def size (t : Sessions) : Nat := t.clients.length

/-- Remembers what an entry of the applied prefix did: its command counts unless the table knows
it already, or it is stale. -/
def replay (machine : Machine) (t : Sessions) (e : Entry) : Sessions :=
  match e.payload with
  | .noop => t
  | .command c =>
    match t.check c.client c.sequence with
    | .new =>
      t.record c.client c.sequence ⟨e.term, e.index, (machine.output? e.index).getD []⟩
    | _ => t

/-- The table that belongs to a state machine which applied the log up to `lastApplied`. -/
def rebuild {σ : Type} [LogStore σ] (window : Nat) (log : σ) (machine : Machine)
    (lastApplied : Nat) : Except Error Sessions :=
  if lastApplied = 0 then .ok (empty window)
  else (LogStore.range log 1 lastApplied).map fun entries =>
    entries.foldl (replay machine) (empty window)

end Sessions

end Raft
