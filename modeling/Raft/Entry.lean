import Raft.Text.Inspect

/-!
# Log entries

An entry has an index and a term, and is either a no-op, which a new leader writes so that older
entries can commit through it, or a client command. A command is named by its client and that
client's sequence number.
-/

namespace Raft

/-- The id of a node; 0 names no node. -/
abbrev NodeId := Nat

/-- A string of bytes, as commands and results are. -/
abbrev Bytes := List UInt8

/-- A client command as stored in the log. -/
structure Command where
  client : String
  sequence : Nat
  data : Bytes
  deriving DecidableEq, Repr, Inhabited

/-- What an entry carries. -/
inductive Payload where
  | noop
  | command (c : Command)
  deriving DecidableEq, Repr, Inhabited

structure Entry where
  index : Nat
  term : Nat
  payload : Payload
  deriving DecidableEq, Repr, Inhabited

/-- A position in the log. The empty log ends at index 0 in term 0. -/
structure LogId where
  index : Nat := 0
  term : Nat := 0
  deriving DecidableEq, Repr, Inhabited

namespace Entry

def noop (index term : Nat) : Entry := ⟨index, term, .noop⟩

def ofCommand (index term : Nat) (c : Command) : Entry := ⟨index, term, .command c⟩

def id (e : Entry) : LogId := ⟨e.index, e.term⟩

def isNoop (e : Entry) : Bool :=
  match e.payload with
  | .noop => true
  | .command _ => false

def command? (e : Entry) : Option Command :=
  match e.payload with
  | .noop => none
  | .command c => some c

/-- Whether the entry carries the request with this sequence number of this client. -/
def isRequestOf (e : Entry) (client : String) (sequence : Nat) : Bool :=
  match e.payload with
  | .noop => false
  | .command c => c.client == client && c.sequence == sequence

end Entry

namespace Text

def bytes (b : Bytes) : String := list (b.map fun x => toString x.toNat)

def command (c : Command) : String :=
  record "ClientCommand"
    [("client_id", quoted c.client), ("sequence", toString c.sequence), ("data", bytes c.data)]

def payload : Payload → String
  | .noop => "Noop"
  | .command c => variant "Command" [command c]

def entry (e : Entry) : String :=
  record "Entry"
    [("index", toString e.index), ("term", toString e.term), ("payload", payload e.payload)]

end Text

end Raft
