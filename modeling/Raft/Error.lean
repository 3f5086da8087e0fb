import Raft.Word
import Raft.Message
import Raft.Text.Duration
import Raft.Codec.Error

/-!
# Errors

The causes for which an operation of the engine fails, grouped by the layer that finds them, and
one function that gives each its text. Only a fatal error stops a node; every other error is
handled where it arises, and the work it stopped is tried again later.
-/

namespace Raft

inductive NetworkError where
  | unavailable (node : NodeId)
  /-- Outbound traffic of `source` is blocked. -/
  | blocked (source target : NodeId)
  | timeout (node : NodeId) (ms : Nat)
  /-- A role event could not be queued. -/
  | signal (text : String)
  deriving DecidableEq, Repr

/-- Why the log store refused an operation. -/
inductive LogFault where
  /-- An entry does not continue the log. -/
  | gap (index next : Nat)
  | other (text : String)
  deriving DecidableEq, Repr

/-- Why the state machine refused a command. -/
inductive MachineFault where
  /-- The command's index is not beyond the last applied one. -/
  | alreadyApplied (index last : Nat)
  | other (text : String)
  deriving DecidableEq, Repr

/-- Failures of stored data. -/
inductive StorageError where
  | decode (e : Codec.DecodeError)
  | database (text : String)
  | log (fault : LogFault)
  | hardState (text : String)
  | machine (fault : MachineFault)
  /-- A key of the log is not 8 bytes long. -/
  | keyLength (length : Nat)
  deriving DecidableEq, Repr

inductive SettingsError where
  | invalid (text : String)
  /-- A scalar that cannot become a value of the field's type. -/
  | mistyped
  /-- The text of a configuration file is malformed. -/
  | malformed
  /-- A configuration file cannot be read. -/
  | unreadable
  deriving DecidableEq, Repr

/-- Role changes that are refused. -/
inductive TransitionError where
  | notEnoughVotes
  | invalid
  deriving DecidableEq, Repr

inductive ElectionError where
  | higherTerm (term : Nat)
  | noQuorum (required granted : Nat)
  | transferInProgress (target : NodeId)
  | invalidTarget (target : NodeId)
  | transferTimeout (target : NodeId) (ms : Nat)
  | transferRejected (target : NodeId) (term : Nat)
  deriving DecidableEq, Repr

inductive ReplicationError where
  | higherTerm (term : Nat)
  | conflict (prevIndex : Nat) (hint : ConflictHint)
  /-- A leader asked to remove an entry that this node committed. -/
  | committedConflict (index commit : Nat)
  deriving DecidableEq, Repr

/-- Every failure of the engine. -/
inductive Error where
  | network (e : NetworkError)
  | storage (e : StorageError)
  | startFailed (text : String)
  | settings (e : SettingsError)
  | transition (e : TransitionError)
  | election (e : ElectionError)
  | replication (e : ReplicationError)
  | notLeader (leader : Option NodeId)
  /-- The node cannot go on without risking durable state. -/
  | fatal (text : String)
  deriving DecidableEq, Repr

def NetworkError.message : NetworkError → String
  | .unavailable node => s!"Node {node} is unavailable"
  | .blocked source target => s!"Traffic from node {source} to node {target} is blocked"
  | .timeout node ms => s!"Request to {node} timed out after " ++ Text.duration ms
  | .signal text => text

def LogFault.message : LogFault → String
  | .gap index next => s!"append at index {index} leaves a gap, next index is {next}"
  | .other text => text

def MachineFault.message : MachineFault → String
  | .alreadyApplied index last => s!"index {index} already applied (last applied {last})"
  | .other text => text

def StorageError.message : StorageError → String
  | .decode e => e.message
  | .database text => "Embedded database error: " ++ text
  | .log fault => "Log storage failure: " ++ fault.message
  | .hardState text => "State storage failure: " ++ text
  | .machine fault => "State Machine error: " ++ fault.message
  | .keyLength _ => "Value convert failed"

/-- The text of an invalid configuration; the other settings errors are known by their kind. -/
def SettingsError.message : SettingsError → String
  | .invalid text => text
  | .mistyped => "mistyped value"
  | .malformed => "malformed configuration file"
  | .unreadable => "unreadable configuration file"

def TransitionError.message : TransitionError → String
  | .notEnoughVotes => "Not enough votes to transition to leader."
  | .invalid => "Invalid state transition."

def ElectionError.message : ElectionError → String
  | .higherTerm term => s!"Found higher term(={term}) during election process"
  | .noQuorum required granted =>
    s!"Quorum not reached (required: {required}, succeed: {granted})"
  | .transferInProgress target => s!"Leadership transfer to {target} already in progress"
  | .invalidTarget target => s!"Node {target} cannot receive leadership"
  | .transferTimeout target ms =>
    s!"Leadership transfer to {target} did not complete within " ++ Text.duration ms
  | .transferRejected target term => s!"Node {target} rejected TimeoutNow in term {term}"

def ReplicationError.message : ReplicationError → String
  | .higherTerm term => s!"Found higher term(={term}) during replication process"
  | .conflict prevIndex hint =>
    s!"Log conflict after index {prevIndex} (follower hint " ++ Text.conflictHint hint ++ ")"
  | .committedConflict index commit =>
    s!"Refusing to truncate committed index {index} (commit index {commit})"

namespace Error

def message : Error → String
  | .network e => e.message
  | .storage e => e.message
  | .startFailed text => "Node failed to start: " ++ text
  | .settings e => e.message
  | .transition e => e.message
  | .election e => e.message
  | .replication e => e.message
  | .notLeader leader =>
    "Node is not the leader (known leader: " ++ Text.optionNat leader ++ ")"
  | .fatal text => "Fatal error: " ++ text

def isFatal : Error → Bool
  | .fatal _ => true
  | _ => false

def isStorage : Error → Bool
  | .storage _ => true
  | _ => false

/-- The fatal error for durable state that could not be written. -/
def persistence (what : String) (e : Error) : Error :=
  .fatal ("failed to persist " ++ what ++ ": " ++ e.message)

@[simp] theorem isFatal_persistence (what : String) (e : Error) :
    (persistence what e).isFatal = true := rfl

end Error

/-- Computations over a state that may fail; what was done before the failure stays done. -/
abbrev Action (σ : Type) := EStateM (Failure Error) σ

/-- Runs a computation without state. -/
def Action.ofExcept {σ α : Type} (x : Except (Failure Error) α) : Action σ α :=
  match x with
  | .ok a => pure a
  | .error e => throw e

def Action.fail {σ α : Type} (e : Error) : Action σ α := throw (.error e)

/-- Runs a computation whose only failures are errors. -/
def Action.ofResult {σ α : Type} (x : Except Error α) : Action σ α :=
  match x with
  | .ok a => pure a
  | .error e => Action.fail e

/-- The outcome of an action, apart from the state it leaves. -/
def Action.outcome {σ α : Type} (r : EStateM.Result (Failure Error) σ α) :
    Except (Failure Error) α :=
  match r with
  | .ok a _ => .ok a
  | .error e _ => .error e

/-- The state an action leaves, whether it failed or not. -/
def Action.state {σ α : Type} (r : EStateM.Result (Failure Error) σ α) : σ :=
  match r with
  | .ok _ s => s
  | .error _ s => s

end Raft
