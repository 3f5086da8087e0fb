import Raft.Script.Values
import Raft.Error
import Raft.Client.Error

/-!
# Errors in reports

An error is shown by the name of its kind and its text.
-/

namespace Raft.Script

/-- The name of an error's kind: the layer that finds it, and the cause. -/
def errorKind : Error → String
  | .network (.unavailable _) => "Network.NodeUnavailable"
  | .network (.blocked ..) => "Network.RequestBlocked"
  | .network (.timeout ..) => "Network.Timeout"
  | .network (.signal _) => "Network.SignalSendFailed"
  | .storage (.decode _) => "Storage.Bincode"
  | .storage (.database _) => "Storage.Db"
  | .storage (.log _) => "Storage.LogStorage"
  | .storage (.hardState _) => "Storage.StateStorage"
  | .storage (.machine _) => "Storage.StateMachine"
  | .storage (.keyLength _) => "Storage.Convert"
  | .startFailed _ => "NodeStartFailed"
  | .settings (.invalid _) => "Config.Message"
  | .settings .mistyped => "Config.Type"
  | .settings .malformed => "Config.FileParse"
  | .settings .unreadable => "Config.Foreign"
  | .transition .notEnoughVotes => "StateTransition.NotEnoughVotes"
  | .transition .invalid => "StateTransition.InvalidTransition"
  | .election (.higherTerm _) => "Election.HigherTerm"
  | .election (.noQuorum ..) => "Election.QuorumFailure"
  | .election (.transferInProgress _) => "Election.TransferInProgress"
  | .election (.invalidTarget _) => "Election.InvalidTransferTarget"
  | .election (.transferTimeout ..) => "Election.TransferTimeout"
  | .election (.transferRejected ..) => "Election.TransferRejected"
  | .replication (.higherTerm _) => "Replication.HigherTerm"
  | .replication (.conflict ..) => "Replication.LogConflict"
  | .replication (.committedConflict ..) => "Replication.CommittedEntryConflict"
  | .notLeader _ => "NotLeader"
  | .fatal _ => "Fatal"

def error (e : Error) : Data :=
  .record [("error", .text (errorKind e)), ("message", .text e.message)]

/-- The end of a computation that cannot go on. -/
def panicked (message : String) : Data :=
  .record [("error", .text "panic"), ("message", .text message)]

/-- A sum that left its range. -/
def overflow : Data := panicked "attempt to add with overflow"

def failed : Failure Error → Data
  | .error e => error e
  | .overflow => overflow

def result {α : Type} (show' : α → Data) : Except Error α → Data
  | .ok a => show' a
  | .error e => error e

def outcome {α : Type} (show' : α → Data) : Except (Failure Error) α → Data
  | .ok a => show' a
  | .error e => failed e

/-- Success without a value. -/
def done (_ : Unit) : Data := .text "ok"

/-- The name of a gateway error's kind. -/
def clientErrorKind : ClientError → String
  | .notLeader _ => "Client.NotLeader"
  | .timeout => "Client.Timeout"
  | .unavailable _ => "Client.Unavailable"
  | .stale .. => "Client.StaleSequence"
  | .server _ => "Client.Server"

def clientError (e : ClientError) : Data :=
  .record [("error", .text (clientErrorKind e)), ("message", .text e.message),
    ("retryable", .flag e.isRetryable)]

end Raft.Script
