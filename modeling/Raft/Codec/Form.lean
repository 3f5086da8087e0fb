import Raft.Codec.Values
import Raft.Data.Values

/-!
# The two forms of a value

Every stored or sent value has a form as bytes and a form as a data tree. Here they are joined:
bytes to tree and tree to bytes.
-/

namespace Raft.Codec

/-- A kind of values with their two forms. -/
structure Form (α : Type) where
  decoder : Decoder α
  encode : α → Bytes
  toData : α → Data
  ofData? : Data → Option α

namespace Form

/-- The tree of the value at the front of a byte string. -/
def inspect {α : Type} (f : Form α) (b : Bytes) : Except DecodeError Data :=
  (read f.decoder b).map f.toData

/-- The bytes of the value that a tree describes, if it describes one. -/
def build? {α : Type} (f : Form α) (d : Data) : Option Bytes := (f.ofData? d).map f.encode

def entry : Form Entry := ⟨Codec.entry, ofEntry, Data.ofEntry, Data.entry?⟩

def payload : Form Payload := ⟨Codec.payload, ofPayload, Data.ofPayload, Data.payload?⟩

def command : Form Command := ⟨Codec.command, ofCommand, Data.ofCommand, Data.command?⟩

def logId : Form LogId := ⟨Codec.logId, ofLogId, Data.ofLogId, Data.logId?⟩

def vote : Form Vote := ⟨Codec.vote, ofVote, Data.ofVote, Data.vote?⟩

def hardState : Form HardState := ⟨Codec.hardState, ofHardState, Data.ofHardState, Data.hardState?⟩

def voteRequest : Form VoteRequest :=
  ⟨Codec.voteRequest, ofVoteRequest, Data.ofVoteRequest, Data.voteRequest?⟩

def voteResponse : Form VoteResponse :=
  ⟨Codec.voteResponse, ofVoteResponse, Data.ofVoteResponse, Data.voteResponse?⟩

def appendRequest : Form AppendRequest :=
  ⟨Codec.appendRequest, ofAppendRequest, Data.ofAppendRequest, Data.appendRequest?⟩

def conflictHint : Form ConflictHint :=
  ⟨Codec.conflictHint, ofConflictHint, Data.ofConflictHint, Data.conflictHint?⟩

def appendResponse : Form AppendResponse :=
  ⟨Codec.appendResponse, ofAppendResponse, Data.ofAppendResponse, Data.appendResponse?⟩

def timeoutNowRequest : Form TimeoutNowRequest :=
  ⟨Codec.timeoutNowRequest, ofTimeoutNowRequest, Data.ofTimeoutNowRequest,
    Data.timeoutNowRequest?⟩

def timeoutNowResponse : Form TimeoutNowResponse :=
  ⟨Codec.timeoutNowResponse, ofTimeoutNowResponse, Data.ofTimeoutNowResponse,
    Data.timeoutNowResponse?⟩

def clientRequest : Form ClientRequest :=
  ⟨Codec.clientRequest, ofClientRequest, Data.ofClientRequest, Data.clientRequest?⟩

def commitResult : Form CommitResult :=
  ⟨Codec.commitResult, ofCommitResult, Data.ofCommitResult, Data.commitResult?⟩

def clientResponse : Form ClientResponse :=
  ⟨Codec.clientResponse, ofClientResponse, Data.ofClientResponse, Data.clientResponse?⟩

end Form

end Raft.Codec
