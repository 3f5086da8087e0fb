import Raft.Message
import Raft.Codec.Wire

/-!
# Stored and sent values

The wire form of every value of the protocol: its fields in order, variants behind their tag.
-/

namespace Raft.Codec

def ofCommand (c : Command) : Bytes :=
  ofText c.client ++ ofWord c.sequence ++ ofByteString c.data

def command : Decoder Command := do
  let client ← text
  let sequence ← word
  let data ← byteString
  return ⟨client, sequence, data⟩

def ofPayload : Payload → Bytes
  | .noop => ofVariantTag 0
  | .command c => ofVariantTag 1 ++ ofCommand c

def payload : Decoder Payload := do
  match ← variantTag 2 with
  | 0 => return .noop
  | _ => return .command (← command)

def ofEntry (e : Entry) : Bytes := ofWord e.index ++ ofWord e.term ++ ofPayload e.payload

def entry : Decoder Entry := do
  let index ← word
  let term ← word
  let body ← payload
  return ⟨index, term, body⟩

def ofLogId (l : LogId) : Bytes := ofWord l.index ++ ofWord l.term

def logId : Decoder LogId := do
  let index ← word
  let term ← word
  return ⟨index, term⟩

def ofVote (v : Vote) : Bytes := ofNodeId v.candidate ++ ofWord v.term

def vote : Decoder Vote := do
  let candidate ← nodeId
  let term ← word
  return ⟨candidate, term⟩

def ofHardState (h : HardState) : Bytes := ofWord h.term ++ ofOptional ofVote h.vote

def hardState : Decoder HardState := do
  let term ← word
  let vote ← optional vote
  return ⟨term, vote⟩

def ofVoteRequest (r : VoteRequest) : Bytes :=
  ofWord r.term ++ ofNodeId r.candidate ++ ofWord r.lastIndex ++ ofWord r.lastTerm

def voteRequest : Decoder VoteRequest := do
  let term ← word
  let candidate ← nodeId
  let lastIndex ← word
  let lastTerm ← word
  return ⟨term, candidate, lastIndex, lastTerm⟩

def ofVoteResponse (r : VoteResponse) : Bytes :=
  ofWord r.term ++ ofFlag r.granted ++ ofWord r.lastIndex ++ ofWord r.lastTerm

def voteResponse : Decoder VoteResponse := do
  let term ← word
  let granted ← flag
  let lastIndex ← word
  let lastTerm ← word
  return ⟨term, granted, lastIndex, lastTerm⟩

def ofAppendRequest (r : AppendRequest) : Bytes :=
  ofWord r.term ++ ofNodeId r.leader ++ ofWord r.prevIndex ++ ofWord r.prevTerm
    ++ ofItems ofEntry r.entries ++ ofWord r.commit

def appendRequest : Decoder AppendRequest := do
  let term ← word
  let leader ← nodeId
  let prevIndex ← word
  let prevTerm ← word
  let entries ← items entry
  let commit ← word
  return ⟨term, leader, prevIndex, prevTerm, entries, commit⟩

def ofConflictHint (h : ConflictHint) : Bytes := ofWord h.index ++ ofOptional ofWord h.term

def conflictHint : Decoder ConflictHint := do
  let index ← word
  let term ← optional word
  return ⟨index, term⟩

def ofAppendResponse (r : AppendResponse) : Bytes :=
  ofNodeId r.node ++ ofWord r.term ++ ofFlag r.success ++ ofWord r.matchIndex
    ++ ofOptional ofConflictHint r.conflict

def appendResponse : Decoder AppendResponse := do
  let node ← nodeId
  let term ← word
  let success ← flag
  let matchIndex ← word
  let conflict ← optional conflictHint
  return ⟨node, term, success, matchIndex, conflict⟩

def ofTimeoutNowRequest (r : TimeoutNowRequest) : Bytes := ofWord r.term ++ ofNodeId r.leader

def timeoutNowRequest : Decoder TimeoutNowRequest := do
  let term ← word
  let leader ← nodeId
  return ⟨term, leader⟩

def ofTimeoutNowResponse (r : TimeoutNowResponse) : Bytes := ofWord r.term ++ ofFlag r.accepted

def timeoutNowResponse : Decoder TimeoutNowResponse := do
  let term ← word
  let accepted ← flag
  return ⟨term, accepted⟩

def ofClientRequest (r : ClientRequest) : Bytes :=
  ofText r.client ++ ofWord r.sequence ++ ofByteString r.command

def clientRequest : Decoder ClientRequest := do
  let client ← text
  let sequence ← word
  let command ← byteString
  return ⟨client, sequence, command⟩

def ofCommitResult (r : CommitResult) : Bytes :=
  ofWord r.term ++ ofWord r.index ++ ofByteString r.result

def commitResult : Decoder CommitResult := do
  let term ← word
  let index ← word
  let result ← byteString
  return ⟨term, index, result⟩

def ofClientResponse : ClientResponse → Bytes
  | .committed r => ofVariantTag 0 ++ ofCommitResult r
  | .notLeader hint => ofVariantTag 1 ++ ofOptional ofNodeId hint
  | .stale last => ofVariantTag 2 ++ ofWord last

def clientResponse : Decoder ClientResponse := do
  match ← variantTag 3 with
  | 0 => return .committed (← commitResult)
  | 1 => return .notLeader (← optional nodeId)
  | _ => return .stale (← word)

end Raft.Codec
