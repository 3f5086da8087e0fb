import Raft.Data.Basic
import Raft.Message

/-!
# Protocol values as data trees

The data tree of every value of the protocol, and reading it back. Field names are part of the
format.
-/

namespace Raft.Data

def ofCommand (c : Command) : Data :=
  .record [("client_id", .text c.client), ("sequence", .nat c.sequence), ("data", bytes c.data)]

def command? (d : Data) : Option Command := do
  let f ← fields? ["client_id", "sequence", "data"] d
  return ⟨← f.get? "client_id" text?, ← f.get? "sequence" word?, ← f.get? "data" bytes?⟩

def ofPayload : Payload → Data
  | .noop => ofName "Noop"
  | .command c => ofVariant "Command" (ofCommand c)

def payload? (d : Data) : Option Payload := do
  match ← variant? d with
  | ("Noop", none) => return .noop
  | ("Noop", some .null) => return .noop
  | ("Command", some body) => return .command (← command? body)
  | _ => none

def ofEntry (e : Entry) : Data :=
  .record [("index", .nat e.index), ("term", .nat e.term), ("payload", ofPayload e.payload)]

def entry? (d : Data) : Option Entry := do
  let f ← fields? ["index", "term", "payload"] d
  return ⟨← f.get? "index" word?, ← f.get? "term" word?, ← f.get? "payload" payload?⟩

def ofLogId (l : LogId) : Data := .record [("index", .nat l.index), ("term", .nat l.term)]

def logId? (d : Data) : Option LogId := do
  let f ← fields? ["index", "term"] d
  return ⟨← f.get? "index" word?, ← f.get? "term" word?⟩

def ofVote (v : Vote) : Data :=
  .record [("voted_for_id", .nat v.candidate), ("voted_for_term", .nat v.term)]

def vote? (d : Data) : Option Vote := do
  let f ← fields? ["voted_for_id", "voted_for_term"] d
  return ⟨← f.get? "voted_for_id" halfWord?, ← f.get? "voted_for_term" word?⟩

def ofHardState (h : HardState) : Data :=
  .record [("current_term", .nat h.term), ("voted_for", optional ofVote h.vote)]

def hardState? (d : Data) : Option HardState := do
  let f ← fields? ["current_term", "voted_for"] d
  return ⟨← f.get? "current_term" word?, ← f.find? "voted_for" vote?⟩

def ofVoteRequest (r : VoteRequest) : Data :=
  .record [("term", .nat r.term), ("candidate_id", .nat r.candidate),
    ("last_log_index", .nat r.lastIndex), ("last_log_term", .nat r.lastTerm)]

def voteRequest? (d : Data) : Option VoteRequest := do
  let f ← fields? ["term", "candidate_id", "last_log_index", "last_log_term"] d
  return ⟨← f.get? "term" word?, ← f.get? "candidate_id" halfWord?,
    ← f.get? "last_log_index" word?, ← f.get? "last_log_term" word?⟩

def ofVoteResponse (r : VoteResponse) : Data :=
  .record [("term", .nat r.term), ("vote_granted", .flag r.granted),
    ("last_log_index", .nat r.lastIndex), ("last_log_term", .nat r.lastTerm)]

def voteResponse? (d : Data) : Option VoteResponse := do
  let f ← fields? ["term", "vote_granted", "last_log_index", "last_log_term"] d
  return ⟨← f.get? "term" word?, ← f.get? "vote_granted" flag?,
    ← f.get? "last_log_index" word?, ← f.get? "last_log_term" word?⟩

def ofAppendRequest (r : AppendRequest) : Data :=
  .record [("term", .nat r.term), ("leader_id", .nat r.leader),
    ("prev_log_index", .nat r.prevIndex), ("prev_log_term", .nat r.prevTerm),
    ("entries", .list (r.entries.map ofEntry)), ("leader_commit_index", .nat r.commit)]

def appendRequest? (d : Data) : Option AppendRequest := do
  let f ← fields?
    ["term", "leader_id", "prev_log_index", "prev_log_term", "entries", "leader_commit_index"] d
  return ⟨← f.get? "term" word?, ← f.get? "leader_id" halfWord?,
    ← f.get? "prev_log_index" word?, ← f.get? "prev_log_term" word?,
    ← f.get? "entries" (list? entry?), ← f.get? "leader_commit_index" word?⟩

def ofConflictHint (h : ConflictHint) : Data :=
  .record [("conflict_index", .nat h.index), ("conflict_term", optional .nat h.term)]

def conflictHint? (d : Data) : Option ConflictHint := do
  let f ← fields? ["conflict_index", "conflict_term"] d
  return ⟨← f.get? "conflict_index" word?, ← f.find? "conflict_term" word?⟩

def ofAppendResponse (r : AppendResponse) : Data :=
  .record [("node_id", .nat r.node), ("term", .nat r.term), ("success", .flag r.success),
    ("match_index", .nat r.matchIndex), ("conflict", optional ofConflictHint r.conflict)]

def appendResponse? (d : Data) : Option AppendResponse := do
  let f ← fields? ["node_id", "term", "success", "match_index", "conflict"] d
  return ⟨← f.get? "node_id" halfWord?, ← f.get? "term" word?, ← f.get? "success" flag?,
    ← f.get? "match_index" word?, ← f.find? "conflict" conflictHint?⟩

def ofTimeoutNowRequest (r : TimeoutNowRequest) : Data :=
  .record [("term", .nat r.term), ("leader_id", .nat r.leader)]

def timeoutNowRequest? (d : Data) : Option TimeoutNowRequest := do
  let f ← fields? ["term", "leader_id"] d
  return ⟨← f.get? "term" word?, ← f.get? "leader_id" halfWord?⟩

def ofTimeoutNowResponse (r : TimeoutNowResponse) : Data :=
  .record [("term", .nat r.term), ("accepted", .flag r.accepted)]

def timeoutNowResponse? (d : Data) : Option TimeoutNowResponse := do
  let f ← fields? ["term", "accepted"] d
  return ⟨← f.get? "term" word?, ← f.get? "accepted" flag?⟩

def ofClientRequest (r : ClientRequest) : Data :=
  .record [("client_id", .text r.client), ("sequence", .nat r.sequence),
    ("command", bytes r.command)]

def clientRequest? (d : Data) : Option ClientRequest := do
  let f ← fields? ["client_id", "sequence", "command"] d
  return ⟨← f.get? "client_id" text?, ← f.get? "sequence" word?, ← f.get? "command" bytes?⟩

def ofCommitResult (r : CommitResult) : Data :=
  .record [("term", .nat r.term), ("index", .nat r.index), ("result", bytes r.result)]

def commitResult? (d : Data) : Option CommitResult := do
  let f ← fields? ["term", "index", "result"] d
  return ⟨← f.get? "term" word?, ← f.get? "index" word?, ← f.get? "result" bytes?⟩

def ofClientResponse : ClientResponse → Data
  | .committed r => ofVariant "Committed" (ofCommitResult r)
  | .notLeader hint =>
    ofVariant "NotLeader" (.record [("leader_hint", optional .nat hint)])
  | .stale last => ofVariant "StaleSequence" (.record [("last_applied_sequence", .nat last)])

def clientResponse? (d : Data) : Option ClientResponse := do
  match ← variant? d with
  | ("Committed", some body) => return .committed (← commitResult? body)
  | ("NotLeader", some body) =>
    let f ← fields? ["leader_hint"] body
    return .notLeader (← f.find? "leader_hint" halfWord?)
  | ("StaleSequence", some body) =>
    let f ← fields? ["last_applied_sequence"] body
    return .stale (← f.get? "last_applied_sequence" word?)
  | _ => none

end Raft.Data
