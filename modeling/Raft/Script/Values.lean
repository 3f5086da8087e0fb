import Raft.Script.Fields
import Raft.Message
import Raft.Apply.Sessions
import Raft.Apply.Waiters

/-!
# Protocol values in scripts

The short form in which scripts give the values of the protocol and reports show them.
-/

namespace Raft.Script

/-! ## Giving values -/

/-- An entry: a command if it names a client, else a no-op. -/
def readEntry (d : Data) : Entry :=
  ⟨nat d "index", nat d "term",
    if has d "client" then .command ⟨text d "client", nat d "seq", bytes d "data"⟩ else .noop⟩

def readEntries (d : Data) (name : String) : List Entry := (items d name).map readEntry

def readVote (d : Data) (name : String) : Option Vote :=
  match items d name with
  | [a, b] => some ⟨(Data.word? a).getD 0, (Data.word? b).getD 0⟩
  | _ => none

def readHardState (d : Data) : HardState := ⟨nat d "term", readVote d "vote"⟩

def readVoteRequest (d : Data) : VoteRequest :=
  ⟨nat d "term", nat d "candidate", nat d "last_index", nat d "last_term"⟩

def readVoteResponse (d : Data) : VoteResponse :=
  ⟨nat d "term", flag d "granted", nat d "last_index", nat d "last_term"⟩

def readAppendRequest (d : Data) : AppendRequest :=
  ⟨nat d "term", nat d "leader", nat d "prev_index", nat d "prev_term", readEntries d "entries",
    nat d "commit"⟩

def readHint (d : Data) : ConflictHint := ⟨nat d "index", nat? d "term"⟩

def readAppendResponse (d : Data) : AppendResponse :=
  ⟨nat d "node_id", nat d "term", flag d "success", nat d "match",
    if has d "conflict" then some (readHint (field d "conflict")) else none⟩

def readTimeoutNow (d : Data) : TimeoutNowRequest := ⟨nat d "term", nat d "leader"⟩

def readTimeoutNowResponse (d : Data) : TimeoutNowResponse := ⟨nat d "term", flag d "accepted"⟩

def readClientRequest (d : Data) : ClientRequest :=
  ⟨text d "client", nat d "seq", bytes d "data"⟩

def readKind? (d : Data) : Option RequestKind :=
  match text d "kind" with
  | "vote" => some .vote
  | "append" => some .append
  | "timeout_now" => some .timeoutNow
  | _ => none

/-- An answer to a request of a kind. -/
def readResponse (kind : RequestKind) (d : Data) : Response :=
  match kind with
  | .vote => .vote (readVoteResponse d)
  | .append => .append (readAppendResponse d)
  | .timeoutNow => .timeoutNow (readTimeoutNowResponse d)

/-! ## Showing values -/

def entry (e : Entry) : Data :=
  .record ([("index", .nat e.index), ("term", .nat e.term)] ++
    match e.payload with
    | .noop => []
    | .command c => [("client", .text c.client), ("seq", .nat c.sequence), ("data", hex c.data)])

def entries (l : List Entry) : Data := .list (l.map entry)

def logId (l : LogId) : Data := natList [l.index, l.term]

def vote : Option Vote → Data := Data.optional fun v => natList [v.candidate, v.term]

def hardState : Option HardState → Data :=
  Data.optional fun h => .record [("term", .nat h.term), ("vote", vote h.vote)]

def hint (h : ConflictHint) : Data := .record [("index", .nat h.index), ("term", optNat h.term)]

def voteRequest (r : VoteRequest) : Data :=
  .record [("term", .nat r.term), ("candidate", .nat r.candidate),
    ("last_index", .nat r.lastIndex), ("last_term", .nat r.lastTerm)]

def voteResponse (r : VoteResponse) : Data :=
  .record [("term", .nat r.term), ("granted", .flag r.granted),
    ("last_index", .nat r.lastIndex), ("last_term", .nat r.lastTerm)]

def appendRequest (r : AppendRequest) : Data :=
  .record [("term", .nat r.term), ("leader", .nat r.leader), ("prev_index", .nat r.prevIndex),
    ("prev_term", .nat r.prevTerm), ("entries", entries r.entries), ("commit", .nat r.commit)]

def appendResponse (r : AppendResponse) : Data :=
  .record [("node_id", .nat r.node), ("term", .nat r.term), ("success", .flag r.success),
    ("match", .nat r.matchIndex), ("conflict", Data.optional hint r.conflict)]

def timeoutNow (r : TimeoutNowRequest) : Data :=
  .record [("term", .nat r.term), ("leader", .nat r.leader)]

def timeoutNowResponse (r : TimeoutNowResponse) : Data :=
  .record [("term", .nat r.term), ("accepted", .flag r.accepted)]

def request : Request → Data
  | .vote r => voteRequest r
  | .append r => appendRequest r
  | .timeoutNow r => timeoutNow r

def kind : RequestKind → Data
  | .vote => .text "vote"
  | .append => .text "append"
  | .timeoutNow => .text "timeout_now"

def response : Response → Data
  | .vote r => voteResponse r
  | .append r => appendResponse r
  | .timeoutNow r => timeoutNowResponse r

/-- Where a command was committed, and its result. -/
def commitResult (r : CommitResult) : Data :=
  .record [("term", .nat r.term), ("index", .nat r.index), ("result", hex r.result)]

def clientResponse : ClientResponse → Data
  | .committed r => .record [("committed", commitResult r)]
  | .notLeader hint => .record [("not_leader", optNat hint)]
  | .stale last => .record [("stale", .nat last)]

def sessionCheck : SessionCheck → Data
  | .new => .text "new"
  | .applied r => .record [("applied", commitResult r)]
  | .stale last => .record [("stale", .nat last)]

def waiter (w : Waiter) : Data := .list [.text w.request, .nat w.term]

def applied (a : Applied) : Data := .list [.nat a.index, .nat a.term, hex a.data]

end Raft.Script
