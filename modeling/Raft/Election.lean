import Raft.Error

/-!
# Elections

When a node grants its vote, and when an answer to a vote request is a vote.
-/

namespace Raft.Election

/-- Whether a log that ends at `(theirIndex, theirTerm)` is at least as recent as one that ends at
`(index, term)`: its last term is higher, or equal and it is not shorter. -/
def isRecent (index term theirIndex theirTerm : Nat) : Bool :=
  decide (term < theirTerm) || (decide (theirTerm = term) && decide (index ≤ theirIndex))

/-- Whether a vote request may be granted: its term is not behind, no other candidate has the
vote of that term, and the candidate's log is recent enough. -/
def mayGrant (r : VoteRequest) (term : Nat) (last : LogId) (vote : Option Vote) : Bool :=
  let free := match vote with
    | some v => v.term != r.term || v.candidate == r.candidate
    | none => true
  decide (term ≤ r.term) && free && isRecent last.index last.term r.lastIndex r.lastTerm

/-- The changes of the hard state that a vote request asks for. -/
structure Decision where
  /-- Set when the vote is granted. -/
  vote : Option Vote
  /-- Set when the request carries a newer term. -/
  term : Option Nat
  deriving DecidableEq, Repr

namespace Decision

def granted (d : Decision) : Bool := d.vote.isSome

def isEmpty (d : Decision) : Bool := d.vote.isNone && d.term.isNone

/-- The hard state after the decision. A newer term starts without a vote. -/
def apply (d : Decision) (h : HardState) : HardState :=
  let h := match d.term with
    | some term => ⟨term, none⟩
    | none => h
  match d.vote with
  | some v => { h with vote := some v }
  | none => h

end Decision

/-- Decides a vote request. The vote of an older term does not bind in a newer one. -/
def decide (r : VoteRequest) (h : HardState) (last : LogId) : Decision :=
  let newer := h.term < r.term
  let term := if newer then r.term else h.term
  let vote := if newer then none else h.vote
  { vote := if mayGrant r term last vote then some ⟨r.candidate, r.term⟩ else none
    term := if newer then some r.term else none }

/-- Whether an answer grants the vote of the current term. A newer term ends the election. -/
def isVote (term : Nat) (answerTerm : Nat) (granted : Bool) : Except ElectionError Bool :=
  if term < answerTerm then .error (.higherTerm answerTerm)
  else .ok (granted && answerTerm == term)

end Raft.Election
