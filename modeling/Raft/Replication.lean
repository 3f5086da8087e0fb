import Raft.Log.Store

/-!
# Log replication

What a follower answers to an append request of its leader, and how a leader reads that answer.
-/

namespace Raft.Replication

variable {σ : Type} [LogStore σ]

/-- The commit index a follower adopts: the leader's, but not beyond the last index the request
covers; absent if that is no progress. -/
def newCommit? (own matched leader : Nat) : Option Nat :=
  if own < min leader matched then some (min leader matched) else none

/-- What a follower does with an append request: its answer and its new commit index. -/
structure Outcome where
  response : AppendResponse
  commit : Option Nat
  deriving Repr

/-- Handles an append request of the leader of the current term. -/
def handle (node : NodeId) (r : AppendRequest) (term commit : Nat) : Action σ Outcome := do
  match ← LogStore.merge (σ := σ) r.prevIndex r.prevTerm r.entries commit with
  | some matched =>
    return ⟨.accepted node term matched, newCommit? commit matched r.commit⟩
  | none =>
    let s ← get
    let hint ← Action.ofExcept (LogStore.conflictHint s r.prevIndex)
    return ⟨.conflicting node term hint, none⟩

/-- What a leader learns from the answer to an append request. -/
inductive Verdict where
  /-- The follower holds the log up to this index. -/
  | matched (index : Nat)
  /-- The answer carries nothing to act on. -/
  | nothing
  | higherTerm (term : Nat)
  | conflict (hint : ConflictHint)
  deriving Repr, DecidableEq

/-- Sorts the answer to an append request. -/
def verdict (term : Nat) (r : AppendResponse) : Verdict :=
  if term < r.term then .higherTerm r.term
  else if r.success then .matched r.matchIndex
  else
    match r.conflict with
    | some hint => .conflict hint
    | none => .nothing

/-- The match index that an answer reports, or the error it stands for. -/
def Verdict.result (prevIndex : Nat) : Verdict → Except ReplicationError (Option Nat)
  | .matched index => .ok (some index)
  | .nothing => .ok none
  | .higherTerm term => .error (.higherTerm term)
  | .conflict hint => .error (.conflict prevIndex hint)

end Raft.Replication
