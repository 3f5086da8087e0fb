import Raft.Error

/-!
# Stores of log entries

A log store keeps entries at the indexes from 1 on, without gaps. `LogStore` lists the operations
that the protocol needs; on top of them stand the operations every store shares: the check of a
position, the merge of a leader's entries into the log, and the greatest index that a majority
holds. Index 0 stands for the position before the first entry, in term 0.
-/

namespace Raft

/-- The operations of a log store. Reads leave the store as it is. -/
class LogStore (σ : Type) where
  /-- The entry at an index, if there is one. -/
  entry? (s : σ) (index : Nat) : Except Error (Option Entry)
  /-- The index of the last entry, 0 for the empty log. -/
  lastIndex (s : σ) : Nat
  /-- The position of the last entry. -/
  lastId (s : σ) : LogId
  /-- The term of the entry at an index. Index 0 has none. -/
  term? (s : σ) (index : Nat) : Option Nat
  /-- The first index that holds an entry of a term. -/
  firstIndexOf? (s : σ) (term : Nat) : Option Nat
  /-- The last index that holds an entry of a term. -/
  lastIndexOf? (s : σ) (term : Nat) : Option Nat
  /-- The entries at the indexes from `lo` to `hi`, both included. -/
  range (s : σ) (lo hi : Nat) : Except Error (List Entry)
  /-- Adds entries that continue the log. -/
  append (entries : List Entry) : Action σ Unit
  /-- Removes the entry at an index and everything after it. -/
  truncate (start : Nat) : Action σ Unit
  /-- Waits until everything written is durable. -/
  flush (s : σ) : Except Error Unit
  /-- The number of entries. -/
  size (s : σ) : Nat

/-- Operations of a store that are made to fail, so that the node's answer to a failing store can
be observed. -/
structure LogFaults where
  append : Bool := false
  truncate : Bool := false
  read : Bool := false
  flush : Bool := false
  deriving DecidableEq, Repr, Inhabited

namespace LogFaults

/-- The error of an operation that was made to fail. -/
def error (operation : String) : Error := .storage (.log (.other ("injected " ++ operation)))

end LogFaults

namespace LogStore

variable {σ : Type} [LogStore σ]

def isEmpty (s : σ) : Bool := size s == 0

/-- The term at a position; the position before the first entry has term 0. -/
def prevTerm? (s : σ) (index : Nat) : Option Nat :=
  if index = 0 then some 0 else term? s index

/-- The entries from the first one on that the log does not hold with the same term. -/
def unknown (s : σ) : List Entry → List Entry
  | [] => []
  | e :: rest => if term? s e.index = some e.term then unknown s rest else e :: rest

/-- Merges the entries that a leader sent after a position into the log. Without the leader's
term at that position nothing happens and the result is `none`. Entries that are present with the
same term stay; at the first entry of another term the log is cut, unless that entry is committed,
and what is missing is added. The result is the last index the request covers. -/
def merge (prevIndex prevTerm : Nat) (entries : List Entry) (commit : Nat) :
    Action σ (Option Nat) := do
  let s ← get
  if prevTerm? s prevIndex = some prevTerm then
    let matched ← Action.ofExcept (sum prevIndex entries.length)
    match unknown s entries with
    | [] => return some matched
    | e :: rest =>
      if (term? s e.index).isSome then
        if e.index ≤ commit then
          Action.fail (.replication (.committedConflict e.index commit))
        truncate e.index
      append (e :: rest)
      return some matched
  else
    return none

/-- The greatest index that a majority holds, given what the other nodes hold, if it is beyond the
commit index and its entry is of the current term. Entries of older terms commit through it. -/
def majorityIndex? (s : σ) (term commit : Nat) (peers : List Nat) : Option Nat :=
  let ranked := (peers ++ [lastIndex s]).mergeSort fun a b => decide (b ≤ a)
  match ranked[ranked.length / 2]? with
  | none => none
  | some index => if commit < index ∧ term? s index = some term then some index else none

/-- Where the leader should look next after the log failed the check at `prevIndex`. -/
def conflictHint (s : σ) (prevIndex : Nat) : Except (Failure Error) ConflictHint := do
  if lastIndex s < prevIndex then
    return ⟨← sum (lastIndex s) 1, none⟩
  else
    match term? s prevIndex with
    | some term => return ⟨(firstIndexOf? s term).getD prevIndex, some term⟩
    | none => return ⟨prevIndex, none⟩

/-- The index a leader probes next after a rejection: the end of the conflicting term in its own
log if it holds that term, else the follower's hint; never below 1 and never beyond the rejected
position. -/
def nextAfterConflict (s : σ) (hint : ConflictHint) (prevIndex : Nat) :
    Except (Failure Error) Nat := do
  let next ← match hint.term with
    | some term =>
      match lastIndexOf? s term with
      | some last => sum last 1
      | none => pure hint.index
    | none => pure hint.index
  return max 1 (min next (max 1 prevIndex))

/-- The request that brings a follower the entries from `next` on, at most `limit` of them. -/
def appendRequest (s : σ) (leader : NodeId) (term next commit limit : Nat) :
    Except (Failure Error) AppendRequest := do
  let last := lastIndex s
  let bound ← sum last 1
  let next := max 1 (min next bound)
  let entries ←
    if next ≤ last then do
      let upper := (← sum next (max 1 limit)) - 1
      (range s next (min last upper)).mapError Failure.error
    else pure []
  return ⟨term, leader, next - 1, (prevTerm? s (next - 1)).getD 0, entries, commit⟩

end LogStore

end Raft
