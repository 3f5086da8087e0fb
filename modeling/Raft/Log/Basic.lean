import Raft.Log.Store

/-!
# The log as a list

`Log` keeps the entries in a list, the entry at index `i` in place `i - 1`. It is the log every
node works on. Reading by term is a binary search: it relies on terms that never decrease along the
log.
-/

namespace Raft

/-- How many elements stand before the first one that fails a test, found by halving the list. No
element that passes may follow one that fails. -/
def partitionPoint {α : Type} (p : α → Bool) (l : List α) : Nat :=
  match h : l.drop (l.length / 2) with
  | [] => 0
  | x :: rest =>
    if p x then l.length / 2 + 1 + partitionPoint p rest
    else partitionPoint p (l.take (l.length / 2))
termination_by l.length
decreasing_by
  all_goals
    have := congrArg List.length h
    simp only [List.length_drop, List.length_cons, List.length_take] at *
    omega

/-- A log. With `whole` set, a list of new entries that leaves a gap is refused whole; otherwise
the entries before the gap are kept. -/
structure Log where
  entries : List Entry := []
  whole : Bool := false
  faults : LogFaults := {}
  deriving Repr, Inhabited

namespace Log

def get? (l : Log) (index : Nat) : Option Entry :=
  if index = 0 then none else l.entries[index - 1]?

def lastIndex (l : Log) : Nat := l.entries.length

def lastId (l : Log) : LogId := (l.entries.getLast?.map Entry.id).getD {}

def term? (l : Log) (index : Nat) : Option Nat := (l.get? index).map Entry.term

/-- The first index of a term: that of the first entry whose term is not lower. -/
def firstIndexOf? (l : Log) (term : Nat) : Option Nat :=
  (l.entries[partitionPoint (fun e => e.term < term) l.entries]?.filter
    fun e => e.term = term).map Entry.index

/-- The last index of a term: that of the last entry whose term is not higher. -/
def lastIndexOf? (l : Log) (term : Nat) : Option Nat :=
  match partitionPoint (fun e => e.term ≤ term) l.entries with
  | 0 => none
  | place + 1 => (l.entries[place]?.filter fun e => e.term = term).map Entry.index

/-- The entries between two indexes, as far as the log goes. -/
def slice (l : Log) (lo hi : Nat) : List Entry :=
  (l.entries.take hi).drop (max lo 1 - 1)

/-- `slice`, unless reading is made to fail. -/
def range (l : Log) (lo hi : Nat) : Except Error (List Entry) :=
  if l.faults.read then .error (LogFaults.error "read") else .ok (l.slice lo hi)

/-- The entries with the ones that continue them, up to the first gap, and that gap. -/
def extend (entries : List Entry) : List Entry → List Entry × Option LogFault
  | [] => (entries, none)
  | e :: rest =>
    if e.index = entries.length + 1 then extend (entries ++ [e]) rest
    else (entries, some (.gap e.index (entries.length + 1)))

/-- Adds entries that continue the log. -/
def append (new : List Entry) : Action Log Unit := do
  let l ← get
  if l.faults.append then
    Action.fail (LogFaults.error "append")
  match extend l.entries new with
  | (entries, none) => set { l with entries := entries }
  | (entries, some gap) =>
    unless l.whole do
      set { l with entries := entries }
    Action.fail (.storage (.log gap))

/-- Removes the entry at an index and everything after it. -/
def truncate (start : Nat) : Action Log Unit := do
  let l ← get
  if l.faults.truncate then
    Action.fail (LogFaults.error "truncate")
  set { l with entries := l.entries.take (start - 1) }

/-- Nothing is left to write, unless flushing is made to fail. -/
def flush (l : Log) : Except Error Unit :=
  if l.faults.flush then .error (LogFaults.error "flush") else .ok ()

instance : LogStore Log where
  entry? l index := .ok (l.get? index)
  lastIndex := lastIndex
  lastId := lastId
  term? := term?
  firstIndexOf? := firstIndexOf?
  lastIndexOf? := lastIndexOf?
  range := range
  append := append
  truncate := truncate
  flush := flush
  size l := l.entries.length

/-- The log with these entries, as far as they continue each other from index 1 on. -/
def ofEntries (entries : List Entry) : Log := { entries := (extend [] entries).1 }

end Log

end Raft
