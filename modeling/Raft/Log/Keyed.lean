import Raft.Log.Store
import Raft.Log.Key
import Raft.Log.Tree
import Raft.Codec.Values

/-!
# The durable log

`KeyedLog` stores each entry in its wire form under the key of its index. The index of the last
entry is read from the greatest key when the log is opened and kept beside the tree from then on.
A list of entries is added as one batch: a list that leaves a gap changes nothing.
-/

namespace Raft

/-- A log stored in an ordered tree. -/
structure KeyedLog where
  tree : Tree := {}
  last : Nat := 0
  faults : LogFaults := {}
  deriving Repr, Inhabited

namespace KeyedLog

def «open» (tree : Tree) : Except Error KeyedLog :=
  match tree.last? with
  | none => .ok { tree := tree }
  | some (key, _) => do
    let last ← Key.decode key
    return { tree := tree, last := last }

def decode (value : Bytes) : Except Error Entry :=
  (Codec.read Codec.entry value).mapError fun e => .storage (.decode e)

/-- The entries stored as values that can be read; other values are passed over. -/
def readable (values : List Bytes) : List Entry :=
  values.filterMap fun value => (decode value).toOption

def entry? (l : KeyedLog) (index : Nat) : Except Error (Option Entry) :=
  match l.tree.get? (Key.encode index) with
  | none => .ok none
  | some value => (decode value).map some

/-- The term of the entry at an index; an entry that cannot be read has none. -/
def term? (l : KeyedLog) (index : Nat) : Option Nat :=
  if index = 0 then none
  else
    match l.entry? index with
    | .ok e => e.map Entry.term
    | .error _ => none

def lastId (l : KeyedLog) : LogId := ⟨l.last, (l.term? l.last).getD 0⟩

/-- The first index of a term, among the entries that can be read. -/
def firstIndexOf? (l : KeyedLog) (term : Nat) : Option Nat :=
  (((readable l.tree.values).find? fun e => term ≤ e.term).filter fun e => e.term = term).map
    Entry.index

/-- The last index of a term, among the entries that can be read. -/
def lastIndexOf? (l : KeyedLog) (term : Nat) : Option Nat :=
  (((readable l.tree.values).reverse.find? fun e => e.term ≤ term).filter
    fun e => e.term = term).map Entry.index

/-- The entries between two indexes. One that cannot be read fails the whole query. -/
def range (l : KeyedLog) (lo hi : Nat) : Except Error (List Entry) :=
  if l.faults.read then .error (LogFaults.error "read")
  else (l.tree.range (Key.encode lo) (Key.encode hi)).mapM decode

/-- The items of a batch of entries that starts at index `next`, and the index after it. -/
def batch (next : Nat) :
    List Entry → Except (Failure Error) (List (Bytes × Bytes) × Nat)
  | [] => .ok ([], next)
  | e :: rest =>
    if e.index = next then do
      let after ← sum next 1
      let (items, stop) ← batch after rest
      return ((Key.encode e.index, Codec.ofEntry e) :: items, stop)
    else .error (.error (.storage (.log (.gap e.index next))))

/-- Adds entries that continue the log. -/
def append (new : List Entry) : Action KeyedLog Unit := do
  let l ← get
  if l.faults.append then
    Action.fail (LogFaults.error "append")
  match new with
  | [] => return
  | _ =>
    let next ← Action.ofExcept (sum l.last 1)
    let (items, stop) ← Action.ofExcept (batch next new)
    set { l with tree := l.tree.insertAll items, last := stop - 1 }

/-- Removes the entry at an index and everything after it. -/
def truncate (start : Nat) : Action KeyedLog Unit := do
  let l ← get
  if l.faults.truncate then
    Action.fail (LogFaults.error "truncate")
  set { l with tree := l.tree.below (Key.encode start), last := min l.last (start - 1) }

/-- Everything is written already, unless flushing is made to fail. -/
def flush (l : KeyedLog) : Except Error Unit :=
  if l.faults.flush then .error (LogFaults.error "flush") else .ok ()

instance : LogStore KeyedLog where
  entry? := entry?
  lastIndex l := l.last
  lastId := lastId
  term? := term?
  firstIndexOf? := firstIndexOf?
  lastIndexOf? := lastIndexOf?
  range := range
  append := append
  truncate := truncate
  flush := flush
  size l := l.tree.size

def inspect (l : KeyedLog) : String :=
  Text.record "SledRaftLog" [("last_index", toString l.last)]

end KeyedLog

end Raft
