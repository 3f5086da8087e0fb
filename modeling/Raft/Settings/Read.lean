import Raft.Settings.Basic
import Raft.Data.Layer
import Raft.Text.Decimal
import Raft.Error

/-!
# Reading settings

Settings are read from a data tree. A field that is missing has its default; only the id of a
member must be there. Scalars are taken as they are, or, where layers of text formats are read,
converted to what the field needs.
-/

namespace Raft.Settings

namespace Read

/-- How scalars are read. -/
inductive Conversion where
  /-- A number is a number within its range, and a text a text. -/
  | strict
  /-- Numbers, flags and texts stand for each other. -/
  | lenient
  deriving DecidableEq, Repr

/-- Reads a value from a data tree. -/
abbrev Reader (α : Type) := Conversion → Data → Except SettingsError α

/-- The number that a text writes: digits, maybe behind a plus sign. -/
def numberOfText? (s : String) : Option Nat :=
  let ds :=
    match s.toList with
    | '+' :: rest => rest
    | cs => cs
  if ds.isEmpty || !ds.all Char.isDigit then none
  else
    let n := ds.foldl (fun n c => n * 10 + (c.toNat - '0'.toNat)) 0
    if n < wordSize then some n else none

/-- The number of a text: some words stand for one and zero. -/
def wordOfText? (s : String) : Option Nat :=
  let lower := s.map Char.toLower
  if lower ∈ ["true", "on", "yes"] then some 1
  else if lower ∈ ["false", "off", "no"] then some 0
  else numberOfText? s

/-- The number that a scalar stands for: flags count as one and zero, fractions are rounded with
halves away from zero, and what is out of range becomes the nearest 64-bit value. -/
def wordOf? : Data → Option Nat
  | .int n => if 0 ≤ n then some n.toNat else none
  | .flag b => some b.toNat
  | .real x => some x.round.toUInt64.toNat
  | .text s => wordOfText? s
  | _ => none

/-- A number below a bound, as it is or converted. -/
def numberBelow (bound : Nat) : Reader Nat := fun c d =>
  let n? :=
    match c with
    | .strict => Data.natBelow? bound d
    | .lenient => (wordOf? d).filter (· < bound)
  match n? with
  | some n => .ok n
  | none => .error .mistyped

def word : Reader Nat := numberBelow wordSize

def halfWord : Reader Nat := numberBelow halfWordSize

def text : Reader String
  | _, .text s => .ok s
  | .lenient, .flag b => .ok (if b then "true" else "false")
  | .lenient, .int n => .ok (toString n)
  | .lenient, .real x => .ok (Text.decimal x)
  | _, _ => .error .mistyped

/-- The fields of a record of which the names are known. A list gives the fields in order. -/
def fields (names : List String) : Reader Data.Fields
  | _, .record fields => .ok fields
  | c, .list items =>
    if c = .strict ∧ names.length < items.length then .error (.invalid "too many fields")
    else .ok (names.zip items)
  | _, _ => .error (.invalid "expected a record")

/-- A field that may be missing. -/
def fieldOr {α : Type} (name : String) (read : Reader α) (missing : α) (c : Conversion)
    (f : Data.Fields) : Except SettingsError α :=
  match f.lookup name with
  | some d => read c d
  | none => .ok missing

/-- Items of a list. -/
def listOf {α : Type} (item : Reader α) : Reader (List α)
  | c, .list items => items.mapM (item c)
  | _, _ => .error (.invalid "expected a list")

def member : Reader Member := fun c d => do
  let f ← fields ["id", "name"] c d
  let name ← fieldOr "name" text "" c f
  match f.lookup "id" with
  | some id => return ⟨← halfWord c id, name⟩
  | none => .error (.invalid "missing id")

def cluster : Reader Cluster := fun c d => do
  let f ← fields ["node_id", "initial_cluster", "db_root_dir"] c d
  let default : Cluster := {}
  return {
    node := ← fieldOr "node_id" halfWord default.node c f
    members := ← fieldOr "initial_cluster" (listOf member) default.members c f
    root := ← fieldOr "db_root_dir" text default.root c f }

def replication : Reader Replication := fun c d => do
  let f ← fields
    ["rpc_append_entries_clock_in_ms", "append_entries_max_entries_per_replication"] c d
  let default : Replication := {}
  return {
    heartbeat := ← fieldOr "rpc_append_entries_clock_in_ms" word default.heartbeat c f
    limit := ← fieldOr "append_entries_max_entries_per_replication" word default.limit c f }

def election : Reader Election := fun c d => do
  let f ← fields ["election_timeout_min", "election_timeout_max"] c d
  let default : Election := {}
  return {
    lo := ← fieldOr "election_timeout_min" word default.lo c f
    hi := ← fieldOr "election_timeout_max" word default.hi c f }

def commit : Reader Commit := fun c d => do
  let f ← fields ["batch_size", "process_interval_ms"] c d
  let default : Commit := {}
  return {
    batch := ← fieldOr "batch_size" word default.batch c f
    interval := ← fieldOr "process_interval_ms" word default.interval c f }

def transfer : Reader Transfer := fun c d => do
  let f ← fields ["timeout_ms"] c d
  let default : Transfer := {}
  return { timeout := ← fieldOr "timeout_ms" word default.timeout c f }

def consensus : Reader Consensus := fun c d => do
  let f ← fields ["replication", "election", "commit_handler", "leadership_transfer"] c d
  return {
    replication := ← fieldOr "replication" replication {} c f
    election := ← fieldOr "election" election {} c f
    commit := ← fieldOr "commit_handler" commit {} c f
    transfer := ← fieldOr "leadership_transfer" transfer {} c f }

def policy : Reader BackoffPolicy := fun c d => do
  let f ← fields ["max_retries", "timeout_ms", "base_delay_ms", "max_delay_ms"] c d
  let default : BackoffPolicy := {}
  return {
    maxRetries := ← fieldOr "max_retries" word default.maxRetries c f
    timeout := ← fieldOr "timeout_ms" word default.timeout c f
    baseDelay := ← fieldOr "base_delay_ms" word default.baseDelay c f
    maxDelay := ← fieldOr "max_delay_ms" word default.maxDelay c f }

def retry : Reader Retry := fun c d => do
  let f ← fields ["append_entries", "election", "client"] c d
  let default : Retry := {}
  return {
    append := ← fieldOr "append_entries" policy default.append c f
    election := ← fieldOr "election" policy default.election c f
    client := ← fieldOr "client" policy default.client c f }

end Read

def read : Read.Reader Settings := fun c d => do
  let f ← Read.fields ["cluster", "raft", "retry"] c d
  return {
    cluster := ← Read.fieldOr "cluster" Read.cluster {} c f
    consensus := ← Read.fieldOr "raft" Read.consensus {} c f
    retry := ← Read.fieldOr "retry" Read.retry {} c f }

end Raft.Settings
