import Raft.Word
import Raft.Codec.Digits
import Raft.Codec.Utf8

/-!
# Wire primitives

The parts every stored value is built of: numbers of fixed width with the least significant byte
first, flags and option tags of one byte, variant tags of four bytes, and lists and texts behind a
length of eight bytes. Fields follow each other without names. A decoder reads a value from the
front of a byte string and leaves the rest.
-/

namespace Raft.Codec

/-- Reads a value from the front of a byte string. -/
abbrev Decoder := StateT Bytes (Except DecodeError)

/-- Takes the next `width` bytes. -/
def takeBytes (width : Nat) : Decoder Bytes := fun bytes =>
  if width ≤ bytes.length then .ok (bytes.take width, bytes.drop width)
  else .error .endOfInput

def number (width : Nat) : Decoder Nat := do
  let bytes ← takeBytes width
  return ofLittleEndian bytes

def word : Decoder Nat := number 8

def nodeId : Decoder NodeId := number 4

def flag : Decoder Bool := do
  match ← number 1 with
  | 0 => return false
  | 1 => return true
  | b => throw (.badFlag b)

def optional {α : Type} (item : Decoder α) : Decoder (Option α) := do
  match ← number 1 with
  | 0 => return none
  | 1 => return some (← item)
  | b => throw (.badOptionTag b)

/-- The tag of one of `count` variants. -/
def variantTag (count : Nat) : Decoder Nat := do
  let tag ← number 4
  if tag < count then return tag else throw (.badVariant tag count)

/-- A byte string behind its length. -/
def byteString : Decoder Bytes := do
  let length ← word
  takeBytes length

def text : Decoder String := do
  let length ← word
  let rest ← get
  if length ≤ rest.length then
    let bytes ← takeBytes length
    match Utf8.decode bytes with
    | .ok s => return s
    | .error e => throw (.badUtf8 e)
  else throw .textTooLong

/-- `count` values, one after the other. A count beyond the bytes that are left fails where the
bytes end, because every value takes at least one byte. -/
def repeated {α : Type} (item : Decoder α) : Nat → Decoder (List α)
  | 0 => return []
  | count + 1 => do
    let first ← item
    let rest ← repeated item count
    return first :: rest

/-- A list behind its length. -/
def items {α : Type} (item : Decoder α) : Decoder (List α) := do
  let length ← word
  let rest ← get
  repeated item (min length (rest.length + 1))

/-- The value at the front of a byte string; what follows it is ignored. -/
def read {α : Type} (d : Decoder α) (bytes : Bytes) : Except DecodeError α :=
  (d.run bytes).map (·.1)

/-! ## Writing -/

def ofWord (n : Nat) : Bytes := littleEndian 8 n

def ofNodeId (n : NodeId) : Bytes := littleEndian 4 n

def ofFlag (b : Bool) : Bytes := [if b then 1 else 0]

def ofOptional {α : Type} (item : α → Bytes) : Option α → Bytes
  | none => [0]
  | some a => 1 :: item a

def ofVariantTag (tag : Nat) : Bytes := littleEndian 4 tag

def ofByteString (b : Bytes) : Bytes := ofWord b.length ++ b

def ofText (s : String) : Bytes := ofByteString (Utf8.encode s)

def ofItems {α : Type} (item : α → Bytes) (l : List α) : Bytes :=
  ofWord l.length ++ l.flatMap item

end Raft.Codec
