import Raft.Data.Basic

/-!
# Layers of data

A tree of settings is built in layers: a later layer adds fields and replaces scalars and lists,
and merges with a record that is there already. The fields of a layer are named by paths, so that
one field can reach deep into the tree. Names are the same if only the case of their letters
differs.
-/

namespace Raft.Data

/-- One step into a tree. -/
inductive Step where
  | field (name : String)
  /-- An item of a list; a negative position counts from the end. -/
  | item (position : Int)
  deriving DecidableEq, Repr

/-- The fields of a record; any other value has none. -/
def fieldsOf : Data → Fields
  | .record fields => fields
  | _ => []

def itemsOf : Data → List Data
  | .list items => items
  | _ => []

/-- The lower-case form of a character. Of the letters beyond ASCII only the sign of the unit kelvin
has one that the name of a field can hold. -/
def lowerChar (c : Char) : Char := if c = '\u212A' then 'k' else c.toLower

/-- The name under which a field is kept: the case of its letters does not matter. -/
def fieldName (name : String) : String := name.map lowerChar

mutual

/-- A value laid over the one that is there, if any. A record merges its fields into it, and one
without fields leaves it; any other value replaces it. -/
def mergeInto (old : Option Data) : Data → Data
  | .record fields => mergeFields (old.getD (.record [])) fields
  | value => value

/-- The fields of a record laid over a value. -/
def mergeFields (old : Data) : List (String × Data) → Data
  | [] => old
  | (name, value) :: rest =>
    let fields := fieldsOf old
    let value := mergeInto (fields.lookup (fieldName name)) value
    mergeFields (.record (put (fieldName name) value fields)) rest

end

/-- Why a position is no place of a list. -/
inductive PositionFault where
  /-- It counts back beyond the first item. -/
  | beforeFirst
  /-- No list can be filled up to it. -/
  | tooFar
  deriving DecidableEq, Repr

def PositionFault.message : PositionFault → String
  | .beforeFirst => "attempt to subtract with overflow"
  | .tooFar => "capacity overflow"

/-- The length up to which a list is filled up. -/
def lengthLimit : Nat := 0x1000000

def place (length : Nat) (position : Int) : Except PositionFault Nat :=
  if 0 ≤ position then
    if position < lengthLimit then .ok position.toNat else .error .tooFar
  else if -position ≤ length then .ok (length - (-position).toNat)
  else .error .beforeFirst

/-- Sets the value at a path. What stands in the way of the path gives way to it, and lists are
filled up with nulls. -/
def setAt (value : Data) : List Step → Data → Except PositionFault Data
  | [], _ => return value
  | [.field name], d => return mergeFields d [(name, value)]
  | .field name :: rest, d => do
    let fields := fieldsOf d
    let inner ← setAt value rest ((fields.lookup (fieldName name)).getD .null)
    return .record (put (fieldName name) inner fields)
  | .item position :: rest, d => do
    let items := itemsOf d
    let i ← place items.length position
    let items := items ++ List.replicate (i + 1 - items.length) .null
    return .list (items.set i (← setAt value rest (items.getD i .null)))

/-! ## Paths -/

/-- Whether a character may stand in the name of a path. -/
def isPathChar (c : Char) : Bool := c.isAlphanum || c = ' ' || c = '_' || c = '-'

/-- Whether blanks may stand around a position. -/
def isPathBlank (c : Char) : Bool := c = ' ' || c = '\t'

/-- A position: digits, maybe behind a minus sign, with blanks around them. It fits into 64 bits. -/
def position? (cs : List Char) : Option Int :=
  let inner := ((cs.dropWhile isPathBlank).reverse.dropWhile isPathBlank).reverse
  let n? : Option Int :=
    match inner with
    | '-' :: ds => (digits? ds).map fun n => -(n : Int)
    | ds => (digits? ds).map fun n => (n : Int)
  n?.filter fun n => -0x8000000000000000 ≤ n && n < 0x8000000000000000
where
  digits? (ds : List Char) : Option Nat :=
    if !ds.isEmpty && ds.all Char.isDigit then
      some (ds.foldl (fun n c => n * 10 + (c.toNat - '0'.toNat)) 0)
    else none

/-- The steps after the first name of a path: each a point and a name, or a position in
brackets. -/
def steps? : Nat → List Char → Option (List Step)
  | _, [] => some []
  | 0, _ => none
  | fuel + 1, '.' :: rest =>
    let name := rest.takeWhile isPathChar
    if name.isEmpty then none
    else (steps? fuel (rest.dropWhile isPathChar)).map (.field (String.ofList name) :: ·)
  | fuel + 1, '[' :: rest =>
    match position? (rest.takeWhile (· ≠ ']')), rest.dropWhile (· ≠ ']') with
    | some i, _ :: after => (steps? fuel after).map (.item i :: ·)
    | _, _ => none
  | _, _ => none

/-- The path that a text describes. A text that describes none is the name of a single field. -/
def pathOf (s : String) : List Step :=
  match steps? (s.length + 1) ('.' :: s.toList) with
  | some path => path
  | none => [.field s]

/-- A tree under a layer of fields, each at the path that it names. -/
def overlay (base : Data) (layer : Fields) : Except PositionFault Data :=
  layer.foldlM (fun d f => setAt f.2 (pathOf f.1) d) base

end Raft.Data
