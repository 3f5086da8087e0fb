import Raft.Entry
import Raft.Word

/-!
# Data trees

Values without a type of their own, as files of settings and inspection tools exchange them:
scalars, lists, and records whose fields have names. A typed value is read from a tree field by
field. A record may also be given as the list of its fields in order.
-/

namespace Raft

/-- A value of a data format. -/
inductive Data where
  | null
  | flag (b : Bool)
  | int (n : Int)
  | real (x : Float)
  | text (s : String)
  | list (items : List Data)
  | record (fields : List (String × Data))
  deriving Inhabited

namespace Data

abbrev Fields := List (String × Data)

def nat (n : Nat) : Data := .int n

def bytes (b : Bytes) : Data := .list (b.map fun x => .nat x.toNat)

def optional {α : Type} (item : α → Data) : Option α → Data
  | none => .null
  | some a => item a

/-- Sets a field; a new one comes last. -/
def put (name : String) (value : Data) : Fields → Fields
  | [] => [(name, value)]
  | (n, old) :: rest => if n = name then (n, value) :: rest else (n, old) :: put name value rest

/-! ## Reading -/

def natBelow? (bound : Nat) : Data → Option Nat
  | .int n => if 0 ≤ n ∧ n < bound then some n.toNat else none
  | _ => none

def word? : Data → Option Nat := natBelow? wordSize

def halfWord? : Data → Option Nat := natBelow? halfWordSize

def flag? : Data → Option Bool
  | .flag b => some b
  | _ => none

def text? : Data → Option String
  | .text s => some s
  | _ => none

def list? {α : Type} (item : Data → Option α) : Data → Option (List α)
  | .list items => items.mapM item
  | _ => none

def bytes? : Data → Option Bytes := list? fun d => (natBelow? 256 d).map UInt8.ofNat

def optional? {α : Type} (item : Data → Option α) : Data → Option (Option α)
  | .null => some none
  | d => (item d).map some

/-- The fields of a record of which the names are known. A list stands for the record if it has an
item for every name and no more. -/
def fields? (names : List String) : Data → Option Fields
  | .record fields => some fields
  | .list items => if items.length = names.length then some (names.zip items) else none
  | _ => none

namespace Fields

def get? {α : Type} (f : Fields) (name : String) (item : Data → Option α) : Option α :=
  (f.lookup name).bind item

/-- A field that may be missing. -/
def find? {α : Type} (f : Fields) (name : String) (item : Data → Option α) :
    Option (Option α) :=
  match f.lookup name with
  | none => some none
  | some d => optional? item d

end Fields

/-- A variant that carries nothing, by its name. -/
def ofName (name : String) : Data := .text name

/-- A variant that carries a value, as a record with the one field of its name. -/
def ofVariant (name : String) (value : Data) : Data := .record [(name, value)]

/-- The name of a variant and what it carries. -/
def variant? : Data → Option (String × Option Data)
  | .text name => some (name, none)
  | .record [(name, value)] => some (name, some value)
  | _ => none

end Data

end Raft
