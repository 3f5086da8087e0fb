import Raft.Data.Layer

/-!
# Fields of a script

A script describes what is done to a part of the engine as data trees, and its report is one. A
field that a script leaves out counts as zero, as empty, or as not set, and bytes are written as
hexadecimal digits.
-/

namespace Raft.Script

def field (d : Data) (name : String) : Data := ((Data.fieldsOf d).lookup name).getD .null

def has (d : Data) (name : String) : Bool :=
  match field d name with
  | .null => false
  | _ => true

def nat? (d : Data) (name : String) : Option Nat := Data.word? (field d name)

/-- A number, or what counts if it is missing. -/
def natOr (missing : Nat) (d : Data) (name : String) : Nat := (nat? d name).getD missing

def nat : Data → String → Nat := natOr 0

def text? (d : Data) (name : String) : Option String := Data.text? (field d name)

def text (d : Data) (name : String) : String := (text? d name).getD ""

def flag (d : Data) (name : String) : Bool := (Data.flag? (field d name)).getD false

def items (d : Data) (name : String) : List Data := Data.itemsOf (field d name)

def nats (d : Data) (name : String) : List Nat := (items d name).filterMap Data.word?

def digitValue (c : Char) : Nat :=
  if c.isDigit then c.toNat - '0'.toNat
  else if 'a' ≤ c ∧ c ≤ 'f' then c.toNat - 'a'.toNat + 10
  else c.toNat - 'A'.toNat + 10

/-- The bytes that hexadecimal digits write. -/
def unhex : List Char → Bytes
  | a :: b :: rest => UInt8.ofNat (digitValue a * 16 + digitValue b) :: unhex rest
  | _ => []

def bytes (d : Data) (name : String) : Bytes := unhex (text d name).toList

def hex (b : Bytes) : Data :=
  .text (String.ofList (b.flatMap fun x =>
    [Nat.digitChar (x.toNat / 16), Nat.digitChar (x.toNat % 16)]))

def optNat : Option Nat → Data := Data.optional .nat

def natList (l : List Nat) : Data := .list (l.map .nat)

end Raft.Script
