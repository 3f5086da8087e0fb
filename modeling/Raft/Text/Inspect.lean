import Raft.Text.Visible

/-!
# Inspection text

How values are written for a person who inspects a running node: a record is its name and its
fields in braces, a variant its name and its arguments in parentheses, a list its items in
brackets, a text its characters in double quotes. Everything stands on one line.
-/

namespace Raft.Text

/-- The hexadecimal digits of a number, without leading zeros. -/
def hexDigits (n : Nat) : String := String.ofList (Nat.toDigits 16 n)

/-- A character inside double quotes. Quote, backslash and some controls have escapes of their own;
any other character that does not show is written by its number. -/
def escapeChar (c : Char) : String :=
  if c = '"' then "\\\""
  else if c = '\\' then "\\\\"
  else if c = '\n' then "\\n"
  else if c = '\r' then "\\r"
  else if c = '\t' then "\\t"
  else if c = '\x00' then "\\0"
  else if shows c then c.toString
  else "\\u\x7b" ++ hexDigits c.toNat ++ "\x7d"

def quoted (s : String) : String := "\"" ++ String.join (s.toList.map escapeChar) ++ "\""

/-- A record: its name, then its fields with their texts. -/
def record (name : String) (fields : List (String × String)) : String :=
  match fields with
  | [] => name
  | _ => name ++ " \x7b " ++ ", ".intercalate (fields.map fun f => f.1 ++ ": " ++ f.2) ++ " \x7d"

def variant (name : String) (args : List String) : String :=
  name ++ "(" ++ ", ".intercalate args ++ ")"

def list (items : List String) : String := "[" ++ ", ".intercalate items ++ "]"

/-- The members of a set, or the `key: value` items of a map. -/
def braced (items : List String) : String := "\x7b" ++ ", ".intercalate items ++ "\x7d"

def option (value : Option String) : String :=
  match value with
  | none => "None"
  | some text => variant "Some" [text]

def optionNat (value : Option Nat) : String := option (value.map toString)

end Raft.Text
