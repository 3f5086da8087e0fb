import Raft.Toml.Scalar
import Raft.Toml.Table

/-!
# Settings files

A file is a sequence of lines, each a header, a key with its value, or blank. Reading it gives the
tree of its tables, or nothing if the file is malformed.
-/

namespace Raft.Toml

/-- One part of a key. -/
def keyPart : Parser String :=
  orElse basicText (orElse literalText do
    let cs ← takeAll fun c => c.isAlphanum || c = '_' || c = '-'
    if cs.isEmpty then failure else return String.ofList cs)

/-- How deep values, and the parts of a key, may be nested. -/
def depthLimit : Nat := 79

/-- A key: its parts with points between them, not more than the limit. -/
def key : Parser (List String) := do
  blanks
  let first ← keyPart
  blanks
  let rest ← many do
    exactly "."
    blanks
    let part ← keyPart
    blanks
    return part
  if depthLimit ≤ rest.length then failure
  return first :: rest

/-- Values with commas between them, at most `fuel` of them. -/
def separated {α : Type} (item between : Parser α) : Nat → Parser (List α)
  | 0 => return []
  | fuel + 1 => do
    match ← maybe item with
    | none => return []
    | some first =>
      match ← maybe between with
      | none => return [first]
      | some _ => return first :: (← separated item between fuel)

/-- A list in brackets. A comma may follow its last item. -/
def array (item : Parser Data) : Parser Data := do
  exactly "["
  let one : Parser Data := do
    gap
    let d ← item
    gap
    return d
  let items ← separated one (do exactly ","; return .null) (← get).length
  gap
  exactly "]"
  return .list items

/-- The keys and values of a table in braces: commas between them and none after the last. -/
def pairs (item : Parser Data) : Nat → Parser (List (List String × Data))
  | 0 => failure
  | fuel + 1 => do
    let k ← key
    exactly "="
    blanks
    let d ← item
    blanks
    match ← maybe (exactly ",") with
    | none => return [(k, d)]
    | some _ => return (k, d) :: (← pairs item fuel)

/-- A table in braces, on one line. -/
def inlineTable (item : Parser Data) : Parser Data := do
  exactly "\x7b"
  blanks
  if (← peek 1) = ['\x7d'] then
    exactly "\x7d"
    return .record []
  else
    let fields ← pairs item ((← get).length + 1)
    exactly "\x7d"
    let items ← fields.foldlM (fun (items : Items) f => items.addKey f.1 f.2 .header) []
    return .record (itemsToData items)

/-- A value, with lists and tables nested no deeper than a limit. -/
def value : Nat → Parser Data
  | 0 => scalar
  | depth + 1 => do
    match ← peek 1 with
    | ['['] => array (value depth)
    | ['\x7b'] => inlineTable (value depth)
    | _ => scalar

/-- One line of a file. -/
inductive Line where
  | blank
  | header (path : List String)
  | nextHeader (path : List String)
  | pair (key : List String) (d : Data)

def line : Parser Line := do
  blanks
  let l ← do
    match ← peek 2 with
    | ['[', '['] =>
      exactly "[["
      let path ← key
      exactly "]]"
      pure (.nextHeader path)
    | '[' :: _ =>
      exactly "["
      let path ← key
      exactly "]"
      pure (.header path)
    | '#' :: _ => pure .blank
    | '\n' :: _ => pure .blank
    | ['\r', '\n'] => pure .blank
    | [] => pure .blank
    | _ =>
      let k ← key
      exactly "="
      blanks
      let d ← value depthLimit
      pure (.pair k d)
  lineEnd
  return l

/-- The lines of a file. -/
def lines : Nat → Parser (List Line)
  | 0 => failure
  | fuel + 1 => do
    if ← atEnd then return []
    else
      let l ← line
      return l :: (← lines fuel)

/-- Splits a path into the tables on the way and the last name. -/
def splitPath (path : List String) : List String × String := (path.dropLast, path.getLastD "")

/-- Adds a line to the tables. The open table is the one of the last header. -/
def addLine (state : List String × Items) : Line → Option (List String × Items)
  | .blank => some state
  | .header path => do
    let (way, name) := splitPath path
    return (path, ← Items.update (fun _ => Items.openTable name) .header way state.2)
  | .nextHeader path => do
    let (way, name) := splitPath path
    return (path, ← Items.update (fun _ => Items.openNext name) .header way state.2)
  | .pair k d => do
    return (state.1, ← Items.update (Items.addKey k d) .header state.1 state.2)

mutual

/-- A tree with the texts of dates in place of the records that stand for them. -/
def resolveDates? : Data → Option Data
  | .list items => do return .list (← resolveItems? items)
  | .record [] => some (.record [])
  | .record ((name, value) :: rest) =>
    if name = dateField then do return .text (← dateOfText? (← Data.text? value))
    else do return .record ((name, ← resolveDates? value) :: (← resolveFields? rest))
  | d => some d

/-- The items of a list with the texts of dates. -/
def resolveItems? : List Data → Option (List Data)
  | [] => some []
  | d :: rest => do return (← resolveDates? d) :: (← resolveItems? rest)

/-- Fields with the texts of dates. -/
def resolveFields? : List (String × Data) → Option (List (String × Data))
  | [] => some []
  | (name, d) :: rest => do return (name, ← resolveDates? d) :: (← resolveFields? rest)

end

/-- The fields of a file, if it is well formed and does not stand for a date. -/
def parse? (s : String) : Option Data.Fields := do
  let cs :=
    match s.toList with
    | '\uFEFF' :: rest => rest
    | cs => cs
  let (ls, _) ← (lines (cs.length + 1)).run cs
  let (_, items) ← ls.foldlM addLine (([], []) : List String × Items)
  match ← resolveDates? (.record (itemsToData items)) with
  | .record fields => return fields
  | _ => none

end Raft.Toml
