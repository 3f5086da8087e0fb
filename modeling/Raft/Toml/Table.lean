import Raft.Data.Basic

/-!
# Tables

The tables of a settings file while it is read. A table remembers how it came to be, because that
decides who may add to it: a header opens a table once, a dotted key adds only to tables that
dotted keys made.
-/

namespace Raft.Toml

/-- How a table came to be. -/
inductive Origin where
  /-- By a header of its own, or as the whole file. -/
  | header
  /-- By the header of a table inside it. -/
  | within
  /-- By a dotted key. -/
  | dotted
  deriving DecidableEq, Repr

/-- What stands under a key. -/
inductive Item where
  | value (d : Data)
  | table (origin : Origin) (items : List (String × Item))
  /-- Tables under a repeated header; the last one is open. -/
  | tables (l : List (List (String × Item)))

/-- A table under construction. -/
abbrev Items := List (String × Item)

mutual

/-- The tree of an item. -/
def Item.toData : Item → Data
  | .value d => d
  | .table _ items => .record (itemsToData items)
  | .tables l => .list (tablesToData l)

def itemsToData : List (String × Item) → Data.Fields
  | [] => []
  | (name, item) :: rest => (name, item.toData) :: itemsToData rest

def tablesToData : List (List (String × Item)) → List Data
  | [] => []
  | items :: rest => .record (itemsToData items) :: tablesToData rest

end

namespace Items

def put (name : String) (item : Item) : Items → Items
  | [] => [(name, item)]
  | (n, old) :: rest => if n = name then (n, item) :: rest else (n, old) :: put name item rest

/-- Changes the table at a path of headers, with its origin. Tables on the way that are missing are
made. -/
def update (f : Origin → Items → Option Items) : Origin → List String → Items → Option Items
  | origin, [], items => f origin items
  | _, name :: path, items =>
    match items.lookup name with
    | none => do return items.put name (.table .within (← update f .within path []))
    | some (.value _) => none
    | some (.table origin inner) => do
      return items.put name (.table origin (← update f origin path inner))
    | some (.tables l) =>
      match l.getLast? with
      | none => none
      | some last => do
        return items.put name (.tables (l.dropLast ++ [← update f .header path last]))

/-- Opens a table by its header. It must be new, or made by the header of a table inside it; it then
comes last. -/
def openTable (name : String) (items : Items) : Option Items :=
  match items.lookup name with
  | none => some (items.put name (.table .header []))
  | some (.table .within inner) =>
    some (items.filter (·.1 ≠ name) ++ [(name, .table .header inner)])
  | some _ => none

/-- Opens the next table under a repeated header. -/
def openNext (name : String) (items : Items) : Option Items :=
  match items.lookup name with
  | none => some (items.put name (.tables [[]]))
  | some (.tables l) => some (items.put name (.tables (l ++ [[]])))
  | some _ => none

/-- Adds a value under a key that is not there yet. -/
def add (name : String) (d : Data) (items : Items) : Option Items :=
  match items.lookup name with
  | none => some (items ++ [(name, .value d)])
  | some _ => none

/-- Adds a value under a dotted key. Each table on the way must not have a header of its own, and
the table that takes the value must be made by dotted keys. -/
def addDotted (name : String) (d : Data) : Origin → List String → Items → Option Items
  | origin, [], items => if origin = .dotted then add name d items else none
  | _, first :: path, items =>
    match items.lookup first with
    | none => do return items.put first (.table .dotted (← addDotted name d .dotted path []))
    | some (.value _) => none
    | some (.table .header _) => none
    | some (.table origin inner) => do
      return items.put first (.table origin (← addDotted name d origin path inner))
    | some (.tables l) =>
      match l.getLast? with
      | none => none
      | some last => do
        return items.put first (.tables (l.dropLast ++ [← addDotted name d .header path last]))

/-- Adds a value under a key of one or more parts. A key of one part is refused by a table that
dotted keys made. -/
def addKey (key : List String) (d : Data) (origin : Origin) (items : Items) : Option Items :=
  match key.getLast? with
  | none => none
  | some name =>
    match key.dropLast with
    | [] => if origin = .dotted then none else add name d items
    | path => addDotted name d origin path items

end Items

end Raft.Toml
