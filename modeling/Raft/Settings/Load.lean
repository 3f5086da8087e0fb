import Raft.Settings.Tree
import Raft.Settings.Read
import Raft.Toml.Document

/-!
# Loading settings

Settings come in layers: values that are there already, a settings file, and the environment, each
laid over the ones before it. A variable of the environment names a field by the path to it.
-/

namespace Raft.Settings

/-- A settings file: one that is not there, or its text. -/
inductive File where
  | missing
  | content (text : String)

def File.fields : File → Except SettingsError Data.Fields
  | .missing => .error .unreadable
  | .content text =>
    match Toml.parse? text with
    | some fields => .ok fields
    | none => .error .malformed

/-! ## The environment -/

/-- What the names of variables begin with. -/
def variablePrefix : String := "raft__"

/-- The whole number with a sign that a text writes, if it fits into 64 bits. -/
def signedOfText? (s : String) : Option Int :=
  let number? (cs : List Char) : Option Nat :=
    if !cs.isEmpty && cs.all Char.isDigit then
      some (cs.foldl (fun n c => n * 10 + (c.toNat - '0'.toNat)) 0)
    else none
  let n? : Option Int :=
    match s.toList with
    | '-' :: rest => (number? rest).map fun n => -(n : Int)
    | '+' :: rest => (number? rest).map fun n => (n : Int)
    | cs => (number? cs).map fun n => (n : Int)
  n?.filter Toml.fits

/-- The number with a fraction or an exponent that a text writes. -/
def realOfText? (s : String) : Option Float :=
  let (negative, cs) :=
    match s.toList with
    | '-' :: rest => (true, rest)
    | '+' :: rest => (false, rest)
    | cs => (false, cs)
  let signed (x : Float) : Float := if negative then -x else x
  let lower := String.ofList (cs.map Char.toLower)
  if lower = "inf" ∨ lower = "infinity" then some (signed (1.0 / 0.0))
  else if lower = "nan" then some (signed (0.0 / 0.0))
  else
    let whole := cs.takeWhile Char.isDigit
    let rest := cs.dropWhile Char.isDigit
    let (places, rest) :=
      match rest with
      | '.' :: rest => (rest.takeWhile Char.isDigit, rest.dropWhile Char.isDigit)
      | rest => ([], rest)
    if whole.isEmpty && places.isEmpty then none
    else
      let value (e : Int) : Float :=
        signed (Toml.scaled (Toml.numeral 10 (whole ++ places)) (e - places.length))
      match rest with
      | [] => some (value 0)
      | c :: rest =>
        if c = 'e' ∨ c = 'E' then
          let (down, ds) :=
            match rest with
            | '-' :: ds => (true, ds)
            | '+' :: ds => (false, ds)
            | ds => (false, ds)
          if ds.isEmpty || !ds.all Char.isDigit then none
          else
            let e : Int := Toml.numeral 10 ds
            some (value (if down then -e else e))
        else none

/-- The value of a variable: a flag, a number, or else its text. -/
def valueOfText (s : String) : Data :=
  let lower := s.map Char.toLower
  if lower = "true" then .flag true
  else if lower = "false" then .flag false
  else
    match signedOfText? s with
    | some n => .int n
    | none =>
      match realOfText? s with
      | some x => .real x
      | none => .text s

/-- The field that a variable sets: the rest of its name behind the prefix, in lower case, with a
point for each double underscore. Other variables and empty ones set none. -/
def assignment? (name value : String) : Option (String × Data) :=
  let lower := Data.fieldName name
  if value.isEmpty || !lower.startsWith variablePrefix then none
  else
    let path := String.ofList (lower.toList.drop variablePrefix.length)
    some (path.replace "__" ".", valueOfText value)

/-- The layer of an environment. -/
def environment (assignments : List (String × String)) : Data.Fields :=
  assignments.filterMap fun v => assignment? v.1 v.2

/-! ## Layers -/

/-- The greatest number that a layer can hold. -/
def layerLimit : Nat := 0x8000000000000000

mutual

/-- A tree as the lowest layer. It cannot hold numbers beyond its limit, and a list without items
leaves no trace in it. -/
def lowestLayer : Data → Except SettingsError Data
  | .int n =>
    if n < layerLimit then .ok (.int n) else .error (.invalid "value is greater than the max")
  | .list items => do return .list (← lowestItems items)
  | .record fields => do return .record (← lowestFields fields)
  | d => .ok d

def lowestItems : List Data → Except SettingsError (List Data)
  | [] => .ok []
  | d :: rest => do return (← lowestLayer d) :: (← lowestItems rest)

def lowestFields : List (String × Data) → Except SettingsError (List (String × Data))
  | [] => .ok []
  | (_, .list []) :: rest => lowestFields rest
  | (name, d) :: rest => do return (name, ← lowestLayer d) :: (← lowestFields rest)

end

/-- Why settings cannot be loaded. -/
inductive LoadFault where
  | settings (e : SettingsError)
  /-- A path leads to a position that a list does not have. -/
  | position (fault : Data.PositionFault)
  deriving DecidableEq, Repr

/-- Settings with a file, if there is one, and the environment laid over them. -/
def layered (s : Settings) (file : Option File) (assignments : List (String × String)) :
    Except LoadFault Settings := do
  let base ← (lowestLayer s.toData).mapError .settings
  let fields ←
    match file with
    | some file => file.fields.mapError .settings
    | none => pure []
  let tree ← (base.overlay fields).mapError .position
  let tree ← (tree.overlay (environment assignments)).mapError .position
  (read .lenient tree).mapError .settings

/-- The settings that a file and the environment give to a node. -/
def load (file : Option File) (assignments : List (String × String)) :
    Except LoadFault Settings :=
  layered {} file assignments

end Raft.Settings
