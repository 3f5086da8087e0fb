/-!
# Parsing

A parser takes what it understands from the front of a text and leaves the rest. Loops are bounded
by the length of the text that is left, because each round takes at least one character.
-/

namespace Raft.Toml

/-- Takes a value from the front of a text, or fails. -/
abbrev Parser := StateT (List Char) Option

/-- The next characters, without taking them. -/
def peek (count : Nat) : Parser (List Char) := do return (← get).take count

/-- Takes a character that satisfies a test. -/
def takeIf (p : Char → Bool) : Parser Char := fun cs =>
  match cs with
  | c :: rest => if p c then some (c, rest) else none
  | [] => none

/-- Takes a given text. -/
def exactly (s : String) : Parser Unit := fun cs =>
  if s.toList.isPrefixOf cs then some ((), cs.drop s.length) else none

/-- Takes all characters up to the first that fails a test. -/
def takeAll (p : Char → Bool) : Parser (List Char) := fun cs =>
  some (cs.takeWhile p, cs.dropWhile p)

/-- Tries one parser, and another from the same place if the first fails. -/
def orElse {α : Type} (x y : Parser α) : Parser α := fun cs =>
  match x cs with
  | some r => some r
  | none => y cs

/-- A value, or nothing if the parser fails. -/
def maybe {α : Type} (x : Parser α) : Parser (Option α) := fun cs =>
  match x cs with
  | some (a, rest) => some (some a, rest)
  | none => some (none, cs)

/-- As many values as there are, at most `fuel`. -/
def manyUpTo {α : Type} (x : Parser α) : Nat → Parser (List α)
  | 0 => return []
  | fuel + 1 => do
    match ← maybe x with
    | none => return []
    | some a => return a :: (← manyUpTo x fuel)

/-- As many values as there are, each of at least one character. -/
def many {α : Type} (x : Parser α) : Parser (List α) := do
  manyUpTo x (← get).length

/-- Whether the text is at its end. -/
def atEnd : Parser Bool := do return (← get).isEmpty

/-! ## Blanks -/

/-- Whether a character may stand in a comment. -/
def isPrintable (c : Char) : Bool := c = '\t' || (' ' ≤ c && c ≠ '\x7f')

def blanks : Parser Unit := do
  let _ ← takeAll fun c => c = ' ' || c = '\t'

def newline : Parser Unit := orElse (exactly "\n") (exactly "\r\n")

/-- A comment up to the end of its line. -/
def comment : Parser Unit := do
  exactly "#"
  let _ ← takeAll isPrintable

/-- What may follow a statement on its line: blanks and a comment. -/
def lineEnd : Parser Unit := do
  blanks
  let _ ← maybe comment
  if ← atEnd then return else newline

/-- Blanks, comments and line ends between the parts of a list. -/
def gap : Parser Unit := do
  let _ ← many (orElse (do let _ ← takeIf fun c => c = ' ' || c = '\t')
    (orElse newline (do comment; newline)))

end Raft.Toml
