import Raft.Toml.Parser
import Raft.Data.Basic

/-!
# Scalars

Texts, numbers, flags and dates as they are written in a settings file. A date is kept as a record
of its text in standard form.
-/

namespace Raft.Toml

/-! ## Texts -/

def hexDigit? (c : Char) : Option Nat :=
  if c.isDigit then some (c.toNat - '0'.toNat)
  else if 'a' ≤ c ∧ c ≤ 'f' then some (c.toNat - 'a'.toNat + 10)
  else if 'A' ≤ c ∧ c ≤ 'F' then some (c.toNat - 'A'.toNat + 10)
  else none

/-- A character given by so many hexadecimal digits. -/
def codePoint (width : Nat) : Parser Char := do
  let cs ← peek width
  let digits ← (cs.mapM hexDigit? : Option (List Nat))
  let n := digits.foldl (fun n d => n * 16 + d) 0
  if cs.length = width ∧ n.isValidChar then
    modify (·.drop width)
    return Char.ofNat n
  else failure

/-- The character that an escape stands for, behind its backslash. -/
def escape : Parser Char := do
  match ← takeIf fun _ => true with
  | 'b' => return '\x08'
  | 't' => return '\t'
  | 'n' => return '\n'
  | 'f' => return '\x0c'
  | 'r' => return '\r'
  | '"' => return '"'
  | '\\' => return '\\'
  | 'u' => codePoint 4
  | 'U' => codePoint 8
  | _ => failure

/-- A text in double quotes, on one line. -/
def basicText : Parser String := do
  exactly "\""
  let cs ← many (orElse
    (takeIf fun c => isPrintable c && c ≠ '"' && c ≠ '\\')
    (do exactly "\\"; escape))
  exactly "\""
  return String.ofList cs

/-- A text in single quotes, on one line: every character stands for itself. -/
def literalText : Parser String := do
  exactly "'"
  let cs ← takeAll fun c => isPrintable c && c ≠ '\''
  exactly "'"
  return String.ofList cs

/-- Quotes inside a text of many lines: one or two that do not begin its end. -/
def innerQuotes (quote : Char) : Parser (List Char) := do
  match ← peek 3 with
  | [a, b, c] =>
    if a = quote ∧ (b ≠ quote ∨ c ≠ quote) then do
      modify (·.drop 1)
      return [a]
    else failure
  | _ => failure

/-- The end of a text of many lines, with up to two quotes that belong to it. -/
def closingQuotes (quote : Char) : Parser (List Char) := do
  let quotes := (← peek 5).takeWhile (· = quote)
  if quotes.length < 3 then failure
  else do
    modify (·.drop quotes.length)
    return quotes.drop 3

/-- A line end inside a text. -/
def innerNewline : Parser (List Char) := do
  newline
  return ['\n']

/-- A backslash at the end of a line joins it to the next text. -/
def joinedLines : Parser (List Char) := do
  exactly "\\"
  blanks
  newline
  let _ ← many (orElse (do let _ ← takeIf fun c => c = ' ' || c = '\t') newline)
  return []

/-- A text of many lines in three double quotes. -/
def basicLines : Parser String := do
  exactly "\"\"\""
  let _ ← maybe newline
  let parts ← many (orElse
    (do return [← takeIf fun c => isPrintable c && c ≠ '"' && c ≠ '\\'])
    (orElse innerNewline (orElse joinedLines (orElse
      (do exactly "\\"; return [← escape]) (innerQuotes '"')))))
  let last ← closingQuotes '"'
  return String.ofList (parts.flatten ++ last)

/-- A text of many lines in three single quotes. -/
def literalLines : Parser String := do
  exactly "'''"
  let _ ← maybe newline
  let parts ← many (orElse
    (do return [← takeIf fun c => isPrintable c && c ≠ '\''])
    (orElse innerNewline (innerQuotes '\'')))
  let last ← closingQuotes '\''
  return String.ofList (parts.flatten ++ last)

/-- A text in any of the four ways. -/
def text : Parser String :=
  orElse basicLines (orElse literalLines (orElse basicText literalText))

/-! ## Numbers -/

def sign : Parser (List Char) := do
  return (← maybe (takeIf fun c => c = '+' || c = '-')).toList

/-- Digits of a base, with single underscores between them. -/
def digits (isDigit : Char → Bool) : Parser (List Char) := do
  let first ← takeIf isDigit
  let rest ← many (do
    let _ ← maybe (exactly "_")
    takeIf isDigit)
  return first :: rest

/-- Decimal digits without a leading zero. -/
def plainDigits : Parser (List Char) := do
  match ← peek 1 with
  | ['0'] => do
    modify (·.drop 1)
    return ['0']
  | _ => digits Char.isDigit

/-- The number that digits of a base write. -/
def numeral (base : Nat) (ds : List Char) : Nat :=
  ds.foldl (fun n c => n * base + (hexDigit? c).getD 0) 0

/-- Whether a number fits into 64 bits with a sign. -/
def fits (n : Int) : Bool := -0x8000000000000000 ≤ n && n < 0x8000000000000000

/-- A whole number in a base other than ten, behind its mark. -/
def basedNumber (mark : String) (base : Nat) : Parser Data := do
  exactly mark
  let ds ← digits fun c => (hexDigit? c).any (· < base)
  let n : Int := numeral base ds
  if fits n then return .int n else failure

/-- A whole number in base ten. -/
def wholeNumber : Parser Data := do
  let s ← sign
  let n : Int := numeral 10 (← plainDigits)
  let n := if s = ['-'] then -n else n
  if fits n then return .int n else failure

/-- The exponent of a number. -/
def exponent : Parser Int := do
  let _ ← takeIf fun c => c = 'e' || c = 'E'
  let s ← sign
  let n : Int := numeral 10 (← digits Char.isDigit)
  return if s = ['-'] then -n else n

/-- The number `n * 10 ^ e`, rounded. Exponents far beyond the range give zero or infinity. -/
def scaled (n : Nat) (e : Int) : Float :=
  if n = 0 then 0
  else if 0 ≤ e then Float.ofScientific n false (min e.toNat 400)
  else Float.ofScientific n true (min (-e).toNat (400 + (toString n).length))

/-- A number with a fraction or an exponent. One that is beyond every finite number is refused
unless it is negative. -/
def realNumber : Parser Data := do
  let s ← sign
  let whole ← plainDigits
  let fraction ← maybe (do exactly "."; digits Char.isDigit)
  let e ← if fraction.isSome then maybe exponent else some <$> exponent
  let places := fraction.getD []
  let x := scaled (numeral 10 (whole ++ places)) (e.getD 0 - places.length)
  if s = ['-'] then return .real (-x)
  else if x.isInf then failure
  else return .real x

/-- Infinity, or what is no number. -/
def specialNumber : Parser Data := do
  let s ← sign
  let x ← orElse (do exactly "inf"; return 1.0 / 0.0) (do exactly "nan"; return 0.0 / 0.0)
  return .real (if s = ['-'] then -x else x)

/-! ## Dates -/

/-- A number of so many digits between two bounds. -/
def fixed (width lo hi : Nat) : Parser Nat := do
  let cs ← peek width
  let n := numeral 10 cs
  if cs.length = width ∧ cs.all Char.isDigit ∧ lo ≤ n ∧ n ≤ hi then
    modify (·.drop width)
    return n
  else failure

/-- A number with leading zeros up to a width. -/
def padded (width n : Nat) : String :=
  let s := toString n
  String.ofList (List.replicate (width - s.length) '0') ++ s

/-- The days of a month. -/
def daysIn (year month : Nat) : Nat :=
  if month = 2 then
    if year % 4 = 0 ∧ (year % 100 ≠ 0 ∨ year % 400 = 0) then 29 else 28
  else if month = 4 ∨ month = 6 ∨ month = 9 ∨ month = 11 then 30
  else 31

def date : Parser String := do
  let year ← fixed 4 0 9999
  exactly "-"
  let month ← fixed 2 1 12
  exactly "-"
  let day ← fixed 2 1 (daysIn year month)
  return padded 4 year ++ "-" ++ padded 2 month ++ "-" ++ padded 2 day

/-- The greatest hour of a day, and the greatest hour and minute of an offset, that a text of a date
may write. -/
structure ClockLimits where
  hour : Nat
  offsetHour : Nat
  offsetMinute : Nat

/-- A time of day. Fractions of a second are kept to nine places. -/
def time (limits : ClockLimits) : Parser String := do
  let hour ← fixed 2 0 limits.hour
  exactly ":"
  let minute ← fixed 2 0 59
  exactly ":"
  let second ← fixed 2 0 60
  let fraction ← maybe do
    exactly "."
    let first ← takeIf Char.isDigit
    return first :: (← takeAll Char.isDigit)
  let places := (((fraction.getD []).take 9).reverse.dropWhile (· = '0')).reverse
  return padded 2 hour ++ ":" ++ padded 2 minute ++ ":" ++ padded 2 second
    ++ (if places.isEmpty then "" else "." ++ String.ofList places)

/-- The offset of a time, of a day at most. -/
def offset (limits : ClockLimits) : Parser String :=
  orElse (do let _ ← takeIf fun c => c = 'Z' || c = 'z'; return "Z") do
    let s ← takeIf fun c => c = '+' || c = '-'
    let hours ← fixed 2 0 limits.offsetHour
    exactly ":"
    let minutes ← fixed 2 0 limits.offsetMinute
    let total := hours * 60 + minutes
    if 1440 < total then failure
    let s := if total = 0 then '+' else s
    return s.toString ++ padded 2 (total / 60) ++ ":" ++ padded 2 (total % 60)

/-- A date, a time, or a date with a time and maybe an offset, in standard form. -/
def moment (limits : ClockLimits) : Parser String := do
  let day ← maybe date
  match day with
  | none => time limits
  | some day =>
    let rest ← maybe do
      let _ ← takeIf fun c => c = 'T' || c = 't' || c = ' '
      let t ← time limits
      return "T" ++ t ++ ((← maybe (offset limits)).getD "")
    return day ++ rest.getD ""

/-- The name of the first field of a record that stands for a date. The field holds its text. -/
def dateField : String := "$__toml_private_datetime"

/-- A date as a record of its text. -/
def dateRecord (s : String) : Data := .record [(dateField, .text s)]

/-- The standard form of the text of a date. Its time may be 24 o'clock. -/
def dateOfText? (s : String) : Option String := do
  let (d, rest) ← (moment ⟨24, 99, 99⟩).run s.toList
  if rest.isEmpty then some d else none

/-! ## Any scalar -/

def flag : Parser Data :=
  orElse (do exactly "true"; return .flag true) (do exactly "false"; return .flag false)

def number : Parser Data :=
  orElse realNumber (orElse specialNumber (orElse (basedNumber "0x" 16)
    (orElse (basedNumber "0o" 8) (orElse (basedNumber "0b" 2) wholeNumber))))

def scalar : Parser Data :=
  orElse (do return .text (← text)) (orElse flag (orElse
    (do return dateRecord (← moment ⟨23, 23, 59⟩)) number))

end Raft.Toml
