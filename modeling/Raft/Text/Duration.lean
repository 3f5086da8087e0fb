/-!
# Text of a duration

Durations are whole milliseconds. Below one second the text counts milliseconds, from there on
seconds with a decimal fraction that has no trailing zeros; no time at all is zero nanoseconds.
-/

namespace Raft.Text

/-- The three digits of a number of milliseconds below 1000, without trailing zeros. -/
def fractionDigits (ms : Nat) : List Char :=
  let digit (n : Nat) : Char := Nat.digitChar (n % 10)
  ([digit (ms / 100), digit (ms / 10), digit ms].reverse.dropWhile (· == '0')).reverse

/-- The text of a duration of `ms` milliseconds. -/
def duration (ms : Nat) : String :=
  if ms = 0 then "0ns"
  else if ms < 1000 then s!"{ms}ms"
  else
    match fractionDigits (ms % 1000) with
    | [] => s!"{ms / 1000}s"
    | digits => s!"{ms / 1000}." ++ String.ofList digits ++ "s"

end Raft.Text
