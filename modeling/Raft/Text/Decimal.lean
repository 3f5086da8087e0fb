/-!
# Shortest decimals

A binary floating point number is written with the fewest decimal digits that read back as the same
number, and of those with the digits nearest to it; a tie goes away from zero. The point stands
where the value puts it: there is no exponent, and a whole number has no point.
-/

namespace Raft.Text

/-- A positive number `significand * 2 ^ exponent`, with the bounds of what rounds to it, all as
multiples of a quarter of that power. The bounds themselves round to it if `closed`. -/
structure RoundingInterval where
  value : Nat
  low : Nat
  high : Nat
  exponent : Int
  closed : Bool

namespace RoundingInterval

/-- The interval of a finite positive number, from its exponent and fraction bits. -/
def ofBits (biased fraction : Nat) : RoundingInterval :=
  let significand := if biased = 0 then fraction else fraction + (1 <<< 52)
  let below := if fraction = 0 ∧ 1 < biased then 1 else 2
  { value := 4 * significand
    low := 4 * significand - below
    high := 4 * significand + 2
    exponent := (max biased 1 : Int) - 1077
    closed := significand % 2 = 0 }

/-- The multiple of a power of ten that lies in the interval and is nearest to the value, if there
is one. Of two that are equally near it is the greater. -/
def onGrid? (i : RoundingInterval) (power : Int) : Option Nat :=
  let unit := Nat.pow 10 (-power).toNat <<< i.exponent.toNat
  let step := Nat.pow 10 power.toNat <<< (-i.exponent).toNat
  let isIn (d : Nat) : Bool :=
    if i.closed then i.low * unit ≤ d * step && d * step ≤ i.high * unit
    else i.low * unit < d * step && d * step < i.high * unit
  let down := i.value * unit / step
  let isNearer : Bool := 2 * (i.value * unit) < (2 * down + 1) * step
  if isIn down && (isNearer || !isIn (down + 1)) then some down
  else if isIn (down + 1) then some (down + 1)
  else none

/-- The digits on the coarsest grid that has a multiple in the interval, and the power of ten of
that grid. -/
def shortest (i : RoundingInterval) : Nat → Int → Nat × Int
  | 0, power => (0, power)
  | fuel + 1, power =>
    match i.onGrid? power with
    | some d => (d, power)
    | none => shortest i fuel (power - 1)

end RoundingInterval

/-- Digits with the point where a power of ten puts it. -/
def positional (digits : Nat) (power : Int) : String :=
  let text := toString digits
  if 0 ≤ power then
    text ++ String.ofList (List.replicate power.toNat '0')
  else
    let places := (-power).toNat
    let padded := List.replicate (places + 1 - text.length) '0' ++ text.toList
    String.ofList (padded.take (padded.length - places)) ++ "."
      ++ String.ofList (padded.drop (padded.length - places))

/-- The decimal text of a number. -/
def decimal (x : Float) : String :=
  let bits := x.toBits.toNat
  let sign := if bits >>> 63 = 1 then "-" else ""
  let biased := (bits >>> 52) % 2048
  let fraction := bits % (1 <<< 52)
  if biased = 2047 then
    if fraction = 0 then sign ++ "inf" else "NaN"
  else if biased = 0 ∧ fraction = 0 then sign ++ "0"
  else
    let (digits, power) := (RoundingInterval.ofBits biased fraction).shortest 700 309
    sign ++ positional digits power

end Raft.Text
