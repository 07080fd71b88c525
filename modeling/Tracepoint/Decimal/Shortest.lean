/-
The fewest decimal digits that read back.

The reals that round to a positive double `m · 2 ^ q` form an interval around it, which holds
its ends exactly when `m` is even.  For a count of digits the decimals of that many digits form
a grid; the value has two neighbours on it.  The shortest text of the double uses the first grid
on which a neighbour lies in the interval, and of two such neighbours the nearer.  Seventeen
digits always suffice.

All of this is worked out on natural numbers, as fractions over one common denominator.

* `Interval`, `Interval.ofBinary` — the value and its interval;
* `Digits` — a significand with a power of ten;
* `shortest` — the digits of a double;
* `Tie` — what happens when both neighbours are equally near.
-/

set_option relaxedAutoImplicit false
set_option autoImplicit false

namespace Tracepoint.Decimal

/-- Which of two equally near neighbours is taken. -/
inductive Tie
  | up
  | toEven
  deriving Repr, DecidableEq

/-- The value `value / unit` with the reals from `low / unit` to `high / unit` that round to it. -/
structure Interval where
  low : Nat
  value : Nat
  high : Nat
  unit : Nat
  /-- The ends round to the value too. -/
  closed : Bool
  deriving Repr

/-- The interval of the positive double `mantissa · 2 ^ exponent`. Below a power of two the
doubles lie twice as close as above it, except at the least exponent. -/
def Interval.ofBinary (mantissa : Nat) (exponent : Int) : Interval :=
  let gap := if mantissa = Nat.pow 2 52 ∧ exponent ≠ -1074 then 1 else 2
  let scale := Nat.pow 2 (exponent - 2).toNat
  { low := (4 * mantissa - gap) * scale
    value := 4 * mantissa * scale
    high := (4 * mantissa + 2) * scale
    unit := Nat.pow 2 (2 - exponent).toNat
    closed := mantissa % 2 = 0 }

/-- The fraction `top / bottom` lies in the interval. -/
def Interval.contains (i : Interval) (top bottom : Nat) : Bool :=
  if i.closed then i.low * bottom ≤ top * i.unit && top * i.unit ≤ i.high * bottom
  else i.low * bottom < top * i.unit && top * i.unit < i.high * bottom

/-- The decimal `significand · 10 ^ exponent`. -/
structure Digits where
  significand : Nat
  exponent : Int
  deriving Repr, DecidableEq

/-- The number of decimal digits of `n`. -/
def digitCount (n : Nat) : Nat :=
  (Nat.toDigits 10 n).length

/-- The `e` with `10 ^ e ≤ top / bottom < 10 ^ (e + 1)`, for positive `top` and `bottom`. -/
def decimalExponent (top bottom : Nat) : Int :=
  if bottom ≤ top then (digitCount (top / bottom) : Int) - 1
  else -(digitCount ((bottom - 1) / top) : Int)

/-- The nearer of the neighbours `significand` and `significand + 1`, when the value lies
`part / whole` of the way from the first to the second. -/
def nearer (tie : Tie) (significand part whole : Nat) : Nat :=
  if 2 * part < whole then significand
  else if whole < 2 * part then significand + 1
  else match tie with
    | .up => significand + 1
    | .toEven => if significand % 2 = 0 then significand else significand + 1

/-- The neighbour of the value on the grid of multiples of `10 ^ exponent` that is taken, if one
lies in the interval. -/
def Interval.neighbour? (i : Interval) (tie : Tie) (exponent : Int) : Option Nat :=
  let top := Nat.pow 10 exponent.toNat
  let bottom := Nat.pow 10 (-exponent).toNat
  let whole := i.unit * top
  let below := i.value * bottom / whole
  let part := i.value * bottom % whole
  match i.contains (below * top) bottom, i.contains ((below + 1) * top) bottom with
  | true, true => some (nearer tie below part whole)
  | true, false => some below
  | false, true => some (below + 1)
  | false, false => none

/-- The first of the given digit counts whose grid has a neighbour in the interval. -/
def Interval.search (i : Interval) (tie : Tie) (exponent : Int) : List Nat → Option Digits
  | [] => none
  | count :: rest =>
    let grid := exponent + 1 - count
    match i.neighbour? tie grid with
    | some significand => some ⟨significand, grid⟩
    | none => i.search tie exponent rest

/-- Moves the zeros at the end of the significand into the exponent, at most `fuel` of them. -/
def Digits.trim : Nat → Digits → Digits
  | 0, d => d
  | fuel + 1, d =>
    if d.significand ≠ 0 ∧ d.significand % 10 = 0 then
      Digits.trim fuel ⟨d.significand / 10, d.exponent + 1⟩
    else d

/-- The shortest digits of the positive double `mantissa · 2 ^ exponent`. -/
def shortest (tie : Tie) (mantissa : Nat) (exponent : Int) : Digits :=
  let i := Interval.ofBinary mantissa exponent
  match i.search tie (decimalExponent i.value i.unit) ((List.range 17).map (· + 1)) with
  | some d => d.trim (digitCount d.significand)
  | none => ⟨0, 0⟩

end Tracepoint.Decimal
