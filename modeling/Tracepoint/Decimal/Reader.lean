/-
Reading decimal numbers.

A numeral is a run of digits, possibly with a point and more digits.  It denotes a natural number
times a power of ten, and reads as the double nearest to that.

* `Numeral`, `Numeral.toFloat` — what a numeral denotes;
* `numeral?` — digits with an optional fraction: the numbers of the script language;
* `natural?` — a natural number below a bound, possibly with a plus sign.
-/

set_option relaxedAutoImplicit false
set_option autoImplicit false

namespace Tracepoint.Decimal

/-- The number `significand · 10 ^ exponent`. -/
structure Numeral where
  significand : Nat
  exponent : Int
  deriving Repr, DecidableEq

/-- The double nearest to a numeral. -/
def Numeral.toFloat (n : Numeral) : Float :=
  if n.exponent < 0 then Float.ofScientific n.significand true (-n.exponent).toNat
  else Float.ofScientific n.significand false n.exponent.toNat

/-- The character is an ASCII digit. -/
def isDigit (c : Char) : Bool :=
  '0' ≤ c && c ≤ '9'

/-- The number that a run of digits continues, `value` being read already. -/
def digitsValue (value : Nat) (digits : List Char) : Nat :=
  digits.foldl (fun n c => 10 * n + (c.toNat - '0'.toNat)) value

/-- Digits, and after a point more digits; and the characters after them. -/
def splitNumeral (cs : List Char) : List Char × List Char × List Char :=
  let front := cs.takeWhile isDigit
  match cs.dropWhile isDigit with
  | '.' :: rest => (front, rest.takeWhile isDigit, rest.dropWhile isDigit)
  | rest => (front, [], rest)

/-- The numeral of the digits before and after the point. -/
def Numeral.ofDigits (front back : List Char) : Numeral :=
  ⟨digitsValue (digitsValue 0 front) back, -(back.length : Int)⟩

/-- A numeral of digits, possibly with a point and more digits. -/
def numeral? (text : String) : Option Numeral :=
  match splitNumeral text.toList with
  | (front, back, []) => if front.isEmpty then none else some (Numeral.ofDigits front back)
  | _ => none

/-- A natural number below `bound`, possibly after a plus sign. -/
def natural? (bound : Nat) (text : String) : Option Nat :=
  let digits := match text.toList with
    | '+' :: rest => rest
    | cs => cs
  if digits.isEmpty || !digits.all isDigit then none
  else
    let value := digitsValue 0 digits
    if value < bound then some value else none

end Tracepoint.Decimal
