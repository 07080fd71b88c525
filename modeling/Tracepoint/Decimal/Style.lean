/-
Ways of writing a double.

All texts of one double show the same digits, the fewest that read back.  They differ in where
an exponent takes over, in what stands for the values that are no numbers, and in which whole
numbers are written without a point.  A way of writing is a record of these choices.

* `Layout`, `Layout.render` — from digits to text;
* `Style`, `Style.render` — from doubles to text;
* `plain` — never an exponent; whole numbers have no point;
* `render_of_notANumber` — what is not a number has the text its record gives.
-/

import Tracepoint.Decimal.Binary
import Tracepoint.Decimal.Shortest

set_option relaxedAutoImplicit false
set_option autoImplicit false

namespace Tracepoint.Decimal

/-- When and how an exponent is written. A value is `0.d₁d₂… · 10 ^ point`. -/
structure Scientific where
  /-- Values with a smaller or equal `point` have an exponent. -/
  low : Int
  /-- Values with a larger `point` have an exponent. -/
  high : Int
  /-- Stands before an exponent that is not negative. -/
  plus : String
  deriving Repr

/-- From digits to text. -/
structure Layout where
  /-- Ends the text of a whole number written without exponent. -/
  wholeEnd : String
  /-- The values with an exponent, if any have one. -/
  scientific? : Option Scientific
  deriving Repr

/-- `n` zeros. -/
def zeros (n : Nat) : String :=
  String.ofList (List.replicate n '0')

/-- The digits with the point where it belongs. -/
def Layout.positional (layout : Layout) (digits : List Char) (point : Int) : String :=
  if digits.length ≤ point then
    String.ofList digits ++ zeros (point.toNat - digits.length) ++ layout.wholeEnd
  else if 0 < point then
    String.ofList (digits.take point.toNat) ++ "." ++ String.ofList (digits.drop point.toNat)
  else "0." ++ zeros (-point).toNat ++ String.ofList digits

/-- One digit, a point if more follow, the rest, and the exponent. -/
def Scientific.text (s : Scientific) (digits : List Char) (point : Int) : String :=
  let exponent := point - 1
  let body := match digits with
    | [] => ""
    | [d] => String.singleton d
    | d :: rest => String.singleton d ++ "." ++ String.ofList rest
  body ++ "e" ++ (if 0 ≤ exponent then s.plus else "") ++ toString exponent

/-- The text of a positive decimal. -/
def Layout.render (layout : Layout) (d : Digits) : String :=
  let digits := Nat.toDigits 10 d.significand
  let point := d.exponent + digits.length
  match layout.scientific? with
  | some s =>
    if s.low < point ∧ point ≤ s.high then layout.positional digits point
    else s.text digits point
  | none => layout.positional digits point

/-- A way of writing doubles. -/
structure Style where
  notANumber : String
  infinity : String
  negativeInfinity : String
  /-- Whole numbers of a smaller absolute value are written as integers, zero without sign. -/
  integersBelow : Nat
  tie : Tie
  layout : Layout
  deriving Repr

/-- The text of a double. -/
def Style.render (style : Style) (x : Float) : String :=
  match Binary.ofFloat x with
  | .notANumber => style.notANumber
  | .infinite false => style.infinity
  | .infinite true => style.negativeInfinity
  | b@(.finite negative mantissa exponent) =>
    let sign := if negative then "-" else ""
    let general :=
      sign ++ (if mantissa = 0 then "0" else style.layout.render (shortest style.tie mantissa exponent))
    match b.whole? with
    | some value => if value.natAbs < style.integersBelow then toString value else general
    | none => general

theorem render_of_notANumber {x : Float} (style : Style)
    (h : Binary.ofFloat x = .notANumber) : style.render x = style.notANumber := by
  simp [Style.render, h]

/-- Never an exponent, and no point in whole numbers. A tie goes up. -/
def plain : Style :=
  { notANumber := "NaN"
    infinity := "inf"
    negativeInfinity := "-inf"
    integersBelow := 0
    tie := .up
    layout := { wholeEnd := "", scientific? := none } }

end Tracepoint.Decimal
