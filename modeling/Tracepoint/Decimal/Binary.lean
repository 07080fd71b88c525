/-
The exact value of a double.

A double is not a number, an infinity, or plus or minus a natural number times a power of two.
Everything that depends on the exact value of a double — its decimal text, whether it is whole,
its remainder by another double — is worked out on that form with natural numbers, never with
rounded arithmetic.

* `Binary`, `Binary.ofFloat` — the form, read off the bits of the double;
* `Binary.toFloat` — back again;
* `wholeMagnitude?` — the absolute value of a double without a fractional part;
* `whole?` — its value as an integer;
* `remainder` — what a truncated division leaves over, exactly, with the sign of the dividend.
-/

set_option relaxedAutoImplicit false
set_option autoImplicit false

namespace Tracepoint.Decimal

/-- A double as what it denotes. -/
inductive Binary
  | notANumber
  | infinite (negative : Bool)
  /-- Plus or minus `mantissa · 2 ^ exponent`. -/
  | finite (negative : Bool) (mantissa : Nat) (exponent : Int)
  deriving Repr, DecidableEq

namespace Binary

/-- The least exponent of a double. -/
def minExponent : Int := -1074

/-- One more than the mantissas that the stored bits of a double can hold. -/
def hiddenBit : Nat := Nat.pow 2 52

/-- The form of a double with the given sign, stored exponent and stored mantissa. -/
def ofFields (negative : Bool) (exponent mantissa : Nat) : Binary :=
  if exponent = 2047 then
    if mantissa = 0 then .infinite negative else .notANumber
  else if exponent = 0 then .finite negative mantissa minExponent
  else .finite negative (mantissa + hiddenBit) (exponent - 1075)

/-- Reads the fields off the bits. -/
def ofFloat (x : Float) : Binary :=
  let bits := x.toBits.toNat
  ofFields (Nat.pow 2 63 ≤ bits) (bits / Nat.pow 2 52 % Nat.pow 2 11) (bits % Nat.pow 2 52)

/-- The double of this form, exact if there is one with its value. -/
def toFloat : Binary → Float
  | .notANumber => 0.0 / 0.0
  | .infinite false => 1.0 / 0.0
  | .infinite true => -1.0 / 0.0
  | .finite false mantissa exponent => (Float.ofNat mantissa).scaleB exponent
  | .finite true mantissa exponent => -(Float.ofNat mantissa).scaleB exponent

/-- The absolute value, if it is a natural number. -/
def wholeMagnitude? : Binary → Option Nat
  | .finite _ mantissa exponent =>
    if 0 ≤ exponent then some (mantissa * Nat.pow 2 exponent.toNat)
    else if mantissa % Nat.pow 2 (-exponent).toNat = 0 then some (mantissa / Nat.pow 2 (-exponent).toNat)
    else none
  | _ => none

/-- The sign is set. Zero has a sign too; what is not a number has none. -/
def isNegative : Binary → Bool
  | .notANumber => false
  | .infinite negative => negative
  | .finite negative _ _ => negative

/-- The value, if it is an integer. -/
def whole? (b : Binary) : Option Int :=
  b.wholeMagnitude?.map fun n => if b.isNegative then -(n : Int) else n

end Binary

/-- The absolute value of `x`, if it is a natural number. -/
def wholeMagnitude? (x : Float) : Option Nat :=
  (Binary.ofFloat x).wholeMagnitude?

/-- The value of `x`, if it is an integer. -/
def whole? (x : Float) : Option Int :=
  (Binary.ofFloat x).whole?

/-- What is left of `x` after taking away a whole number of times `y`, truncated towards zero.
The result has the sign of `x`. -/
def remainder (x y : Float) : Float :=
  match Binary.ofFloat x, Binary.ofFloat y with
  | .finite negative m e, .finite _ n f =>
    if n = 0 then Binary.notANumber.toFloat
    else
      let low := min e f
      let left := m * Nat.pow 2 (e - low).toNat % (n * Nat.pow 2 (f - low).toNat)
      (Binary.finite negative left low).toFloat
  | .finite _ _ _, .infinite _ => x
  | _, _ => Binary.notANumber.toFloat

end Tracepoint.Decimal
