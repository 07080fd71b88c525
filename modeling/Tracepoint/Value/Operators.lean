/-
Operators on values.

Arithmetic takes numbers.  Addition also joins texts, when either side is a string.  Comparison
takes two numbers, or two strings, which are ordered by their characters.  Strict equality
compares values of one type; loose equality also takes the two values that stand for no value as
equal.

* `Value.strictEquals`, `Value.looseEquals`;
* `Operation.apply` — the result of an operation, or the fault;
* `Value.negate` — the sign;
* `looseEquals_of_strictEquals` — strict equality is the finer one.
-/

import Tracepoint.Decimal.Binary
import Tracepoint.Value.Fault
import Tracepoint.Value.Render

set_option relaxedAutoImplicit false
set_option autoImplicit false

namespace Tracepoint

namespace Value

/-- The values are of one type and equal. Arrays, objects and functions are equal only to
themselves. -/
def strictEquals : Value → Value → Bool
  | undefined, undefined => true
  | null, null => true
  | bool a, bool b => a == b
  | number x, number y => x == y
  | string s, string t => s == t
  | array r, array q => r == q
  | object r, object q => r == q
  | function f, function g => f.identity == g.identity
  | native f, native g => f == g
  | _, _ => false

/-- As `strictEquals`, but the values that stand for no value are equal. -/
def looseEquals (v w : Value) : Bool :=
  (v.isNullish && w.isNullish) || v.strictEquals w

theorem looseEquals_of_strictEquals {v w : Value} (h : v.strictEquals w = true) :
    v.looseEquals w = true := by
  simp [looseEquals, h]

/-- The number with the other sign. -/
def negate : Value → Except Fault Value
  | number x => .ok (number (-x))
  | v => .error (.badOperand v.typeName)

/-- The fault of an operator between two values. -/
def refuse (operator : String) (v w : Value) : Except Fault Value :=
  .error (.badOperands operator v.typeName w.typeName)

/-- The result of arithmetic. -/
def arithmetic (operator : String) (f : Float → Float → Float) : Value → Value → Except Fault Value
  | number x, number y => .ok (number (f x y))
  | v, w => refuse operator v w

/-- The result of a comparison. -/
def compare (operator : String) (numbers : Float → Float → Bool) (strings : String → String → Bool) :
    Value → Value → Except Fault Value
  | number x, number y => .ok (bool (numbers x y))
  | string s, string t => .ok (bool (strings s t))
  | v, w => refuse operator v w

/-- The sum of two numbers, or the texts of both sides when either is a string. -/
def add (heap : Heap Value) : Value → Value → Except Fault Value
  | number x, number y => .ok (number (x + y))
  | v@(string _), w => .ok (string (v.text heap ++ w.text heap))
  | v, w@(string _) => .ok (string (v.text heap ++ w.text heap))
  | v, w => refuse "+" v w

end Value

/-- The result of an operation on its left and its right operand. -/
def Operation.apply (heap : Heap Value) : Operation → Value → Value → Except Fault Value
  | add => Value.add heap
  | subtract => Value.arithmetic "-" (· - ·)
  | multiply => Value.arithmetic "*" (· * ·)
  | divide => Value.arithmetic "/" (· / ·)
  | modulo => Value.arithmetic "%" Decimal.remainder
  | less => Value.compare "<" (fun x y => x < y) (fun s t => s < t)
  | lessEqual => Value.compare "<=" (fun x y => x ≤ y) (fun s t => s ≤ t)
  | greater => Value.compare ">" (fun x y => y < x) (fun s t => t < s)
  | greaterEqual => Value.compare ">=" (fun x y => y ≤ x) (fun s t => t ≤ s)
  | equals => fun v w => .ok (.bool (v.looseEquals w))
  | strictEquals => fun v w => .ok (.bool (v.strictEquals w))

end Tracepoint
