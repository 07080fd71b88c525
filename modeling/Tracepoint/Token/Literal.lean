/-
What literals stand for.

A string literal is a quote, characters and a quote.  A backslash takes the meaning of the
character behind it: `n`, `t`, `r` and `0` stand for a line break, a tab, a carriage return and
the null character, every other character for itself.

* `unescape` — the characters that the inside of a literal stands for;
* `inside` — what lies between the quotes;
* `stringValue` — both together;
* `numberValue` — the double nearest to a number literal.
-/

import Tracepoint.Decimal.Reader

set_option relaxedAutoImplicit false
set_option autoImplicit false

namespace Tracepoint.Literal

/-- The character that a backslash with `c` stands for. -/
def escaped : Char → Char
  | 'n' => '\n'
  | 't' => '\t'
  | 'r' => '\r'
  | '0' => '\x00'
  | c => c

/-- The characters that the inside of a literal stands for. A backslash at the end stands for
nothing. -/
def unescape : List Char → List Char
  | [] => []
  | '\\' :: [] => []
  | '\\' :: c :: cs => escaped c :: unescape cs
  | c :: cs => c :: unescape cs

/-- The characters between the first and the last one, which are a byte long each. -/
def inside : List Char → List Char
  | [] => []
  | first :: rest =>
    match rest.getLast? with
    | none => []
    | some last => if first.utf8Size = 1 ∧ last.utf8Size = 1 then rest.dropLast else []

/-- The text that a string literal stands for. -/
def stringValue (literal : String) : String :=
  String.ofList (unescape (inside literal.toList))

/-- The number that a number literal stands for. -/
def numberValue (literal : String) : Float :=
  match Decimal.numeral? literal with
  | some n => n.toFloat
  | none => 0

end Tracepoint.Literal
