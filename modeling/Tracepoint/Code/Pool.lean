/-
Constants of a piece of code.

A pool gives every constant a position that never changes.  Equal texts share one position, so
that a name is found under the same position wherever it occurs; all other constants get a
position each.  Positions go into code as words of 32 bits.

* `Constant`, `Pool` — the constants in the order of their positions;
* `Pool.intern`, `Pool.push` — adding a text, adding any constant;
* `Pool.get?`, `Pool.text?` — reading;
* `get?_push` — the position that is given yields the constant it was given for.
-/

import Tracepoint.Decimal.Style
import Tracepoint.Text.Quoted

set_option relaxedAutoImplicit false
set_option autoImplicit false

namespace Tracepoint

/-- Constants in code. -/
inductive Constant
  | number (value : Float)
  | string (text : String)
  | bool (value : Bool)
  | null
  | undefined

namespace Constant

/-- How listings show a constant. -/
def render : Constant → String
  | number value => Decimal.plain.render value
  | string text => Text.visible.quote text
  | bool value => toString value
  | null => "null"
  | undefined => "undefined"

/-- The constant is this text. -/
def isText (text : String) : Constant → Bool
  | string other => other == text
  | _ => false

end Constant

/-- The constants of a piece of code, by position. -/
structure Pool where
  constants : Array Constant

namespace Pool

/-- No constants. -/
def empty : Pool := ⟨#[]⟩

/-- The constant at a position. -/
def get? (p : Pool) (position : Nat) : Option Constant :=
  p.constants[position]?

/-- The text at a position, if the constant there is one. -/
def text? (p : Pool) (position : Nat) : Option String :=
  match p.get? position with
  | some (.string text) => some text
  | _ => none

/-- Adds a constant at the end. -/
def append (p : Pool) (c : Constant) : Nat × Pool :=
  (p.constants.size, ⟨p.constants.push c⟩)

/-- The position of a text, which is added if it is new. -/
def intern (p : Pool) (text : String) : Nat × Pool :=
  match p.constants.findIdx? (Constant.isText text) with
  | some position => (position, p)
  | none => p.append (.string text)

/-- The position of a constant. Texts share theirs; everything else is added. -/
def push (p : Pool) : Constant → Nat × Pool
  | .string text => p.intern text
  | c => p.append c

/-- How listings show the constant at a position. -/
def render (p : Pool) (position : Nat) : String :=
  match p.get? position with
  | some c => c.render
  | none => "INVALID_CONSTANT_HANDLE"

theorem get?_append (p : Pool) (c : Constant) : (p.append c).2.get? (p.append c).1 = some c := by
  simp [append, get?]

theorem get?_intern (p : Pool) (text : String) :
    (p.intern text).2.get? (p.intern text).1 = some (.string text) := by
  simp only [intern]
  split
  next position h =>
    obtain ⟨hlt, htext, _⟩ := Array.findIdx?_eq_some_iff_getElem.1 h
    simp only [get?, Array.getElem?_eq_getElem hlt, Option.some.injEq]
    cases hc : p.constants[position] <;> simp_all [Constant.isText]
  · exact get?_append p _

theorem get?_push (p : Pool) (c : Constant) : (p.push c).2.get? (p.push c).1 = some c := by
  cases c with
  | string text => exact get?_intern p text
  | _ => exact get?_append p _

end Pool

end Tracepoint
