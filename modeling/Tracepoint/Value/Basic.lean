/-
Values of the script language.

* `Value` — plain values, references to arrays and objects, and functions;
* `Closure`, `Native` — functions of the script and functions of the machine, each with an
  identity, since two functions are equal only if they are the same one;
* `Value.typeName`, `Value.isNullish`, `Value.isTruthy`, `Value.functionLabel?` — what a value is;
* `Constant.toValue` — the value of a constant in code.
-/

import Tracepoint.Code.Chunk
import Tracepoint.Heap
import Tracepoint.Scope

set_option relaxedAutoImplicit false
set_option autoImplicit false

namespace Tracepoint

/-- A function of the script with the scope it was made in. -/
structure Closure where
  identity : Nat
  proto : Proto
  scope : ScopeId

/-- A function of the machine. -/
inductive Native
  /-- Writes its arguments to the console. -/
  | console (name : String)
  /-- Adds its arguments to the array it was read from. -/
  | push (identity : Nat) (target : Ref)
  deriving Repr, DecidableEq

/-- Values. -/
inductive Value
  | undefined
  | null
  | bool (value : Bool)
  | number (value : Float)
  | string (text : String)
  | array (ref : Ref)
  | object (ref : Ref)
  | function (f : Closure)
  | native (f : Native)

instance : Inhabited Value := ⟨.undefined⟩

/-- The name of a function of the machine. -/
def Native.name : Native → String
  | console name => name
  | push _ _ => "push"

namespace Value

/-- How messages name the type of a value. -/
def typeName : Value → String
  | undefined => "undefined"
  | null => "null"
  | bool _ => "boolean"
  | number _ => "number"
  | string _ => "string"
  | array _ => "array"
  | object _ => "object"
  | function _ | native _ => "function"

/-- The value stands for no value. -/
def isNullish : Value → Bool
  | undefined | null => true
  | _ => false

/-- The value counts as true in conditions. -/
def isTruthy : Value → Bool
  | undefined | null | bool false => false
  | number x => x != 0 && !x.isNaN
  | string text => !text.isEmpty
  | _ => true

/-- How a function is shown. -/
def functionLabel? : Value → Option String
  | function f =>
    match f.proto.name with
    | some name => some ("[Function: " ++ name ++ "]")
    | none => some "[Function (anonymous)]"
  | native f => some ("[Function: " ++ f.name ++ "]")
  | _ => none

end Value

/-- The value of a constant. -/
def Constant.toValue : Constant → Value
  | number x => .number x
  | string text => .string text
  | bool b => .bool b
  | null => .null
  | undefined => .undefined

end Tracepoint
