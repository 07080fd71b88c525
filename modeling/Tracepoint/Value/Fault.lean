/-
Faults of running programs.

* `Fault` — why an instruction cannot be carried out; `Fault.code`, `Fault.message`;
* `Defect` — faults that only code which was not compiled from a program can meet;
* `RuntimeError` — a fault with the line of its instruction.
-/

import Tracepoint.Code.Instr

set_option relaxedAutoImplicit false
set_option autoImplicit false

namespace Tracepoint

/-- What is wrong with code, or with the machine that runs it. -/
inductive Defect
  | stackUnderflow
  | badConstant (position : Nat)
  | badName (position : Nat)
  | badFunction (position : Nat)
  | undecodable (e : DecodeError)
  | globalScopePopped
  | returnWithoutFrame
  | noFrame
  | notAnArray
  | pushToNoArray (cell : Nat)
  /-- A defect reported in words. -/
  | reported (text : String)
  deriving Repr, DecidableEq

/-- The wording of a defect. -/
def Defect.message : Defect → String
  | stackUnderflow => "value stack underflow"
  | badConstant position => "bad constant " ++ toString position
  | badName position => "bad name constant " ++ toString position
  | badFunction position => "bad function " ++ toString position
  | undecodable e => e.message
  | globalScopePopped => "popped the global scope"
  | returnWithoutFrame => "return without a frame"
  | noFrame => "no active frame"
  | notAnArray => "array handle is not an array"
  | pushToNoArray cell => "push target " ++ toString cell ++ " is not an array"
  | reported text => text

/-- Why an instruction cannot be carried out. Types are named as `Value.typeName` names them. -/
inductive Fault
  | undeclared (name : String)
  | assignToConstant (name : String)
  | redeclaration (name : String)
  /-- An operator between values of types that it does not take. -/
  | badOperands (operator left right : String)
  /-- The sign of a value that is no number. -/
  | badOperand (type : String)
  | notCallable (callee : String)
  | propertyOfNothing (object name : String)
  | setPropertyOfNothing (object name : String)
  | setPropertyOfPrimitive (object name : String)
  | invalidIndex (index : String)
  | stackOverflow
  | internal (defect : Defect)
  deriving Repr, DecidableEq

namespace Fault

/-- A short name of the fault for programs. -/
def code : Fault → String
  | undeclared _ => "RT001"
  | assignToConstant _ => "RT002"
  | redeclaration _ => "RT003"
  | badOperands _ _ _ => "RT004"
  | badOperand _ => "RT005"
  | notCallable _ => "RT006"
  | propertyOfNothing _ _ => "RT007"
  | setPropertyOfNothing _ _ => "RT008"
  | setPropertyOfPrimitive _ _ => "RT009"
  | invalidIndex _ => "RT010"
  | stackOverflow => "RT011"
  | internal _ => "RT012"

/-- The wording of the fault. -/
def message : Fault → String
  | undeclared name => "ReferenceError: " ++ name ++ " is not defined"
  | assignToConstant _ => "TypeError: Assignment to constant variable."
  | redeclaration name => "SyntaxError: Identifier '" ++ name ++ "' has already been declared"
  | badOperands operator left right =>
    "TypeError: Cannot apply `" ++ operator ++ "` to " ++ left ++ " and " ++ right
  | badOperand type => "TypeError: Cannot apply unary `-` to " ++ type
  | notCallable callee => "TypeError: " ++ callee ++ " is not a function"
  | propertyOfNothing object name =>
    "TypeError: Cannot read properties of " ++ object ++ " (reading '" ++ name ++ "')"
  | setPropertyOfNothing object name =>
    "TypeError: Cannot set properties of " ++ object ++ " (setting '" ++ name ++ "')"
  | setPropertyOfPrimitive object name =>
    "TypeError: Cannot create property '" ++ name ++ "' on " ++ object
  | invalidIndex index => "RangeError: Invalid array index " ++ index
  | stackOverflow => "RangeError: Maximum call stack size exceeded"
  | internal defect => "InternalError: " ++ defect.message

end Fault

/-- A fault with the line of its instruction. -/
structure RuntimeError where
  fault : Fault
  line : Option Nat
  deriving Repr, DecidableEq

end Tracepoint
