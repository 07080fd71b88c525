/-
Errors of the grammar.

* `SyntaxFault` — why a source is no program; `SyntaxFault.code`, `SyntaxFault.detail`;
* `SyntaxError` — a fault with its place; `SyntaxError.message`, `SyntaxError.text`.
-/

import Tracepoint.Token.Basic

set_option relaxedAutoImplicit false
set_option autoImplicit false

namespace Tracepoint

/-- Why a source is no program. -/
inductive SyntaxFault
  | unexpectedToken (actual expected : Kind)
  /-- A token that starts no expression where one has to start. -/
  | notAnExpression (actual : Kind)
  | endOfInput
  | notAPropertyName (actual : Kind)
  /-- The left side of an assignment is no place to write to. -/
  | notAssignable
  /-- A constant has no value. -/
  | missingInitializer
  | illegalBreak
  | illegalContinue
  | illegalReturn
  | lexical (fault : LexicalFault)
  deriving Repr, DecidableEq

namespace SyntaxFault

/-- A short name of the fault for programs. -/
def code : SyntaxFault → String
  | unexpectedToken _ _ => "SE001"
  | notAnExpression _ => "SE002"
  | endOfInput => "SE003"
  | notAPropertyName _ => "SE004"
  | notAssignable => "SE005"
  | missingInitializer => "SE006"
  | illegalBreak => "SE007"
  | illegalContinue => "SE008"
  | illegalReturn => "SE009"
  | lexical _ => "LX001"

/-- The wording of the fault. -/
def detail : SyntaxFault → String
  | unexpectedToken actual expected =>
    "Unexpected token " ++ actual.describe ++ ", expected " ++ expected.describe
  | notAnExpression actual => "Unexpected token " ++ actual.describe
  | endOfInput => "Unexpected end of input"
  | notAPropertyName actual =>
    "Unexpected token " ++ actual.describe ++ ", expected a property name"
  | notAssignable => "Invalid left-hand side in assignment"
  | missingInitializer => "Missing initializer in const declaration"
  | illegalBreak => "Illegal break statement"
  | illegalContinue => "Illegal continue statement: no surrounding iteration statement"
  | illegalReturn => "Illegal return statement"
  | lexical fault => fault.message

end SyntaxFault

/-- A fault with its place. -/
structure SyntaxError where
  fault : SyntaxFault
  span : Span
  line : Nat
  deriving Repr, DecidableEq

namespace SyntaxError

/-- The error of a place that cannot be read. -/
def ofLexical (e : LexicalError) : SyntaxError :=
  ⟨.lexical e.fault, e.span, e.line⟩

/-- A fault at a token. -/
def atToken (fault : SyntaxFault) (t : Token) : SyntaxError :=
  ⟨fault, t.span, t.line⟩

/-- The error of a token that stands where `expected` has to stand. -/
def unexpected (t : Token) (expected : Kind) : SyntaxError :=
  atToken (if t.kind = .finish then .endOfInput else .unexpectedToken t.kind expected) t

/-- Stands in front of the wording of every error. -/
def title : String := "SyntaxError"

/-- The title and wording of the error. -/
def message (e : SyntaxError) : String :=
  title ++ ": " ++ e.fault.detail

/-- The message after its line. -/
def text (e : SyntaxError) : String :=
  "[line " ++ toString e.line ++ "] " ++ e.message

end SyntaxError

end Tracepoint
