/-
Syntax trees of the script language.

* `UnaryOp`, `BinaryOp`, `LogicalOp` — the operators of expressions;
* `Expr`, `Stmt`, `FunctionDecl` — the trees;
* `Stmt.line` — the line a statement starts in.
-/

import Tracepoint.Token.Basic

set_option relaxedAutoImplicit false
set_option autoImplicit false

namespace Tracepoint

/-- Operators in front of their operand. -/
inductive UnaryOp
  | not
  | negate
  deriving Repr, DecidableEq

/-- Operators that evaluate both operands. -/
inductive BinaryOp
  | multiply | divide | modulo
  | add | subtract
  | less | lessEqual | greater | greaterEqual
  | equal | notEqual | strictEqual | strictNotEqual
  deriving Repr, DecidableEq

/-- The spelling of a binary operator. -/
def BinaryOp.symbol : BinaryOp → String
  | multiply => "*"
  | divide => "/"
  | modulo => "%"
  | add => "+"
  | subtract => "-"
  | less => "<"
  | lessEqual => "<="
  | greater => ">"
  | greaterEqual => ">="
  | equal => "=="
  | notEqual => "!="
  | strictEqual => "==="
  | strictNotEqual => "!=="

/-- Operators that evaluate their right operand only if the left one does not decide. -/
inductive LogicalOp
  | and
  | or
  deriving Repr, DecidableEq

/-- Keywords that declare a variable. -/
inductive VariableKind
  | let_
  | const_
  | var_
  deriving Repr, DecidableEq

/-- Expressions of a single token. -/
inductive Atom
  | number (value : Float)
  | bool (value : Bool)
  | null
  | undefined
  | name (text : String)
  | string (text : String)

mutual

/-- Expressions. -/
inductive Expr
  | atom (a : Atom) (span : Span) (line : Nat)
  /-- An expression in parentheses. -/
  | group (inner : Expr)
  | unary (op : UnaryOp) (operand : Expr)
  | binary (op : BinaryOp) (left right : Expr)
  | logical (op : LogicalOp) (left right : Expr)
  | assignName (name : String) (value : Expr)
  | assignProperty (object : Expr) (name : String) (value : Expr)
  | assignIndex (object index value : Expr)
  | call (callee : Expr) (arguments : List Expr)
  | property (object : Expr) (name : String)
  | index (object index : Expr)
  | array (elements : List Expr)
  | object (entries : List (String × Expr))
  | function (decl : FunctionDecl)

/-- Functions, with their name, parameters, body, and the line of the keyword. -/
inductive FunctionDecl
  | mk (name : Option String) (parameters : List String) (body : List Stmt) (line : Nat)

/-- Statements, each with the line it starts in. -/
inductive Stmt
  | declare (kind : VariableKind) (name : String) (initial : Option Expr) (line : Nat)
  | function (decl : FunctionDecl)
  | expression (e : Expr) (line : Nat)
  | block (body : List Stmt) (line : Nat)
  | conditional (condition : Expr) (success : Stmt) (failure : Option Stmt) (line : Nat)
  | whileLoop (condition : Expr) (body : Stmt) (line : Nat)
  | forLoop (start : Option Stmt) (condition increment : Option Expr) (body : Stmt) (line : Nat)
  | returnValue (value : Option Expr) (line : Nat)
  | breakLoop (line : Nat)
  | continueLoop (line : Nat)
  | empty (line : Nat)

end

namespace FunctionDecl

/-- The name, if the function has one. -/
def name : FunctionDecl → Option String
  | mk name _ _ _ => name

/-- The names of the parameters. -/
def parameters : FunctionDecl → List String
  | mk _ parameters _ _ => parameters

/-- The statements of the body. -/
def body : FunctionDecl → List Stmt
  | mk _ _ body _ => body

/-- The line of the keyword. -/
def line : FunctionDecl → Nat
  | mk _ _ _ line => line

end FunctionDecl

/-- The line a statement starts in. -/
def Stmt.line : Stmt → Nat
  | declare _ _ _ line => line
  | function decl => decl.line
  | expression _ line => line
  | block _ line => line
  | conditional _ _ _ line => line
  | whileLoop _ _ line => line
  | forLoop _ _ _ _ line => line
  | returnValue _ line => line
  | breakLoop line => line
  | continueLoop line => line
  | empty line => line

/-- A program is a list of statements. -/
abbrev Program := List Stmt

end Tracepoint
