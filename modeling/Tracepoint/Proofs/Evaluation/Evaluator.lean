/-
Direct evaluation of syntax trees.

A tree is evaluated by recursion on it: operands from left to right, statements in order, with the
scope in which they stand as an argument.  There is no code, no operand stack and no jump.  What
is done to scopes and heap is done by the same actions that the machine carries out.

Two things do not follow the tree, the rounds of a loop and the body of a function that is called.
A number, the fuel, bounds the rounds of each loop and the calls inside each other; a program ends
if it ends for some amount of fuel.

Main definitions:

* `World` — a store, with the trees of the functions that were made and the lines that were
  written;
* `Eval` — steps of evaluation, which may end in a fault or for lack of fuel;
* `Completion` — how a statement ends, `loop` — the rounds of a loop;
* `evalExpr`, `evalStmt` and their companions — expressions and statements;
* `callFunction`, `evalProgram` — functions and programs.
-/

import Mathlib.Data.Nat.Notation
import Tracepoint.Compile
import Tracepoint.Machine.Step

set_option relaxedAutoImplicit false
set_option autoImplicit false

namespace Tracepoint

/-! ### Worlds -/

/-- A store, with what a machine keeps elsewhere.  A function value is the same record as on the
machine; the tree that a call evaluates is found by the identity of the function. -/
structure World extends Store where
  /-- The functions made so far, the last one first. -/
  functions : List (ℕ × FunctionDecl)
  /-- The lines written to the console. -/
  printed : List String

/-- What a program finds. -/
def World.start : World :=
  { Store.start with functions := [], printed := [] }

/-- Why evaluation stops. -/
inductive Stop
  | fault (f : Fault)
  /-- A loop goes on for more rounds, or calls lie deeper inside each other, than was allowed. -/
  | exhausted

/-- Steps of evaluation. -/
abbrev Eval := EStateM Stop World

/-- An action on the store leaves the rest of the world alone. -/
instance : MonadLift Act Eval where
  monadLift act := fun w =>
    match act w.toStore with
    | .ok a store => .ok a { w with toStore := store }
    | .error e store => .error (.fault e) { w with toStore := store }

/-- How a statement ends: at its own end, or on the way out of a loop or a function. -/
inductive Completion
  | normal
  | broken
  | continued
  | returned (v : Value)

namespace Eval

/-- Ends in a fault. -/
def fault {α : Type} (f : Fault) : Eval α :=
  throw (.fault f)

/-- Writes lines to the console. -/
def write (lines : List String) : Eval Unit :=
  modify fun w => { w with printed := w.printed ++ lines }

/-- A new function that sees a scope. -/
def newFunction (scope : ScopeId) (decl : FunctionDecl) : Eval Value := do
  modify fun w => { w with functions := (w.fresh, decl) :: w.functions }
  Act.newFunction (compileFunction decl) scope

/-- Binds a declared function. -/
def bindFunction (scope : ScopeId) (decl : FunctionDecl) : Eval Unit := do
  match decl.name with
  | none => return ()
  | some name =>
    let v ← newFunction scope decl
    Act.declare scope name v .function

/-- Binds the functions that are declared in a list of statements. -/
def hoist (scope : ScopeId) : List Stmt → Eval Unit
  | [] => return ()
  | .function decl :: rest => do
    bindFunction scope decl
    hoist scope rest
  | _ :: rest => hoist scope rest

/-- The rounds of a loop: before each one `test` decides whether there is one, behind it comes
`next`.  A round that is continued ends like any other; one that is broken is the last. -/
def loop (test : Eval Bool) (body : Eval Completion) (next : Eval Unit) : ℕ → Eval Completion
  | 0 => throw .exhausted
  | rounds + 1 => do
    if ← test then
      match ← body with
      | .broken => return .normal
      | .returned v => return .returned v
      | .normal | .continued =>
        next
        loop test body next rounds
    else return .normal

end Eval

/-! ### Operators -/

/-- The value of an operator in front of its operand. -/
def UnaryOp.evaluate : UnaryOp → Value → Act Value
  | not, v => return .bool !v.isTruthy
  | negate, v => Act.negate v

/-- The value of an operator between its operands. -/
def BinaryOp.evaluate : BinaryOp → Value → Value → Act Value
  | multiply, v, w => Act.operate .multiply v w
  | divide, v, w => Act.operate .divide v w
  | modulo, v, w => Act.operate .modulo v w
  | add, v, w => Act.operate .add v w
  | subtract, v, w => Act.operate .subtract v w
  | less, v, w => Act.operate .less v w
  | lessEqual, v, w => Act.operate .lessEqual v w
  | greater, v, w => Act.operate .greater v w
  | greaterEqual, v, w => Act.operate .greaterEqual v w
  | equal, v, w => return .bool (v.looseEquals w)
  | notEqual, v, w => return .bool !v.looseEquals w
  | strictEqual, v, w => return .bool (v.strictEquals w)
  | strictNotEqual, v, w => return .bool !v.strictEquals w

/-- The left operand decides. -/
def LogicalOp.decides : LogicalOp → Value → Bool
  | and, v => !v.isTruthy
  | or, v => v.isTruthy

/-! ### Expressions and statements -/

namespace Eval

/-- The value of an expression of one token. -/
def evalAtom (scope : ScopeId) : Atom → Eval Value
  | .number x => return .number x
  | .bool b => return .bool b
  | .null => return .null
  | .undefined => return .undefined
  | .string text => return .string text
  | .name name => Act.read scope name

/-- Calls a value. What a function of the script does is given by `call`. -/
def apply (call : Closure → List Value → Eval Value) (callee : Value) (arguments : List Value) :
    Eval Value := do
  match callee with
  | .function f => call f arguments
  | .native f =>
    let (v, lines) ← Act.callNative f arguments
    write lines
    return v
  | v => fault (.notCallable v.describe)

section

variable (call : Closure → List Value → Eval Value) (fuel : ℕ)

mutual

/-- The value of an expression. -/
def evalExpr (scope : ScopeId) : Expr → Eval Value
  | .atom a _ _ => evalAtom scope a
  | .group inner => evalExpr scope inner
  | .unary op operand => do
    let v ← evalExpr scope operand
    op.evaluate v
  | .binary op left right => do
    let v ← evalExpr scope left
    let w ← evalExpr scope right
    op.evaluate v w
  | .logical op left right => do
    let v ← evalExpr scope left
    if op.decides v then return v else evalExpr scope right
  | .assignName name value => do
    let v ← evalExpr scope value
    Act.assign scope name v
    return v
  | .assignProperty object name value => do
    let o ← evalExpr scope object
    let v ← evalExpr scope value
    Act.setProperty o name v
    return v
  | .assignIndex object index value => do
    let o ← evalExpr scope object
    let i ← evalExpr scope index
    let v ← evalExpr scope value
    Act.setIndex o i v
    return v
  | .call callee arguments => do
    let f ← evalExpr scope callee
    let values ← evalExprs scope arguments
    apply call f values
  | .property object name => do
    let o ← evalExpr scope object
    Act.getProperty o name
  | .index object index => do
    let o ← evalExpr scope object
    let i ← evalExpr scope index
    Act.getIndex o i
  | .array elements => do
    let values ← evalExprs scope elements
    Act.newArray values
  | .object entries => do
    let values ← evalEntries scope entries
    Act.newObject values
  | .function decl => newFunction scope decl

/-- The values of expressions in order. -/
def evalExprs (scope : ScopeId) : List Expr → Eval (List Value)
  | [] => return []
  | e :: rest => do
    let v ← evalExpr scope e
    let values ← evalExprs scope rest
    return v :: values

/-- Keys and values, which alternate. -/
def evalEntries (scope : ScopeId) : List (String × Expr) → Eval (List Value)
  | [] => return []
  | (key, e) :: rest => do
    let v ← evalExpr scope e
    let values ← evalEntries scope rest
    return .string key :: v :: values

end

/-- The value of an expression, or that of none. -/
def evalValue (scope : ScopeId) : Option Expr → Eval Value
  | some e => evalExpr call scope e
  | none => return .undefined

/-- Whether a condition holds. A loop without a condition always goes on. -/
def evalTest (scope : ScopeId) : Option Expr → Eval Bool
  | some e => do
    let v ← evalExpr call scope e
    return v.isTruthy
  | none => return true

/-- What comes behind a round of a loop. -/
def evalIncrement (scope : ScopeId) : Option Expr → Eval Unit
  | some e => do
    let _ ← evalExpr call scope e
    return ()
  | none => return ()

mutual

/-- Evaluates statements in order, up to one on the way out of a loop or a function. -/
def evalStmts (scope : ScopeId) : List Stmt → Eval Completion
  | [] => return .normal
  | s :: rest => do
    match ← evalStmt true scope s with
    | .normal => evalStmts scope rest
    | completion => return completion

/-- Evaluates a statement. A function is bound when it is reached, unless it is `hoisted`. -/
def evalStmt (hoisted : Bool) (scope : ScopeId) : Stmt → Eval Completion
  | .declare kind name initial _ => do
    let v ← evalValue call scope initial
    Act.declare scope name v kind.binding
    return .normal
  | .function decl => do
    if hoisted then return .normal
    else
      bindFunction scope decl
      return .normal
  | .expression e _ => do
    let _ ← evalExpr call scope e
    return .normal
  | .block body _ => do
    let inner ← Act.openScope scope
    hoist inner body
    evalStmts inner body
  | .conditional condition success none _ => do
    let v ← evalExpr call scope condition
    if v.isTruthy then evalStmt false scope success else return .normal
  | .conditional condition success (some failure) _ => do
    let v ← evalExpr call scope condition
    if v.isTruthy then evalStmt false scope success else evalStmt false scope failure
  | .whileLoop condition body _ =>
    loop (evalTest call scope (some condition)) (evalStmt false scope body) (return ()) fuel
  | .forLoop start condition increment body _ => do
    let inner ← Act.openScope scope
    match ← evalStart inner start with
    | .normal =>
      loop (evalTest call inner condition) (evalStmt false inner body)
        (evalIncrement call inner increment) fuel
    | completion => return completion
  | .returnValue value _ => do
    let v ← evalValue call scope value
    return .returned v
  | .breakLoop _ => return .broken
  | .continueLoop _ => return .continued
  | .empty _ => return .normal

/-- Evaluates what a counting loop does first. -/
def evalStart (scope : ScopeId) : Option Stmt → Eval Completion
  | some s => evalStmt true scope s
  | none => return .normal

end

end

/-! ### Functions and programs -/

/-- Evaluates the body of a function. Falling off its end gives the undefined value. -/
def evalBody (call : Closure → List Value → Eval Value) (fuel : ℕ) (scope : ScopeId)
    (body : List Stmt) : Eval Value := do
  hoist scope body
  match ← evalStmts call fuel scope body with
  | .returned v => return v
  | _ => return .undefined

/-- Calls a function of the script, with `depth` calls open, the program counted as one. -/
def callFunction : (fuel depth : ℕ) → Closure → List Value → Eval Value
  | 0, _, _, _ => throw .exhausted
  | fuel + 1, depth, f, arguments => do
    if callLimit < depth then fault .stackOverflow
    let w ← get
    match w.functions.lookup f.identity with
    | none => fault (.internal (.badFunction f.identity))
    | some decl =>
      let scope ← Act.openCall f.scope decl.parameters arguments
      evalBody (callFunction fuel (depth + 1)) fuel scope decl.body

/-- Evaluates a program. -/
def evalProgram (fuel : ℕ) (program : Program) : Eval Unit := do
  hoist Arena.global program
  let _ ← evalStmts (callFunction fuel 1) fuel Arena.global program
  return ()

end Eval

end Tracepoint
