/-
From syntax trees to code.

The code of a tree is the code of its parts in order of evaluation, with jumps between them.
Jumps are measured in bytes between parts, so code does not depend on where it lies.  Inside a
loop, `break` and `continue` stay open until the loop knows how far away its end and its next
round are.

Every instruction belongs to the line of the innermost statement that is being compiled when it
is emitted; what follows a nested statement belongs to the line where that one ended, except that
the closing part of a loop belongs to the line of the loop.

Functions that are declared in a list of statements are bound before anything else in that list.
A function that is the whole body of a conditional or a loop is bound when it is reached.

* `Draft`, `Emit` — the pool, the functions and the line so far;
* `Op`, `close` — instructions with open jumps, and how they are closed;
* `compileExpr`, `compileStmt` and their companions;
* `compileFunction`, `compileProgram` — whole functions and programs.
-/

import Tracepoint.Code.Builder
import Tracepoint.Tree

set_option relaxedAutoImplicit false
set_option autoImplicit false

namespace Tracepoint

/-- What compiling has gathered so far. -/
structure Draft where
  pool : Pool
  functions : Array Proto
  /-- The line that emitted instructions belong to. -/
  line : Nat

/-- Steps of compiling. -/
abbrev Emit := StateM Draft

/-- Instructions with their lines. -/
abbrev Code := List (Instr × Nat)

/-- The number of bytes of some code. -/
def Code.size : Code → Nat
  | [] => 0
  | (i, _) :: rest => i.size + Code.size rest

/-- An instruction, or a jump that waits for its loop. -/
inductive Op
  | instr (i : Instr)
  | breakLoop
  | continueLoop
  deriving Repr, DecidableEq

namespace Op

/-- The number of bytes. A jump that waits takes the space of a jump. -/
def size : Op → Nat
  | instr i => i.size
  | breakLoop | continueLoop => Instr.wideSize

/-- The instruction, unless it waits for a loop. -/
def instr? : Op → Option Instr
  | instr i => some i
  | breakLoop | continueLoop => none

end Op

/-- Code of statements: instructions and waiting jumps with their lines. -/
abbrev OpenCode := List (Op × Nat)

namespace OpenCode

/-- The number of bytes of some code. -/
def size : OpenCode → Nat
  | [] => 0
  | (op, _) :: rest => op.size + size rest

/-- Code in which nothing waits. -/
def ofCode (code : Code) : OpenCode :=
  code.map fun (i, line) => (.instr i, line)

/-- The instructions alone. Outside loops nothing waits. -/
def toCode (code : OpenCode) : Code :=
  code.filterMap fun (op, line) => op.instr?.map (·, line)

end OpenCode

/-- The jump that is always taken, over the given number of bytes. -/
def Instr.goto (distance : Int) : Instr :=
  .jump .always (Int32.ofInt distance)

/-- Closes the waiting jumps of a loop body. The targets and the offset `position` of the code are
measured from the start of the body. -/
def close (breakTo continueTo : Int) : Nat → OpenCode → Code
  | _, [] => []
  | position, (op, line) :: rest =>
    let stop := position + op.size
    let i := match op with
      | .instr i => i
      | .breakLoop => .goto (breakTo - stop)
      | .continueLoop => .goto (continueTo - stop)
    (i, line) :: close breakTo continueTo stop rest

/-! ### Steps -/

/-- Instructions that belong to the current line. -/
def emit (is : List Instr) : Emit Code := do
  let draft ← get
  return is.map (·, draft.line)

/-- From now on instructions belong to `line`. -/
def atLine (line : Nat) : Emit Unit :=
  modify fun draft => { draft with line }

/-- The position of a constant. -/
def constantPosition (c : Constant) : Emit UInt32 :=
  modifyGet fun draft =>
    let (position, pool) := draft.pool.push c
    (UInt32.ofNat position, { draft with pool })

/-- The position of a name. -/
def namePosition (name : String) : Emit UInt32 :=
  constantPosition (.string name)

/-- Pushes a constant. -/
def emitConstant (c : Constant) : Emit Code := do
  let position ← constantPosition c
  emit [.constant position]

/-- The position of a function that is compiled. -/
def functionPosition (p : Proto) : Emit UInt32 :=
  modifyGet fun draft =>
    (UInt32.ofNat draft.functions.size, { draft with functions := draft.functions.push p })

/-- The function of some code, in a draft that starts at `line` without constants. -/
def protoOf (chunkName : String) (name : Option String) (parameters : List String) (line : Nat)
    (body : Emit Code) : Proto :=
  let (code, draft) := body ⟨.empty, #[], line⟩
  ({ Builder.empty with pool := draft.pool, functions := draft.functions }.emitAll code).proto
    chunkName name parameters line

/-! ### Operators -/

/-- The instruction of an operator in front of its operand. -/
def UnaryOp.instr : UnaryOp → Instr
  | not => .not
  | negate => .negate

/-- The instructions of an operator behind its operands. -/
def BinaryOp.instrs : BinaryOp → List Instr
  | multiply => [.operate .multiply]
  | divide => [.operate .divide]
  | modulo => [.operate .modulo]
  | add => [.operate .add]
  | subtract => [.operate .subtract]
  | less => [.operate .less]
  | lessEqual => [.operate .lessEqual]
  | greater => [.operate .greater]
  | greaterEqual => [.operate .greaterEqual]
  | equal => [.operate .equals]
  | notEqual => [.operate .equals, .not]
  | strictEqual => [.operate .strictEquals]
  | strictNotEqual => [.operate .strictEquals, .not]

/-- The jump over the right operand when the left one decides. -/
def LogicalOp.jumpKind : LogicalOp → JumpKind
  | and => .ifFalseOrPop
  | or => .ifTrueOrPop

/-- The kind of binding that a keyword declares. -/
def VariableKind.binding : VariableKind → BindingKind
  | let_ => .let_
  | const_ => .const_
  | var_ => .var_

/-- Pushes the value of an expression of one token. -/
def compileAtom : Atom → Emit Code
  | .number value => emitConstant (.number value)
  | .bool value => emitConstant (.bool value)
  | .null => emitConstant .null
  | .undefined => emitConstant .undefined
  | .string text => emitConstant (.string text)
  | .name text => do
    let name ← namePosition text
    emit [.get name]

/-- Binds a declared function, which is compiled already. -/
def bindFunction (decl : FunctionDecl) (compiled : Proto) : Emit Code :=
  match decl.name with
  | none => return []
  | some name => do
    atLine decl.line
    let position ← functionPosition compiled
    let closure ← emit [.closure position]
    let name ← namePosition name
    let last ← emit [.declare name .function]
    return closure ++ last

mutual

/-- Pushes the value of an expression. -/
def compileExpr : Expr → Emit Code
  | .atom a _ _ => compileAtom a
  | .group inner => compileExpr inner
  | .unary op operand => do
    let value ← compileExpr operand
    let last ← emit [op.instr]
    return value ++ last
  | .binary op left right => do
    let first ← compileExpr left
    let second ← compileExpr right
    let last ← emit op.instrs
    return first ++ second ++ last
  | .logical op left right => do
    let first ← compileExpr left
    let second ← compileExpr right
    let jump ← emit [.jump op.jumpKind (Int32.ofInt second.size)]
    return first ++ jump ++ second
  | .assignName name value => do
    let value ← compileExpr value
    let name ← namePosition name
    let last ← emit [.set name]
    return value ++ last
  | .assignProperty object name value => do
    let object ← compileExpr object
    let value ← compileExpr value
    let name ← namePosition name
    let last ← emit [.setProperty name]
    return object ++ value ++ last
  | .assignIndex object index value => do
    let object ← compileExpr object
    let index ← compileExpr index
    let value ← compileExpr value
    let last ← emit [.setIndex]
    return object ++ index ++ value ++ last
  | .call callee arguments => do
    let callee ← compileExpr callee
    let values ← compileExprs arguments
    let last ← emit [.call (UInt32.ofNat arguments.length)]
    return callee ++ values ++ last
  | .property object name => do
    let object ← compileExpr object
    let name ← namePosition name
    let last ← emit [.getProperty name]
    return object ++ last
  | .index object index => do
    let object ← compileExpr object
    let index ← compileExpr index
    let last ← emit [.getIndex]
    return object ++ index ++ last
  | .array elements => do
    let values ← compileExprs elements
    let last ← emit [.makeArray (UInt32.ofNat elements.length)]
    return values ++ last
  | .object entries => do
    let values ← compileEntries entries
    let last ← emit [.makeObject (UInt32.ofNat entries.length)]
    return values ++ last
  | .function decl => do
    let position ← functionPosition (compileFunction decl)
    emit [.closure position]

/-- Pushes the values of expressions in order. -/
def compileExprs : List Expr → Emit Code
  | [] => return []
  | e :: rest => do
    let first ← compileExpr e
    let others ← compileExprs rest
    return first ++ others

/-- Pushes keys and values in order. -/
def compileEntries : List (String × Expr) → Emit Code
  | [] => return []
  | (key, value) :: rest => do
    let key ← emitConstant (.string key)
    let value ← compileExpr value
    let others ← compileEntries rest
    return key ++ value ++ others

/-- Pushes the value of an expression, or that of none. -/
def compileValue : Option Expr → Emit Code
  | some e => compileExpr e
  | none => emitConstant .undefined

/-- The function of a declaration. Its body ends by returning the undefined value. -/
def compileFunction : FunctionDecl → Proto
  | .mk name parameters body line =>
    protoOf (displayName name) name parameters line do
      let bindings ← hoist body
      let code ← compileStmts none body
      let value ← emitConstant .undefined
      let last ← emit [.ret]
      return bindings ++ OpenCode.toCode code ++ value ++ last

/-- Binds the functions that are declared in a list of statements. -/
def hoist : List Stmt → Emit Code
  | [] => return []
  | .function decl :: rest => do
    let first ← bindFunction decl (compileFunction decl)
    let others ← hoist rest
    return first ++ others
  | _ :: rest => hoist rest

/-- Runs statements in order. In a loop, `depth` scopes have been opened since its body. -/
def compileStmts (depth : Option Nat) : List Stmt → Emit OpenCode
  | [] => return []
  | s :: rest => do
    let first ← compileStmt true depth s
    let others ← compileStmts depth rest
    return first ++ others

/-- Runs a statement. A function is bound when it is reached, unless it is `hoisted`. -/
def compileStmt (hoisted : Bool) (depth : Option Nat) : Stmt → Emit OpenCode
  | .declare kind name initial line => do
    atLine line
    let value ← compileValue initial
    let name ← namePosition name
    let last ← emit [.declare name kind.binding]
    return .ofCode (value ++ last)
  | .function decl => do
    if hoisted then
      atLine decl.line
      return []
    else
      let code ← bindFunction decl (compileFunction decl)
      return .ofCode code
  | .expression e line => do
    atLine line
    let value ← compileExpr e
    let last ← emit [.pop]
    return .ofCode (value ++ last)
  | .block body line => do
    atLine line
    let start ← emit [.pushScope]
    let bindings ← hoist body
    let code ← compileStmts (depth.map (· + 1)) body
    let last ← emit [.popScope]
    return .ofCode (start ++ bindings) ++ code ++ .ofCode last
  | .conditional condition success none line => do
    atLine line
    let test ← compileExpr condition
    let yes ← compileStmt false depth success
    let skip := (Instr.jump .ifFalse (Int32.ofInt (OpenCode.size yes)), line)
    return .ofCode (test ++ [skip]) ++ yes
  | .conditional condition success (some failure) line => do
    atLine line
    let test ← compileExpr condition
    let yes ← compileStmt false depth success
    let yesLine := (← get).line
    let no ← compileStmt false depth failure
    let skip := (Instr.jump .ifFalse (Int32.ofInt (OpenCode.size yes + Instr.wideSize)), line)
    let pass := (Instr.goto (OpenCode.size no), yesLine)
    return .ofCode (test ++ [skip]) ++ yes ++ .ofCode [pass] ++ no
  | .whileLoop condition body line => do
    atLine line
    let test ← compileExpr condition
    let round ← compileStmt false (some 0) body
    atLine line
    let length := OpenCode.size round + Instr.wideSize
    let head := Code.size test + Instr.wideSize
    let skip ← emit [.jump .ifFalse (Int32.ofInt length)]
    let back ← emit [.goto (-(head + length : Int))]
    return .ofCode (test ++ skip ++ close length (-(head : Int)) 0 round ++ back)
  | .forLoop start condition increment body line => do
    atLine line
    let opening ← emit [.pushScope]
    let first ← compileStart start
    atLine line
    let test ← compileTest condition
    let round ← compileStmt false (some 0) body
    atLine line
    let next ← compileIncrement increment
    let length := OpenCode.size round + Code.size next + Instr.wideSize
    let skip ← emit (if condition.isSome then [.jump .ifFalse (Int32.ofInt length)] else [])
    let head := Code.size test + Code.size skip
    let back ← emit [.goto (-(head + length : Int))]
    let closing ← emit [.popScope]
    return .ofCode opening ++ first ++
      .ofCode (test ++ skip ++ close length (OpenCode.size round) 0 round ++ next ++ back ++ closing)
  | .returnValue value line => do
    atLine line
    let value ← compileValue value
    let last ← emit [.ret]
    return .ofCode (value ++ last)
  | .breakLoop line => do
    atLine line
    match depth with
    | none => return []
    | some n => return OpenCode.ofCode (List.replicate n (.popScope, line)) ++ [(.breakLoop, line)]
  | .continueLoop line => do
    atLine line
    match depth with
    | none => return []
    | some n => return OpenCode.ofCode (List.replicate n (.popScope, line)) ++ [(.continueLoop, line)]
  | .empty line => do
    atLine line
    return []

/-- Runs what a counting loop does first. -/
def compileStart : Option Stmt → Emit OpenCode
  | some s => compileStmt true none s
  | none => return []

/-- Pushes the value of the condition of a counting loop, if it has one. -/
def compileTest : Option Expr → Emit Code
  | some e => compileExpr e
  | none => return []

/-- Evaluates what a counting loop does after each round. -/
def compileIncrement : Option Expr → Emit Code
  | some e => do
    let value ← compileExpr e
    let last ← emit [.pop]
    return value ++ last
  | none => return []

end

/-- A program as a function without parameters. Its entry belongs to the first line and its end to
no line at all. -/
def compileProgram (program : Program) : Proto :=
  protoOf "PROGRAM" none [] 1 do
    let enter ← emit [.enter]
    let bindings ← hoist program
    let code ← compileStmts none program
    return enter ++ bindings ++ OpenCode.toCode code ++ [(.halt, 0)]

end Tracepoint
