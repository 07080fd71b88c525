/-
A compiler that patches.

The compiler puts code together from parts, so that the length of a part is known before the jump
over it is made.  A compiler that writes bytes at once does not know the length: it emits a jump
that leads nowhere yet, goes on, and writes the distance into the jump when the place is there that
it leads to.  The jumps out of a loop are kept until the end of the loop.

This file spells that compiler out.  What could go wrong is that a jump is patched which does not
lie in what has been emitted; then the compiler does not go on.

Main definitions:

* `Assembly`, `Loop` — what has been emitted, and the loops that are open;
* `Assemble` — steps of this compiler;
* `Assemble.patch` — **patches a jump, if its bytes have been emitted**;
* `Assemble.expr`, `Assemble.stmt` and their companions — expressions and statements;
* `Assemble.function`, `Assemble.program` — whole functions and programs.
-/

import Mathlib.Data.Nat.Notation
import Tracepoint.Compile

set_option relaxedAutoImplicit false
set_option autoImplicit false

namespace Tracepoint

/-- A loop that has no end yet. -/
structure Loop where
  /-- The number of scopes around its body. -/
  scopes : ℕ
  /-- Where the next round starts, if that is known already. -/
  again : Option ℕ
  /-- The jumps to the next round. -/
  continues : List ℕ
  /-- The jumps behind the loop. -/
  breaks : List ℕ

/-- What has been emitted, and where the compiler is. -/
structure Assembly where
  builder : Builder
  /-- The line that emitted instructions belong to. -/
  line : ℕ
  /-- The number of scopes around this place. -/
  scopes : ℕ
  /-- The loops around this place, the innermost first. -/
  loops : List Loop

namespace Assembly

/-- Nothing has been emitted. -/
def start (line : ℕ) : Assembly :=
  ⟨.empty, line, 0, []⟩

end Assembly

/-- Steps of a compiler that may have to stop. -/
abbrev Assemble := StateT Assembly Option

namespace Assemble

/-! ### Steps -/

/-- Emits an instruction, and gives the offset at which it starts. -/
def emit (i : Instr) : Assemble ℕ :=
  modifyGet fun s => (s.builder.size, { s with builder := s.builder.emit i s.line })

/-- Emits instructions. -/
def emitAll : List Instr → Assemble Unit
  | [] => return ()
  | i :: rest => do
    let _ ← emit i
    emitAll rest

/-- From now on instructions belong to `line`. -/
def atLine (line : ℕ) : Assemble Unit :=
  modify fun s => { s with line }

/-- The end of what has been emitted. -/
def here : Assemble ℕ := do
  return (← get).builder.size

/-- Gives the jump at `start` this place as its target. The bytes of the jump have to be there. -/
def patch (start : ℕ) : Assemble Unit := fun s =>
  if start + Instr.wideSize ≤ s.builder.size then
    some ((), { s with builder := s.builder.patchJump start })
  else none

/-- Patches jumps in order. -/
def patchAll : List ℕ → Assemble Unit
  | [] => return ()
  | start :: rest => do
    patch start
    patchAll rest

/-- Emits a jump back to `target`. -/
def emitLoop (target : ℕ) : Assemble Unit :=
  modify fun s => { s with builder := s.builder.emitLoop target s.line }

/-- The position of a constant. -/
def constantPosition (c : Constant) : Assemble UInt32 :=
  modifyGet fun s =>
    let (position, builder) := s.builder.pushConstant c
    (UInt32.ofNat position, { s with builder })

/-- The position of a name. -/
def namePosition (name : String) : Assemble UInt32 :=
  constantPosition (.string name)

/-- Pushes a constant. -/
def emitConstant (c : Constant) : Assemble Unit := do
  let position ← constantPosition c
  let _ ← emit (.constant position)

/-- The position of a function, if it could be compiled. -/
def functionPosition (p? : Option Proto) : Assemble UInt32 := do
  let p ← (p? : Option Proto)
  modifyGet fun s =>
    let (position, builder) := s.builder.pushFunction p
    (UInt32.ofNat position, { s with builder })

/-! ### Scopes and loops -/

/-- Opens a scope. -/
def openScope : Assemble Unit := do
  let _ ← emit .pushScope
  modify fun s => { s with scopes := s.scopes + 1 }

/-- Closes a scope. -/
def closeScope : Assemble Unit := do
  let _ ← emit .popScope
  modify fun s => { s with scopes := s.scopes - 1 }

/-- Closes the scopes inside `depth` of them, on the way out of a loop. -/
def leaveScopes (depth : ℕ) : Assemble Unit := do
  let s ← get
  emitAll (List.replicate (s.scopes - depth) .popScope)

/-- Enters a loop. -/
def enterLoop (again : Option ℕ) : Assemble Unit :=
  modify fun s => { s with loops := ⟨s.scopes, again, [], []⟩ :: s.loops }

/-- The innermost loop. -/
def innermost : Assemble (Option Loop) := do
  return (← get).loops.head?

/-- Changes the innermost loop. -/
def modifyInnermost (f : Loop → Loop) : Assemble Unit :=
  modify fun s => { s with loops := s.loops.modifyHead f }

/-- Lets the jumps to the next round of the innermost loop lead here. -/
def patchContinues : Assemble Unit := do
  let loop ← innermost
  modifyInnermost fun loop => { loop with continues := [] }
  patchAll (loop.elim [] Loop.continues)

/-- Leaves the innermost loop, and lets the jumps behind it lead here. -/
def leaveLoop : Assemble Unit := do
  let loop ← innermost
  modify fun s => { s with loops := s.loops.tail }
  patchAll (loop.elim [] Loop.breaks)

/-- Ends the innermost loop, which starts at `head` and has jumps that leave it at its start. -/
def endLoop (head : ℕ) (exits : List ℕ) : Assemble Unit := do
  emitLoop head
  patchAll exits
  leaveLoop

/-- The rounds of a counting loop, which has this test and goes on like this. -/
def rounds (line : ℕ) (test : Assemble (List ℕ)) (body increment : Assemble Unit) :
    Assemble Unit := do
  let head ← here
  let exits ← test
  enterLoop none
  body
  atLine line
  patchContinues
  increment
  endLoop head exits

/-- Emits the jump behind the innermost loop. -/
def breakLoop : Assemble Unit := do
  match ← innermost with
  | none => return ()
  | some loop =>
    leaveScopes loop.scopes
    let jump ← emit (.jump .always 0)
    modifyInnermost fun loop => { loop with breaks := loop.breaks ++ [jump] }

/-- Emits the jump to the next round of the innermost loop. -/
def continueLoop : Assemble Unit := do
  match ← innermost with
  | none => return ()
  | some loop =>
    leaveScopes loop.scopes
    match loop.again with
    | some target => emitLoop target
    | none =>
      let jump ← emit (.jump .always 0)
      modifyInnermost fun loop => { loop with continues := loop.continues ++ [jump] }

/-! ### Trees -/

/-- Pushes the value of an expression of one token. -/
def atom : Atom → Assemble Unit
  | .number value => emitConstant (.number value)
  | .bool value => emitConstant (.bool value)
  | .null => emitConstant .null
  | .undefined => emitConstant .undefined
  | .string text => emitConstant (.string text)
  | .name text => do
    let name ← namePosition text
    let _ ← emit (.get name)

/-- Binds a declared function, if it can be compiled. -/
def binding (decl : FunctionDecl) (compiled : Option Proto) : Assemble Unit :=
  match decl.name with
  | none => return ()
  | some name => do
    atLine decl.line
    let position ← functionPosition compiled
    let _ ← emit (.closure position)
    let name ← namePosition name
    let _ ← emit (.declare name .function)

mutual

/-- Pushes the value of an expression. -/
def expr : Expr → Assemble Unit
  | .atom a _ _ => atom a
  | .group inner => expr inner
  | .unary op operand => do
    expr operand
    let _ ← emit op.instr
  | .binary op left right => do
    expr left
    expr right
    emitAll op.instrs
  | .logical op left right => do
    expr left
    let skip ← emit (.jump op.jumpKind 0)
    expr right
    patch skip
  | .assignName name value => do
    expr value
    let name ← namePosition name
    let _ ← emit (.set name)
  | .assignProperty object name value => do
    expr object
    expr value
    let name ← namePosition name
    let _ ← emit (.setProperty name)
  | .assignIndex object index value => do
    expr object
    expr index
    expr value
    let _ ← emit .setIndex
  | .call callee arguments => do
    expr callee
    exprs arguments
    let _ ← emit (.call (UInt32.ofNat arguments.length))
  | .property object name => do
    expr object
    let name ← namePosition name
    let _ ← emit (.getProperty name)
  | .index object index => do
    expr object
    expr index
    let _ ← emit .getIndex
  | .array elements => do
    exprs elements
    let _ ← emit (.makeArray (UInt32.ofNat elements.length))
  | .object es => do
    entries es
    let _ ← emit (.makeObject (UInt32.ofNat es.length))
  | .function decl => do
    let position ← functionPosition (function decl)
    let _ ← emit (.closure position)

/-- Pushes the values of expressions in order. -/
def exprs : List Expr → Assemble Unit
  | [] => return ()
  | e :: rest => do
    expr e
    exprs rest

/-- Pushes keys and values in order. -/
def entries : List (String × Expr) → Assemble Unit
  | [] => return ()
  | (key, value) :: rest => do
    emitConstant (.string key)
    expr value
    entries rest

/-- Pushes the value of an expression, or that of none. -/
def value : Option Expr → Assemble Unit
  | some e => expr e
  | none => emitConstant .undefined

/-- The function of a declaration. -/
def function : FunctionDecl → Option Proto
  | .mk name parameters body line => do
    let step : Assemble Unit := do
      hoist body
      stmts body
      emitConstant .undefined
      let _ ← emit .ret
    let (_, s) ← step.run (.start line)
    return s.builder.proto (displayName name) name parameters line

/-- Binds the functions that are declared in a list of statements. -/
def hoist : List Stmt → Assemble Unit
  | [] => return ()
  | .function decl :: rest => do
    binding decl (function decl)
    hoist rest
  | _ :: rest => hoist rest

/-- Runs statements in order. -/
def stmts : List Stmt → Assemble Unit
  | [] => return ()
  | s :: rest => do
    stmt true s
    stmts rest

/-- Runs a statement. A function is bound when it is reached, unless it is `hoisted`. -/
def stmt (hoisted : Bool) : Stmt → Assemble Unit
  | .declare kind name initial line => do
    atLine line
    value initial
    let name ← namePosition name
    let _ ← emit (.declare name kind.binding)
  | .function decl =>
    if hoisted then atLine decl.line else binding decl (function decl)
  | .expression e line => do
    atLine line
    expr e
    let _ ← emit .pop
  | .block body line => do
    atLine line
    openScope
    hoist body
    stmts body
    closeScope
  | .conditional condition success none line => do
    atLine line
    expr condition
    let skip ← emit (.jump .ifFalse 0)
    stmt false success
    patch skip
  | .conditional condition success (some failure) line => do
    atLine line
    expr condition
    let skip ← emit (.jump .ifFalse 0)
    stmt false success
    let pass ← emit (.jump .always 0)
    patch skip
    stmt false failure
    patch pass
  | .whileLoop condition body line => do
    atLine line
    let head ← here
    expr condition
    let exit ← emit (.jump .ifFalse 0)
    enterLoop (some head)
    stmt false body
    atLine line
    endLoop head [exit]
  | .forLoop first condition next body line => do
    atLine line
    openScope
    start first
    atLine line
    rounds line (test condition) (stmt false body) (increment next)
    closeScope
  | .returnValue result line => do
    atLine line
    value result
    let _ ← emit .ret
  | .breakLoop line => do
    atLine line
    breakLoop
  | .continueLoop line => do
    atLine line
    continueLoop
  | .empty line => atLine line

/-- Runs what a counting loop does first. -/
def start : Option Stmt → Assemble Unit
  | some s => stmt true s
  | none => return ()

/-- Tests the condition of a counting loop, if it has one, and gives the jump that leaves it. -/
def test : Option Expr → Assemble (List ℕ)
  | some e => do
    expr e
    let exit ← emit (.jump .ifFalse 0)
    return [exit]
  | none => return []

/-- Evaluates what a counting loop does after each round. -/
def increment : Option Expr → Assemble Unit
  | some e => do
    expr e
    let _ ← emit .pop
  | none => return ()

end

/-- A program as a function without parameters. -/
def program (program : Program) : Option Proto := do
  let step : Assemble Unit := do
    let _ ← emit .enter
    hoist program
    stmts program
    atLine 0
    let _ ← emit .halt
  let (_, s) ← step.run (.start 1)
  return s.builder.proto "PROGRAM" none [] 1

end Assemble

end Tracepoint
