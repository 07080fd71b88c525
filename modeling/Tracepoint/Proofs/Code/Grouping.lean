/-
Parentheses and code.

Parentheses say how a text is read.  Once it is read they say nothing more: a tree that stands in
parentheses has the code that it has without them, and so have the trees that it is part of, up to
whole programs.  The same is true of the places of names and numbers in the source.  Lines of
statements and of functions are another matter, since instructions belong to them.

Taking parentheses away goes into functions, whose code is part of the code around them.

Main definitions:

* `Expr.ungrouped`, `Stmt.ungrouped` and their companions — trees without parentheses, and without
  the places of names and numbers.

Main results:

* `compileExpr_ungrouped`, `compileStmt_ungrouped` and their companions — each tree has the code of
  the tree without parentheses;
* `compileProgram_ungrouped` — **so has each program**;
* `compileProgram_eq_of_ungrouped` — **programs that differ in parentheses only have the same
  code**, with the same bytes, lines, constants and functions.
-/

import Mathlib.Data.Nat.Notation
import Tracepoint.Compile

set_option relaxedAutoImplicit false
set_option autoImplicit false

namespace Tracepoint

/-! ### Trees without parentheses -/

mutual

/-- The expression without parentheses, and without the places of names and numbers. -/
def Expr.ungrouped : Expr → Expr
  | .atom a _ _ => .atom a ⟨0, 0⟩ 0
  | .group inner => inner.ungrouped
  | .unary op operand => .unary op operand.ungrouped
  | .binary op left right => .binary op left.ungrouped right.ungrouped
  | .logical op left right => .logical op left.ungrouped right.ungrouped
  | .assignName name value => .assignName name value.ungrouped
  | .assignProperty object name value => .assignProperty object.ungrouped name value.ungrouped
  | .assignIndex object index value =>
    .assignIndex object.ungrouped index.ungrouped value.ungrouped
  | .call callee arguments => .call callee.ungrouped (exprsUngrouped arguments)
  | .property object name => .property object.ungrouped name
  | .index object index => .index object.ungrouped index.ungrouped
  | .array elements => .array (exprsUngrouped elements)
  | .object entries => .object (entriesUngrouped entries)
  | .function decl => .function decl.ungrouped

/-- The expressions without parentheses. -/
def exprsUngrouped : List Expr → List Expr
  | [] => []
  | e :: rest => e.ungrouped :: exprsUngrouped rest

/-- The entries, their values without parentheses. -/
def entriesUngrouped : List (String × Expr) → List (String × Expr)
  | [] => []
  | (key, value) :: rest => (key, value.ungrouped) :: entriesUngrouped rest

/-- The expression without parentheses, if there is one. -/
def valueUngrouped : Option Expr → Option Expr
  | some e => some e.ungrouped
  | none => none

/-- The function, its body without parentheses. -/
def FunctionDecl.ungrouped : FunctionDecl → FunctionDecl
  | .mk name parameters body line => .mk name parameters (stmtsUngrouped body) line

/-- The statements without parentheses. -/
def stmtsUngrouped : List Stmt → List Stmt
  | [] => []
  | s :: rest => s.ungrouped :: stmtsUngrouped rest

/-- The statement without parentheses. Those around conditions are not part of the tree. -/
def Stmt.ungrouped : Stmt → Stmt
  | .declare kind name initial line => .declare kind name (valueUngrouped initial) line
  | .function decl => .function decl.ungrouped
  | .expression e line => .expression e.ungrouped line
  | .block body line => .block (stmtsUngrouped body) line
  | .conditional condition success failure line =>
    .conditional condition.ungrouped success.ungrouped (branchUngrouped failure) line
  | .whileLoop condition body line => .whileLoop condition.ungrouped body.ungrouped line
  | .forLoop start condition increment body line =>
    .forLoop (branchUngrouped start) (valueUngrouped condition) (valueUngrouped increment)
      body.ungrouped line
  | .returnValue value line => .returnValue (valueUngrouped value) line
  | .breakLoop line => .breakLoop line
  | .continueLoop line => .continueLoop line
  | .empty line => .empty line

/-- The statement without parentheses, if there is one. -/
def branchUngrouped : Option Stmt → Option Stmt
  | some s => some s.ungrouped
  | none => none

end

/-! ### What stays -/

@[simp] theorem length_exprsUngrouped (es : List Expr) : (exprsUngrouped es).length = es.length := by
  induction es with
  | nil => rfl
  | cons e rest ih => rw [exprsUngrouped, List.length_cons, ih, List.length_cons]

@[simp] theorem length_entriesUngrouped (entries : List (String × Expr)) :
    (entriesUngrouped entries).length = entries.length := by
  induction entries with
  | nil => rfl
  | cons entry rest ih => rw [entriesUngrouped, List.length_cons, ih, List.length_cons]

@[simp] theorem isSome_valueUngrouped (value : Option Expr) :
    (valueUngrouped value).isSome = value.isSome := by
  cases value <;> rfl

/-- A function is bound by its name and in its line. -/
theorem bindFunction_ungrouped (decl : FunctionDecl) :
    bindFunction decl.ungrouped = bindFunction decl := by
  cases decl
  rfl

/-! ### Code -/

mutual

theorem compileExpr_ungrouped : ∀ e : Expr, compileExpr e.ungrouped = compileExpr e
  | .atom a _ _ => by rw [Expr.ungrouped, compileExpr, compileExpr]
  | .group inner => by rw [Expr.ungrouped, compileExpr, compileExpr_ungrouped inner]
  | .unary op operand => by
      rw [Expr.ungrouped, compileExpr, compileExpr, compileExpr_ungrouped operand]
  | .binary op left right => by
      rw [Expr.ungrouped, compileExpr, compileExpr, compileExpr_ungrouped left,
        compileExpr_ungrouped right]
  | .logical op left right => by
      rw [Expr.ungrouped, compileExpr, compileExpr, compileExpr_ungrouped left,
        compileExpr_ungrouped right]
  | .assignName name value => by
      rw [Expr.ungrouped, compileExpr, compileExpr, compileExpr_ungrouped value]
  | .assignProperty object name value => by
      rw [Expr.ungrouped, compileExpr, compileExpr, compileExpr_ungrouped object,
        compileExpr_ungrouped value]
  | .assignIndex object index value => by
      rw [Expr.ungrouped, compileExpr, compileExpr, compileExpr_ungrouped object,
        compileExpr_ungrouped index, compileExpr_ungrouped value]
  | .call callee arguments => by
      rw [Expr.ungrouped, compileExpr, compileExpr, compileExpr_ungrouped callee,
        compileExprs_ungrouped arguments, length_exprsUngrouped]
  | .property object name => by
      rw [Expr.ungrouped, compileExpr, compileExpr, compileExpr_ungrouped object]
  | .index object index => by
      rw [Expr.ungrouped, compileExpr, compileExpr, compileExpr_ungrouped object,
        compileExpr_ungrouped index]
  | .array elements => by
      rw [Expr.ungrouped, compileExpr, compileExpr, compileExprs_ungrouped elements,
        length_exprsUngrouped]
  | .object entries => by
      rw [Expr.ungrouped, compileExpr, compileExpr, compileEntries_ungrouped entries,
        length_entriesUngrouped]
  | .function decl => by
      rw [Expr.ungrouped, compileExpr, compileExpr, compileFunction_ungrouped decl]

theorem compileExprs_ungrouped : ∀ es : List Expr,
    compileExprs (exprsUngrouped es) = compileExprs es
  | [] => by rw [exprsUngrouped]
  | e :: rest => by
      rw [exprsUngrouped, compileExprs, compileExprs, compileExpr_ungrouped e,
        compileExprs_ungrouped rest]

theorem compileEntries_ungrouped : ∀ entries : List (String × Expr),
    compileEntries (entriesUngrouped entries) = compileEntries entries
  | [] => by rw [entriesUngrouped]
  | (key, value) :: rest => by
      rw [entriesUngrouped, compileEntries, compileEntries, compileExpr_ungrouped value,
        compileEntries_ungrouped rest]

theorem compileValue_ungrouped : ∀ value : Option Expr,
    compileValue (valueUngrouped value) = compileValue value
  | some e => by rw [valueUngrouped, compileValue, compileValue, compileExpr_ungrouped e]
  | none => by rw [valueUngrouped]

/-- The code of a function is part of the code around it, so it has to be the same too. -/
theorem compileFunction_ungrouped : ∀ decl : FunctionDecl,
    compileFunction decl.ungrouped = compileFunction decl
  | .mk name parameters body line => by
      rw [FunctionDecl.ungrouped, compileFunction, compileFunction, hoist_ungrouped body,
        compileStmts_ungrouped none body]

theorem hoist_ungrouped : ∀ body : List Stmt, hoist (stmtsUngrouped body) = hoist body
  | [] => by rw [stmtsUngrouped]
  | .function decl :: rest => by
      rw [stmtsUngrouped, Stmt.ungrouped, hoist, hoist, bindFunction_ungrouped,
        compileFunction_ungrouped decl, hoist_ungrouped rest]
  | .declare _ _ _ _ :: rest
  | .expression _ _ :: rest
  | .block _ _ :: rest
  | .conditional _ _ _ _ :: rest
  | .whileLoop _ _ _ :: rest
  | .forLoop _ _ _ _ _ :: rest
  | .returnValue _ _ :: rest
  | .breakLoop _ :: rest
  | .continueLoop _ :: rest
  | .empty _ :: rest => by
      simp only [stmtsUngrouped, Stmt.ungrouped, hoist, hoist_ungrouped rest]

theorem compileStmts_ungrouped (depth : Option ℕ) : ∀ body : List Stmt,
    compileStmts depth (stmtsUngrouped body) = compileStmts depth body
  | [] => by rw [stmtsUngrouped]
  | s :: rest => by
      rw [stmtsUngrouped, compileStmts, compileStmts, compileStmt_ungrouped true depth s,
        compileStmts_ungrouped depth rest]

theorem compileStmt_ungrouped (hoisted : Bool) (depth : Option ℕ) : ∀ s : Stmt,
    compileStmt hoisted depth s.ungrouped = compileStmt hoisted depth s
  | .declare kind name initial line => by
      rw [Stmt.ungrouped, compileStmt, compileStmt, compileValue_ungrouped initial]
  | .function (.mk name parameters body line) => by
      rw [Stmt.ungrouped, compileStmt, compileStmt, bindFunction_ungrouped,
        compileFunction_ungrouped (.mk name parameters body line)]
      rfl
  | .expression e line => by
      rw [Stmt.ungrouped, compileStmt, compileStmt, compileExpr_ungrouped e]
  | .block body line => by
      rw [Stmt.ungrouped, compileStmt, compileStmt, hoist_ungrouped body]
      simp only [compileStmts_ungrouped _ body]
  | .conditional condition success none line => by
      rw [Stmt.ungrouped, branchUngrouped, compileStmt, compileStmt,
        compileExpr_ungrouped condition, compileStmt_ungrouped false depth success]
  | .conditional condition success (some failure) line => by
      rw [Stmt.ungrouped, branchUngrouped, compileStmt, compileStmt,
        compileExpr_ungrouped condition, compileStmt_ungrouped false depth success,
        compileStmt_ungrouped false depth failure]
  | .whileLoop condition body line => by
      rw [Stmt.ungrouped, compileStmt, compileStmt, compileExpr_ungrouped condition,
        compileStmt_ungrouped false (some 0) body]
  | .forLoop start condition increment body line => by
      rw [Stmt.ungrouped, compileStmt, compileStmt, compileStart_ungrouped start,
        compileTest_ungrouped condition, compileStmt_ungrouped false (some 0) body,
        compileIncrement_ungrouped increment, isSome_valueUngrouped]
  | .returnValue value line => by
      rw [Stmt.ungrouped, compileStmt, compileStmt, compileValue_ungrouped value]
  | .breakLoop line => by rw [Stmt.ungrouped]
  | .continueLoop line => by rw [Stmt.ungrouped]
  | .empty line => by rw [Stmt.ungrouped]

theorem compileStart_ungrouped : ∀ start : Option Stmt,
    compileStart (branchUngrouped start) = compileStart start
  | some s => by
      rw [branchUngrouped, compileStart, compileStart, compileStmt_ungrouped true none s]
  | none => by rw [branchUngrouped]

theorem compileTest_ungrouped : ∀ condition : Option Expr,
    compileTest (valueUngrouped condition) = compileTest condition
  | some e => by rw [valueUngrouped, compileTest, compileTest, compileExpr_ungrouped e]
  | none => by rw [valueUngrouped]

theorem compileIncrement_ungrouped : ∀ increment : Option Expr,
    compileIncrement (valueUngrouped increment) = compileIncrement increment
  | some e => by
      rw [valueUngrouped, compileIncrement, compileIncrement, compileExpr_ungrouped e]
  | none => by rw [valueUngrouped]

end

/-- **A program has the code that it has without parentheses.** -/
theorem compileProgram_ungrouped (program : Program) :
    compileProgram (stmtsUngrouped program) = compileProgram program := by
  rw [compileProgram, compileProgram, hoist_ungrouped, compileStmts_ungrouped]

/-- **Programs that differ in parentheses only have the same code.** The bytes, the lines of the
instructions, the constants and the functions are the same, and so on inside of each function. -/
theorem compileProgram_eq_of_ungrouped {program other : Program}
    (h : stmtsUngrouped program = stmtsUngrouped other) :
    compileProgram program = compileProgram other :=
  calc compileProgram program
    _ = compileProgram (stmtsUngrouped program) := (compileProgram_ungrouped program).symm
    _ = compileProgram (stmtsUngrouped other) := congrArg compileProgram h
    _ = compileProgram other := compileProgram_ungrouped other

/-- A program that binds a function, which adds its argument to itself, and calls it. The argument
is written in some way, and the names stand `skip` places further to the right. -/
def doubling (wrap : Expr → Expr) (skip : ℕ) : Program :=
  let x : Expr := wrap (.atom (.name "x") ⟨skip, skip + 1⟩ 1)
  let double : FunctionDecl := .mk none ["x"] [.returnValue (some (.binary .add x x)) 2] 1
  [.declare .let_ "double" (some (.function double)) 1,
    .expression (.call (.atom (.name "double") ⟨40 + skip, 46 + skip⟩ 3) [x]) 3]

/-- It makes no difference whether the argument is written in parentheses. -/
theorem compileProgram_doubling_group :
    stmtsUngrouped (doubling .group 9) = stmtsUngrouped (doubling id 8) ∧
      compileProgram (doubling .group 9) = compileProgram (doubling id 8) :=
  ⟨rfl, compileProgram_eq_of_ungrouped rfl⟩

end Tracepoint
