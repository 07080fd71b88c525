/-
The places of statements.

The place of a statement is what is around it: whether there is a loop of the same function, and
whether there is a function.  The header of a loop is not inside of this loop, and a function has
a place of its own, wherever it stands.  A call of the parser reads an expression or a program, and
any number of calls may be made one after the other, whatever came of the earlier ones.

Main definitions:

* `Place` — what is around a statement; `Place.Admits` — the jumps that may stand there;
* `Stmt.statements`, `Expr.statements` and their companions — the statements inside of a tree;
* `Parser.Call`, `Parser.read`, `Parser.after` — calls of the parser.

Main results:

* `Expr.allFit`, `Stmt.allFit` — in a placed tree every jump stands where it may;
* `Parser.allFit_of_read` — **so it does in whatever a call yields**;
* `Parser.depths_after` — **behind any calls no loop and no function is open**.
-/

import Tracepoint.Proofs.Grammar.Composition
import Tracepoint.Proofs.Grammar.Placement
import Tracepoint.Proofs.Token.Spans

set_option relaxedAutoImplicit false
set_option autoImplicit false

namespace Tracepoint

/-! ### Places -/

/-- What is around a statement. -/
structure Place where
  /-- There is a loop around it, inside of the same function. -/
  inLoop : Bool
  /-- There is a function around it. -/
  inFunction : Bool
  deriving Repr, DecidableEq

namespace Place

/-- Outside of everything. -/
def outermost : Place :=
  ⟨false, false⟩

/-- The body of a loop that stands here. -/
def ofLoop (place : Place) : Place :=
  { place with inLoop := true }

/-- The body of a function, wherever it stands. -/
def ofFunction : Place :=
  ⟨false, true⟩

/-- The word starts a jump that may stand here. -/
def Admits (place : Place) : Kind → Prop
  | .breakWord | .continueWord => place.inLoop = true
  | .returnWord => place.inFunction = true
  | _ => False

end Place

/-- The word that a jump starts with. -/
def Stmt.jump? : Stmt → Option Kind
  | .breakLoop _ => some .breakWord
  | .continueLoop _ => some .continueWord
  | .returnValue _ _ => some .returnWord
  | _ => none

/-- The statement may stand at the place. -/
def Stmt.Fits (place : Place) (s : Stmt) : Prop :=
  ∀ word ∈ s.jump?, place.Admits word

/-! ### The statements inside of trees -/

mutual

/-- The statements in the functions of an expression, each with its place. -/
def Expr.statements : Expr → List (Place × Stmt)
  | .atom _ _ _ => []
  | .group inner => inner.statements
  | .unary _ operand => operand.statements
  | .binary _ left right => left.statements ++ right.statements
  | .logical _ left right => left.statements ++ right.statements
  | .assignName _ value => value.statements
  | .assignProperty object _ value => object.statements ++ value.statements
  | .assignIndex object index value =>
    object.statements ++ index.statements ++ value.statements
  | .call callee arguments => callee.statements ++ exprsStatements arguments
  | .property object _ => object.statements
  | .index object index => object.statements ++ index.statements
  | .array elements => exprsStatements elements
  | .object entries => entriesStatements entries
  | .function decl => decl.statements

/-- The statements in the functions of some expressions. -/
def exprsStatements : List Expr → List (Place × Stmt)
  | [] => []
  | e :: rest => e.statements ++ exprsStatements rest

/-- The statements in the functions of the values. -/
def entriesStatements : List (String × Expr) → List (Place × Stmt)
  | [] => []
  | (_, e) :: rest => e.statements ++ entriesStatements rest

/-- The statements in the functions of the expression, if there is one. -/
def valueStatements : Option Expr → List (Place × Stmt)
  | none => []
  | some e => e.statements

/-- The statements in the body of a function. -/
def FunctionDecl.statements : FunctionDecl → List (Place × Stmt)
  | .mk _ _ body _ => stmtsStatements .ofFunction body

/-- Some statements at a place, and those inside of them. -/
def stmtsStatements (place : Place) : List Stmt → List (Place × Stmt)
  | [] => []
  | s :: rest => s.statements place ++ stmtsStatements place rest

/-- A statement at a place, and the statements inside of it. -/
def Stmt.statements (place : Place) (s : Stmt) : List (Place × Stmt) :=
  (place, s) :: match s with
    | .declare _ _ initial _ => valueStatements initial
    | .function decl => decl.statements
    | .expression e _ => e.statements
    | .block body _ => stmtsStatements place body
    | .conditional condition success failure _ =>
      condition.statements ++ success.statements place ++ optionalStatements place failure
    | .whileLoop condition body _ => condition.statements ++ body.statements place.ofLoop
    | .forLoop start condition increment body _ =>
      optionalStatements place start ++ valueStatements condition ++ valueStatements increment ++
        body.statements place.ofLoop
    | .returnValue value _ => valueStatements value
    | .breakLoop _ | .continueLoop _ | .empty _ => []

/-- The statement at a place, if there is one, and the statements inside of it. -/
def optionalStatements (place : Place) : Option Stmt → List (Place × Stmt)
  | none => []
  | some s => s.statements place

end

/-- Something holds of every statement at its place. -/
def Everywhere (D : Place → Stmt → Prop) (ss : List (Place × Stmt)) : Prop :=
  ∀ s ∈ ss, D s.1 s.2

section

variable {D : Place → Stmt → Prop} {place : Place} {s : Stmt} {ss rest : List (Place × Stmt)}

@[simp]
theorem everywhere_nil : Everywhere D [] :=
  List.forall_mem_nil _

@[simp]
theorem everywhere_append : Everywhere D (ss ++ rest) ↔ Everywhere D ss ∧ Everywhere D rest :=
  List.forall_mem_append

@[simp]
theorem everywhere_cons : Everywhere D ((place, s) :: rest) ↔ D place s ∧ Everywhere D rest :=
  List.forall_mem_cons

end

/-! ### Placed trees -/

/-- Every jump stands where it may. -/
def AllFit (ss : List (Place × Stmt)) : Prop :=
  Everywhere (fun place s => s.Fits place) ss

theorem allFit_nil : AllFit [] :=
  everywhere_nil

theorem allFit_append {ss rest : List (Place × Stmt)} (h : AllFit ss) (hrest : AllFit rest) :
    AllFit (ss ++ rest) :=
  everywhere_append.2 ⟨h, hrest⟩

theorem allFit_cons {place : Place} {s : Stmt} {rest : List (Place × Stmt)} (h : s.Fits place)
    (hrest : AllFit rest) : AllFit ((place, s) :: rest) :=
  everywhere_cons.2 ⟨h, hrest⟩

theorem Stmt.fits_of_no_jump {place : Place} {s : Stmt} (h : s.jump? = none) :
    s.Fits place := by
  rw [Stmt.Fits, h]
  exact fun _ hword => (nomatch hword)

theorem Stmt.fits_of_jump {place : Place} {s : Stmt} {word : Kind} (h : s.jump? = some word)
    (hadmits : place.Admits word) : s.Fits place := by
  rw [Stmt.Fits, h]
  rintro _ ⟨⟩
  exact hadmits

mutual

theorem Expr.allFit : ∀ e : Expr, e.Placed → AllFit e.statements
  | .atom _ _ _, _ => allFit_nil
  | .group inner, h => inner.allFit h
  | .unary _ operand, h => operand.allFit h
  | .binary _ left right, h => allFit_append (left.allFit h.1) (right.allFit h.2)
  | .logical _ left right, h => allFit_append (left.allFit h.1) (right.allFit h.2)
  | .assignName _ value, h => value.allFit h
  | .assignProperty object _ value, h => allFit_append (object.allFit h.1) (value.allFit h.2)
  | .assignIndex object index value, h =>
    allFit_append (allFit_append (object.allFit h.1) (index.allFit h.2.1)) (value.allFit h.2.2)
  | .call callee arguments, h => allFit_append (callee.allFit h.1) (exprs_allFit arguments h.2)
  | .property object _, h => object.allFit h
  | .index object index, h => allFit_append (object.allFit h.1) (index.allFit h.2)
  | .array elements, h => exprs_allFit elements h
  | .object entries, h => entries_allFit entries h
  | .function decl, h => decl.allFit h

theorem exprs_allFit : ∀ es : List Expr, exprsPlaced es → AllFit (exprsStatements es)
  | [], _ => allFit_nil
  | e :: rest, h => allFit_append (e.allFit h.1) (exprs_allFit rest h.2)

theorem entries_allFit : ∀ es : List (String × Expr), entriesPlaced es →
    AllFit (entriesStatements es)
  | [], _ => allFit_nil
  | (_, e) :: rest, h => allFit_append (e.allFit h.1) (entries_allFit rest h.2)

theorem value_allFit : ∀ e? : Option Expr, valuePlaced e? → AllFit (valueStatements e?)
  | none, _ => allFit_nil
  | some e, h => e.allFit h

theorem FunctionDecl.allFit : ∀ decl : FunctionDecl, decl.Placed → AllFit decl.statements
  | .mk _ _ body _, h => stmts_allFit body .ofFunction false (nofun) h

theorem stmts_allFit : ∀ (ss : List Stmt) (place : Place) (inLoop : Bool),
    (inLoop = true → place.inLoop = true) → stmtsPlaced inLoop place.inFunction ss →
      AllFit (stmtsStatements place ss)
  | [], _, _, _, _ => allFit_nil
  | s :: rest, place, inLoop, hloop, h =>
    allFit_append (s.allFit place inLoop hloop h.1) (stmts_allFit rest place inLoop hloop h.2)

theorem Stmt.allFit : ∀ (s : Stmt) (place : Place) (inLoop : Bool),
    (inLoop = true → place.inLoop = true) → s.Placed inLoop place.inFunction →
      AllFit (s.statements place)
  | .declare _ _ initial _, _, _, _, h =>
    allFit_cons (Stmt.fits_of_no_jump rfl) (value_allFit initial h)
  | .function decl, _, _, _, h => allFit_cons (Stmt.fits_of_no_jump rfl) (decl.allFit h)
  | .expression e _, _, _, _, h => allFit_cons (Stmt.fits_of_no_jump rfl) (e.allFit h)
  | .block body _, place, inLoop, hloop, h =>
    allFit_cons (Stmt.fits_of_no_jump rfl) (stmts_allFit body place inLoop hloop h)
  | .conditional condition success failure _, place, inLoop, hloop, h =>
    allFit_cons (Stmt.fits_of_no_jump rfl) <|
      allFit_append (allFit_append (condition.allFit h.1) (success.allFit place inLoop hloop h.2.1))
        (optional_allFit failure place inLoop hloop h.2.2)
  | .whileLoop condition body _, place, _, _, h =>
    allFit_cons (Stmt.fits_of_no_jump rfl) <|
      allFit_append (condition.allFit h.1) (body.allFit place.ofLoop true (fun _ => rfl) h.2)
  | .forLoop start condition increment body _, place, _, _, h =>
    allFit_cons (Stmt.fits_of_no_jump rfl) <|
      allFit_append
        (allFit_append
          (allFit_append (optional_allFit start place false (nofun) h.1)
            (value_allFit condition h.2.1))
          (value_allFit increment h.2.2.1))
        (body.allFit place.ofLoop true (fun _ => rfl) h.2.2.2)
  | .returnValue value _, _, _, _, h =>
    allFit_cons (Stmt.fits_of_jump rfl h.1) (value_allFit value h.2)
  | .breakLoop _, _, _, hloop, h => allFit_cons (Stmt.fits_of_jump rfl (hloop h)) allFit_nil
  | .continueLoop _, _, _, hloop, h => allFit_cons (Stmt.fits_of_jump rfl (hloop h)) allFit_nil
  | .empty _, _, _, _, _ => allFit_cons (Stmt.fits_of_no_jump rfl) allFit_nil

theorem optional_allFit : ∀ (s? : Option Stmt) (place : Place) (inLoop : Bool),
    (inLoop = true → place.inLoop = true) → optionalPlaced inLoop place.inFunction s? →
      AllFit (optionalStatements place s?)
  | none, _, _, _, _ => allFit_nil
  | some s, place, inLoop, hloop, h => s.allFit place inLoop hloop h

end

/-! ### Calls of the parser -/

/-- What a call of the parser yields. -/
inductive Tree
  | expression (e : Expr)
  | program (statements : Program)

/-- The statements inside of what a call yields, each with its place. -/
def Tree.statements : Tree → List (Place × Stmt)
  | expression e => e.statements
  | program statements => stmtsStatements .outermost statements

namespace Parser

/-- The calls that can be made of a parser. -/
inductive Call
  | expression
  | program
  deriving Repr, DecidableEq

/-- Makes a call. -/
def read (p : Parser) : Call → Except SyntaxError Tree × Parser
  | .expression => (p.nextExpression.1.map .expression, p.nextExpression.2)
  | .program => (p.program.1.map .program, p.program.2)

/-- The parser behind some calls, whatever came of them. -/
def after (p : Parser) (calls : List Call) : Parser :=
  calls.foldl (fun q call => (q.read call).2) p

/-- The steps of a call. -/
def Call.step : Call → ℕ → Parse Tree
  | expression, fuel => .expression <$> Parser.expression fuel 0
  | program, fuel => .program <$> statements fuel

theorem run_map {α β : Type} (f : α → β) (step : ℕ → Parse α) (p : Parser) :
    p.run (fun fuel => f <$> step fuel) = ((p.run step).1.map f, (p.run step).2) := by
  simp only [run, Functor.map, EStateM.map]
  cases step p.fuelFor p with
  | ok a q => rfl
  | error e q => cases e <;> rfl

theorem read_eq_run (p : Parser) (call : Call) : p.read call = p.run call.step := by
  cases call with
  | expression => exact (run_map _ _ _).symm
  | program => exact (run_map _ _ _).symm

theorem Call.prolonged (call : Call) (more fuel : ℕ) :
    Prolonged (call.step fuel) (call.step (more + fuel)) := by
  cases call with
  | expression => exact (prolonged_expression more fuel 0).map
  | program => exact (prolonged_statements more fuel).map

theorem run_snd {α : Type} (step : ℕ → Parse α) (p : Parser) :
    (p.run step).2 = reached (step p.fuelFor p) := by
  simp only [run]
  cases step p.fuelFor p with
  | ok a q => rfl
  | error e q => cases e <;> rfl

/-- **A call leads only forward**, and leaves the depths as they are. -/
theorem reaches_read (p : Parser) (call : Call) : Reaches p (p.read call).2 := by
  rw [read_eq_run, run_snd]
  exact (call.prolonged 0 _).reaches p

theorem reaches_after (p : Parser) (calls : List Call) : Reaches p (p.after calls) := by
  induction calls generalizing p with
  | nil => exact .refl p
  | cons call calls ih => exact (reaches_read p call).trans (ih _)

theorem ahead_ofLexemes {tokens : List Lexeme} (h : tokens ≠ []) :
    (ofLexemes tokens).ahead = tokens := by
  obtain ⟨first, behind, rfl⟩ := List.exists_cons_of_ne_nil h
  rfl

theorem ahead_ofString (source : String) : (ofString source).ahead = Lexer.lexemes source :=
  ahead_ofLexemes (Lexer.lexemesFrom_ne_nil _)

/-- Behind any calls the rest of the tokens of the source is ahead. -/
theorem ahead_after (source : String) (calls : List Call) :
    ((ofString source).after calls).ahead <:+ Lexer.lexemes source := by
  rw [← ahead_ofString]
  exact (reaches_after (ofString source) calls).ahead

/-- **Behind any calls no loop and no function is open.** -/
theorem depths_after (source : String) (calls : List Call) :
    AtDepths 0 0 ((ofString source).after calls) := by
  have hreaches := reaches_after (ofString source) calls
  obtain ⟨hloops, hfunctions⟩ := ofString_depths source
  exact ⟨hreaches.loopDepth.trans hloops, hreaches.functionDepth.trans hfunctions⟩

theorem yields_step (call : Call) (fuel : ℕ) :
    Yields 0 0 (call.step fuel) fun tree => AllFit tree.statements := by
  cases call with
  | expression => exact (yields_expression fuel 0 0 0).map fun e he => e.allFit he
  | program =>
      exact (yields_statements fuel 0 0).map fun ss hss =>
        stmts_allFit ss .outermost false (nofun) hss

/-- **In whatever a call yields every jump stands where it may.** -/
theorem allFit_of_read {p : Parser} {call : Call} {tree : Tree} (hp : p.AtDepths 0 0)
    (h : (p.read call).1 = .ok tree) : AllFit tree.statements := by
  rw [read_eq_run, run] at h
  split at h
  next tree' q hrun =>
    cases h
    exact (yields_step call _ p tree q hp hrun).2
  next => cases h
  next => cases h

end Parser

end Tracepoint
