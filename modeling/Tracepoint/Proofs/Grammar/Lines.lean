/-
The lines of trees.

A statement belongs to the line of the token it starts with, and a function to the line of its
keyword.  The parser makes up no lines of its own: since all statements and functions of a tree
begin with tokens of its source, whatever holds of the lines of these tokens holds of all lines in
the tree.

Main definitions:

* `Expr.Lined`, `Stmt.Lined` and their companions — something holds of all lines in a tree;
* `Headed` — a line in which a statement or a function of a program begins.

Main results:

* `Expr.lined_of_headings`, `Stmt.lined_of_inside` and their companions — the lines in a tree are
  those of the statements and functions in it;
* `headed_of_parse` — **in all lines of a program something begins**;
* `lined_of_parse` — the lines of a program are lines of tokens of its source;
* `numbered_of_parse` — they are counted from one.
-/

import Tracepoint.Proofs.Grammar.Headings
import Tracepoint.Proofs.Token.Lines

set_option relaxedAutoImplicit false
set_option autoImplicit false

namespace Tracepoint

/-! ### Lines in trees -/

mutual

/-- `L` holds of the lines of all functions and statements inside an expression. -/
def Expr.Lined (L : ℕ → Prop) : Expr → Prop
  | .atom _ _ _ => True
  | .group inner => inner.Lined L
  | .unary _ operand => operand.Lined L
  | .binary _ left right => left.Lined L ∧ right.Lined L
  | .logical _ left right => left.Lined L ∧ right.Lined L
  | .assignName _ value => value.Lined L
  | .assignProperty object _ value => object.Lined L ∧ value.Lined L
  | .assignIndex object index value => object.Lined L ∧ index.Lined L ∧ value.Lined L
  | .call callee arguments => callee.Lined L ∧ exprsLined L arguments
  | .property object _ => object.Lined L
  | .index object index => object.Lined L ∧ index.Lined L
  | .array elements => exprsLined L elements
  | .object entries => entriesLined L entries
  | .function decl => decl.Lined L

/-- `L` holds of the lines inside expressions. -/
def exprsLined (L : ℕ → Prop) : List Expr → Prop
  | [] => True
  | e :: rest => e.Lined L ∧ exprsLined L rest

/-- `L` holds of the lines inside the values of entries. -/
def entriesLined (L : ℕ → Prop) : List (String × Expr) → Prop
  | [] => True
  | (_, e) :: rest => e.Lined L ∧ entriesLined L rest

/-- `L` holds of the lines inside an expression, if there is one. -/
def valueLined (L : ℕ → Prop) : Option Expr → Prop
  | none => True
  | some e => e.Lined L

/-- `L` holds of the line of a function and of those inside it. -/
def FunctionDecl.Lined (L : ℕ → Prop) : FunctionDecl → Prop
  | .mk _ _ body line => L line ∧ stmtsLined L body

/-- `L` holds of the lines of statements and of those inside them. -/
def stmtsLined (L : ℕ → Prop) : List Stmt → Prop
  | [] => True
  | s :: rest => s.Lined L ∧ stmtsLined L rest

/-- `L` holds of the line of a statement and of those inside it. -/
def Stmt.Lined (L : ℕ → Prop) : Stmt → Prop
  | .declare _ _ initial line => L line ∧ valueLined L initial
  | .function decl => decl.Lined L
  | .expression e line => L line ∧ e.Lined L
  | .block body line => L line ∧ stmtsLined L body
  | .conditional condition success failure line =>
    L line ∧ condition.Lined L ∧ success.Lined L ∧ optionalLined L failure
  | .whileLoop condition body line => L line ∧ condition.Lined L ∧ body.Lined L
  | .forLoop start condition increment body line =>
    L line ∧ optionalLined L start ∧ valueLined L condition ∧ valueLined L increment ∧
      body.Lined L
  | .returnValue value line => L line ∧ valueLined L value
  | .breakLoop line => L line
  | .continueLoop line => L line
  | .empty line => L line

/-- `L` holds of the lines of a statement, if there is one. -/
def optionalLined (L : ℕ → Prop) : Option Stmt → Prop
  | none => True
  | some s => s.Lined L

end

/-! ### Lines of headings -/

section

variable {L : ℕ → Prop}

mutual

/-- What holds of the lines of all statements and functions of an expression holds of its lines. -/
theorem Expr.lined_of_headings : ∀ e : Expr, (∀ h ∈ e.headings, L h.line) → e.Lined L
  | .atom _ _ _, _ => trivial
  | .group inner, h => inner.lined_of_headings h
  | .unary _ operand, h => operand.lined_of_headings h
  | .binary _ left right, h => by
      obtain ⟨hleft, hright⟩ := List.forall_mem_append.1 h
      exact ⟨left.lined_of_headings hleft, right.lined_of_headings hright⟩
  | .logical _ left right, h => by
      obtain ⟨hleft, hright⟩ := List.forall_mem_append.1 h
      exact ⟨left.lined_of_headings hleft, right.lined_of_headings hright⟩
  | .assignName _ value, h => value.lined_of_headings h
  | .assignProperty object _ value, h => by
      obtain ⟨hobject, hvalue⟩ := List.forall_mem_append.1 h
      exact ⟨object.lined_of_headings hobject, value.lined_of_headings hvalue⟩
  | .assignIndex object index value, h => by
      obtain ⟨hplace, hvalue⟩ := List.forall_mem_append.1 h
      obtain ⟨hobject, hindex⟩ := List.forall_mem_append.1 hplace
      exact ⟨object.lined_of_headings hobject, index.lined_of_headings hindex,
        value.lined_of_headings hvalue⟩
  | .call callee arguments, h => by
      obtain ⟨hcallee, harguments⟩ := List.forall_mem_append.1 h
      exact ⟨callee.lined_of_headings hcallee, lined_of_exprsHeadings arguments harguments⟩
  | .property object _, h => object.lined_of_headings h
  | .index object index, h => by
      obtain ⟨hobject, hindex⟩ := List.forall_mem_append.1 h
      exact ⟨object.lined_of_headings hobject, index.lined_of_headings hindex⟩
  | .array elements, h => lined_of_exprsHeadings elements h
  | .object entries, h => lined_of_entriesHeadings entries h
  | .function decl, h => by
      obtain ⟨hline, hinside⟩ := List.forall_mem_cons.1 h
      exact decl.lined_of_headings hline hinside

theorem lined_of_exprsHeadings : ∀ es : List Expr, (∀ h ∈ exprsHeadings es, L h.line) →
    exprsLined L es
  | [], _ => trivial
  | e :: rest, h => by
      obtain ⟨hfirst, hrest⟩ := List.forall_mem_append.1 h
      exact ⟨e.lined_of_headings hfirst, lined_of_exprsHeadings rest hrest⟩

theorem lined_of_entriesHeadings : ∀ entries : List (String × Expr),
    (∀ h ∈ entriesHeadings entries, L h.line) → entriesLined L entries
  | [], _ => trivial
  | (_, e) :: rest, h => by
      obtain ⟨hfirst, hrest⟩ := List.forall_mem_append.1 h
      exact ⟨e.lined_of_headings hfirst, lined_of_entriesHeadings rest hrest⟩

theorem lined_of_valueHeadings : ∀ value : Option Expr, (∀ h ∈ valueHeadings value, L h.line) →
    valueLined L value
  | none, _ => trivial
  | some e, h => e.lined_of_headings h

theorem FunctionDecl.lined_of_headings : ∀ decl : FunctionDecl, L decl.line →
    (∀ h ∈ decl.headings, L h.line) → decl.Lined L
  | .mk _ _ body _, hline, h => ⟨hline, lined_of_stmtsHeadings body h⟩

theorem lined_of_stmtsHeadings : ∀ body : List Stmt, (∀ h ∈ stmtsHeadings body, L h.line) →
    stmtsLined L body
  | [], _ => trivial
  | s :: rest, h => by
      obtain ⟨hfirst, hrest⟩ := List.forall_mem_append.1 h
      obtain ⟨hline, hinside⟩ := List.forall_mem_cons.1 hfirst
      exact ⟨s.lined_of_inside hline hinside, lined_of_stmtsHeadings rest hrest⟩

theorem lined_of_optionalHeadings : ∀ s? : Option Stmt, (∀ h ∈ optionalHeadings s?, L h.line) →
    optionalLined L s?
  | none, _ => trivial
  | some s, h => by
      obtain ⟨hline, hinside⟩ := List.forall_mem_cons.1 h
      exact s.lined_of_inside hline hinside

/-- What holds of the line of a statement and of those inside it holds of its lines. -/
theorem Stmt.lined_of_inside : ∀ s : Stmt, L s.line → (∀ h ∈ s.inside, L h.line) → s.Lined L
  | .declare _ _ initial _, hline, h => ⟨hline, lined_of_valueHeadings initial h⟩
  | .function decl, hline, h => decl.lined_of_headings hline h
  | .expression e _, hline, h => ⟨hline, e.lined_of_headings h⟩
  | .block body _, hline, h => ⟨hline, lined_of_stmtsHeadings body h⟩
  | .conditional condition success failure _, hline, h => by
      obtain ⟨hfront, hfailure⟩ := List.forall_mem_append.1 h
      obtain ⟨hcondition, hwhole⟩ := List.forall_mem_append.1 hfront
      obtain ⟨hfirst, hsuccess⟩ := List.forall_mem_cons.1 hwhole
      exact ⟨hline, condition.lined_of_headings hcondition,
        success.lined_of_inside hfirst hsuccess, lined_of_optionalHeadings failure hfailure⟩
  | .whileLoop condition body _, hline, h => by
      obtain ⟨hcondition, hwhole⟩ := List.forall_mem_append.1 h
      obtain ⟨hfirst, hbody⟩ := List.forall_mem_cons.1 hwhole
      exact ⟨hline, condition.lined_of_headings hcondition, body.lined_of_inside hfirst hbody⟩
  | .forLoop start condition increment body _, hline, h => by
      obtain ⟨hheader, hwhole⟩ := List.forall_mem_append.1 h
      obtain ⟨hfirst, hbody⟩ := List.forall_mem_cons.1 hwhole
      obtain ⟨hfront, hincrement⟩ := List.forall_mem_append.1 hheader
      obtain ⟨hstart, hcondition⟩ := List.forall_mem_append.1 hfront
      exact ⟨hline, lined_of_optionalHeadings start hstart,
        lined_of_valueHeadings condition hcondition,
        lined_of_valueHeadings increment hincrement, body.lined_of_inside hfirst hbody⟩
  | .returnValue value _, hline, h => ⟨hline, lined_of_valueHeadings value h⟩
  | .breakLoop _, hline, _ => hline
  | .continueLoop _, hline, _ => hline
  | .empty _, hline, _ => hline

end

end

/-! ### Whole sources -/

/-- In this line a statement of a program begins, or a function in it that is the value of an
expression. -/
def Headed (source : String) (program : Program) (line : ℕ) : Prop :=
  ∃ (t : Token) (h : Heading), .ok t ∈ Lexer.lexemes source ∧ h ∈ stmtsHeadings program ∧
    Parser.Begins source t h ∧ t.line = line

section

variable {L : ℕ → Prop} {source : String} {program : Program}

/-- **In all lines of a program something begins.** -/
theorem headed_of_parse (h : parse source = .ok program) :
    stmtsLined (Headed source program) program := by
  refine lined_of_stmtsHeadings program fun heading hmem => ?_
  obtain ⟨t, hbegins⟩ := begun_of_parse h heading hmem
  exact ⟨t, heading, hbegins.mem, hmem, hbegins, hbegins.line.symm⟩

/-- **The lines of a program are lines of tokens.** -/
theorem lined_of_parse (hlines : ∀ t, .ok t ∈ Lexer.lexemes source → L t.line)
    (h : parse source = .ok program) : stmtsLined L program := by
  refine lined_of_stmtsHeadings program fun heading hmem => ?_
  obtain ⟨t, hbegins⟩ := begun_of_parse h heading hmem
  rw [hbegins.line]
  exact hlines t hbegins.mem

/-- The lines of a program are counted from one. -/
theorem numbered_of_parse (h : parse source = .ok program) : stmtsLined (1 ≤ ·) program :=
  lined_of_parse (fun _ ht => Lexer.one_le_line ht) h

end

end Tracepoint
