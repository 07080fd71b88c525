/-
Declared functions have names.

A tree has room for functions that are declared without a name, and for counting loops that start
with a declared function.  Neither can be bound when the list of statements is entered in which
they would stand.  The parser yields neither, whatever it reads: this is seen where a statement is
read, and every statement of a tree has been read somewhere.

Main definitions:

* `Stmt.Bindable` — what a statement declares can be bound where it stands;
* `AllBindable` — so can all that is declared by some statements.

Main results:

* `Expr.statements_eq_headings` and its companions — the statements of a tree are the headings in
  it that are no functions;
* `Parser.bindable_statement` — a statement that is read can be bound;
* `bindable_of_parse` — **so can all that a program declares**.
-/

import Tracepoint.Proofs.Grammar.Headings

set_option relaxedAutoImplicit false
set_option autoImplicit false

namespace Tracepoint

/-- A declared function has a name, and no counting loop starts with one. -/
def Stmt.Bindable : Stmt → Prop
  | .function decl => decl.name.isSome
  | .forLoop start _ _ _ _ => ∀ decl, start ≠ some (.function decl)
  | _ => True

/-- All that is declared can be bound. -/
def AllBindable (ss : List (Place × Stmt)) : Prop :=
  Everywhere (fun _ s => s.Bindable) ss

/-! ### Statements among the headings -/

/-- The statement that a heading is. -/
def Heading.statement? : Heading → Option Stmt
  | statement s => some s
  | function _ => none

mutual

/-- **The statements of an expression are the headings in it that are no functions.** -/
theorem Expr.statements_eq_headings :
    ∀ e : Expr, e.statements.map Prod.snd = e.headings.filterMap Heading.statement?
  | .atom _ _ _ => rfl
  | .group inner => inner.statements_eq_headings
  | .unary _ operand => operand.statements_eq_headings
  | .binary _ left right => by
      simp [Expr.statements, Expr.headings, left.statements_eq_headings,
        right.statements_eq_headings]
  | .logical _ left right => by
      simp [Expr.statements, Expr.headings, left.statements_eq_headings,
        right.statements_eq_headings]
  | .assignName _ value => value.statements_eq_headings
  | .assignProperty object _ value => by
      simp [Expr.statements, Expr.headings, object.statements_eq_headings,
        value.statements_eq_headings]
  | .assignIndex object index value => by
      simp [Expr.statements, Expr.headings, object.statements_eq_headings,
        index.statements_eq_headings, value.statements_eq_headings]
  | .call callee arguments => by
      simp [Expr.statements, Expr.headings, callee.statements_eq_headings,
        exprsStatements_eq_headings arguments]
  | .property object _ => object.statements_eq_headings
  | .index object index => by
      simp [Expr.statements, Expr.headings, object.statements_eq_headings,
        index.statements_eq_headings]
  | .array elements => exprsStatements_eq_headings elements
  | .object entries => entriesStatements_eq_headings entries
  | .function decl => decl.statements_eq_headings

theorem exprsStatements_eq_headings : ∀ es : List Expr,
    (exprsStatements es).map Prod.snd = (exprsHeadings es).filterMap Heading.statement?
  | [] => rfl
  | e :: rest => by
      simp [exprsStatements, exprsHeadings, e.statements_eq_headings,
        exprsStatements_eq_headings rest]

theorem entriesStatements_eq_headings : ∀ entries : List (String × Expr),
    (entriesStatements entries).map Prod.snd =
      (entriesHeadings entries).filterMap Heading.statement?
  | [] => rfl
  | (_, e) :: rest => by
      simp [entriesStatements, entriesHeadings, e.statements_eq_headings,
        entriesStatements_eq_headings rest]

theorem valueStatements_eq_headings : ∀ e? : Option Expr,
    (valueStatements e?).map Prod.snd = (valueHeadings e?).filterMap Heading.statement?
  | none => rfl
  | some e => e.statements_eq_headings

theorem FunctionDecl.statements_eq_headings : ∀ decl : FunctionDecl,
    decl.statements.map Prod.snd = decl.headings.filterMap Heading.statement?
  | .mk _ _ body _ => stmtsStatements_eq_headings .ofFunction body

theorem stmtsStatements_eq_headings : ∀ (place : Place) (ss : List Stmt),
    (stmtsStatements place ss).map Prod.snd = (stmtsHeadings ss).filterMap Heading.statement?
  | _, [] => rfl
  | place, s :: rest => by
      simp [stmtsStatements, stmtsHeadings, Heading.statement?, s.statements_eq_headings place,
        stmtsStatements_eq_headings place rest]

theorem optionalStatements_eq_headings : ∀ (place : Place) (s? : Option Stmt),
    (optionalStatements place s?).map Prod.snd =
      (optionalHeadings s?).filterMap Heading.statement?
  | _, none => rfl
  | place, some s => s.statements_eq_headings place

/-- A statement comes before those inside of it. -/
theorem Stmt.statements_eq_headings : ∀ (place : Place) (s : Stmt),
    (s.statements place).map Prod.snd = s :: s.inside.filterMap Heading.statement?
  | _, .declare _ _ initial _ => congrArg _ (valueStatements_eq_headings initial)
  | _, .function decl => congrArg _ decl.statements_eq_headings
  | _, .expression e _ => congrArg _ e.statements_eq_headings
  | place, .block body _ => congrArg _ (stmtsStatements_eq_headings place body)
  | place, .conditional condition success failure _ => by
      simp [Stmt.statements, Stmt.inside, Heading.statement?, condition.statements_eq_headings,
        success.statements_eq_headings place, optionalStatements_eq_headings place failure]
  | place, .whileLoop condition body _ => by
      simp [Stmt.statements, Stmt.inside, Heading.statement?, condition.statements_eq_headings,
        body.statements_eq_headings place.ofLoop]
  | place, .forLoop start condition increment body _ => by
      simp [Stmt.statements, Stmt.inside, Heading.statement?,
        optionalStatements_eq_headings place start, valueStatements_eq_headings condition,
        valueStatements_eq_headings increment, body.statements_eq_headings place.ofLoop]
  | _, .returnValue value _ => congrArg _ (valueStatements_eq_headings value)
  | _, .breakLoop _ => rfl
  | _, .continueLoop _ => rfl
  | _, .empty _ => rfl

end

/-- What is known of all headings among some statements is known of the statements. -/
theorem everywhere_of_headings {D : Stmt → Prop} {place : Place} {ss : List Stmt}
    (h : ∀ s, .statement s ∈ stmtsHeadings ss → D s) :
    Everywhere (fun _ s => D s) (stmtsStatements place ss) := by
  intro placed hplaced
  have hmem := List.mem_map_of_mem (f := Prod.snd) hplaced
  rw [stmtsStatements_eq_headings, List.mem_filterMap] at hmem
  obtain ⟨heading, hmem, hheading⟩ := hmem
  cases heading with
  | statement s =>
      cases hheading
      exact h _ hmem
  | function decl => cases hheading

/-! ### Readers -/

namespace Parser

theorem name_functionRest (fuel : ℕ) (name : Option String) (line : ℕ) :
    Keeps anywhere (functionRest fuel name line) fun decl => decl.name = name := by
  cases fuel with
  | zero => exact .throw _
  | succ fuel =>
      rw [functionRest]
      refine (Keeps.any _).bind fun _ _ => (Keeps.any _).bind fun parameters _ => ?_
      exact (Keeps.any _).bind fun body _ => .pure rfl

/-- What declares a variable declares no function and is no loop. -/
theorem declaration_declares (fuel : ℕ) (kind : VariableKind) (terminated : Bool) :
    Keeps anywhere (declaration fuel kind terminated) fun s =>
      ∃ name initial line, s = .declare kind name initial line := by
  cases fuel with
  | zero => exact .throw _
  | succ fuel =>
      rw [declaration]
      refine (Keeps.any _).bind fun keyword _ => (Keeps.any _).bind fun name _ => ?_
      refine (Keeps.any _).bind fun given _ => ?_
      refine .branch (fun _ => Keeps.any _) (fun _ => Keeps.any _) fun initial _ => ?_
      exact .whenever (Keeps.any _) (.whenever (Keeps.any _) (.pure ⟨_, _, _, rfl⟩))

/-- A counting loop starts with no function, and with no loop. -/
theorem bindable_loopStart (fuel : ℕ) :
    Keeps anywhere (loopStart fuel) fun s? =>
      ∀ s ∈ s?, s.Bindable ∧ ∀ decl, s ≠ .function decl := by
  cases fuel with
  | zero => exact .throw _
  | succ fuel =>
      have hdeclaration : ∀ kind, Keeps anywhere (some <$> declaration fuel kind false) fun s? =>
          ∀ s ∈ s?, s.Bindable ∧ ∀ decl, s ≠ .function decl := fun kind => by
        refine (declaration_declares fuel kind false).map fun s hs _ hmem => ?_
        obtain ⟨name, initial, line, rfl⟩ := hs
        cases hmem
        exact ⟨trivial, fun _ => Stmt.noConfusion⟩
      rw [loopStart]
      refine (Keeps.any _).bind fun t _ => ?_
      split
      · exact .pure fun _ hmem => absurd hmem (Option.not_mem_none _)
      · exact hdeclaration _
      · exact hdeclaration _
      · exact hdeclaration _
      · refine (Keeps.any _).bind fun e _ => .pure fun _ hmem => ?_
        cases hmem
        exact ⟨trivial, fun _ => Stmt.noConfusion⟩

/-- **A statement that is read can be bound.** -/
theorem bindable_statement (fuel : ℕ) : Keeps anywhere (statement fuel) Stmt.Bindable := by
  cases fuel with
  | zero => exact .throw _
  | succ fuel =>
      have hdeclaration : ∀ kind, Keeps anywhere (declaration fuel kind true) Stmt.Bindable :=
        fun kind => (declaration_declares fuel kind true).weaken fun s hs => by
          obtain ⟨name, initial, line, rfl⟩ := hs
          trivial
      rw [statement]
      refine (Keeps.any _).bind fun t _ => ?_
      split
      · exact hdeclaration _
      · exact hdeclaration _
      · exact hdeclaration _
      -- The name has been read before.
      · refine (Keeps.any _).bind fun _ _ => (Keeps.any _).bind fun name _ => ?_
        refine (name_functionRest fuel _ _).bind fun decl hdecl => .pure ?_
        exact congrArg Option.isSome hdecl
      · exact (Keeps.any _).bind fun body _ => .pure trivial
      · refine (Keeps.any _).bind fun _ _ => (Keeps.any _).bind fun condition _ => ?_
        refine (Keeps.any _).bind fun success _ => (Keeps.any _).bind fun given _ => ?_
        refine .branch (fun _ => Keeps.any _) (fun _ => Keeps.any _) fun failure _ => ?_
        exact .pure trivial
      · refine (Keeps.any _).bind fun _ _ => (Keeps.any _).bind fun condition _ => ?_
        exact (Keeps.any _).bind fun body _ => .pure trivial
      · refine (Keeps.any _).bind fun _ _ => (Keeps.any _).bind fun _ _ => ?_
        refine (bindable_loopStart fuel).bind fun start hstart => (Keeps.any _).bind fun _ _ => ?_
        refine (Keeps.any _).bind fun condition _ => (Keeps.any _).bind fun _ _ => ?_
        refine (Keeps.any _).bind fun increment _ => (Keeps.any _).bind fun _ _ => ?_
        exact (Keeps.any _).bind fun body _ => .pure fun decl heq => (hstart _ heq).2 decl rfl
      · refine (Keeps.any _).bind fun _ _ => Keeps.get.bind fun p _ => Keeps.refuse fun _ => ?_
        refine (Keeps.any _).bind fun ahead _ => ?_
        refine .branch (fun _ => Keeps.any _) (fun _ => Keeps.any _) fun value _ => ?_
        exact (Keeps.any _).bind fun _ _ => .pure trivial
      · refine (Keeps.any _).bind fun _ _ => Keeps.get.bind fun p _ => Keeps.refuse fun _ => ?_
        exact (Keeps.any _).bind fun _ _ => .pure trivial
      · refine (Keeps.any _).bind fun _ _ => Keeps.get.bind fun p _ => Keeps.refuse fun _ => ?_
        exact (Keeps.any _).bind fun _ _ => .pure trivial
      · exact (Keeps.any _).bind fun _ _ => .pure trivial
      · refine (Keeps.any _).bind fun e _ => ?_
        exact (Keeps.any _).bind fun _ _ => .pure trivial

theorem Begins.bindable {source : String} {t : Token} {s : Stmt}
    (h : Begins source t (.statement s)) : s.Bindable := by
  obtain ⟨fuel, p, q, -, -, hrun | hrun⟩ := h
  · exact (bindable_statement fuel p s q trivial hrun).2
  · exact ((bindable_loopStart fuel p (some s) q trivial hrun).2 s rfl).1

end Parser

/-- **All that a program declares can be bound.** -/
theorem bindable_of_parse {source : String} {program : Program}
    (h : parse source = .ok program) (place : Place) :
    AllBindable (stmtsStatements place program) := by
  refine everywhere_of_headings fun s hmem => ?_
  obtain ⟨t, hbegins⟩ := begun_of_parse h (.statement s) hmem
  exact hbegins.bindable

end Tracepoint
