/-
Statements in their places.

Leaving a loop makes sense inside a loop of the same function, and returning inside a function.
The parser refuses everything else, so it yields only trees in which every such statement stands
where it may.

Main definitions:

* `Expr.Placed`, `Stmt.Placed` and their companions — the trees;
* `Parser.Yields` — what a step of the parser yields at given depths, which it keeps.

Main results:

* `Parser.yields_expression`, `Parser.yields_statement` and their companions;
* `placed_of_parse` — programs are placed.
-/

import Tracepoint.Proofs.Grammar.Steps

set_option relaxedAutoImplicit false
set_option autoImplicit false

namespace Tracepoint

/-! ### Placed trees -/

mutual

/-- In the functions of an expression every statement stands where it may. -/
def Expr.Placed : Expr → Prop
  | .atom _ _ _ => True
  | .group inner => inner.Placed
  | .unary _ operand => operand.Placed
  | .binary _ left right => left.Placed ∧ right.Placed
  | .logical _ left right => left.Placed ∧ right.Placed
  | .assignName _ value => value.Placed
  | .assignProperty object _ value => object.Placed ∧ value.Placed
  | .assignIndex object index value => object.Placed ∧ index.Placed ∧ value.Placed
  | .call callee arguments => callee.Placed ∧ exprsPlaced arguments
  | .property object _ => object.Placed
  | .index object index => object.Placed ∧ index.Placed
  | .array elements => exprsPlaced elements
  | .object entries => entriesPlaced entries
  | .function decl => decl.Placed

/-- The expressions are placed. -/
def exprsPlaced : List Expr → Prop
  | [] => True
  | e :: rest => e.Placed ∧ exprsPlaced rest

/-- The values of the entries are placed. -/
def entriesPlaced : List (String × Expr) → Prop
  | [] => True
  | (_, e) :: rest => e.Placed ∧ entriesPlaced rest

/-- The expression, if there is one, is placed. -/
def valuePlaced : Option Expr → Prop
  | none => True
  | some e => e.Placed

/-- The body of a function is placed. No loop around the function counts in it. -/
def FunctionDecl.Placed : FunctionDecl → Prop
  | .mk _ _ body _ => stmtsPlaced false true body

/-- The statements are placed. -/
def stmtsPlaced (inLoop inFunction : Bool) : List Stmt → Prop
  | [] => True
  | s :: rest => s.Placed inLoop inFunction ∧ stmtsPlaced inLoop inFunction rest

/-- The statement stands where it may, given whether that is inside a loop and a function. -/
def Stmt.Placed (inLoop inFunction : Bool) : Stmt → Prop
  | .declare _ _ initial _ => valuePlaced initial
  | .function decl => decl.Placed
  | .expression e _ => e.Placed
  | .block body _ => stmtsPlaced inLoop inFunction body
  | .conditional condition success failure _ =>
    condition.Placed ∧ success.Placed inLoop inFunction ∧
      optionalPlaced inLoop inFunction failure
  | .whileLoop condition body _ => condition.Placed ∧ body.Placed true inFunction
  | .forLoop start condition increment body _ =>
    optionalPlaced false inFunction start ∧ valuePlaced condition ∧ valuePlaced increment ∧
      body.Placed true inFunction
  | .returnValue value _ => inFunction = true ∧ valuePlaced value
  | .breakLoop _ => inLoop = true
  | .continueLoop _ => inLoop = true
  | .empty _ => True

/-- The statement, if there is one, stands where it may. -/
def optionalPlaced (inLoop inFunction : Bool) : Option Stmt → Prop
  | none => True
  | some s => s.Placed inLoop inFunction

end

/-! ### Steps of the parser -/

namespace Parser

/-- The parser is inside this many loops and functions. -/
def AtDepths (loops functions : ℕ) (p : Parser) : Prop :=
  p.loopDepth = loops ∧ p.functionDepth = functions

namespace AtDepths

variable {loops functions : ℕ} {p q : Parser}

theorem enterLoop (h : AtDepths loops functions p) : AtDepths (loops + 1) functions p.enterLoop :=
  ⟨congrArg (· + 1) h.1, h.2⟩

/-- **The depth of loops is restored.** -/
theorem leaveLoop (h : AtDepths (loops + 1) functions q) : AtDepths loops functions q.leaveLoop :=
  ⟨congrArg (· - 1) h.1, h.2⟩

theorem enterFunction (h : AtDepths loops functions p) :
    AtDepths 0 (functions + 1) p.enterFunction :=
  ⟨rfl, congrArg (· + 1) h.2⟩

/-- **The depths of loops and functions are restored.** -/
theorem leaveFunction (hq : AtDepths 0 (functions + 1) q) (hp : AtDepths loops functions p) :
    AtDepths loops functions (q.leaveFunction p.loopDepth) :=
  ⟨hp.1, congrArg (· - 1) hq.2⟩

end AtDepths

/-- At the given depths of loops and functions a step yields only what `P` holds of, and it leaves
the depths as they are. -/
def Yields {α : Type} (loops functions : ℕ) (x : Parse α) (P : α → Prop) : Prop :=
  Keeps (AtDepths loops functions) x P

theorem Yields.inLoop {α : Type} {loops functions : ℕ} {x : Parse α} {P : α → Prop}
    (h : Yields (loops + 1) functions x P) : Yields loops functions (inLoop x) P :=
  .nested h (fun _ hp => hp.enterLoop) fun _ _ _ hq => hq.leaveLoop

theorem Yields.inFunction {α : Type} {loops functions : ℕ} {x : Parse α} {P : α → Prop}
    (h : Yields 0 (functions + 1) x P) : Yields loops functions (inFunction x) P :=
  .nested h (fun _ hp => hp.enterFunction) fun _ _ hp hq => hq.leaveFunction hp

/-- Going from token to token does not change the depths. -/
theorem travels_depths {loops functions : ℕ} : Travels (AtDepths loops functions) anything where
  token := fun _ _ _ _ => trivial
  forward := by
    intro p line hp
    simp only [forward]
    split <;> exact hp

theorem placed_of_atomOf? {t : Token} {e : Expr} (h : atomOf? t = some e) : e.Placed := by
  simp only [atomOf?] at h
  split at h
  all_goals cases h
  all_goals trivial

theorem placed_of_assignment? {target value : Expr} {assign : Expr → Expr}
    (h : assignment? target = some assign) (htarget : target.Placed) (hvalue : value.Placed) :
    (assign value).Placed := by
  simp only [assignment?] at h
  split at h
  · cases h
    exact hvalue
  · cases h
    exact ⟨htarget, hvalue⟩
  · cases h
    exact ⟨htarget.1, htarget.2, hvalue⟩
  · cases h

/-! ### Expressions and statements

The proofs follow the recursion on the number of steps. -/

mutual

theorem yields_expression : ∀ (fuel strength loops functions : ℕ),
    Yields loops functions (expression fuel strength) Expr.Placed
  | 0, _, _, _ => .throw _
  | fuel + 1, strength, loops, functions => by
      rw [expression]
      exact (yields_operand fuel loops functions).bind fun left hleft =>
        yields_continuations fuel strength left hleft loops functions

theorem yields_continuations : ∀ (fuel strength : ℕ) (left : Expr), left.Placed →
    ∀ loops functions, Yields loops functions (continuations fuel strength left) Expr.Placed
  | 0, _, _, _, _, _ => .throw _
  | fuel + 1, strength, left, hleft, loops, functions => by
      rw [continuations]
      refine travels_depths.peek.bind fun t _ => ?_
      split
      next => exact .pure hleft
      next c _ =>
        refine .ite (fun _ => .pure hleft) fun _ => travels_depths.next.bind fun _ _ => ?_
        cases c with
        | suffix s =>
            exact (yields_suffix fuel s left hleft loops functions).bind fun whole hwhole =>
              yields_continuations fuel strength whole hwhole loops functions
        | binary op =>
            exact (yields_expression fuel _ loops functions).bind fun right hright =>
              yields_continuations fuel strength (.binary op left right) ⟨hleft, hright⟩ loops
                functions
        | logical op =>
            exact (yields_expression fuel _ loops functions).bind fun right hright =>
              yields_continuations fuel strength (.logical op left right) ⟨hleft, hright⟩ loops
                functions
        | assignment =>
            simp only
            split
            next => exact .failAt _ _
            next assign hassign =>
              exact (yields_expression fuel _ loops functions).bind fun value hvalue =>
                yields_continuations fuel strength _
                  (placed_of_assignment? hassign hleft hvalue) loops functions

theorem yields_operand : ∀ (fuel loops functions : ℕ),
    Yields loops functions (operand fuel) Expr.Placed
  | 0, _, _ => .throw _
  | fuel + 1, loops, functions => by
      rw [operand]
      refine travels_depths.next.bind fun t _ => ?_
      split
      next atom hatom => exact .pure (placed_of_atomOf? hatom)
      next =>
        exact (yields_expression fuel _ loops functions).bind fun inner hinner => .pure hinner
      next =>
        refine (yields_expression fuel _ loops functions).bind fun inner hinner => ?_
        exact (travels_depths.expect _).bind fun _ _ => .pure hinner
      next =>
        exact (yields_arguments fuel _ loops functions).bind fun elements helements =>
          .pure helements
      next =>
        exact (yields_entries fuel loops functions).bind fun entries hentries => .pure hentries
      next =>
        refine travels_depths.peek.bind fun ahead _ => Keeps.branch (P := anything) ?_ ?_ ?_
        · exact fun _ => travels_depths.identifier.map fun _ _ => trivial
        · exact fun _ => .pure trivial
        · exact fun name _ => (yields_functionRest fuel name _ loops functions).bind
            fun decl hdecl => .pure hdecl
      next => exact .failAt _ _
      next => exact .failAt _ _

theorem yields_suffix : ∀ (fuel : ℕ) (s : Suffix) (object : Expr), object.Placed →
    ∀ loops functions, Yields loops functions (suffix fuel s object) Expr.Placed
  | 0, _, _, _, _, _ => .throw _
  | fuel + 1, .call, object, hobject, loops, functions => by
      rw [suffix]
      exact (yields_arguments fuel _ loops functions).bind fun arguments harguments =>
        .pure ⟨hobject, harguments⟩
  | fuel + 1, .property, object, hobject, loops, functions => by
      rw [suffix]
      exact travels_depths.next.bind fun t _ => .ite (fun _ => .pure hobject) fun _ => .failAt _ _
  | fuel + 1, .index, object, hobject, loops, functions => by
      rw [suffix]
      refine (yields_expression fuel _ loops functions).bind fun index hindex => ?_
      exact (travels_depths.expect _).bind fun _ _ => .pure ⟨hobject, hindex⟩

theorem yields_arguments : ∀ (fuel : ℕ) (closing : Kind) (loops functions : ℕ),
    Yields loops functions (arguments fuel closing) exprsPlaced
  | 0, _, _, _ => .throw _
  | fuel + 1, closing, loops, functions => by
      rw [arguments]
      refine (travels_depths.accept _).bind fun closed _ => ?_
      refine .ite (fun _ => .pure trivial) fun _ => ?_
      refine (yields_expression fuel _ loops functions).bind fun first hfirst => ?_
      refine (travels_depths.accept _).bind fun more _ => .ite (fun _ => ?_) fun _ => ?_
      · exact (yields_arguments fuel closing loops functions).bind fun rest hrest =>
          .pure ⟨hfirst, hrest⟩
      · exact (travels_depths.expect _).bind fun _ _ => .pure ⟨hfirst, trivial⟩

theorem yields_entries : ∀ (fuel loops functions : ℕ),
    Yields loops functions (entries fuel) entriesPlaced
  | 0, _, _ => .throw _
  | fuel + 1, loops, functions => by
      rw [entries]
      refine (travels_depths.accept _).bind fun closed _ => ?_
      refine .ite (fun _ => .pure trivial) fun _ => ?_
      refine (yields_entry fuel loops functions).bind fun first hfirst => ?_
      refine (travels_depths.accept _).bind fun more _ => .ite (fun _ => ?_) fun _ => ?_
      · exact (yields_entries fuel loops functions).bind fun rest hrest =>
          .pure ⟨hfirst, hrest⟩
      · exact (travels_depths.expect _).bind fun _ _ => .pure ⟨hfirst, trivial⟩

theorem yields_entry : ∀ (fuel loops functions : ℕ),
    Yields loops functions (entry fuel) fun e => e.2.Placed
  | 0, _, _ => .throw _
  | fuel + 1, loops, functions => by
      rw [entry_succ]
      refine travels_depths.next.bind fun t _ => (Keeps.entryKey t).bind fun key _ => ?_
      refine (travels_depths.accept _).bind fun _ _ => ?_
      refine .ite (fun _ => ?_) fun _ => .ite (fun _ => ?_) ?_
      · exact (yields_expression fuel _ loops functions).bind fun value hvalue => .pure hvalue
      · exact .pure trivial
      · exact fun _ => travels_depths.next.bind fun _ _ => .throw _

theorem yields_functionRest : ∀ (fuel : ℕ) (name : Option String) (line loops functions : ℕ),
    Yields loops functions (functionRest fuel name line) FunctionDecl.Placed
  | 0, _, _, _, _ => .throw _
  | fuel + 1, name, line, loops, functions => by
      rw [functionRest]
      refine (travels_depths.expect _).bind fun _ _ => ?_
      refine (travels_depths.parameters fuel).bind fun parameters _ => ?_
      exact (yields_block fuel 0 (functions + 1)).inFunction.bind fun body hbody => .pure hbody

theorem yields_block : ∀ (fuel loops functions : ℕ),
    Yields loops functions (block fuel) (stmtsPlaced (0 < loops) (0 < functions))
  | 0, _, _ => .throw _
  | fuel + 1, loops, functions => by
      rw [block]
      exact (travels_depths.expect _).bind fun _ _ => yields_blockRest fuel loops functions

theorem yields_blockRest : ∀ (fuel loops functions : ℕ),
    Yields loops functions (blockRest fuel) (stmtsPlaced (0 < loops) (0 < functions))
  | 0, _, _ => .throw _
  | fuel + 1, loops, functions => by
      rw [blockRest]
      refine travels_depths.peek.bind fun t _ => ?_
      refine .ite (fun _ => ?_) fun _ => .ite (fun _ => ?_) fun _ => ?_
      · exact travels_depths.next.bind fun _ _ => .pure trivial
      · exact .throw _
      · refine (yields_statement fuel loops functions).bind fun first hfirst => ?_
        exact (yields_blockRest fuel loops functions).bind fun rest hrest =>
          .pure ⟨hfirst, hrest⟩

theorem yields_declaration : ∀ (fuel : ℕ) (kind : VariableKind) (terminated : Bool)
    (loops functions : ℕ), Yields loops functions (declaration fuel kind terminated)
      fun s => ∀ inLoop inFunction, s.Placed inLoop inFunction
  | 0, _, _, _, _ => .throw _
  | fuel + 1, kind, terminated, loops, functions => by
      rw [declaration]
      refine travels_depths.next.bind fun keyword _ => ?_
      refine travels_depths.identifier.bind fun name _ => ?_
      refine (travels_depths.accept _).bind fun given _ => Keeps.branch (P := valuePlaced) ?_ ?_ ?_
      · exact fun _ => (yields_expression fuel _ loops functions).map fun _ he => he
      · exact fun _ => .pure trivial
      intro initial hinitial
      refine Keeps.refuse fun _ => Keeps.whenever ?_ (.pure fun _ _ => hinitial)
      exact travels_depths.endStatement

theorem yields_condition : ∀ (fuel loops functions : ℕ),
    Yields loops functions (condition fuel) Expr.Placed
  | 0, _, _ => .throw _
  | fuel + 1, loops, functions => by
      rw [condition]
      refine (travels_depths.expect _).bind fun _ _ => ?_
      refine (yields_expression fuel _ loops functions).bind fun e he => ?_
      exact (travels_depths.expect _).bind fun _ _ => .pure he

theorem yields_loopStart : ∀ (fuel loops functions : ℕ),
    Yields loops functions (loopStart fuel) (optionalPlaced false (0 < functions))
  | 0, _, _ => .throw _
  | fuel + 1, loops, functions => by
      rw [loopStart]
      refine travels_depths.peek.bind fun t _ => ?_
      split
      · exact .pure trivial
      · exact (yields_declaration fuel _ _ loops functions).map fun s hs => hs _ _
      · exact (yields_declaration fuel _ _ loops functions).map fun s hs => hs _ _
      · exact (yields_declaration fuel _ _ loops functions).map fun s hs => hs _ _
      · exact (yields_expression fuel _ loops functions).bind fun e he => .pure he

theorem yields_optional : ∀ (fuel : ℕ) (closing : Kind) (loops functions : ℕ),
    Yields loops functions (optional fuel closing) valuePlaced
  | 0, _, _, _ => .throw _
  | fuel + 1, closing, loops, functions => by
      rw [optional]
      refine travels_depths.peek.bind fun t _ => .ite (fun _ => .pure trivial) fun _ => ?_
      exact (yields_expression fuel _ loops functions).map fun _ he => he

theorem yields_statement : ∀ (fuel loops functions : ℕ),
    Yields loops functions (statement fuel) (Stmt.Placed (0 < loops) (0 < functions))
  | 0, _, _ => .throw _
  | fuel + 1, loops, functions => by
      rw [statement]
      refine travels_depths.peek.bind fun t _ => ?_
      split
      · exact (yields_declaration fuel _ _ loops functions).weaken fun s hs => hs _ _
      · exact (yields_declaration fuel _ _ loops functions).weaken fun s hs => hs _ _
      · exact (yields_declaration fuel _ _ loops functions).weaken fun s hs => hs _ _
      · refine travels_depths.next.bind fun _ _ => travels_depths.identifier.bind fun name _ => ?_
        exact (yields_functionRest fuel _ _ loops functions).bind fun decl hdecl => .pure hdecl
      · exact (yields_block fuel loops functions).bind fun body hbody => .pure hbody
      · refine travels_depths.next.bind fun _ _ => ?_
        refine (yields_condition fuel loops functions).bind fun condition hcondition => ?_
        refine (yields_statement fuel loops functions).bind fun success hsuccess => ?_
        refine (travels_depths.accept _).bind fun _ _ =>
          Keeps.branch (P := optionalPlaced (0 < loops) (0 < functions)) ?_ ?_ ?_
        · exact fun _ => (yields_statement fuel loops functions).map fun _ hs => hs
        · exact fun _ => .pure trivial
        · exact fun failure hfailure => .pure ⟨hcondition, hsuccess, hfailure⟩
      · refine travels_depths.next.bind fun _ _ => ?_
        refine (yields_condition fuel loops functions).bind fun condition hcondition => ?_
        exact (yields_statement fuel (loops + 1) functions).inLoop.bind fun body hbody =>
          .pure ⟨hcondition, hbody⟩
      · refine travels_depths.next.bind fun _ _ => (travels_depths.expect _).bind fun _ _ => ?_
        refine (yields_loopStart fuel loops functions).bind fun start hstart => ?_
        refine (travels_depths.expect _).bind fun _ _ => ?_
        refine (yields_optional fuel _ loops functions).bind fun condition hcondition => ?_
        refine (travels_depths.expect _).bind fun _ _ => ?_
        refine (yields_optional fuel _ loops functions).bind fun increment hincrement => ?_
        refine (travels_depths.expect _).bind fun _ _ => ?_
        exact (yields_statement fuel (loops + 1) functions).inLoop.bind fun body hbody =>
          .pure ⟨hstart, hcondition, hincrement, hbody⟩
      · refine travels_depths.next.bind fun _ _ => ?_
        refine Keeps.get.bind fun p hp => Keeps.refuse fun hn => ?_
        refine travels_depths.peek.bind fun ahead _ => Keeps.branch (P := valuePlaced) ?_ ?_ ?_
        · exact fun _ => .pure trivial
        · exact fun _ => (yields_expression fuel _ loops functions).map fun _ he => he
        · exact fun value hvalue => travels_depths.endStatement.bind fun _ _ =>
            .pure ⟨decide_eq_true (hp.2 ▸ Nat.pos_of_ne_zero hn), hvalue⟩
      · refine travels_depths.next.bind fun _ _ => ?_
        refine Keeps.get.bind fun p hp => Keeps.refuse fun hn => ?_
        exact travels_depths.endStatement.bind fun _ _ =>
          .pure (decide_eq_true (hp.1 ▸ Nat.pos_of_ne_zero hn))
      · refine travels_depths.next.bind fun _ _ => ?_
        refine Keeps.get.bind fun p hp => Keeps.refuse fun hn => ?_
        exact travels_depths.endStatement.bind fun _ _ =>
          .pure (decide_eq_true (hp.1 ▸ Nat.pos_of_ne_zero hn))
      · exact travels_depths.next.bind fun _ _ => .pure trivial
      · refine (yields_expression fuel _ loops functions).bind fun e he => ?_
        exact travels_depths.endStatement.bind fun _ _ => .pure he

end

theorem yields_statements (fuel loops functions : ℕ) :
    Yields loops functions (statements fuel) (stmtsPlaced (0 < loops) (0 < functions)) := by
  induction fuel with
  | zero => exact .throw _
  | succ fuel ih =>
      rw [statements]
      refine travels_depths.peek.bind fun t _ => .ite (fun _ => .pure trivial) fun _ => ?_
      refine (yields_statement fuel loops functions).bind fun first hfirst => ?_
      exact ih.bind fun rest hrest => .pure ⟨hfirst, hrest⟩

theorem ofString_depths (source : String) : AtDepths 0 0 (ofString source) := by
  simp only [ofString]
  cases (Lexer.lexemes source : List Lexeme) with
  | nil => exact ⟨rfl, rfl⟩
  | cons first behind => exact ⟨rfl, rfl⟩

end Parser

/-- **Programs are placed.** -/
theorem placed_of_parse {source : String} {program : Program} (h : parse source = .ok program) :
    stmtsPlaced false false program := by
  have hdepths := Parser.ofString_depths source
  simp only [parse, Parser.program, Parser.run] at h
  split at h
  next p q hrun =>
    cases h
    exact (Parser.yields_statements _ 0 0 _ _ q hdepths hrun).2
  next => cases h
  next => cases h

end Tracepoint
