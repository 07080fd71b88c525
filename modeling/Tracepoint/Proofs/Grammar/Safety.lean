/-
Parsing hits no guard.

Every reader with guards follows the reader without them.  An expression begins with an empty row,
and ends with a row in which its tree is found; so it can be read inside of another expression,
which has a row of its own.

Main results:

* `Guarded.follows_expression`, `Guarded.follows_statement` and their companions — **every reader
  with guards follows the one without them**;
* `Guarded.read?_eq` — so a call of the parser hits no guard, whatever was called before.
-/

import Tracepoint.Proofs.Grammar.Following

set_option relaxedAutoImplicit false
set_option autoImplicit false

open Tracepoint.Parser (prolonged_expression)

namespace Tracepoint.Guarded

variable {source : String}

/-! ### The readers -/

/-- An expression followed from an empty row is followed in a row of its own. -/
theorem follows_finished {fuel : ℕ} (h : Follows source [] 0 0 (expression source fuel 0)
    (Parser.expression fuel 0) Row.Denotes) (n : ℕ) (row : Row) :
    Follows source row n n (finished (expression source fuel 0)) (Parser.expression fuel 0)
      Same :=
  .finished h (prolonged_expression 0 fuel 0).reaches

mutual

theorem follows_expression : ∀ (fuel strength n : ℕ) (row : Row),
    Follows source row n n (expression source fuel strength) (Parser.expression fuel strength)
      Row.Denotes
  | 0, _, _, _ => by
      rw [expression, Parser.expression]
      exact .throw _
  | fuel + 1, strength, n, row => by
      rw [expression, Parser.expression]
      refine (follows_operand fuel n row).bind fun row' left e _ hleft => ?_
      exact follows_continuations fuel strength n row' left e hleft

theorem follows_continuations : ∀ (fuel strength n : ℕ) (row : Row) (left : NodeRef) (e : Expr),
    row.Denotes left e → Follows source row n n (continuations source fuel strength left)
      (Parser.continuations fuel strength e) Row.Denotes
  | 0, _, _, _, _, _, _ => by
      rw [continuations, Parser.continuations]
      exact .throw _
  | fuel + 1, strength, n, row, left, e, hleft => by
      rw [continuations, Parser.continuations]
      refine .ahead fun t _ => ?_
      have hstop : Follows source row n n (pure left) (pure e) Row.Denotes :=
        .pure fun _ hgrows => hleft.mono hgrows
      cases hc : Continuation.ofKind? t.kind with
      | none => exact hstop.at_token
      | some c =>
          have hkind : t.kind ≠ .finish := by
            intro heq
            rw [heq] at hc
            cases hc
          dsimp only
          split
          · exact hstop.at_token
          · refine Follows.take hkind ?_
            cases c with
            | suffix s =>
                refine (follows_suffix fuel s n row left e hleft).bind fun row' whole e' _ h => ?_
                exact follows_continuations fuel strength n row' whole e' h
            | binary op =>
                refine (follows_expression fuel _ (n + 1) row).bind fun row' right e' hgrows h => ?_
                refine .pushed (Row.reads_binary op (hleft.mono hgrows) h) fun row' whole _ h => ?_
                exact follows_continuations fuel strength n row' whole _ h
            | logical op =>
                refine (follows_expression fuel _ (n + 1) row).bind fun row' right e' hgrows h => ?_
                refine .pushed (Row.reads_logical op (hleft.mono hgrows) h) fun row' whole _ h => ?_
                exact follows_continuations fuel strength n row' whole _ h
            | assignment =>
                refine .targeted hleft ?_
                rcases hleft.target with ⟨hassign, htarget⟩ | ⟨_, _, hassign, htarget, hreads⟩
                · rw [hassign, htarget]
                  exact .failAt _ _
                · rw [hassign, htarget]
                  dsimp only
                  refine (follows_expression fuel _ (n + 1) row).bind fun row' v e' hgrows h => ?_
                  refine .pushed (hreads row' v e' hgrows h) fun row' whole _ h => ?_
                  exact follows_continuations fuel strength n row' whole _ h

theorem follows_operand : ∀ (fuel n : ℕ) (row : Row),
    Follows source row n n (operand source fuel) (Parser.operand fuel) Row.Denotes
  | 0, _, _ => by
      rw [operand, Parser.operand]
      exact .throw _
  | fuel + 1, n, row => by
      rw [operand, Parser.operand]
      refine .taken (fun t ht hkind => ?_) fun t ht hkind => ?_
      · rw [literal_eq ht, pure_bind, atomOf?_eq]
        cases atom? t.kind t.text with
        | some a => exact .push (Row.reads_atom a _ _)
        | none =>
        rw [Option.map_none]
        generalize UnaryOp.ofKind? t.kind = op?
        generalize t.kind = kind
        cases op? with
        | some op =>
            refine (follows_expression fuel _ (n + 1) row).bind fun row' inner e _ h => ?_
            exact .push (Row.reads_unary op h)
        | none =>
        cases kind with
        | leftParen =>
            refine (follows_expression fuel _ (n + 1) row).bind fun row' inner e _ h => ?_
            refine (Follows.expect _).bind fun row'' _ _ hgrows _ => ?_
            exact .push (Row.reads_group (h.mono hgrows))
        | leftBracket =>
            refine (follows_arguments fuel _ (n + 1) row).bind fun row' elements es _ h => ?_
            exact .push (Row.reads_array h)
        | leftBrace =>
            refine (follows_entries fuel (n + 1) row).bind fun row' entries es _ h => ?_
            exact .push (Row.reads_object h)
        | functionWord =>
            refine Follows.peek.bind fun _ ahead _ _ hahead => ?_
            obtain ⟨rfl, -⟩ := hahead
            refine .branch (fun _ => Follows.identifier.map_same some) (fun _ => .same none)
              fun row' name _ => ?_
            refine (follows_functionRest fuel name _ (n + 1) row').bind_same fun _ decl _ => ?_
            exact .push (Row.reads_function decl)
        | _ => exact .failAt _ _
      · rw [literal_eq ht, pure_bind, atomOf?_eq, hkind]
        exact .failAt _ _

theorem follows_suffix : ∀ (fuel : ℕ) (s : Suffix) (n : ℕ) (row : Row) (base : NodeRef) (e : Expr),
    row.Denotes base e → Follows source row (n + 1) n (suffix source fuel s base)
      (Parser.suffix fuel s e) Row.Denotes
  | 0, _, _, _, _, _, _ => by
      rw [suffix, Parser.suffix]
      exact .throw _
  | fuel + 1, .call, n, row, base, e, hbase => by
      rw [suffix, Parser.suffix]
      refine (follows_arguments fuel _ (n + 1) row).bind fun row' arguments es hgrows h => ?_
      exact .push (Row.reads_call (hbase.mono hgrows) h)
  | fuel + 1, .property, n, row, base, e, hbase => by
      rw [suffix, Parser.suffix]
      refine Follows.next.bind fun row' t _ hgrows ht => ?_
      obtain ⟨rfl, ht⟩ := ht
      rw [lexeme_eq ht, pure_bind]
      refine .ite (fun _ => ?_) fun _ => .failAt _ _
      exact .push (Row.reads_property _ (hbase.mono hgrows))
  | fuel + 1, .index, n, row, base, e, hbase => by
      rw [suffix, Parser.suffix]
      refine (follows_expression fuel _ (n + 1) row).bind fun row' index e' hgrows h => ?_
      refine (Follows.expect _).bind fun row'' _ _ hgrows' _ => ?_
      exact .push (Row.reads_index (hbase.mono (hgrows.trans hgrows')) (h.mono hgrows'))

theorem follows_arguments : ∀ (fuel : ℕ) (closing : Kind) (n : ℕ) (row : Row),
    Follows source row n n (arguments source fuel closing) (Parser.arguments fuel closing)
      fun row => List.Forall₂ row.Denotes
  | 0, _, _, _ => by
      rw [arguments, Parser.arguments]
      exact .throw _
  | fuel + 1, closing, n, row => by
      rw [arguments, Parser.arguments]
      refine (Follows.accept _).bind_same fun row' closed _ => ?_
      refine .ite (fun _ => .pure fun _ _ => .nil) fun _ => ?_
      refine (follows_expression fuel _ n row').bind fun row' first e _ hfirst => ?_
      refine (Follows.accept _).bind_same fun row'' more hgrows => ?_
      have hfirst' := hfirst.mono hgrows
      refine .ite (fun _ => ?_) fun _ => ?_
      · refine (follows_arguments fuel closing n row'').bind fun row' rest es hgrows hrest => ?_
        refine .pure fun longer hlonger => .cons (hfirst'.mono (hgrows.trans hlonger)) ?_
        exact hrest.imp fun _ _ h => h.mono hlonger
      · refine (Follows.expect _).bind fun row' _ _ hgrows _ => ?_
        exact .pure fun longer hlonger => .cons (hfirst'.mono (hgrows.trans hlonger)) .nil

theorem follows_entries : ∀ (fuel n : ℕ) (row : Row),
    Follows source row n n (entries source fuel) (Parser.entries fuel)
      fun row => List.Forall₂ row.DenotesEntry
  | 0, _, _ => by
      rw [entries, Parser.entries]
      exact .throw _
  | fuel + 1, n, row => by
      rw [entries, Parser.entries]
      refine (Follows.accept _).bind_same fun row' closed _ => ?_
      refine .ite (fun _ => .pure fun _ _ => .nil) fun _ => ?_
      refine (follows_entry fuel n row').bind fun row' first e _ hfirst => ?_
      refine (Follows.accept _).bind_same fun row'' more hgrows => ?_
      have hfirst' := hfirst.mono hgrows
      refine .ite (fun _ => ?_) fun _ => ?_
      · refine (follows_entries fuel n row'').bind fun row' rest es hgrows hrest => ?_
        refine .pure fun longer hlonger => .cons (hfirst'.mono (hgrows.trans hlonger)) ?_
        exact hrest.imp fun _ _ h => h.mono hlonger
      · refine (Follows.expect _).bind fun row' _ _ hgrows _ => ?_
        exact .pure fun longer hlonger => .cons (hfirst'.mono (hgrows.trans hlonger)) .nil

theorem follows_entry : ∀ (fuel n : ℕ) (row : Row),
    Follows source row n n (entry source fuel) (Parser.entry fuel) Row.DenotesEntry
  | 0, _, _ => by
      rw [entry, Parser.entry]
      exact .throw _
  | fuel + 1, n, row => by
      rw [entry, Parser.entry]
      refine .taken (fun t ht _ => ?_) fun t ht hkind => ?_
      · have hvalue : ∀ (kind : Kind) (key : String), Follows source row (n + 1) n (do
            if ← lift (Parser.accept .colon) then
              let value ← expression source fuel 0
              return (key, value)
            else if kind = .identifier then
              let value ← push (.atom (.name key) t.span t.line)
              return (key, value)
            else
              let after ← lift Parser.next
              lift (throw (.error (.unexpected after .colon)))) (do
            if ← Parser.accept .colon then
              let value ← Parser.expression fuel 0
              return (key, value)
            else if kind = .identifier then
              return (key, .atom (.name key) t.span t.line)
            else
              let after ← Parser.next
              throw (.error (.unexpected after .colon))) Row.DenotesEntry := by
          intro kind key
          refine (Follows.accept _).bind_same fun row' given _ => ?_
          refine .ite (fun _ => ?_) fun _ => .ite (fun _ => ?_) fun _ => ?_
          · refine (follows_expression fuel 0 n row').spend.bind fun _ value e _ h => ?_
            exact .pure fun _ hgrows => ⟨rfl, h.mono hgrows⟩
          · refine .pushed (f := fun e => pure (key, e)) (Row.reads_atom _ _ _)
              fun _ value _ h => .pure fun _ hgrows => ⟨rfl, h.mono hgrows⟩
          · refine Follows.next.spend.bind fun _ after _ _ h => ?_
            obtain ⟨rfl, -⟩ := h
            exact .throw _
        rw [lexeme_eq ht, map_pure]
        cases t.kind with
        | identifier => exact hvalue _ _
        | number => exact hvalue _ _
        | string => exact hvalue _ _
        | _ => exact .fails _ _
      · rw [hkind]
        exact .fails _ _

theorem follows_functionRest : ∀ (fuel : ℕ) (name : Option String) (line n : ℕ) (row : Row),
    Follows source row n n (functionRest source fuel name line)
      (Parser.functionRest fuel name line) Same
  | 0, _, _, _, _ => by
      rw [functionRest, Parser.functionRest]
      exact .throw _
  | fuel + 1, name, line, n, row => by
      rw [functionRest, Parser.functionRest]
      refine (Follows.expect _).bind fun _ _ _ _ _ => ?_
      refine (Follows.parameters fuel).bind_same fun row' parameters _ => ?_
      refine (follows_block fuel n row').inFunction.bind_same fun _ body _ => ?_
      exact .same _

theorem follows_block : ∀ (fuel n : ℕ) (row : Row),
    Follows source row n n (block source fuel) (Parser.block fuel) Same
  | 0, _, _ => by
      rw [block, Parser.block]
      exact .throw _
  | fuel + 1, n, row => by
      rw [block, Parser.block]
      exact (Follows.expect _).bind fun row' _ _ _ _ => follows_blockRest fuel n row'

theorem follows_blockRest : ∀ (fuel n : ℕ) (row : Row),
    Follows source row n n (blockRest source fuel) (Parser.blockRest fuel) Same
  | 0, _, _ => by
      rw [blockRest, Parser.blockRest]
      exact .throw _
  | fuel + 1, n, row => by
      rw [blockRest, Parser.blockRest]
      refine Follows.peek.bind fun row' t _ _ ht => ?_
      obtain ⟨rfl, -⟩ := ht
      refine .ite (fun _ => ?_) fun _ => .ite (fun _ => .throw _) fun _ => ?_
      · exact Follows.next.bind fun _ _ _ _ _ => .same _
      · refine (follows_statement fuel n row').bind_same fun row' first _ => ?_
        refine (follows_blockRest fuel n row').bind_same fun _ rest _ => ?_
        exact .same _

theorem follows_declaration : ∀ (fuel : ℕ) (kind : VariableKind) (terminated : Bool) (n : ℕ)
    (row : Row), Follows source row n n (declaration source fuel kind terminated)
      (Parser.declaration fuel kind terminated) Same
  | 0, _, _, _, _ => by
      rw [declaration, Parser.declaration]
      exact .throw _
  | fuel + 1, kind, terminated, n, row => by
      rw [declaration, Parser.declaration]
      refine Follows.next.bind fun _ keyword _ _ h => ?_
      obtain ⟨rfl, -⟩ := h
      refine Follows.identifier.bind_same fun _ name _ => ?_
      refine (Follows.accept _).bind_same fun row' given _ => ?_
      have hread := follows_finished (follows_expression fuel 0 0 []) n row'
      refine .branch (fun _ => hread.map_same some) (fun _ => .same none)
        fun row' initial _ => ?_
      refine .whenever (.failAt _ _) fun row' _ => .whenever .endStatement fun row' _ => ?_
      exact .same _

theorem follows_condition : ∀ (fuel n : ℕ) (row : Row),
    Follows source row n n (condition source fuel) (Parser.condition fuel) Same
  | 0, _, _ => by
      rw [condition, Parser.condition]
      exact .throw _
  | fuel + 1, n, row => by
      rw [condition, Parser.condition]
      refine (Follows.expect _).bind fun row' _ _ _ _ => ?_
      refine (follows_finished (follows_expression fuel 0 0 []) n row').bind_same fun _ e _ => ?_
      exact (Follows.expect _).bind fun _ _ _ _ _ => .same _

theorem follows_loopStart : ∀ (fuel n : ℕ) (row : Row),
    Follows source row n n (loopStart source fuel) (Parser.loopStart fuel) Same
  | 0, _, _ => by
      rw [loopStart, Parser.loopStart]
      exact .throw _
  | fuel + 1, n, row => by
      rw [loopStart, Parser.loopStart]
      refine Follows.peek.bind fun row' t _ _ h => ?_
      obtain ⟨rfl, -⟩ := h
      have hdeclaration : ∀ kind, Follows source row' n n
          (some <$> declaration source fuel kind false)
          (some <$> Parser.declaration fuel kind false) Same := by
        intro kind
        exact (follows_declaration fuel kind false n row').map_same some
      have hexpression : Follows source row' n n (do
          let e ← finished (expression source fuel 0)
          return some (Stmt.expression e t.line)) (do
          let e ← Parser.expression fuel 0
          return some (Stmt.expression e t.line)) Same := by
        refine (follows_finished (follows_expression fuel 0 0 []) n row').bind_same fun _ e _ => ?_
        exact .same _
      cases t.kind with
      | semicolon => exact .same _
      | letWord => exact hdeclaration _
      | constWord => exact hdeclaration _
      | varWord => exact hdeclaration _
      | _ => exact hexpression

theorem follows_optional : ∀ (fuel : ℕ) (closing : Kind) (n : ℕ) (row : Row),
    Follows source row n n (optional source fuel closing) (Parser.optional fuel closing) Same
  | 0, _, _, _ => by
      rw [optional, Parser.optional]
      exact .throw _
  | fuel + 1, closing, n, row => by
      rw [optional, Parser.optional]
      refine Follows.peek.bind fun row' t _ _ h => ?_
      obtain ⟨rfl, -⟩ := h
      refine .ite (fun _ => .same _) fun _ => ?_
      have hread := follows_finished (follows_expression fuel 0 0 []) n row'
      exact hread.map_same some

theorem follows_statement : ∀ (fuel n : ℕ) (row : Row),
    Follows source row n n (statement source fuel) (Parser.statement fuel) Same
  | 0, _, _ => by
      rw [statement, Parser.statement]
      exact .throw _
  | fuel + 1, n, row => by
      rw [statement, Parser.statement]
      refine Follows.peek.bind fun row' t _ _ h => ?_
      obtain ⟨rfl, -⟩ := h
      have hexpression : Follows source row' n n (do
          let e ← finished (expression source fuel 0)
          lift Parser.endStatement
          return Stmt.expression e t.line) (do
          let e ← Parser.expression fuel 0
          Parser.endStatement
          return Stmt.expression e t.line) Same := by
        refine (follows_finished (follows_expression fuel 0 0 []) n row').bind_same fun _ e _ => ?_
        exact Follows.endStatement.bind fun _ _ _ _ _ => .same _
      cases t.kind with
      | letWord => exact follows_declaration fuel _ _ n row'
      | constWord => exact follows_declaration fuel _ _ n row'
      | varWord => exact follows_declaration fuel _ _ n row'
      | functionWord =>
          refine Follows.next.bind fun _ _ _ _ _ => ?_
          refine Follows.identifier.bind_same fun row' name _ => ?_
          refine (follows_functionRest fuel _ _ n row').bind_same fun _ decl _ => ?_
          exact .same _
      | leftBrace =>
          refine (follows_block fuel n row').bind_same fun _ body _ => ?_
          exact .same _
      | ifWord =>
          refine Follows.next.bind fun row' _ _ _ _ => ?_
          refine (follows_condition fuel n row').bind_same fun row' condition _ => ?_
          refine (follows_statement fuel n row').bind_same fun _ success _ => ?_
          refine (Follows.accept _).bind_same fun row' given _ => ?_
          have hfailure := (follows_statement fuel n row').map_same some
          exact .branch (fun _ => hfailure) (fun _ => .same none) fun _ failure _ => .same _
      | whileWord =>
          refine Follows.next.bind fun row' _ _ _ _ => ?_
          refine (follows_condition fuel n row').bind_same fun row' condition _ => ?_
          refine (follows_statement fuel n row').inLoop.bind_same fun _ body _ => ?_
          exact .same _
      | forWord =>
          refine Follows.next.bind fun _ _ _ _ _ => ?_
          refine (Follows.expect _).bind fun row' _ _ _ _ => ?_
          refine (follows_loopStart fuel n row').bind_same fun _ start _ => ?_
          refine (Follows.expect _).bind fun row' _ _ _ _ => ?_
          refine (follows_optional fuel _ n row').bind_same fun _ condition _ => ?_
          refine (Follows.expect _).bind fun row' _ _ _ _ => ?_
          refine (follows_optional fuel _ n row').bind_same fun _ increment _ => ?_
          refine (Follows.expect _).bind fun row' _ _ _ _ => ?_
          refine (follows_statement fuel n row').inLoop.bind_same fun _ body _ => ?_
          exact .same _
      | returnWord =>
          refine Follows.next.bind fun _ _ _ _ _ => Follows.get.bind_same fun _ p _ => ?_
          refine .whenever (.failAt _ _) fun _ _ => Follows.peek.bind fun row' ahead _ _ h => ?_
          obtain ⟨rfl, -⟩ := h
          have hread := follows_finished (follows_expression fuel 0 0 []) n row'
          refine .branch (fun _ => .same none) (fun _ => hread.map_same some)
            fun _ value _ => ?_
          exact Follows.endStatement.bind fun _ _ _ _ _ => .same _
      | breakWord =>
          refine Follows.next.bind fun _ _ _ _ _ => Follows.get.bind_same fun _ p _ => ?_
          refine .whenever (.failAt _ _) fun _ _ => ?_
          exact Follows.endStatement.bind fun _ _ _ _ _ => .same _
      | continueWord =>
          refine Follows.next.bind fun _ _ _ _ _ => Follows.get.bind_same fun _ p _ => ?_
          refine .whenever (.failAt _ _) fun _ _ => ?_
          exact Follows.endStatement.bind fun _ _ _ _ _ => .same _
      | semicolon => exact Follows.next.bind fun _ _ _ _ _ => .same _
      | _ => exact hexpression

end

theorem follows_statements (fuel n : ℕ) (row : Row) :
    Follows source row n n (statements source fuel) (Parser.statements fuel) Same := by
  induction fuel generalizing row with
  | zero => exact .throw _
  | succ fuel ih =>
      rw [statements, Parser.statements]
      refine Follows.peek.bind fun row' t _ _ h => ?_
      obtain ⟨rfl, -⟩ := h
      refine .ite (fun _ => .same _) fun _ => ?_
      refine (follows_statement fuel n row').bind_same fun row' first _ => ?_
      refine (ih row').bind_same fun _ rest _ => ?_
      exact .same _

/-! ### Calls -/

theorem follows_step (call : Parser.Call) (fuel n : ℕ) (row : Row) :
    Follows source row n n (step source call fuel) (call.step fuel) Same := by
  cases call with
  | expression =>
      exact (follows_finished (follows_expression fuel 0 0 []) n row).map_same Tree.expression
  | program => exact (follows_statements fuel n row).map_same Tree.program

/-- **A call of the parser hits no guard**, and has steps enough. -/
theorem read?_eq {p : Parser} (hahead : p.ahead <:+ Lexer.lexemes source)
    (hroom : p.behind.length < Row.limit) (call : Parser.Call) :
    read? source p call = some (p.read call) := by
  have hstands : Stands source 0 ⟨p, []⟩ := by
    refine ⟨hahead, ?_⟩
    simp only [List.length_nil]
    omega
  have hagrees := follows_step call p.fuelFor 0 [] ⟨p, []⟩ hstands List.prefix_rfl
  rw [Parser.read_eq_run, Parser.run, read?]
  obtain ⟨tree, tree', q, hguarded, hrun, -, -, hsame⟩ | ⟨f, q, hguarded, hrun⟩ := hagrees.cases
  · obtain rfl : tree = tree' := hsame
    rw [hguarded, show call.step p.fuelFor p = _ from hrun]
  · rw [hguarded, show call.step p.fuelFor p = _ from hrun]
    cases f with
    | error e => rfl
    | exhausted => exact absurd hrun (Parser.not_exhausted (.of_suffix hahead) call _)

end Tracepoint.Guarded
