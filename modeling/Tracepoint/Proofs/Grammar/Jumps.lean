/-
Jumps are refused only where they may not stand.

Where a statement is expected is seen from what can still become of a source: if a name stands
there, and something suitable behind it, the parser yields a tree, and in this tree the name is a
statement at some place.  If a jump may stand at this place, the word of the jump is not refused
there, whatever is behind it, and whether or not the parser yields anything in the end.

Main definitions:

* `Parser.Expects` — a call expects a statement at a place behind some tokens;
* `Parser.Barred` — in no place where the jump may stand there is a name instead.

Main results:

* `Parser.inStep_expression`, `Parser.inStep_statement` and their companions — readers keep two runs
  in step, and the name is found only where the jump would be refused;
* `Parser.not_refused_of_expects` — **a jump is not refused where it may stand**;
* `jumps_stand` — **after any calls** nothing is open, and jumps are accepted only where they may
  stand, and never refused there.
-/

import Mathlib
import Tracepoint.Proofs.Grammar.Lockstep
import Tracepoint.Proofs.Token.Spans

set_option relaxedAutoImplicit false
set_option autoImplicit false

namespace Tracepoint.Parser

/-! ### Trees without the name -/

/-- The name is no statement where the jump may stand. -/
def Barred (t : Token) (name : String) (ss : List (Place × Stmt)) : Prop :=
  Everywhere (fun place s => s = t.nameStmt name → ¬place.Admits t.kind) ss

/-- What is known of an expression that was read. If `C` holds, it is not just the name. -/
structure ExprBarred (t : Token) (name : String) (C : Prop) (e : Expr) : Prop where
  inside : Barred t name e.statements
  whole : C → e ≠ t.nameExpr name

section

variable {t : Token} {name : String} {C : Prop}

theorem barred_nil : Barred t name [] :=
  everywhere_nil

theorem Barred.append {ss rest : List (Place × Stmt)} (h : Barred t name ss)
    (hrest : Barred t name rest) : Barred t name (ss ++ rest) :=
  everywhere_append.2 ⟨h, hrest⟩

/-- A statement that is no expression is not the name. -/
theorem Barred.cons {place : Place} {s : Stmt} {rest : List (Place × Stmt)}
    (h : Barred t name rest) (hs : ∀ e line, s ≠ .expression e line) :
    Barred t name ((place, s) :: rest) :=
  everywhere_cons.2 ⟨fun heq => absurd heq (hs _ _), h⟩

theorem ExprBarred.statement {e : Expr} (h : ExprBarred t name True e) (place : Place)
    (line : ℕ) : Barred t name (Stmt.statements place (.expression e line)) :=
  everywhere_cons.2 ⟨fun heq => absurd (Stmt.expression.inj heq).1 (h.whole trivial), h.inside⟩

theorem ExprBarred.of_atomOf? (ht : t.kind.IsJump) {u : Token} {e : Expr}
    (hu : u.span = t.span → u = t) (h : atomOf? u = some e) : ExprBarred t name C e := by
  obtain ⟨a, rfl⟩ : ∃ a, e = .atom a u.span u.line := by
    simp only [atomOf?] at h
    split at h
    all_goals cases h
    all_goals exact ⟨_, rfl⟩
  refine ⟨barred_nil, fun _ heq => ?_⟩
  obtain ⟨-, hspan, -⟩ := Expr.atom.inj heq
  -- Only the word lies where the name lies, and the word is no expression.
  obtain rfl := hu hspan
  simp only [atomOf?] at h
  rcases ht with hkind | hkind | hkind <;> rw [hkind] at h <;> cases h

theorem ExprBarred.of_assignment? {target value : Expr} {assign : Expr → Expr}
    (h : assignment? target = some assign) (htarget : Barred t name target.statements)
    (hvalue : Barred t name value.statements) : ExprBarred t name C (assign value) := by
  simp only [assignment?] at h
  split at h
  · cases h
    exact ⟨hvalue, fun _ heq => by cases heq⟩
  · cases h
    exact ⟨htarget.append hvalue, fun _ heq => by cases heq⟩
  · cases h
    obtain ⟨hobject, hindex⟩ := everywhere_append.1 htarget
    exact ⟨(Barred.append hobject hindex).append hvalue, fun _ heq => by cases heq⟩
  · cases h

end

/-! ### Readers -/

section

variable {t : Token} {name : String} {loops functions : ℕ}

/-- The word starts no continuation of an expression. -/
theorem ofKind?_of_isJump (ht : t.kind.IsJump) : Continuation.ofKind? t.kind = none := by
  rcases ht with hkind | hkind | hkind <;> rw [hkind] <;> rfl

/-- The word opens no parameters. -/
theorem atWord_functionRest (ht : t.kind.IsJump) {α : Type} {P : α → Prop} (fuel : ℕ)
    (name? : Option String) (line : ℕ) (f : FunctionDecl → Parse α) (z : Parse α) :
    AtWord t name loops functions (functionRest fuel name? line >>= f) z P := by
  intro p q b q' _ hp _ _
  cases fuel with
  | zero => trivial
  | succ fuel =>
      simp only [functionRest, Bind.bind, EStateM.bind, Parser.expect, Parser.next, hp,
        if_neg (ht.ne (by decide : ¬Kind.leftParen.IsJump))]
      exact fun hrefuses => absurd hrefuses (SyntaxError.not_refuses_unexpected _ _ _)

/-- The place inside of some loops and functions. -/
def placeAt (loops functions : ℕ) : Place :=
  ⟨0 < loops, 0 < functions⟩

/-- The parser stands at the name, and the word is not ahead behind it. -/
def AtName (t : Token) (name : String) (loops functions : ℕ) (q : Parser) : Prop :=
  q.current = .ok (t.named name) ∧
    ∀ line, Clear t loops functions { q.forward with previousLine := line }

/-- A jump is refused where no loop or no function is open. There `P` has to hold of what the run
with the name reads. -/
theorem atWord_jump {n : ℕ} {depth : Parser → ℕ} {fault : SyntaxFault} {k : Unit → Parse Stmt}
    {z : Parse Stmt} {P : Stmt → Prop} (hdepth : ∀ p, AtDepths loops functions p → depth p = n)
    (hk : InStep t name loops functions (k ()) P)
    (hz : n = 0 → ∀ q, AtName t name loops functions q → Fine t loops functions P (z q)) :
    AtWord t name loops functions (do
      let _ ← next
      let p ← get
      if depth p = 0 then
        let u ← failAt fault t
        k u
      else k ()) z P := by
  intro p q b q' hpq hp hq hrun
  rcases hpq.cases with ⟨-, -, hclear, hclear'⟩ | ⟨-, haway, -⟩
  · obtain ⟨p', hp'⟩ : ∃ p', p' = { p.forward with previousLine := t.line } := ⟨_, rfl⟩
    have hfirst : next p = .ok t p' := by
      rw [hp', Parser.next, hp]
    simp only [Bind.bind, EStateM.bind, hfirst]
    change Matches _ _ _ _ _ _ _ ((if depth p' = 0 then failAt fault t >>= k else k ()) p')
    rw [hdepth p' (hp' ▸ (hclear t.line).depths)]
    split
    next hn =>
      intro _
      have hfine := hz hn q ⟨hq, hclear'⟩
      rw [hrun] at hfine
      exact hfine.symm
    next => exact (hk.alone p' (hp' ▸ hclear t.line)).matched b q'
  · exact absurd rfl (haway t hp)

/-- The name is an operand of its own. -/
theorem operand_of_name {q : Parser} (hq : q.current = .ok (t.named name)) (fuel : ℕ) :
    operand (fuel + 1) q = .ok (t.nameExpr name) { q.forward with previousLine := t.line } := by
  simp only [operand, Bind.bind, EStateM.bind, next, hq]
  rfl

/-- A statement that ends where the statement ends. -/
theorem inStep_ended (ht : t.kind.IsJump) {s : Stmt}
    (hs : Barred t name (s.statements (placeAt loops functions))) :
    InStep t name loops functions (do endStatement; return s)
      fun s => Barred t name (s.statements (placeAt loops functions)) :=
  (InStep.endStatement ht).bind fun _ _ => .pure hs

/-- A return behind its word. The line decides whether there is a value, and it is the same for the
word of a jump and for a name. -/
theorem inStep_returned (ht : t.kind.IsJump) {fuel : ℕ} (line : ℕ)
    (h : InStep t name loops functions (expression fuel 0) (ExprBarred t name True)) :
    InStep t name loops functions (do
        let ahead ← peek
        let value ←
          if ahead.kind = .semicolon ∨ ahead.kind = .rightBrace ∨ ahead.kind = .finish ∨
              ahead.line ≠ line then pure none
          else some <$> expression fuel 0
        endStatement
        return Stmt.returnValue value line)
      fun s => Barred t name (s.statements (placeAt loops functions)) := by
  have hend : ∀ value : Option Expr, Barred t name (valueStatements value) →
      InStep t name loops functions (do endStatement; return Stmt.returnValue value line)
        fun s => Barred t name (s.statements (placeAt loops functions)) :=
    fun value hvalue => inStep_ended ht (hvalue.cons fun _ _ => nofun)
  have hsome := (h.map (f := some) fun _ he => he.inside).bind hend
  have hnone := InStep.bind (x := (Pure.pure none : Parse (Option Expr))) (.pure barred_nil) hend
  refine .ahead (fun u _ => .ite (fun _ => hnone) fun _ => hsome) ?_
  by_cases hline : t.line = line
  · have hword : t.kind ≠ .semicolon ∧ t.kind ≠ .rightBrace ∧ t.kind ≠ .finish :=
      ⟨ht.ne (by decide), ht.ne (by decide), ht.ne (by decide)⟩
    rw [if_neg (by simp [hword, hline]), if_neg (by simp [hline])]
    exact hsome.atWord
  · rw [if_pos (by simp [hline]), if_pos (by simp [hline])]
    exact hnone.atWord

/-- The name on its own is a statement where the jump may not stand. -/
theorem fine_ended (ht : t.kind.IsJump) {fuel : ℕ} (hnot : ¬(placeAt loops functions).Admits t.kind)
    {q : Parser} (h : Fine t loops functions (ExprBarred t name False) (expression fuel 0 q)) :
    Fine t loops functions (fun s => Barred t name (s.statements (placeAt loops functions)))
      ((do let e ← expression fuel 0; endStatement; return Stmt.expression e t.line : Parse Stmt)
        q) := by
  refine h.bind fun e he => (?_ : InStep t name loops functions _ _)
  exact inStep_ended ht (everywhere_cons.2 ⟨fun _ => hnot, he.inside⟩)

mutual

theorem inStep_expression (ht : t.kind.IsJump) : ∀ fuel strength loops functions : ℕ,
    InStep t name loops functions (expression fuel strength) (ExprBarred t name True)
  | 0, _, _, _ => by
      rw [expression]
      exact .exhausted
  | fuel + 1, strength, loops, functions => by
      rw [expression]
      refine (inStep_operand ht fuel loops functions).bind fun left hleft => ?_
      exact inStep_continuations ht fuel strength left hleft loops functions

theorem inStep_continuations (ht : t.kind.IsJump) {C : Prop} : ∀ (fuel strength : ℕ) (left : Expr),
    ExprBarred t name C left → ∀ loops functions,
      InStep t name loops functions (continuations fuel strength left) (ExprBarred t name C)
  | 0, _, _, _, _, _ => by
      rw [continuations]
      exact .exhausted
  | fuel + 1, strength, left, hleft, loops, functions => by
      rw [continuations]
      refine .ahead (fun u hu => ?_) ?_
      · split
        next => exact .pure hleft
        next c _ =>
          refine .ite (fun _ => .pure hleft) fun _ => InStep.next.bind fun _ _ => ?_
          cases c with
          | suffix s =>
              refine (inStep_suffix ht fuel s left hleft.inside loops functions).bind
                fun whole (hwhole : ExprBarred t name C whole) => ?_
              exact inStep_continuations ht fuel strength whole hwhole loops functions
          | binary op =>
              refine (inStep_expression ht fuel _ loops functions).bind fun right hright => ?_
              exact inStep_continuations ht fuel strength (.binary op left right)
                ⟨hleft.inside.append hright.inside, fun _ => nofun⟩ loops functions
          | logical op =>
              refine (inStep_expression ht fuel _ loops functions).bind fun right hright => ?_
              exact inStep_continuations ht fuel strength (.logical op left right)
                ⟨hleft.inside.append hright.inside, fun _ => nofun⟩ loops functions
          | assignment =>
              dsimp only
              split
              next => exact .failAt fun hfault => hfault.elim
              next assign hassign =>
                refine (inStep_expression ht fuel _ loops functions).bind fun value hvalue => ?_
                exact inStep_continuations ht fuel strength (assign value)
                  (.of_assignment? hassign hleft.inside hvalue.inside) loops functions
      · rw [ofKind?_of_isJump ht]
        exact (InStep.pure hleft).atWord

/-- The name is read as an expression, with or without something behind it. -/
theorem fine_of_name (ht : t.kind.IsJump) : ∀ (fuel loops functions : ℕ) (q : Parser),
    AtName t name loops functions q →
      Fine t loops functions (ExprBarred t name False) (expression fuel 0 q)
  | 0, _, _, _, _ => trivial
  | fuel + 1, loops, functions, q, hq => by
      rw [expression]
      refine Fine.bind (P := ExprBarred t name False) ?_ fun left hleft =>
        inStep_continuations ht fuel 0 left hleft loops functions
      cases fuel with
      | zero => exact trivial
      | succ fuel =>
          rw [operand_of_name hq.1]
          exact ⟨hq.2 t.line, barred_nil, False.elim⟩

theorem inStep_operand (ht : t.kind.IsJump) : ∀ fuel loops functions : ℕ,
    InStep t name loops functions (operand fuel) (ExprBarred t name True)
  | 0, _, _ => by
      rw [operand]
      exact .exhausted
  | fuel + 1, loops, functions => by
      rw [operand]
      refine InStep.next.bind fun u hu => ?_
      split
      next atom hatom => exact .pure (.of_atomOf? ht hu hatom)
      next =>
        refine (inStep_expression ht fuel _ loops functions).bind fun inner hinner => ?_
        exact .pure ⟨hinner.inside, fun _ => nofun⟩
      next =>
        refine (inStep_expression ht fuel _ loops functions).bind fun inner hinner => ?_
        exact (InStep.expect _).bind fun _ _ => .pure ⟨hinner.inside, fun _ => nofun⟩
      next =>
        refine (inStep_arguments ht fuel (by decide) loops functions).bind fun es hes => ?_
        exact .pure ⟨hes, fun _ => nofun⟩
      next =>
        refine (inStep_entries ht fuel loops functions).bind fun es hes => ?_
        exact .pure ⟨hes, fun _ => nofun⟩
      next =>
        refine .ahead (fun ahead _ => ?_) ?_
        · refine .branch (fun _ => InStep.identifier.map fun _ _ => trivial)
            (fun _ => .pure trivial) fun name? (_ : anything name?) => ?_
          refine (inStep_functionRest ht fuel name? _ loops functions).bind fun decl hdecl => ?_
          exact .pure ⟨hdecl, fun _ => nofun⟩
        · rw [if_neg (ht.ne (by decide)), pure_bind]
          exact atWord_functionRest ht fuel _ _ _ _
      next => exact .failAt fun hfault => hfault.elim
      next => exact .failAt fun hfault => hfault.elim

theorem inStep_suffix (ht : t.kind.IsJump) {C : Prop} : ∀ (fuel : ℕ) (s : Suffix) (object : Expr),
    Barred t name object.statements → ∀ loops functions,
      InStep t name loops functions (suffix fuel s object) (ExprBarred t name C)
  | 0, _, _, _, _, _ => by
      rw [suffix]
      exact .exhausted
  | fuel + 1, .call, object, hobject, loops, functions => by
      rw [suffix]
      refine (inStep_arguments ht fuel (by decide) loops functions).bind fun es hes => ?_
      exact .pure ⟨hobject.append hes, fun _ => nofun⟩
  | fuel + 1, .property, object, hobject, loops, functions => by
      rw [suffix]
      refine InStep.next.bind fun u _ => .ite (fun _ => ?_) fun _ => ?_
      · exact .pure ⟨hobject, fun _ => nofun⟩
      · exact .failAt fun hfault => hfault.elim
  | fuel + 1, .index, object, hobject, loops, functions => by
      rw [suffix]
      refine (inStep_expression ht fuel _ loops functions).bind fun index hindex => ?_
      refine (InStep.expect _).bind fun _ _ => ?_
      exact .pure ⟨hobject.append hindex.inside, fun _ => nofun⟩

theorem inStep_arguments (ht : t.kind.IsJump) : ∀ (fuel : ℕ) {closing : Kind}, closing.IsOther →
    ∀ loops functions, InStep t name loops functions (arguments fuel closing)
      fun es => Barred t name (exprsStatements es)
  | 0, _, _, _, _ => by
      rw [arguments]
      exact .exhausted
  | fuel + 1, closing, hclosing, loops, functions => by
      rw [arguments]
      refine (InStep.accept ht hclosing).bind fun closed _ => ?_
      refine .ite (fun _ => .pure barred_nil) fun _ => ?_
      refine (inStep_expression ht fuel _ loops functions).bind fun first hfirst => ?_
      refine (InStep.accept ht (by decide)).bind fun more _ => .ite (fun _ => ?_) fun _ => ?_
      · refine (inStep_arguments ht fuel hclosing loops functions).bind fun rest hrest => ?_
        exact .pure (hfirst.inside.append hrest)
      · exact (InStep.expect _).bind fun _ _ => .pure (hfirst.inside.append barred_nil)

theorem inStep_entries (ht : t.kind.IsJump) : ∀ fuel loops functions : ℕ,
    InStep t name loops functions (entries fuel) fun es => Barred t name (entriesStatements es)
  | 0, _, _ => by
      rw [entries]
      exact .exhausted
  | fuel + 1, loops, functions => by
      rw [entries]
      refine (InStep.accept ht (by decide)).bind fun closed _ => ?_
      refine .ite (fun _ => .pure barred_nil) fun _ => ?_
      refine (inStep_entry ht fuel loops functions).bind fun first hfirst => ?_
      refine (InStep.accept ht (by decide)).bind fun more _ => .ite (fun _ => ?_) fun _ => ?_
      · refine (inStep_entries ht fuel loops functions).bind fun rest hrest => ?_
        exact .pure (hfirst.append hrest)
      · exact (InStep.expect _).bind fun _ _ => .pure (hfirst.append barred_nil)

theorem inStep_entry (ht : t.kind.IsJump) : ∀ fuel loops functions : ℕ,
    InStep t name loops functions (entry fuel) fun e => Barred t name e.2.statements
  | 0, _, _ => by
      rw [entry]
      exact .exhausted
  | fuel + 1, loops, functions => by
      rw [entry_succ]
      refine InStep.next.bind fun u _ => (InStep.entryKey u).bind fun key _ => ?_
      refine (InStep.accept ht (by decide)).bind fun _ _ => ?_
      refine .ite (fun _ => ?_) fun _ => .ite (fun _ => .pure barred_nil) fun _ => ?_
      · refine (inStep_expression ht fuel _ loops functions).bind fun value hvalue => ?_
        exact .pure hvalue.inside
      · exact InStep.next.bind fun _ _ => .unexpected _ _

theorem inStep_functionRest (ht : t.kind.IsJump) : ∀ (fuel : ℕ) (name? : Option String) (line : ℕ)
    (loops functions : ℕ), InStep t name loops functions (functionRest fuel name? line)
      fun decl => Barred t name decl.statements
  | 0, _, _, _, _ => by
      rw [functionRest]
      exact .exhausted
  | fuel + 1, name?, line, loops, functions => by
      rw [functionRest]
      refine (InStep.expect _).bind fun _ _ => (InStep.parameters ht fuel).bind fun _ _ => ?_
      exact (inStep_block ht fuel 0 (functions + 1)).inFunction.bind fun body hbody => .pure hbody

theorem inStep_block (ht : t.kind.IsJump) : ∀ fuel loops functions : ℕ,
    InStep t name loops functions (block fuel)
      fun ss => Barred t name (stmtsStatements (placeAt loops functions) ss)
  | 0, _, _ => by
      rw [block]
      exact .exhausted
  | fuel + 1, loops, functions => by
      rw [block]
      exact (InStep.expect _).bind fun _ _ => inStep_blockRest ht fuel loops functions

theorem inStep_blockRest (ht : t.kind.IsJump) : ∀ fuel loops functions : ℕ,
    InStep t name loops functions (blockRest fuel)
      fun ss => Barred t name (stmtsStatements (placeAt loops functions) ss)
  | 0, _, _ => by
      rw [blockRest]
      exact .exhausted
  | fuel + 1, loops, functions => by
      have hrest : InStep t name loops functions (do
          let first ← statement fuel
          let rest ← blockRest fuel
          return first :: rest)
          fun ss => Barred t name (stmtsStatements (placeAt loops functions) ss) := by
        refine (inStep_statement ht fuel loops functions).bind fun first hfirst => ?_
        exact (inStep_blockRest ht fuel loops functions).bind fun rest hrest =>
          .pure (hfirst.append hrest)
      rw [blockRest]
      refine .ahead (fun u _ => .ite (fun _ => ?_) fun _ => .ite (fun _ => .unexpected _ _)
        fun _ => hrest) ?_
      · exact InStep.next.bind fun _ _ => .pure barred_nil
      · rw [if_neg (ht.ne (by decide)), if_neg (ht.ne (by decide)), Token.named_kind,
          if_neg (by decide), if_neg (by decide)]
        exact hrest.atWord

theorem inStep_declaration (ht : t.kind.IsJump) : ∀ (fuel : ℕ) (kind : VariableKind)
    (terminated : Bool) (loops functions : ℕ),
    InStep t name loops functions (declaration fuel kind terminated)
      fun s => ∀ place, Barred t name (s.statements place)
  | 0, _, _, _, _ => by
      rw [declaration]
      exact .exhausted
  | fuel + 1, kind, terminated, loops, functions => by
      rw [declaration]
      refine InStep.next.bind fun keyword _ => InStep.identifier.bind fun name? _ => ?_
      refine (InStep.accept ht (by decide)).bind fun given _ => ?_
      refine .branch (P := fun e? => Barred t name (valueStatements e?)) (fun _ => ?_)
        (fun _ => .pure barred_nil) fun initial hinitial => ?_
      · exact (inStep_expression ht fuel _ loops functions).map fun _ he => he.inside
      refine .whenever (fun _ => .failAt fun h : SyntaxFault.missingInitializer.OfJump => h.elim) ?_
      exact .whenever (fun _ => .endStatement ht) (.pure fun _ => hinitial.cons (fun _ _ => nofun))

theorem inStep_condition (ht : t.kind.IsJump) : ∀ fuel loops functions : ℕ,
    InStep t name loops functions (condition fuel) fun e => Barred t name e.statements
  | 0, _, _ => by
      rw [condition]
      exact .exhausted
  | fuel + 1, loops, functions => by
      rw [condition]
      refine (InStep.expect _).bind fun _ _ => ?_
      refine (inStep_expression ht fuel _ loops functions).bind fun e he => ?_
      exact (InStep.expect _).bind fun _ _ => .pure he.inside

theorem inStep_loopStart (ht : t.kind.IsJump) : ∀ fuel loops functions : ℕ,
    InStep t name loops functions (loopStart fuel)
      fun s? => ∀ place, Barred t name (optionalStatements place s?)
  | 0, _, _ => by
      rw [loopStart]
      exact .exhausted
  | fuel + 1, loops, functions => by
      have hvalue : ∀ line : ℕ, InStep t name loops functions (do
          let e ← expression fuel 0
          return some (Stmt.expression e line))
          fun s? => ∀ place, Barred t name (optionalStatements place s?) := fun line =>
        (inStep_expression ht fuel _ loops functions).bind fun e he =>
          .pure fun place => he.statement place line
      rw [loopStart]
      refine .ahead (fun u _ => ?_) ?_
      · split
        · exact .pure fun _ => barred_nil
        · exact (inStep_declaration ht fuel _ _ loops functions).map fun _ hs => hs
        · exact (inStep_declaration ht fuel _ _ loops functions).map fun _ hs => hs
        · exact (inStep_declaration ht fuel _ _ loops functions).map fun _ hs => hs
        · exact hvalue u.line
      · rcases ht with hkind | hkind | hkind <;> rw [hkind] <;> exact (hvalue t.line).atWord

theorem inStep_optional (ht : t.kind.IsJump) : ∀ (fuel : ℕ) {closing : Kind}, closing.IsOther →
    ∀ loops functions, InStep t name loops functions (optional fuel closing)
      fun e? => Barred t name (valueStatements e?)
  | 0, _, _, _, _ => by
      rw [optional]
      exact .exhausted
  | fuel + 1, closing, hclosing, loops, functions => by
      have hvalue : InStep t name loops functions (some <$> expression fuel 0)
          fun e? => Barred t name (valueStatements e?) :=
        (inStep_expression ht fuel _ loops functions).map fun _ he => he.inside
      rw [optional]
      refine .ahead (fun u _ => .ite (fun _ => .pure barred_nil) fun _ => hvalue) ?_
      rw [if_neg (ht.ne hclosing.1), Token.named_kind, if_neg hclosing.2.symm]
      exact hvalue.atWord

theorem inStep_statement (ht : t.kind.IsJump) : ∀ fuel loops functions : ℕ,
    InStep t name loops functions (statement fuel)
      fun s => Barred t name (s.statements (placeAt loops functions))
  | 0, _, _ => by
      rw [statement]
      exact .exhausted
  | fuel + 1, loops, functions => by
      rw [statement]
      refine .ahead (fun u hu => ?_) ?_
      · split
        · exact (inStep_declaration ht fuel _ _ loops functions).weaken fun s hs => hs _
        · exact (inStep_declaration ht fuel _ _ loops functions).weaken fun s hs => hs _
        · exact (inStep_declaration ht fuel _ _ loops functions).weaken fun s hs => hs _
        · refine InStep.next.bind fun _ _ => InStep.identifier.bind fun name? _ => ?_
          refine (inStep_functionRest ht fuel _ _ loops functions).bind fun decl hdecl => ?_
          exact .pure (hdecl.cons fun _ _ => nofun)
        · refine (inStep_block ht fuel loops functions).bind fun body hbody => ?_
          exact .pure (hbody.cons fun _ _ => nofun)
        · refine InStep.next.bind fun _ _ => ?_
          refine (inStep_condition ht fuel loops functions).bind fun condition hcondition => ?_
          refine (inStep_statement ht fuel loops functions).bind fun success hsuccess => ?_
          refine (InStep.accept ht (by decide)).bind fun _ _ => ?_
          refine .branch (P := fun s? => Barred t name
            (optionalStatements (placeAt loops functions) s?)) (fun _ => ?_)
            (fun _ => .pure barred_nil) fun failure hfailure => ?_
          · exact (inStep_statement ht fuel loops functions).map fun _ hs => hs
          · exact .pure (((hcondition.append hsuccess).append hfailure).cons fun _ _ => nofun)
        · refine InStep.next.bind fun _ _ => ?_
          refine (inStep_condition ht fuel loops functions).bind fun condition hcondition => ?_
          refine (inStep_statement ht fuel (loops + 1) functions).inLoop.bind fun body hbody => ?_
          exact .pure ((hcondition.append hbody).cons fun _ _ => nofun)
        · refine InStep.next.bind fun _ _ => (InStep.expect _).bind fun _ _ => ?_
          refine (inStep_loopStart ht fuel loops functions).bind fun start hstart => ?_
          refine (InStep.expect _).bind fun _ _ => ?_
          refine (inStep_optional ht fuel (by decide) loops functions).bind
            fun condition hcondition => ?_
          refine (InStep.expect _).bind fun _ _ => ?_
          refine (inStep_optional ht fuel (by decide) loops functions).bind
            fun increment hincrement => ?_
          refine (InStep.expect _).bind fun _ _ => ?_
          refine (inStep_statement ht fuel (loops + 1) functions).inLoop.bind fun body hbody => ?_
          exact .pure (((((hstart _).append hcondition).append hincrement).append hbody).cons
            fun _ _ => nofun)
        · refine InStep.next.bind fun _ _ => .get (fun p q hpq => ?_) fun p _ => ?_
          · simp only [hpq.left.2, hpq.right.2]
          · refine .whenever (fun _ => .failAt fun _ => hu) ?_
            exact inStep_returned ht u.line (inStep_expression ht fuel 0 loops functions)
        · refine InStep.next.bind fun _ _ => .get (fun p q hpq => ?_) fun p _ => ?_
          · simp only [hpq.left.1, hpq.right.1]
          · refine .whenever (fun _ => .failAt fun _ => hu) ?_
            exact inStep_ended ht (barred_nil.cons fun _ _ => nofun)
        · refine InStep.next.bind fun _ _ => .get (fun p q hpq => ?_) fun p _ => ?_
          · simp only [hpq.left.1, hpq.right.1]
          · refine .whenever (fun _ => .failAt fun _ => hu) ?_
            exact inStep_ended ht (barred_nil.cons fun _ _ => nofun)
        · exact InStep.next.bind fun _ _ => .pure (barred_nil.cons fun _ _ => nofun)
        · refine (inStep_expression ht fuel _ loops functions).bind fun e he => ?_
          exact inStep_ended ht (he.statement _ _)
      · rcases id ht with hkind | hkind | hkind
        · rw [hkind]
          refine atWord_jump (fun p hp => hp.1) ?_ fun hn q hq => ?_
          · exact inStep_ended ht (barred_nil.cons fun _ _ => nofun)
          · have hnot : ¬(placeAt loops functions).Admits t.kind := by
              simp [hkind, hn, placeAt, Place.Admits]
            exact fine_ended ht hnot (fine_of_name ht fuel loops functions q hq)
        · rw [hkind]
          refine atWord_jump (fun p hp => hp.1) ?_ fun hn q hq => ?_
          · exact inStep_ended ht (barred_nil.cons fun _ _ => nofun)
          · have hnot : ¬(placeAt loops functions).Admits t.kind := by
              simp [hkind, hn, placeAt, Place.Admits]
            exact fine_ended ht hnot (fine_of_name ht fuel loops functions q hq)
        · rw [hkind]
          refine atWord_jump (fun p hp => hp.2) ?_ fun hn q hq => ?_
          · exact inStep_returned ht t.line (inStep_expression ht fuel 0 loops functions)
          · have hnot : ¬(placeAt loops functions).Admits t.kind := by
              simp [hkind, hn, placeAt, Place.Admits]
            exact fine_ended ht hnot (fine_of_name ht fuel loops functions q hq)

end

theorem inStep_statements (ht : t.kind.IsJump) (fuel : ℕ) :
    InStep t name loops functions (statements fuel)
      fun ss => Barred t name (stmtsStatements (placeAt loops functions) ss) := by
  induction fuel with
  | zero =>
      rw [statements]
      exact .exhausted
  | succ fuel ih =>
      have hrest : InStep t name loops functions (do
          let first ← statement fuel
          let rest ← statements fuel
          return first :: rest)
          fun ss => Barred t name (stmtsStatements (placeAt loops functions) ss) := by
        refine (inStep_statement ht fuel loops functions).bind fun first hfirst => ?_
        exact ih.bind fun rest hrest => .pure (hfirst.append hrest)
      rw [statements]
      refine .ahead (fun u _ => .ite (fun _ => .pure barred_nil) fun _ => hrest) ?_
      rw [if_neg (ht.ne (by decide)), Token.named_kind, if_neg (by decide)]
      exact hrest.atWord

theorem inStep_step (ht : t.kind.IsJump) (call : Call) (fuel : ℕ) :
    InStep t name 0 0 (call.step fuel) fun tree => Barred t name tree.statements := by
  cases call with
  | expression => exact (inStep_expression ht fuel 0 0 0).map fun _ he => he.inside
  | program => exact (inStep_statements ht fuel).map fun _ hss => hss

end

/-! ### Calls -/

/-- The parser with other tokens ahead. -/
def facing (p : Parser) : List Lexeme → Parser
  | [] => p
  | current :: behind => { p with current, behind }

/-- Behind the tokens `before` the call expects a statement at the place. A name can stand there
instead of `t`, and something behind it, so that the call yields a tree in which the name is a
statement at this place. -/
def Expects (p : Parser) (call : Call) (before : List Lexeme) (t : Token) (place : Place) : Prop :=
  ∃ name after tree, after ≠ [] ∧ (∀ u, .ok u ∈ after → u.span ≠ t.span) ∧
    ((p.facing (before ++ .ok (t.named name) :: after)).read call).1 = .ok tree ∧
    (place, t.nameStmt name) ∈ tree.statements

section

variable {t : Token} {name : String} {before rest after : List Lexeme}

theorem twinTokens (hrest : rest ≠ []) (hafter : after ≠ [])
    (haway : ∀ u, .ok u ∈ before ++ rest → u.span ≠ t.span)
    (haway' : ∀ u, .ok u ∈ after → u.span ≠ t.span) :
    TwinTokens t name (before ++ .ok t :: rest) (before ++ .ok (t.named name) :: after) := by
  induction before with
  | nil =>
      refine .here ⟨hrest, hafter⟩ fun u hu => ?_
      rcases List.mem_append.1 hu with hu | hu
      · exact haway u hu
      · exact haway' u hu
  | cons x before ih =>
      refine .there (fun u hx => haway u (hx ▸ List.mem_cons_self)) (ih fun u hu => ?_)
      exact haway u (List.mem_cons_of_mem _ hu)

theorem facing_eq (p : Parser) (tokens : List Lexeme) (h : tokens ≠ []) :
    (p.facing tokens).ahead = tokens ∧ (p.facing tokens).previousLine = p.previousLine ∧
      (p.facing tokens).loopDepth = p.loopDepth ∧
        (p.facing tokens).functionDepth = p.functionDepth := by
  cases tokens with
  | nil => exact absurd rfl h
  | cons current behind => exact ⟨rfl, rfl, rfl, rfl⟩

/-- The end of a call, with as many steps as it takes or more. -/
theorem step_of_read {p : Parser} {call : Call} {tree : Tree} (h : (p.read call).1 = .ok tree)
    (more : ℕ) : ∃ q, call.step (more + p.fuelFor) p = .ok tree q := by
  rw [read_eq_run, run] at h
  split at h
  next tree' q hrun =>
    cases h
    rcases (call.prolonged more p.fuelFor).agrees p with ⟨r, hr⟩ | hagrees
    · rw [hrun] at hr
      cases hr
    · exact ⟨q, hagrees.trans hrun⟩
  next => cases h
  next => cases h

theorem step_of_read_error {p : Parser} {call : Call} {e : SyntaxError}
    (h : (p.read call).1 = .error e) (he : e.fault.OfJump) (more : ℕ) :
    ∃ q, call.step (more + p.fuelFor) p = .error (.error e) q := by
  rw [read_eq_run, run] at h
  split at h
  next => cases h
  next e' q hrun =>
    cases h
    rcases (call.prolonged more p.fuelFor).agrees p with ⟨r, hr⟩ | hagrees
    · rw [hrun] at hr
      cases hr
    · exact ⟨q, hagrees.trans hrun⟩
  next =>
    cases h
    exact he.elim

/-- **A jump is not refused where it may stand.** -/
theorem not_refused_of_expects {p : Parser} {call : Call} {place : Place} {e : SyntaxError}
    (hp : AtDepths 0 0 p) (hahead : p.ahead = before ++ .ok t :: rest) (hrest : rest ≠ [])
    (haway : ∀ u, .ok u ∈ before ++ rest → u.span ≠ t.span)
    (hexpects : p.Expects call before t place) (hadmits : place.Admits t.kind)
    (he : (p.read call).1 = .error e) : ¬e.Refuses t := by
  intro hrefuses
  obtain ⟨name, after, tree, hafter, haway', hread, hmem⟩ := hexpects
  obtain ⟨hfacing, hline, hloops, hfunctions⟩ :=
    p.facing_eq (before ++ .ok (t.named name) :: after) (by simp)
  have htwins : Twins t name 0 0 p (p.facing (before ++ .ok (t.named name) :: after)) := by
    refine ⟨?_, hline.symm, hp, hloops.trans hp.1, hfunctions.trans hp.2⟩
    rw [hahead, hfacing]
    exact twinTokens hrest hafter haway haway'
  -- Both runs are given the steps of both.
  obtain ⟨q, hname⟩ := step_of_read hread p.fuelFor
  obtain ⟨r, hword⟩ := step_of_read_error he hrefuses.1
    (p.facing (before ++ .ok (t.named name) :: after)).fuelFor
  rw [Nat.add_comm] at hword
  have hends := (inStep_step hadmits.isJump call _).together _ _ _ _ htwins hname
  rw [hword] at hends
  exact (hends hrefuses).1 _ hmem rfl hadmits

/-- The tokens ahead of a parser in a source lie at different places, and the end is behind them. -/
theorem away_of_suffix {source : String}
    (h : before ++ .ok t :: rest <:+ Lexer.lexemes source) (ht : t.kind ≠ .finish) :
    rest ≠ [] ∧ ∀ u, .ok u ∈ before ++ rest → u.span ≠ t.span := by
  constructor
  · rintro rfl
    obtain ⟨front, hfront⟩ := h
    have hlast : (Lexer.lexemes source).getLast? = some (.ok t) := by
      rw [← hfront, ← List.append_assoc, List.getLast?_concat]
    exact ht (beq_iff_eq.1 (Lexer.isFinish_of_getLast? hlast))
  · have hpairs := (Lexer.pairwise_lexemes source).sublist h.sublist
    obtain ⟨-, hbehind, hbefore⟩ := List.pairwise_append.1 hpairs
    intro u hu heq
    have hstart : u.span.start = t.span.start := congrArg Span.start heq
    rcases List.mem_append.1 hu with hu | hu
    · exact absurd hstart (Nat.ne_of_lt (hbefore _ hu _ List.mem_cons_self))
    · exact absurd hstart (Nat.ne_of_gt ((List.pairwise_cons.1 hbehind).1 _ hu))

end

/-- **Jumps stand where they may, and only there.** Whatever calls were made of a parser, and
whatever came of them, no loop and no function is open behind them. In every tree that a further
call yields, a jump out of a loop stands in the body of a loop of the same function, and a return
in the body of a function. And where a statement is expected at a place where a jump may stand, its
word is not refused. -/
theorem jumps_stand (source : String) (calls : List Call) :
    let p := (ofString source).after calls
    (p.loopDepth = 0 ∧ p.functionDepth = 0) ∧
    (∀ call tree, (p.read call).1 = .ok tree → AllFit tree.statements) ∧
    ∀ call before t rest place, p.ahead = before ++ .ok t :: rest →
      p.Expects call before t place → place.Admits t.kind →
        ∀ e, (p.read call).1 = .error e → e.span = t.span →
          e.fault.code ∉ ["SE007", "SE008", "SE009"] := by
  intro p
  have hdepths : AtDepths 0 0 p := depths_after source calls
  refine ⟨hdepths, fun call tree htree => allFit_of_read hdepths htree, ?_⟩
  intro call before t rest place hahead hexpects hadmits e he hspan hcode
  have hsuffix : before ++ .ok t :: rest <:+ Lexer.lexemes source := by
    rw [← hahead]
    exact ahead_after source calls
  obtain ⟨hrest, haway⟩ := away_of_suffix hsuffix (hadmits.isJump.ne (by decide))
  refine not_refused_of_expects hdepths hahead hrest haway hexpects hadmits he ⟨?_, hspan⟩
  exact e.fault.ofJump_iff.2 hcode

/-- The tokens of `; while (true)`, behind a word that was refused. -/
def behindRefused : List Lexeme :=
  [.ok ⟨.semicolon, ";", ⟨5, 1⟩, 1⟩, .ok ⟨.whileWord, "while", ⟨7, 5⟩, 1⟩,
    .ok ⟨.leftParen, "(", ⟨13, 1⟩, 1⟩, .ok ⟨.trueWord, "true", ⟨14, 4⟩, 1⟩,
    .ok ⟨.rightParen, ")", ⟨18, 1⟩, 1⟩]

/-- A first call refuses the jump in front of the loop. The next one expects a statement behind the
condition, in the body of the loop, and does not refuse the jump that stands there. -/
theorem jumps_stand_behindRefused :
    let start := ofString "break; while (true) break"
    let p := start.after [.program]
    let t : Token := ⟨.breakWord, "break", ⟨20, 5⟩, 1⟩
    (∃ e, (start.read .program).1 = .error e ∧ e.fault.code = "SE007") ∧
    (p.loopDepth = 0 ∧ p.functionDepth = 0) ∧
    p.ahead = behindRefused ++ [.ok t, .ok ⟨.finish, "", ⟨25, 0⟩, 1⟩] ∧
    p.Expects .program behindRefused t ⟨true, false⟩ ∧ Place.Admits ⟨true, false⟩ t.kind ∧
    ∀ e, (p.read .program).1 = .error e → e.span = t.span →
      e.fault.code ∉ ["SE007", "SE008", "SE009"] := by
  intro start p t
  obtain ⟨hdepths, -, hstand⟩ := jumps_stand "break; while (true) break" [.program]
  have hrefused : ∃ e, ((ofString "break; while (true) break").read .program).1 = .error e ∧
      e.fault.code = "SE007" := ⟨_, by cbv, by rfl⟩
  have hahead : ((ofString "break; while (true) break").after [.program]).ahead =
      behindRefused ++ [.ok t, .ok ⟨.finish, "", ⟨25, 0⟩, 1⟩] := by cbv
  have hexpects : p.Expects .program behindRefused t ⟨true, false⟩ :=
    ⟨"x", [.ok ⟨.finish, "", ⟨25, 0⟩, 1⟩], .program [_, _], List.cons_ne_nil _ _, by simp [t], rfl,
      .tail _ (.tail _ (.head _))⟩
  exact ⟨hrefused, hdepths, hahead, hexpects, rfl, hstand .program _ t _ _ hahead hexpects rfl⟩

end Tracepoint.Parser
