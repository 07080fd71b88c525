/-
The tokens that statements start with.

A statement starts with the token at which the parser stands when it comes to the statement.  This
file keeps these tokens beside the statements, and shows that a statement belongs to the line of
the token that it starts with.

Main definitions:

* `Parser.marked` — statements up to the end of the source, each with the token it starts with;
* `firstTokens` — the tokens that the statements of a source start with;
* `Parser.AtToken` — what a step yields where the parser stands at a token.

Main results:

* `Parser.statements_eq` — to keep the tokens changes nothing;
* `Parser.line_statement` — a statement belongs to the line of its first token;
* `lines_firstTokens` — **so do the statements of a program**.
-/

import Tracepoint.Proofs.Grammar.Steps

set_option relaxedAutoImplicit false
set_option autoImplicit false

namespace Tracepoint

namespace Parser

/-- Parses statements up to the end of the source, each with the token that it starts with. -/
def marked : ℕ → Parse (List (Token × Stmt))
  | 0 => throw .exhausted
  | fuel + 1 => do
    let t ← peek
    if t.kind = .finish then return []
    else
      let first ← statement fuel
      let rest ← marked fuel
      return (t, first) :: rest

/-- To keep the tokens changes nothing. -/
theorem statements_eq (fuel : ℕ) : statements fuel = List.map Prod.snd <$> marked fuel := by
  induction fuel with
  | zero => rfl
  | succ fuel ih =>
      rw [statements, marked, map_bind]
      congr 1
      funext t
      split
      · rw [map_pure, List.map_nil]
      · simp only [ih, map_eq_pure_bind, bind_assoc, pure_bind, List.map_cons]

/-! ### Steps that stand at a token -/

/-- Nothing is known of the parser. -/
def anywhere (_ : Parser) : Prop :=
  True

/-- Where the parser stands at `t`, a step yields only what `P` holds of. -/
def AtToken {α : Type} (t : Token) (x : Parse α) (P : α → Prop) : Prop :=
  ∀ p a q, p.current = .ok t → x p = .ok a q → P a

section

variable {α β : Type} {t : Token} {x : Parse α} {P : α → Prop} {Q : β → Prop}

theorem Keeps.any (x : Parse α) : Keeps anywhere x anything :=
  fun _ _ _ _ _ => ⟨trivial, trivial⟩

/-- A step that begins with a look at the token ahead stands at this token. -/
theorem Keeps.ahead {f : Token → Parse α} (h : ∀ t, AtToken t (f t) P) :
    Keeps anywhere (Parser.peek >>= f) P := by
  intro p a q _ hrun
  refine ⟨trivial, ?_⟩
  simp only [Bind.bind, EStateM.bind, Parser.peek] at hrun
  cases hcurrent : p.current with
  | error e =>
      rw [hcurrent] at hrun
      cases hrun
  | ok t =>
      rw [hcurrent] at hrun
      exact h t p a q hcurrent hrun

theorem AtToken.of_keeps (h : Keeps anywhere x P) : AtToken t x P :=
  fun p a q _ hrun => (h p a q trivial hrun).2

theorem AtToken.bind {f : α → Parse β} (hx : AtToken t x P)
    (hf : ∀ a, P a → Keeps anywhere (f a) Q) : AtToken t (x >>= f) Q := by
  intro p b q hcurrent hrun
  simp only [Bind.bind, EStateM.bind] at hrun
  split at hrun
  next a p' hfirst => exact (hf a (hx p a p' hcurrent hfirst) p' b q trivial hrun).2
  next => cases hrun

/-- To look at the token ahead leads nowhere else. -/
theorem AtToken.peek {f : Token → Parse α} (h : AtToken t (f t) P) :
    AtToken t (Parser.peek >>= f) P := by
  intro p a q hcurrent hrun
  simp only [Bind.bind, EStateM.bind, Parser.peek, hcurrent] at hrun
  exact h p a q hcurrent hrun

/-- The token taken is the one at which the parser stands. -/
theorem AtToken.next : AtToken t Parser.next (· = t) := by
  intro p a q hcurrent hrun
  simp only [Parser.next, hcurrent] at hrun
  cases hrun
  rfl

theorem AtToken.ite {c : Prop} [Decidable c] {y : Parse α} (hx : AtToken t x P)
    (hy : AtToken t y P) : AtToken t (if c then x else y) P := by
  split
  · exact hx
  · exact hy

end

variable {t : Token}

/-! ### Statements -/

theorem line_declaration (fuel : ℕ) (kind : VariableKind) (terminated : Bool) :
    AtToken t (declaration fuel kind terminated) fun s => s.line = t.line := by
  cases fuel with
  | zero => exact .of_keeps (.throw _)
  | succ fuel =>
      rw [declaration]
      refine AtToken.next.bind fun keyword hkeyword => ?_
      subst hkeyword
      refine (Keeps.any _).bind fun name _ => (Keeps.any _).bind fun given _ => ?_
      refine Keeps.branch (fun _ => Keeps.any _) (fun _ => Keeps.any _) fun initial _ => ?_
      exact Keeps.refuse fun _ => Keeps.whenever (Keeps.any _) (.pure rfl)

theorem line_functionRest (fuel : ℕ) (name : Option String) (line : ℕ) :
    Keeps anywhere (functionRest fuel name line) fun decl => decl.line = line := by
  cases fuel with
  | zero => exact .throw _
  | succ fuel =>
      rw [functionRest]
      refine (Keeps.any _).bind fun _ _ => (Keeps.any _).bind fun parameters _ => ?_
      exact (Keeps.any _).bind fun body _ => .pure rfl

/-- **A statement belongs to the line of its first token.** -/
theorem line_statement (fuel : ℕ) : AtToken t (statement fuel) fun s => s.line = t.line := by
  cases fuel with
  | zero => exact .of_keeps (.throw _)
  | succ fuel =>
      rw [statement]
      refine .peek ?_
      split
      · exact line_declaration fuel _ _
      · exact line_declaration fuel _ _
      · exact line_declaration fuel _ _
      -- All others have the token at hand when they are put together.
      all_goals refine .of_keeps ?_
      · refine (Keeps.any _).bind fun _ _ => (Keeps.any _).bind fun name _ => ?_
        exact (line_functionRest fuel _ _).bind fun decl hdecl => .pure hdecl
      · exact (Keeps.any _).bind fun body _ => .pure rfl
      · refine (Keeps.any _).bind fun _ _ => (Keeps.any _).bind fun condition _ => ?_
        refine (Keeps.any _).bind fun success _ => (Keeps.any _).bind fun given _ => ?_
        exact Keeps.branch (fun _ => Keeps.any _) (fun _ => Keeps.any _) fun failure _ => .pure rfl
      · refine (Keeps.any _).bind fun _ _ => (Keeps.any _).bind fun condition _ => ?_
        exact (Keeps.any _).bind fun body _ => .pure rfl
      · refine (Keeps.any _).bind fun _ _ => (Keeps.any _).bind fun _ _ => ?_
        refine (Keeps.any _).bind fun start _ => (Keeps.any _).bind fun _ _ => ?_
        refine (Keeps.any _).bind fun condition _ => (Keeps.any _).bind fun _ _ => ?_
        refine (Keeps.any _).bind fun increment _ => (Keeps.any _).bind fun _ _ => ?_
        exact (Keeps.any _).bind fun body _ => .pure rfl
      · refine (Keeps.any _).bind fun _ _ => Keeps.get.bind fun p _ => Keeps.refuse fun _ => ?_
        refine (Keeps.any _).bind fun ahead _ => ?_
        refine Keeps.branch (fun _ => Keeps.any _) (fun _ => Keeps.any _) fun value _ => ?_
        exact (Keeps.any _).bind fun _ _ => .pure rfl
      · refine (Keeps.any _).bind fun _ _ => Keeps.get.bind fun p _ => Keeps.refuse fun _ => ?_
        exact (Keeps.any _).bind fun _ _ => .pure rfl
      · refine (Keeps.any _).bind fun _ _ => Keeps.get.bind fun p _ => Keeps.refuse fun _ => ?_
        exact (Keeps.any _).bind fun _ _ => .pure rfl
      · exact (Keeps.any _).bind fun _ _ => .pure rfl
      · refine (Keeps.any _).bind fun e _ => ?_
        exact (Keeps.any _).bind fun _ _ => .pure rfl

/-- The tokens that are kept beside the statements of a program lie in their lines. -/
theorem lines_marked (fuel : ℕ) :
    Keeps anywhere (marked fuel) fun ms => ms.map (·.2.line) = ms.map (·.1.line) := by
  induction fuel with
  | zero => exact .throw _
  | succ fuel ih =>
      rw [marked]
      refine .ahead fun t => .ite (.of_keeps (.pure rfl)) ?_
      refine (line_statement fuel).bind fun first hfirst => ?_
      refine ih.bind fun rest hrest => .pure ?_
      rw [List.map_cons, List.map_cons, hfirst, hrest]

end Parser

/-- The tokens that the statements of a source start with. -/
def firstTokens (source : String) : List Token :=
  let p := Parser.ofString source
  match Parser.marked p.fuelFor p with
  | .ok ms _ => ms.map Prod.fst
  | .error _ _ => []

/-- **The statements of a program belong to the lines of their first tokens.** -/
theorem lines_firstTokens {source : String} {program : Program}
    (h : parse source = .ok program) :
    (firstTokens source).map Token.line = program.map Stmt.line := by
  simp only [parse, Parser.program, Parser.run, Parser.statements_eq] at h
  simp only [firstTokens, Functor.map, EStateM.map] at h ⊢
  cases hrun : Parser.marked (Parser.ofString source).fuelFor (Parser.ofString source) with
  | error e q =>
      simp only [hrun] at h
      cases e <;> cases h
  | ok ms q =>
      simp only [hrun] at h ⊢
      cases h
      rw [List.map_map, List.map_map]
      exact (Parser.lines_marked _ _ _ _ trivial hrun).2.symm

end Tracepoint
