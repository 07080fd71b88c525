/-
How the readers of the parser are put together.

The readers are put together from few steps in few ways.  Two things follow from this alone,
whatever a reader yields, and also where it fails.  A reader only goes forward, and leaves the
depths of loops and functions as it found them.  And the number of steps that it is given matters
only where they do not suffice: a reader that comes to an end comes to the same end with more of
them.  To show both at once, every reader is compared with itself, given more steps.

Main definitions:

* `Parser.ahead` — the tokens in front of a parser;
* `Parser.Prolonged` — a step and the same step with more steps inside;
* `Parser.Reaches` — a parser further on, at the same depths.

Main results:

* `Parser.Prolonged.reaches` — **readers only go forward and restore the depths**;
* `Parser.Prolonged.agrees` — **more steps lead to the same end**;
* `Parser.prolonged_expression`, `Parser.prolonged_statements` and their companions — of every
  reader.
-/

import Tracepoint.Proofs.Grammar.Steps

set_option relaxedAutoImplicit false
set_option autoImplicit false

namespace Tracepoint.Parser

/-- The tokens in front of the parser, from the one at which it stands. -/
def ahead (p : Parser) : List Lexeme :=
  p.current :: p.behind

/-- Entering and leaving move no token and keep the line of the token before. -/
structure Around (enter : Parser → Parser) (leave : Parser → Parser → Parser) : Prop where
  ahead_enter (p : Parser) : (enter p).ahead = p.ahead
  ahead_leave (p q : Parser) : (leave p q).ahead = q.ahead
  line_enter (p : Parser) : (enter p).previousLine = p.previousLine
  line_leave (p q : Parser) : (leave p q).previousLine = q.previousLine

theorem Around.loop : Around enterLoop fun _ => leaveLoop :=
  ⟨fun _ => rfl, fun _ _ => rfl, fun _ => rfl, fun _ _ => rfl⟩

theorem Around.function : Around enterFunction fun p => leaveFunction p.loopDepth :=
  ⟨fun _ => rfl, fun _ _ => rfl, fun _ => rfl, fun _ _ => rfl⟩

/-! ### Steps with more steps inside -/

/-- `y` is put together as `x` is, but may go on where `x` gives up for want of steps. -/
inductive Prolonged : {α : Type} → Parse α → Parse α → Prop
  | exhausted {α : Type} (y : Parse α) : Prolonged (throw .exhausted) y
  | pure {α : Type} (a : α) : Prolonged (pure a) (pure a)
  | throw {α : Type} (e : Failure) : Prolonged (throw e : Parse α) (throw e)
  | get : Prolonged (get : Parse Parser) get
  | peek : Prolonged peek peek
  | next : Prolonged next next
  | bind {α β : Type} {x y : Parse α} {f g : α → Parse β} (hx : Prolonged x y)
      (hf : ∀ a, Prolonged (f a) (g a)) : Prolonged (x >>= f) (y >>= g)
  | inLoop {α : Type} {x y : Parse α} (hx : Prolonged x y) : Prolonged (inLoop x) (inLoop y)
  | inFunction {α : Type} {x y : Parse α} (hx : Prolonged x y) :
      Prolonged (inFunction x) (inFunction y)

namespace Prolonged

variable {α β : Type} {x y : Parse α}

theorem failAt (fault : SyntaxFault) (t : Token) :
    Prolonged (failAt fault t : Parse α) (failAt fault t) :=
  .throw _

theorem map {f : α → β} (h : Prolonged x y) : Prolonged (f <$> x) (f <$> y) :=
  h.bind fun _ => .pure _

theorem ite {c : Prop} [Decidable c] {z w : Parse α} (hx : Prolonged x y) (hz : Prolonged z w) :
    Prolonged (if c then x else z) (if c then y else w) := by
  split
  · exact hx
  · exact hz

/-- Both branches of a condition go on in the same way. -/
theorem branch {c : Prop} [Decidable c] {z w : Parse α} {f g : α → Parse β} (hx : Prolonged x y)
    (hz : Prolonged z w) (hf : ∀ a, Prolonged (f a) (g a)) :
    Prolonged (if c then x >>= f else z >>= f) (if c then y >>= g else w >>= g) :=
  .ite (hx.bind hf) (hz.bind hf)

/-- A step that is left out, if a condition does not hold. -/
theorem whenever {c : Prop} [Decidable c] {z : Parse Unit} {f g : Unit → Parse β}
    (hz : Prolonged z z) (hf : ∀ u, Prolonged (f u) (g u)) :
    Prolonged (if c then z >>= f else f ()) (if c then z >>= g else g ()) :=
  .ite (hz.bind hf) (hf ())

theorem expect (kind : Kind) : Prolonged (expect kind) (expect kind) :=
  next.bind fun _ => .ite (.pure _) (.throw _)

theorem accept (kind : Kind) : Prolonged (accept kind) (accept kind) :=
  peek.bind fun _ => .ite (next.bind fun _ => .pure _) (.pure _)

theorem identifier : Prolonged identifier identifier :=
  (expect _).bind fun _ => .pure _

theorem endStatement : Prolonged endStatement endStatement :=
  peek.bind fun _ => .ite (next.bind fun _ => .pure _) <| .ite (.pure _) <|
    get.bind fun _ => .ite (.pure _) (.throw _)

theorem entryKey (t : Token) : Prolonged (entryKey t) (entryKey t) := by
  rw [Parser.entryKey]
  split
  · exact .pure _
  · exact .pure _
  · exact .pure _
  · exact .failAt _ _

end Prolonged

/-! ### The readers -/

section

variable (more : ℕ)

theorem prolonged_parameters (fuel : ℕ) :
    Prolonged (parameters fuel) (parameters (more + fuel)) := by
  induction fuel with
  | zero => exact .exhausted _
  | succ fuel ih =>
      rw [← Nat.add_assoc, parameters, parameters]
      refine (Prolonged.accept _).bind fun closed => .ite (.pure _) ?_
      refine Prolonged.identifier.bind fun name => (Prolonged.accept _).bind fun next => ?_
      exact .ite (ih.bind fun _ => .pure _) ((Prolonged.expect _).bind fun _ => .pure _)

mutual

theorem prolonged_expression : ∀ fuel strength : ℕ,
    Prolonged (expression fuel strength) (expression (more + fuel) strength)
  | 0, _ => by
      rw [expression]
      exact .exhausted _
  | fuel + 1, strength => by
      rw [← Nat.add_assoc, expression, expression]
      exact (prolonged_operand fuel).bind fun left => prolonged_continuations fuel strength left

theorem prolonged_continuations : ∀ (fuel strength : ℕ) (left : Expr),
    Prolonged (continuations fuel strength left) (continuations (more + fuel) strength left)
  | 0, _, _ => by
      rw [continuations]
      exact .exhausted _
  | fuel + 1, strength, left => by
      rw [← Nat.add_assoc, continuations, continuations]
      refine Prolonged.peek.bind fun t => ?_
      split
      next => exact .pure _
      next c _ =>
        refine .ite (.pure _) (Prolonged.next.bind fun _ => ?_)
        cases c with
        | suffix s =>
            exact (prolonged_suffix fuel s left).bind fun _ => prolonged_continuations fuel _ _
        | binary op =>
            exact (prolonged_expression fuel _).bind fun _ => prolonged_continuations fuel _ _
        | logical op =>
            exact (prolonged_expression fuel _).bind fun _ => prolonged_continuations fuel _ _
        | assignment =>
            dsimp only
            split
            next => exact .failAt _ _
            next =>
              exact (prolonged_expression fuel _).bind fun _ => prolonged_continuations fuel _ _

theorem prolonged_operand : ∀ fuel : ℕ, Prolonged (operand fuel) (operand (more + fuel))
  | 0 => by
      rw [operand]
      exact .exhausted _
  | fuel + 1 => by
      rw [← Nat.add_assoc, operand, operand]
      refine Prolonged.next.bind fun t => ?_
      split
      next => exact .pure _
      next => exact (prolonged_expression fuel _).bind fun _ => .pure _
      next =>
        exact (prolonged_expression fuel _).bind fun _ => (Prolonged.expect _).bind fun _ =>
          .pure _
      next => exact (prolonged_arguments fuel _).bind fun _ => .pure _
      next => exact (prolonged_entries fuel).bind fun _ => .pure _
      next =>
        refine Prolonged.peek.bind fun ahead => .branch Prolonged.identifier.map (.pure _) ?_
        exact fun name => (prolonged_functionRest fuel name _).bind fun _ => .pure _
      next => exact .failAt _ _
      next => exact .failAt _ _

theorem prolonged_suffix : ∀ (fuel : ℕ) (s : Suffix) (object : Expr),
    Prolonged (suffix fuel s object) (suffix (more + fuel) s object)
  | 0, s, object => by
      rw [suffix]
      exact .exhausted _
  | fuel + 1, .call, object => by
      rw [← Nat.add_assoc, suffix, suffix]
      exact (prolonged_arguments fuel _).bind fun _ => .pure _
  | fuel + 1, .property, object => by
      rw [← Nat.add_assoc, suffix, suffix]
      exact Prolonged.next.bind fun _ => .ite (.pure _) (.failAt _ _)
  | fuel + 1, .index, object => by
      rw [← Nat.add_assoc, suffix, suffix]
      exact (prolonged_expression fuel _).bind fun _ => (Prolonged.expect _).bind fun _ => .pure _

theorem prolonged_arguments : ∀ (fuel : ℕ) (closing : Kind),
    Prolonged (arguments fuel closing) (arguments (more + fuel) closing)
  | 0, _ => by
      rw [arguments]
      exact .exhausted _
  | fuel + 1, closing => by
      rw [← Nat.add_assoc, arguments, arguments]
      refine (Prolonged.accept _).bind fun _ => .ite (.pure _) ?_
      refine (prolonged_expression fuel _).bind fun _ => (Prolonged.accept _).bind fun _ => ?_
      exact .ite ((prolonged_arguments fuel _).bind fun _ => .pure _)
        ((Prolonged.expect _).bind fun _ => .pure _)

theorem prolonged_entries : ∀ fuel : ℕ, Prolonged (entries fuel) (entries (more + fuel))
  | 0 => by
      rw [entries]
      exact .exhausted _
  | fuel + 1 => by
      rw [← Nat.add_assoc, entries, entries]
      refine (Prolonged.accept _).bind fun _ => .ite (.pure _) ?_
      refine (prolonged_entry fuel).bind fun _ => (Prolonged.accept _).bind fun _ => ?_
      exact .ite ((prolonged_entries fuel).bind fun _ => .pure _)
        ((Prolonged.expect _).bind fun _ => .pure _)

theorem prolonged_entry : ∀ fuel : ℕ, Prolonged (entry fuel) (entry (more + fuel))
  | 0 => by
      rw [entry]
      exact .exhausted _
  | fuel + 1 => by
      rw [← Nat.add_assoc, entry_succ, entry_succ]
      refine Prolonged.next.bind fun t => (Prolonged.entryKey t).bind fun key => ?_
      refine (Prolonged.accept _).bind fun _ => .ite ?_ (.ite (.pure _) ?_)
      · exact (prolonged_expression fuel _).bind fun _ => .pure _
      · exact Prolonged.next.bind fun _ => .throw _

theorem prolonged_functionRest : ∀ (fuel : ℕ) (name : Option String) (line : ℕ),
    Prolonged (functionRest fuel name line) (functionRest (more + fuel) name line)
  | 0, _, _ => by
      rw [functionRest]
      exact .exhausted _
  | fuel + 1, name, line => by
      rw [← Nat.add_assoc, functionRest, functionRest]
      refine (Prolonged.expect _).bind fun _ => (prolonged_parameters more fuel).bind fun _ => ?_
      exact (prolonged_block fuel).inFunction.bind fun _ => .pure _

theorem prolonged_block : ∀ fuel : ℕ, Prolonged (block fuel) (block (more + fuel))
  | 0 => by
      rw [block]
      exact .exhausted _
  | fuel + 1 => by
      rw [← Nat.add_assoc, block, block]
      exact (Prolonged.expect _).bind fun _ => prolonged_blockRest fuel

theorem prolonged_blockRest : ∀ fuel : ℕ, Prolonged (blockRest fuel) (blockRest (more + fuel))
  | 0 => by
      rw [blockRest]
      exact .exhausted _
  | fuel + 1 => by
      rw [← Nat.add_assoc, blockRest, blockRest]
      refine Prolonged.peek.bind fun t => .ite (Prolonged.next.bind fun _ => .pure _) ?_
      refine .ite (.throw _) ((prolonged_statement fuel).bind fun _ => ?_)
      exact (prolonged_blockRest fuel).bind fun _ => .pure _

theorem prolonged_declaration : ∀ (fuel : ℕ) (kind : VariableKind) (terminated : Bool),
    Prolonged (declaration fuel kind terminated) (declaration (more + fuel) kind terminated)
  | 0, _, _ => by
      rw [declaration]
      exact .exhausted _
  | fuel + 1, kind, terminated => by
      rw [← Nat.add_assoc, declaration, declaration]
      refine Prolonged.next.bind fun keyword => Prolonged.identifier.bind fun name => ?_
      refine (Prolonged.accept _).bind fun given => ?_
      refine .branch (prolonged_expression fuel _).map (.pure _) fun initial => ?_
      exact .whenever (.failAt _ _) fun _ => .whenever .endStatement fun _ => .pure _

theorem prolonged_condition : ∀ fuel : ℕ, Prolonged (condition fuel) (condition (more + fuel))
  | 0 => by
      rw [condition]
      exact .exhausted _
  | fuel + 1 => by
      rw [← Nat.add_assoc, condition, condition]
      refine (Prolonged.expect _).bind fun _ => (prolonged_expression fuel _).bind fun _ => ?_
      exact (Prolonged.expect _).bind fun _ => .pure _

theorem prolonged_loopStart : ∀ fuel : ℕ, Prolonged (loopStart fuel) (loopStart (more + fuel))
  | 0 => by
      rw [loopStart]
      exact .exhausted _
  | fuel + 1 => by
      rw [← Nat.add_assoc, loopStart, loopStart]
      refine Prolonged.peek.bind fun t => ?_
      split
      · exact .pure _
      · exact (prolonged_declaration fuel _ _).map
      · exact (prolonged_declaration fuel _ _).map
      · exact (prolonged_declaration fuel _ _).map
      · exact (prolonged_expression fuel _).bind fun _ => .pure _

theorem prolonged_optional : ∀ (fuel : ℕ) (closing : Kind),
    Prolonged (optional fuel closing) (optional (more + fuel) closing)
  | 0, _ => by
      rw [optional]
      exact .exhausted _
  | fuel + 1, closing => by
      rw [← Nat.add_assoc, optional, optional]
      exact Prolonged.peek.bind fun _ => .ite (.pure _) (prolonged_expression fuel _).map

theorem prolonged_statement : ∀ fuel : ℕ, Prolonged (statement fuel) (statement (more + fuel))
  | 0 => by
      rw [statement]
      exact .exhausted _
  | fuel + 1 => by
      rw [← Nat.add_assoc, statement, statement]
      refine Prolonged.peek.bind fun t => ?_
      split
      · exact prolonged_declaration fuel _ _
      · exact prolonged_declaration fuel _ _
      · exact prolonged_declaration fuel _ _
      · refine Prolonged.next.bind fun _ => Prolonged.identifier.bind fun name => ?_
        exact (prolonged_functionRest fuel _ _).bind fun _ => .pure _
      · exact (prolonged_block fuel).bind fun _ => .pure _
      · refine Prolonged.next.bind fun _ => (prolonged_condition fuel).bind fun _ => ?_
        refine (prolonged_statement fuel).bind fun _ => (Prolonged.accept _).bind fun _ => ?_
        exact .branch (prolonged_statement fuel).map (.pure _) fun _ => .pure _
      · refine Prolonged.next.bind fun _ => (prolonged_condition fuel).bind fun _ => ?_
        exact (prolonged_statement fuel).inLoop.bind fun _ => .pure _
      · refine Prolonged.next.bind fun _ => (Prolonged.expect _).bind fun _ => ?_
        refine (prolonged_loopStart fuel).bind fun _ => (Prolonged.expect _).bind fun _ => ?_
        refine (prolonged_optional fuel _).bind fun _ => (Prolonged.expect _).bind fun _ => ?_
        refine (prolonged_optional fuel _).bind fun _ => (Prolonged.expect _).bind fun _ => ?_
        exact (prolonged_statement fuel).inLoop.bind fun _ => .pure _
      · refine Prolonged.next.bind fun _ => Prolonged.get.bind fun p => ?_
        refine .whenever (.failAt _ _) fun _ => Prolonged.peek.bind fun ahead => ?_
        exact .branch (.pure _) (prolonged_expression fuel _).map fun _ =>
          Prolonged.endStatement.bind fun _ => .pure _
      · refine Prolonged.next.bind fun _ => Prolonged.get.bind fun p => ?_
        exact .whenever (.failAt _ _) fun _ => Prolonged.endStatement.bind fun _ => .pure _
      · refine Prolonged.next.bind fun _ => Prolonged.get.bind fun p => ?_
        exact .whenever (.failAt _ _) fun _ => Prolonged.endStatement.bind fun _ => .pure _
      · exact Prolonged.next.bind fun _ => .pure _
      · refine (prolonged_expression fuel _).bind fun _ => ?_
        exact Prolonged.endStatement.bind fun _ => .pure _

end

theorem prolonged_statements (fuel : ℕ) :
    Prolonged (statements fuel) (statements (more + fuel)) := by
  induction fuel with
  | zero => exact .exhausted _
  | succ fuel ih =>
      rw [← Nat.add_assoc, statements, statements]
      refine Prolonged.peek.bind fun t => .ite (.pure _) ?_
      exact (prolonged_statement more fuel).bind fun _ => ih.bind fun _ => .pure _

end

/-! ### What follows for the readers -/

/-- The parser `q` is further on than `p`, at the same depths. -/
structure Reaches (p q : Parser) : Prop where
  ahead : q.ahead <:+ p.ahead
  loopDepth : q.loopDepth = p.loopDepth
  functionDepth : q.functionDepth = p.functionDepth

namespace Reaches

variable {p q r : Parser}

theorem refl (p : Parser) : Reaches p p :=
  ⟨List.suffix_refl _, rfl, rfl⟩

theorem trans (h : Reaches p q) (h' : Reaches q r) : Reaches p r :=
  ⟨h'.ahead.trans h.ahead, h'.loopDepth.trans h.loopDepth,
    h'.functionDepth.trans h.functionDepth⟩

theorem forward (p : Parser) : Reaches p p.forward := by
  obtain ⟨current, behind, previousLine, loopDepth, functionDepth⟩ := p
  cases behind with
  | nil => exact refl _
  | cons next behind => exact ⟨List.suffix_cons _ _, rfl, rfl⟩

end Reaches

/-- The parser behind a step, whatever the outcome. -/
def reached {α : Type} : EStateM.Result Failure Parser α → Parser
  | .ok _ q => q
  | .error _ q => q

/-- A step between entering and leaving, if leaving restores what entering changed. -/
theorem Reaches.nested {α : Type} {enter : Parser → Parser} {leave : Parser → Parser → Parser}
    {x : Parse α} (hleave : ∀ p q, Reaches (enter p) q → Reaches p (leave p q))
    (hx : ∀ p, Reaches p (reached (x p))) (p : Parser) :
    Reaches p (reached (nested enter leave x p)) := by
  have hinside := hx (enter p)
  simp only [Parser.nested]
  cases hrun : x (enter p) <;> rw [hrun] at hinside <;> exact hleave p _ hinside

/-- **The depth of loops is restored.** -/
theorem Reaches.leaveLoop {p q : Parser} (h : Reaches p.enterLoop q) : Reaches p q.leaveLoop :=
  ⟨h.ahead, congrArg (· - 1) h.loopDepth, h.functionDepth⟩

/-- **The depths of loops and functions are restored.** -/
theorem Reaches.leaveFunction {p q : Parser} (h : Reaches p.enterFunction q) :
    Reaches p (q.leaveFunction p.loopDepth) :=
  ⟨h.ahead, rfl, congrArg (· - 1) h.functionDepth⟩

namespace Prolonged

variable {α : Type} {x y : Parse α}

/-- **Readers only go forward and restore the depths**, also where they fail. -/
theorem reaches (h : Prolonged x y) (p : Parser) : Reaches p (reached (x p)) := by
  induction h generalizing p with
  | exhausted | pure | throw | get => exact .refl p
  | peek =>
      simp only [Parser.peek]
      cases p.current <;> exact .refl p
  | next =>
      simp only [Parser.next]
      cases p.current with
      | ok t => exact ⟨(Reaches.forward p).ahead, (Reaches.forward p).loopDepth,
          (Reaches.forward p).functionDepth⟩
      | error e => exact .forward p
  | @bind _ _ x _ f _ _ _ hx hf =>
      have hfirst := hx p
      simp only [Bind.bind, EStateM.bind]
      cases hrun : x p with
      | ok a q =>
          rw [hrun] at hfirst
          exact hfirst.trans (hf a q)
      | error e q =>
          rw [hrun] at hfirst
          exact hfirst
  | inLoop _ hx => exact .nested (fun _ _ => .leaveLoop) hx p
  | inFunction _ hx => exact .nested (fun _ _ => .leaveFunction) hx p

/-- The same holds of a step between entering and leaving. -/
theorem agrees_nested {enter : Parser → Parser} {leave : Parser → Parser → Parser}
    (h : ∀ p, (∃ q, x p = .error .exhausted q) ∨ y p = x p) (p : Parser) :
    (∃ q, nested enter leave x p = .error .exhausted q) ∨
      nested enter leave y p = nested enter leave x p := by
  simp only [nested]
  obtain ⟨q, hq⟩ | hagree := h (enter p)
  · exact .inl ⟨_, by rw [hq]⟩
  · exact .inr (by rw [hagree])

/-- **More steps lead to the same end**, if there is one. -/
theorem agrees (h : Prolonged x y) (p : Parser) :
    (∃ q, x p = .error .exhausted q) ∨ y p = x p := by
  induction h generalizing p with
  | exhausted => exact .inl ⟨p, rfl⟩
  | pure | throw | get | peek | next => exact .inr rfl
  | @bind _ _ x y f g _ _ hx hf =>
      simp only [Bind.bind, EStateM.bind]
      obtain ⟨q, hq⟩ | hagree := hx p
      · exact .inl ⟨q, by rw [hq]⟩
      · rw [hagree]
        cases x p with
        | ok a q => exact hf a q
        | error e q => exact .inr rfl
  | inLoop _ hx => exact agrees_nested hx p
  | inFunction _ hx => exact agrees_nested hx p

end Prolonged

end Tracepoint.Parser
