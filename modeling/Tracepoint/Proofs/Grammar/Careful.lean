/-
The readers blame only what they have seen, and stop at the end of a source.

The parser always looks before it goes on.  Where it refuses a source, it refuses it at a token
that it has looked at or taken before, at whichever of them it likes.  The token at the end of the
source is only ever looked at, or taken by a step that fails at once.  Both follow from how the
readers are put together; so the rules by which they are put together are given here once more,
with the tokens that a step knows of.

Main definitions:

* `SyntaxFault.OfToken` — the faults that a parser finds by itself;
* `Parser.Careful` — a step that blames only tokens it knows, and fails where it takes the end;
* `Parser.StandsAt` — a parser stands at a token, if this is known.

Main results:

* `Parser.careful_expression`, `Parser.careful_statement` and their companions — **all readers are
  careful**;
* `Parser.careful_step` — so are the calls of a parser.
-/

import Tracepoint.Proofs.Grammar.Progress

set_option relaxedAutoImplicit false
set_option autoImplicit false

namespace Tracepoint

/-- The fault is one of the grammar, which is found at a token. -/
def SyntaxFault.OfToken : SyntaxFault → Prop
  | .lexical _ => False
  | _ => True

namespace Parser

/-- A step that blames only the tokens in `seen` and those it comes to see, and that fails at once
where it takes the end of the source. It begins at the token `here`, if this is known. -/
inductive Careful : {α : Type} → (here : Option Token) → (seen : List Token) → Parse α → Prop
  | pure {α : Type} {here : Option Token} {seen : List Token} (a : α) :
      Careful here seen (pure a)
  | exhausted {α : Type} {here : Option Token} {seen : List Token} :
      Careful here seen (throw .exhausted : Parse α)
  | failAt {α : Type} {here : Option Token} {seen : List Token} {fault : SyntaxFault} {t : Token}
      (hfault : fault.OfToken) (ht : t ∈ seen) : Careful here seen (failAt fault t : Parse α)
  /-- The token ahead is looked at, and is known from now on. -/
  | ahead {α : Type} {here : Option Token} {seen : List Token} {f : Token → Parse α}
      (h : ∀ t, Careful (some t) (t :: seen) (f t)) : Careful here seen (peek >>= f)
  /-- A token is taken without a look at it. -/
  | taken {α : Type} {here : Option Token} {seen : List Token} {f : Token → Parse α}
      (h : ∀ t, t.kind ≠ .finish → Careful none (t :: seen) (f t))
      (hend : ∀ t, t.kind = .finish → ∃ fault : SyntaxFault, fault.OfToken ∧
        f t = Parser.failAt fault t) :
      Careful here seen (next >>= f)
  /-- The token is taken at which the step stands. -/
  | take {α : Type} {t : Token} {seen : List Token} {f : Token → Parse α} (hkind : t.kind ≠ .finish)
      (h : Careful none (t :: seen) (f t)) : Careful (some t) seen (next >>= f)
  /-- Only the line of the token taken last and the depths are asked for. -/
  | get {α : Type} {here : Option Token} {seen : List Token} {f : Parser → Parse α}
      (hsame : ∀ p q : Parser, p.previousLine = q.previousLine → p.loopDepth = q.loopDepth →
        p.functionDepth = q.functionDepth → f p = f q)
      (h : ∀ p, Careful here seen (f p)) : Careful here seen (get >>= f)
  | bind {α β : Type} {here : Option Token} {seen : List Token} {x : Parse α} {f : α → Parse β}
      (hx : Careful here seen x) (hf : ∀ a, Careful none seen (f a)) :
      Careful here seen (x >>= f)
  | inLoop {α : Type} {here : Option Token} {seen : List Token} {x : Parse α}
      (hx : Careful here seen x) : Careful here seen (inLoop x)
  | inFunction {α : Type} {here : Option Token} {seen : List Token} {x : Parse α}
      (hx : Careful here seen x) : Careful here seen (inFunction x)

/-- The parser stands at the token `here`, if this is known. -/
def StandsAt (p : Parser) (here : Option Token) : Prop :=
  ∀ t, here = some t → p.current = .ok t

theorem standsAt_none (p : Parser) : p.StandsAt none := by
  intro t h
  cases h

theorem standsAt_some {p : Parser} {t : Token} (h : p.current = .ok t) : p.StandsAt (some t) := by
  rintro _ ⟨⟩
  exact h

namespace Careful

variable {α β : Type} {here : Option Token} {seen : List Token} {x y : Parse α} {t : Token}
  {kind : Kind}

theorem map {f : α → β} (h : Careful here seen x) : Careful here seen (f <$> x) :=
  h.bind fun _ => .pure _

theorem ite {c : Prop} [Decidable c] (hx : c → Careful here seen x)
    (hy : ¬c → Careful here seen y) : Careful here seen (if c then x else y) := by
  split
  next h => exact hx h
  next h => exact hy h

/-- Both branches of a condition go on in the same way. -/
theorem branch {c : Prop} [Decidable c] {f : α → Parse β} (hx : c → Careful here seen x)
    (hy : Careful here seen y) (hf : ∀ a, Careful none seen (f a)) :
    Careful here seen (if c then x >>= f else y >>= f) :=
  .ite (fun h => (hx h).bind hf) fun _ => hy.bind hf

/-- A step that is left out, if a condition does not hold. -/
theorem whenever {c : Prop} [Decidable c] {y : Parse Unit} {f : Unit → Parse β}
    (hy : Careful none seen y) (hf : Careful none seen (f ())) :
    Careful none seen (if c then y >>= f else f ()) :=
  .ite (fun _ => hy.bind fun _ => hf) fun _ => hf

/-- A token that stands in the place of another one is blamed for it. -/
theorem unexpected (expected : Kind) (ht : t ∈ seen) :
    Careful here seen (throw (.error (.unexpected t expected)) : Parse α) := by
  refine .failAt ?_ ht
  split
  · exact trivial
  · exact trivial

/-- To ask for a kind other than the end is to fail at the end. -/
theorem expect (hkind : kind ≠ .finish) : Careful here seen (expect kind) := by
  refine .taken (fun t _ => ?_) fun t ht => ⟨.endOfInput, trivial, ?_⟩
  · exact .ite (fun _ => .pure _) fun _ => .unexpected _ List.mem_cons_self
  · rw [if_neg (ht ▸ hkind.symm), SyntaxError.unexpected, if_pos ht]
    rfl

theorem accept (hkind : kind ≠ .finish) : Careful here seen (accept kind) :=
  .ahead fun _ => .ite (fun h => .take (h ▸ hkind) (.pure _)) fun _ => .pure _

theorem identifier : Careful here seen identifier :=
  (expect (by decide)).bind fun _ => .pure _

theorem endStatement : Careful here seen endStatement := by
  refine .ahead fun t => .ite (fun h => .take (h ▸ by decide) (.pure _)) fun _ => ?_
  refine .ite (fun _ => .pure _) fun _ => .get (fun p q hline _ _ => by rw [hline]) fun p => ?_
  exact .ite (fun _ => .pure _) fun _ => .unexpected _ List.mem_cons_self

theorem entryKey (ht : t ∈ seen) : Careful here seen (entryKey t) := by
  rw [Parser.entryKey]
  split
  · exact .pure _
  · exact .pure _
  · exact .pure _
  · exact .failAt trivial ht

end Careful

/-! ### The readers -/

variable {here : Option Token} {seen : List Token} {t : Token}

theorem careful_parameters (fuel : ℕ) : Careful here seen (parameters fuel) := by
  induction fuel generalizing here with
  | zero => exact .exhausted
  | succ fuel ih =>
      rw [parameters]
      refine (Careful.accept (by decide)).bind fun closed => .ite (fun _ => .pure _) fun _ => ?_
      refine Careful.identifier.bind fun name => (Careful.accept (by decide)).bind fun more => ?_
      refine .ite (fun _ => ih.bind fun _ => .pure _) fun _ => ?_
      exact (Careful.expect (by decide)).bind fun _ => .pure _

mutual

theorem careful_expression : ∀ (fuel strength : ℕ) (here : Option Token) (seen : List Token),
    Careful here seen (expression fuel strength)
  | 0, _, _, _ => by
      rw [expression]
      exact .exhausted
  | fuel + 1, strength, _, _ => by
      rw [expression]
      exact (careful_operand fuel _ _).bind fun left => careful_continuations fuel strength left _ _

theorem careful_continuations : ∀ (fuel strength : ℕ) (left : Expr) (here : Option Token)
    (seen : List Token), Careful here seen (continuations fuel strength left)
  | 0, _, _, _, _ => by
      rw [continuations]
      exact .exhausted
  | fuel + 1, strength, left, _, _ => by
      rw [continuations]
      refine .ahead fun t => ?_
      split
      next => exact .pure _
      next c hc =>
        refine .ite (fun _ => .pure _) fun _ => .take (kind_of_continuation hc) ?_
        cases c with
        | suffix s =>
            exact (careful_suffix fuel s left _ _).bind fun whole =>
              careful_continuations fuel strength whole _ _
        | binary op =>
            exact (careful_expression fuel _ _ _).bind fun right =>
              careful_continuations fuel strength _ _ _
        | logical op =>
            exact (careful_expression fuel _ _ _).bind fun right =>
              careful_continuations fuel strength _ _ _
        | assignment =>
            dsimp only
            split
            next => exact .failAt trivial List.mem_cons_self
            next =>
              exact (careful_expression fuel _ _ _).bind fun value =>
                careful_continuations fuel strength _ _ _

theorem careful_operand : ∀ (fuel : ℕ) (here : Option Token) (seen : List Token),
    Careful here seen (operand fuel)
  | 0, _, _ => by
      rw [operand]
      exact .exhausted
  | fuel + 1, _, _ => by
      rw [operand]
      refine .taken (fun t _ => ?_) fun t hkind => ⟨.endOfInput, trivial, ?_⟩
      · split
        next => exact .pure _
        next => exact (careful_expression fuel _ _ _).bind fun _ => .pure _
        next =>
          refine (careful_expression fuel _ _ _).bind fun _ => ?_
          exact (Careful.expect (by decide)).bind fun _ => .pure _
        next => exact (careful_arguments fuel (by decide) _ _).bind fun _ => .pure _
        next => exact (careful_entries fuel _ _).bind fun _ => .pure _
        next =>
          refine .ahead fun ahead => .branch (fun _ => Careful.identifier.map) (.pure _) ?_
          exact fun name => (careful_functionRest fuel name _ _ _).bind fun _ => .pure _
        next => exact .failAt trivial List.mem_cons_self
        next => exact .failAt trivial List.mem_cons_self
      · have hnone : atomOf? t = none := by rw [atomOf?, hkind]
        rw [hnone, hkind]
        rfl

theorem careful_suffix : ∀ (fuel : ℕ) (s : Suffix) (object : Expr) (here : Option Token)
    (seen : List Token), Careful here seen (suffix fuel s object)
  | 0, _, _, _, _ => by
      rw [suffix]
      exact .exhausted
  | fuel + 1, .call, object, _, _ => by
      rw [suffix]
      exact (careful_arguments fuel (by decide) _ _).bind fun _ => .pure _
  | fuel + 1, .property, object, _, _ => by
      rw [suffix]
      refine .taken (fun t _ => ?_) fun t hkind => ⟨.notAPropertyName t.kind, trivial, ?_⟩
      · exact .ite (fun _ => .pure _) fun _ => .failAt trivial List.mem_cons_self
      · rw [namesProperty, hkind]
        rfl
  | fuel + 1, .index, object, _, _ => by
      rw [suffix]
      refine (careful_expression fuel 0 _ _).bind fun index => ?_
      exact (Careful.expect (by decide)).bind fun _ => .pure _

theorem careful_arguments : ∀ (fuel : ℕ) {closing : Kind}, closing ≠ .finish →
    ∀ (here : Option Token) (seen : List Token), Careful here seen (arguments fuel closing)
  | 0, _, _, _, _ => by
      rw [arguments]
      exact .exhausted
  | fuel + 1, closing, hclosing, _, _ => by
      rw [arguments]
      refine (Careful.accept hclosing).bind fun closed => .ite (fun _ => .pure _) fun _ => ?_
      refine (careful_expression fuel 0 _ _).bind fun first => ?_
      refine (Careful.accept (by decide)).bind fun more => .ite (fun _ => ?_) fun _ => ?_
      · exact (careful_arguments fuel hclosing _ _).bind fun _ => .pure _
      · exact (Careful.expect hclosing).bind fun _ => .pure _

theorem careful_entries : ∀ (fuel : ℕ) (here : Option Token) (seen : List Token),
    Careful here seen (entries fuel)
  | 0, _, _ => by
      rw [entries]
      exact .exhausted
  | fuel + 1, _, _ => by
      rw [entries]
      refine (Careful.accept (by decide)).bind fun closed => .ite (fun _ => .pure _) fun _ => ?_
      refine (careful_entry fuel _ _).bind fun first => ?_
      refine (Careful.accept (by decide)).bind fun more => .ite (fun _ => ?_) fun _ => ?_
      · exact (careful_entries fuel _ _).bind fun _ => .pure _
      · exact (Careful.expect (by decide)).bind fun _ => .pure _

theorem careful_entry : ∀ (fuel : ℕ) (here : Option Token) (seen : List Token),
    Careful here seen (entry fuel)
  | 0, _, _ => by
      rw [entry]
      exact .exhausted
  | fuel + 1, _, seen => by
      rw [entry_succ]
      refine .taken (fun t _ => ?_) fun t hkind => ⟨.notAPropertyName .finish, trivial, ?_⟩
      · refine (Careful.entryKey List.mem_cons_self).bind fun key => ?_
        refine (Careful.accept (by decide)).bind fun given => .ite (fun _ => ?_) fun _ => ?_
        · exact (careful_expression fuel 0 _ _).bind fun _ => .pure _
        · refine .ite (fun _ => .pure _) fun _ => ?_
          refine .taken (fun after _ => ?_) fun after hafter => ⟨.endOfInput, trivial, ?_⟩
          · exact .unexpected _ List.mem_cons_self
          · rw [SyntaxError.unexpected, if_pos hafter]
            rfl
      · rw [entryKey, hkind]
        rfl

theorem careful_functionRest : ∀ (fuel : ℕ) (name : Option String) (line : ℕ)
    (here : Option Token) (seen : List Token), Careful here seen (functionRest fuel name line)
  | 0, _, _, _, _ => by
      rw [functionRest]
      exact .exhausted
  | fuel + 1, name, line, _, _ => by
      rw [functionRest]
      refine (Careful.expect (by decide)).bind fun _ => ?_
      refine (careful_parameters fuel).bind fun parameters => ?_
      exact (careful_block fuel _ _).inFunction.bind fun body => .pure _

theorem careful_block : ∀ (fuel : ℕ) (here : Option Token) (seen : List Token),
    Careful here seen (block fuel)
  | 0, _, _ => by
      rw [block]
      exact .exhausted
  | fuel + 1, _, _ => by
      rw [block]
      exact (Careful.expect (by decide)).bind fun _ => careful_blockRest fuel _ _

theorem careful_blockRest : ∀ (fuel : ℕ) (here : Option Token) (seen : List Token),
    Careful here seen (blockRest fuel)
  | 0, _, _ => by
      rw [blockRest]
      exact .exhausted
  | fuel + 1, _, _ => by
      rw [blockRest]
      refine .ahead fun t => .ite (fun h => .take (h ▸ by decide) (.pure _)) fun _ => ?_
      refine .ite (fun _ => .unexpected _ List.mem_cons_self) fun _ => ?_
      refine (careful_statement fuel _ _).bind fun first => ?_
      exact (careful_blockRest fuel _ _).bind fun rest => .pure _

/-- A declaration is only come to where its keyword is ahead. -/
theorem careful_declaration : ∀ (fuel : ℕ) (kind : VariableKind) (terminated : Bool) {t : Token},
    t.kind ≠ .finish → ∀ seen : List Token,
      Careful (some t) seen (declaration fuel kind terminated)
  | 0, _, _, _, _, _ => by
      rw [declaration]
      exact .exhausted
  | fuel + 1, kind, terminated, t, hkind, seen => by
      rw [declaration]
      refine .take hkind (Careful.identifier.bind fun name => ?_)
      refine (Careful.accept (by decide)).bind fun given => ?_
      refine .branch (fun _ => (careful_expression fuel 0 _ _).map) (.pure _) fun initial => ?_
      refine .whenever (.failAt trivial List.mem_cons_self) ?_
      exact .whenever .endStatement (.pure _)

theorem careful_condition : ∀ (fuel : ℕ) (here : Option Token) (seen : List Token),
    Careful here seen (condition fuel)
  | 0, _, _ => by
      rw [condition]
      exact .exhausted
  | fuel + 1, _, _ => by
      rw [condition]
      refine (Careful.expect (by decide)).bind fun _ => ?_
      refine (careful_expression fuel 0 _ _).bind fun e => ?_
      exact (Careful.expect (by decide)).bind fun _ => .pure _

theorem careful_loopStart : ∀ (fuel : ℕ) (here : Option Token) (seen : List Token),
    Careful here seen (loopStart fuel)
  | 0, _, _ => by
      rw [loopStart]
      exact .exhausted
  | fuel + 1, _, _ => by
      rw [loopStart]
      refine .ahead fun t => ?_
      split
      next => exact .pure _
      next h => exact (careful_declaration fuel _ _ (h ▸ by decide) _).map
      next h => exact (careful_declaration fuel _ _ (h ▸ by decide) _).map
      next h => exact (careful_declaration fuel _ _ (h ▸ by decide) _).map
      next => exact (careful_expression fuel 0 _ _).bind fun _ => .pure _

theorem careful_optional : ∀ (fuel : ℕ) (closing : Kind) (here : Option Token)
    (seen : List Token), Careful here seen (optional fuel closing)
  | 0, _, _, _ => by
      rw [optional]
      exact .exhausted
  | fuel + 1, closing, _, _ => by
      rw [optional]
      exact .ahead fun _ => .ite (fun _ => .pure _) fun _ => (careful_expression fuel 0 _ _).map

theorem careful_statement : ∀ (fuel : ℕ) (here : Option Token) (seen : List Token),
    Careful here seen (statement fuel)
  | 0, _, _ => by
      rw [statement]
      exact .exhausted
  | fuel + 1, _, _ => by
      rw [statement]
      refine .ahead fun t => ?_
      split
      next h => exact careful_declaration fuel _ _ (h ▸ by decide) _
      next h => exact careful_declaration fuel _ _ (h ▸ by decide) _
      next h => exact careful_declaration fuel _ _ (h ▸ by decide) _
      next h =>
        refine .take (h ▸ by decide) (Careful.identifier.bind fun name => ?_)
        exact (careful_functionRest fuel _ _ _ _).bind fun _ => .pure _
      next => exact (careful_block fuel _ _).bind fun _ => .pure _
      next h =>
        refine .take (h ▸ by decide) ((careful_condition fuel _ _).bind fun condition => ?_)
        refine (careful_statement fuel _ _).bind fun success => ?_
        refine (Careful.accept (by decide)).bind fun given => ?_
        exact .branch (fun _ => (careful_statement fuel _ _).map) (.pure _) fun failure => .pure _
      next h =>
        refine .take (h ▸ by decide) ((careful_condition fuel _ _).bind fun condition => ?_)
        exact (careful_statement fuel _ _).inLoop.bind fun body => .pure _
      next h =>
        refine .take (h ▸ by decide) ((Careful.expect (by decide)).bind fun _ => ?_)
        refine (careful_loopStart fuel _ _).bind fun start => ?_
        refine (Careful.expect (by decide)).bind fun _ => ?_
        refine (careful_optional fuel _ _ _).bind fun condition => ?_
        refine (Careful.expect (by decide)).bind fun _ => ?_
        refine (careful_optional fuel _ _ _).bind fun increment => ?_
        refine (Careful.expect (by decide)).bind fun _ => ?_
        exact (careful_statement fuel _ _).inLoop.bind fun body => .pure _
      next h =>
        refine .take (h ▸ by decide) (.get (fun p q _ _ hdepth => by rw [hdepth]) fun p => ?_)
        refine .whenever (.failAt trivial List.mem_cons_self) (.ahead fun ahead => ?_)
        refine .branch (fun _ => .pure _) (careful_expression fuel 0 _ _).map fun value => ?_
        exact Careful.endStatement.bind fun _ => .pure _
      next h =>
        refine .take (h ▸ by decide) (.get (fun p q _ hdepth _ => by rw [hdepth]) fun p => ?_)
        refine .whenever (.failAt trivial List.mem_cons_self) ?_
        exact Careful.endStatement.bind fun _ => .pure _
      next h =>
        refine .take (h ▸ by decide) (.get (fun p q _ hdepth _ => by rw [hdepth]) fun p => ?_)
        refine .whenever (.failAt trivial List.mem_cons_self) ?_
        exact Careful.endStatement.bind fun _ => .pure _
      next h => exact .take (h ▸ by decide) (.pure _)
      next =>
        refine (careful_expression fuel 0 _ _).bind fun e => ?_
        exact Careful.endStatement.bind fun _ => .pure _

end

theorem careful_statements (fuel : ℕ) (here : Option Token) (seen : List Token) :
    Careful here seen (statements fuel) := by
  induction fuel generalizing here seen with
  | zero => exact .exhausted
  | succ fuel ih =>
      rw [statements]
      refine .ahead fun t => .ite (fun _ => .pure _) fun _ => ?_
      exact (careful_statement fuel _ _).bind fun first => (ih _ _).bind fun rest => .pure _

/-- **The calls of a parser are careful.** -/
theorem careful_step (call : Call) (fuel : ℕ) (here : Option Token) (seen : List Token) :
    Careful here seen (call.step fuel) := by
  cases call with
  | expression => exact (careful_expression fuel 0 here seen).map
  | program => exact (careful_statements fuel here seen).map

end Parser

end Tracepoint
