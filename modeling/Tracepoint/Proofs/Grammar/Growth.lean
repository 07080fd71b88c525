/-
Rows grow into trees.

An expression is read into a row, from the first token to the last.  Steps that take tokens leave
the row as it is, and so do statements in the body of a function, whose expressions have rows of
their own.  Every other reader adds to the row the places that it yields, and behind what it yields
no place is led to in two ways.

Main definitions:

* `Guarded.Builds` — what a step makes of a row, and what it yields then;
* `Guarded.Still` — the step leaves the row as it is.

Main results:

* `Guarded.still_statement` and its companions — statements leave the row as it is;
* `Guarded.builds_expression` and its companions — **what each reader adds to the row**;
* `Guarded.grown_expression` — an expression that is read fills its row.
-/

import Tracepoint.Proofs.Grammar.Guarded
import Tracepoint.Proofs.Grammar.Paths

set_option relaxedAutoImplicit false
set_option autoImplicit false

open Tracepoint.Row (Grown)

namespace Tracepoint.Guarded

/-! ### Steps -/

variable {α β : Type} {source : String} {row first : Row}

/-- From the row the step leads to a row, and yields a value, that `R` holds of. -/
def Builds (row : Row) (y : Guarded α) (R : Row → α → Prop) : Prop :=
  ∀ s a s', s.row = row → y s = .ok a s' → R s'.row a

/-- The step leaves the row as it is. -/
def Still (y : Guarded α) : Prop :=
  ∀ row, Builds row y fun row' _ => row' = row

namespace Builds

variable {y : Guarded α} {R S : Row → α → Prop} {T : Row → β → Prop}

theorem bind {g : α → Guarded β} (hy : Builds row y R)
    (hg : ∀ row' a, R row' a → Builds row' (g a) T) : Builds row (y >>= g) T := by
  intro s b s' hrow heq
  simp only [Bind.bind, EStateM.bind] at heq
  split at heq
  next a middle hrun => exact hg middle.row a (hy s a middle hrow hrun) middle b s' rfl heq
  next => cases heq

theorem pure {a : α} (h : R row a) : Builds row (pure a) R := by
  intro s b s' hrow heq
  cases heq
  exact hrow ▸ h

theorem throw (f : Failure) : Builds row (lift (throw f)) R := by
  intro s a s' _ heq
  cases heq

theorem failAt (fault : SyntaxFault) (t : Token) : Builds row (lift (Parser.failAt fault t)) R :=
  .throw _

theorem ite {c : Prop} [Decidable c] {z : Guarded α} (hy : Builds row y R) (hz : Builds row z R) :
    Builds row (if c then y else z) R := by
  split
  next => exact hy
  next => exact hz

/-- A step that leaves the row as it is, and what comes next. -/
theorem still {g : α → Guarded β} (hy : Still y) (hg : ∀ a, Builds row (g a) T) :
    Builds row (y >>= g) T :=
  (hy row).bind fun _ a hrow => hrow ▸ hg a

/-- A node is added at the end. -/
theorem push {node : Node} {R : Row → NodeRef → Prop} (h : R (row ++ [node]) row.length) :
    Builds row (push node) R := by
  intro s ref s' hrow heq
  simp only [Guarded.push, Row.push?] at heq
  split at heq
  next node' row' hpush =>
    split at hpush
    next =>
      cases hpush
      cases heq
      exact hrow ▸ h
    next => cases hpush
  next => cases heq

/-- A node is added, and what comes next. -/
theorem pushed {node : Node} {g : NodeRef → Guarded β}
    (h : Builds (row ++ [node]) (g row.length) T) : Builds row (Guarded.push node >>= g) T :=
  bind (R := fun row' ref => row' = row ++ [node] ∧ ref = row.length) (.push ⟨rfl, rfl⟩)
    fun _ _ ⟨hrow, href⟩ => hrow ▸ href ▸ h

/-- What is assigned to is found in the row. -/
theorem targeted {left : NodeRef} {g : Option Target → Guarded β}
    (h : Builds row (g (row[left]?.bind Node.target?)) T) : Builds row (target? left >>= g) T := by
  intro s b s' hrow heq
  subst hrow
  exact h s b s' rfl heq

end Builds

namespace Still

variable {y : Guarded α}

theorem bind {g : α → Guarded β} (hy : Still y) (hg : ∀ a, Still (g a)) : Still (y >>= g) :=
  fun row => .still hy fun a => hg a row

theorem pure (a : α) : Still (pure a : Guarded α) :=
  fun _ => .pure rfl

theorem lift (x : Parse α) : Still (lift x) := by
  intro row s a s' hrow heq
  simp only [Guarded.lift] at heq
  split at heq
  next =>
    cases heq
    exact hrow
  next => cases heq

theorem ite {c : Prop} [Decidable c] {z : Guarded α} (hy : Still y) (hz : Still z) :
    Still (if c then y else z) :=
  fun row => .ite (hy row) (hz row)

/-- Both branches of a condition go on in the same way. -/
theorem branch {c : Prop} [Decidable c] {z : Guarded α} {g : α → Guarded β} (hy : Still y)
    (hz : Still z) (hg : ∀ a, Still (g a)) : Still (if c then y >>= g else z >>= g) :=
  .ite (hy.bind hg) (hz.bind hg)

/-- A step that is left out, if a condition does not hold. -/
theorem whenever {c : Prop} [Decidable c] {y : Guarded Unit} {g : Unit → Guarded β} (hy : Still y)
    (hg : Still (g ())) : Still (if c then y >>= g else g ()) :=
  .ite (hy.bind fun _ => hg) hg

theorem map (f : α → β) (h : Still y) : Still (f <$> y) :=
  h.bind fun _ => .pure _

theorem guarded (a? : Option α) : Still (guarded a?) := by
  cases a? with
  | none => exact fun _ _ _ _ _ heq => nomatch heq
  | some a => exact .pure a

theorem nested (enter : Parser → Parser) (leave : Parser → Parser → Parser) (h : Still y) :
    Still (nested enter leave y) := by
  intro row s a s' hrow heq
  simp only [Guarded.nested] at heq
  split at heq
  next q hrun =>
    cases heq
    exact h row { s with parser := enter s.parser } _ q hrow hrun
  next => cases heq

/-- **An expression in a row of its own leaves the row as it is.** -/
theorem finished (step : Guarded NodeRef) : Still (finished step) := by
  intro row s e s' hrow heq
  simp only [Guarded.finished] at heq
  split at heq
  next => cases heq
  next root q hrun =>
    split at heq
    next =>
      cases heq
      exact hrow
    next => cases heq

theorem lexeme (t : Token) : Still (lexeme source t) :=
  .guarded _

theorem literal (t : Token) : Still (literal source t) :=
  (lexeme t).bind fun _ => .ite ((guarded _).bind fun _ => .pure _) (.pure _)

theorem identifier : Still (identifier source) :=
  (lift _).bind lexeme

theorem parameters (fuel : ℕ) : Still (parameters source fuel) := by
  induction fuel with
  | zero => exact .lift _
  | succ fuel ih =>
      refine (lift _).bind fun _ => .ite (.pure _) ?_
      refine identifier.bind fun name => (lift _).bind fun _ => .ite ?_ ?_
      · exact ih.bind fun _ => .pure _
      · exact (lift _).bind fun _ => .pure _

end Still

/-! ### Statements -/

mutual

theorem still_functionRest : ∀ (fuel : ℕ) (name : Option String) (line : ℕ),
    Still (functionRest source fuel name line)
  | 0, _, _ => by
      rw [functionRest]
      exact .lift _
  | fuel + 1, name, line => by
      rw [functionRest]
      refine (Still.lift _).bind fun _ => (Still.parameters fuel).bind fun _ => ?_
      exact (Still.nested _ _ (still_block fuel)).bind fun _ => .pure _

theorem still_block : ∀ fuel : ℕ, Still (block source fuel)
  | 0 => by
      rw [block]
      exact .lift _
  | fuel + 1 => by
      rw [block]
      exact (Still.lift _).bind fun _ => still_blockRest fuel

theorem still_blockRest : ∀ fuel : ℕ, Still (blockRest source fuel)
  | 0 => by
      rw [blockRest]
      exact .lift _
  | fuel + 1 => by
      rw [blockRest]
      refine (Still.lift _).bind fun t => .ite ?_ (.ite (.lift _) ?_)
      · exact (Still.lift _).bind fun _ => .pure _
      · exact (still_statement fuel).bind fun _ => (still_blockRest fuel).bind fun _ => .pure _

theorem still_declaration : ∀ (fuel : ℕ) (kind : VariableKind) (terminated : Bool),
    Still (declaration source fuel kind terminated)
  | 0, _, _ => by
      rw [declaration]
      exact .lift _
  | fuel + 1, kind, terminated => by
      rw [declaration]
      refine (Still.lift _).bind fun _ => Still.identifier.bind fun _ => ?_
      refine (Still.lift _).bind fun _ => ?_
      refine .branch ((Still.finished _).map _) (.pure _) fun _ => ?_
      exact .whenever (.lift _) (.whenever (.lift _) (.pure _))

theorem still_condition : ∀ fuel : ℕ, Still (condition source fuel)
  | 0 => by
      rw [condition]
      exact .lift _
  | fuel + 1 => by
      rw [condition]
      refine (Still.lift _).bind fun _ => (Still.finished _).bind fun _ => ?_
      exact (Still.lift _).bind fun _ => .pure _

theorem still_loopStart : ∀ fuel : ℕ, Still (loopStart source fuel)
  | 0 => by
      rw [loopStart]
      exact .lift _
  | fuel + 1 => by
      rw [loopStart]
      refine (Still.lift _).bind fun t => ?_
      cases t.kind with
      | semicolon => exact .pure _
      | letWord | constWord | varWord => exact (still_declaration fuel _ _).map _
      | _ => exact (Still.finished _).bind fun _ => .pure _

theorem still_optional : ∀ (fuel : ℕ) (closing : Kind), Still (optional source fuel closing)
  | 0, _ => by
      rw [optional]
      exact .lift _
  | fuel + 1, closing => by
      rw [optional]
      exact (Still.lift _).bind fun _ => .ite (.pure _) ((Still.finished _).map _)

theorem still_statement : ∀ fuel : ℕ, Still (statement source fuel)
  | 0 => by
      rw [statement]
      exact .lift _
  | fuel + 1 => by
      rw [statement]
      refine (Still.lift _).bind fun t => ?_
      cases t.kind with
      | letWord | constWord | varWord => exact still_declaration fuel _ _
      | functionWord =>
          refine (Still.lift _).bind fun _ => Still.identifier.bind fun _ => ?_
          exact (still_functionRest fuel _ _).bind fun _ => .pure _
      | leftBrace => exact (still_block fuel).bind fun _ => .pure _
      | ifWord =>
          refine (Still.lift _).bind fun _ => (still_condition fuel).bind fun _ => ?_
          refine (still_statement fuel).bind fun _ => (Still.lift _).bind fun _ => ?_
          exact .branch ((still_statement fuel).map _) (.pure _) fun _ => .pure _
      | whileWord =>
          refine (Still.lift _).bind fun _ => (still_condition fuel).bind fun _ => ?_
          exact (Still.nested _ _ (still_statement fuel)).bind fun _ => .pure _
      | forWord =>
          refine (Still.lift _).bind fun _ => (Still.lift _).bind fun _ => ?_
          refine (still_loopStart fuel).bind fun _ => (Still.lift _).bind fun _ => ?_
          refine (still_optional fuel _).bind fun _ => (Still.lift _).bind fun _ => ?_
          refine (still_optional fuel _).bind fun _ => (Still.lift _).bind fun _ => ?_
          exact (Still.nested _ _ (still_statement fuel)).bind fun _ => .pure _
      | returnWord =>
          refine (Still.lift _).bind fun _ => (Still.lift _).bind fun _ => ?_
          refine .whenever (.lift _) ((Still.lift _).bind fun _ => ?_)
          refine .branch (.pure _) ((Still.finished _).map _) fun _ => ?_
          exact (Still.lift _).bind fun _ => .pure _
      | breakWord | continueWord =>
          refine (Still.lift _).bind fun _ => (Still.lift _).bind fun _ => ?_
          exact .whenever (.lift _) ((Still.lift _).bind fun _ => .pure _)
      | semicolon => exact (Still.lift _).bind fun _ => .pure _
      | _ => exact (Still.finished _).bind fun _ => (Still.lift _).bind fun _ => .pure _

end

/-! ### Expressions -/

mutual

theorem builds_expression : ∀ (fuel strength : ℕ) (row : Row),
    Builds row (expression source fuel strength) fun row' root => Grown row row' [root]
  | 0, _, _ => by
      rw [expression]
      exact .throw _
  | fuel + 1, strength, row => by
      rw [expression]
      refine (builds_operand fuel row).bind fun row' left hleft => ?_
      exact builds_continuations fuel strength row row' left hleft

theorem builds_continuations : ∀ (fuel strength : ℕ) (first row : Row) (left : NodeRef),
    Grown first row [left] → Builds row (continuations source fuel strength left)
      fun row' root => Grown first row' [root]
  | 0, _, _, _, _, _ => by
      rw [continuations]
      exact .throw _
  | fuel + 1, strength, first, row, left, hleft => by
      rw [continuations]
      refine .still (.lift _) fun t => ?_
      cases Continuation.ofKind? t.kind with
      | none => exact .pure hleft
      | some c =>
          refine .ite (.pure hleft) (.still (.lift _) fun _ => ?_)
          cases c with
          | suffix s =>
              refine (builds_suffix fuel s first row left hleft).bind fun row' whole hwhole => ?_
              exact builds_continuations fuel strength first row' whole hwhole
          | binary op | logical op =>
              refine (builds_expression fuel _ row).bind fun row' right hright => .pushed ?_
              refine builds_continuations fuel strength first _ _ (Grown.concat ?_)
              exact hleft.append hright
          | assignment =>
              refine .targeted ?_
              cases htarget : row[left]?.bind Node.target? with
              | none => exact .failAt _ _
              | some target =>
                  obtain ⟨node, hnode, htarget⟩ := Option.bind_eq_some_iff.1 htarget
                  refine (builds_expression fuel _ row).bind fun row' value hvalue => .pushed ?_
                  refine builds_continuations fuel strength first _ _ ?_
                  exact hleft.assign hnode htarget hvalue

theorem builds_operand : ∀ (fuel : ℕ) (row : Row),
    Builds row (operand source fuel) fun row' root => Grown row row' [root]
  | 0, _ => by
      rw [operand]
      exact .throw _
  | fuel + 1, row => by
      rw [operand]
      refine .still (.lift _) fun t => .still (.literal t) fun atom? => ?_
      cases atom? with
      | some a => exact .push (Grown.concat (Grown.nil row))
      | none =>
      generalize UnaryOp.ofKind? t.kind = op?
      generalize t.kind = kind
      cases op? with
      | some op =>
          exact (builds_expression fuel _ row).bind fun row' inner hinner =>
            .push (Grown.concat hinner)
      | none =>
      cases kind with
      | leftParen =>
          refine (builds_expression fuel _ row).bind fun row' inner hinner => ?_
          exact .still (.lift _) fun _ => .push (Grown.concat hinner)
      | leftBracket =>
          exact (builds_arguments fuel _ row).bind fun row' elements helements =>
            .push (Grown.concat helements)
      | leftBrace =>
          exact (builds_entries fuel row).bind fun row' entries hentries =>
            .push (Grown.concat hentries)
      | functionWord =>
          have hdecl : ∀ name, Builds row (do
              let decl ← functionRest source fuel name t.line
              push (.function decl)) fun row' root => Grown row row' [root] := fun name =>
            .still (still_functionRest fuel name _) fun _ => .push (Grown.concat (Grown.nil row))
          refine .still (.lift _) fun ahead => .ite ?_ ?_
          · exact .still (Still.identifier.map _) hdecl
          · exact .still (.pure _) hdecl
      | _ => exact .failAt _ _

theorem builds_suffix : ∀ (fuel : ℕ) (s : Suffix) (first row : Row) (base : NodeRef),
    Grown first row [base] → Builds row (suffix source fuel s base)
      fun row' root => Grown first row' [root]
  | 0, _, _, _, _, _ => by
      rw [suffix]
      exact .throw _
  | fuel + 1, .call, first, row, base, hbase => by
      rw [suffix]
      refine (builds_arguments fuel _ row).bind fun row' arguments harguments => ?_
      exact .push (Grown.concat (hbase.append harguments))
  | fuel + 1, .property, first, row, base, hbase => by
      rw [suffix]
      refine .still (.lift _) fun t => .still (.lexeme t) fun name => ?_
      exact .ite (.push (Grown.concat hbase)) (.failAt _ _)
  | fuel + 1, .index, first, row, base, hbase => by
      rw [suffix]
      refine (builds_expression fuel _ row).bind fun row' index hindex => ?_
      exact .still (.lift _) fun _ => .push (Grown.concat (hbase.append hindex))

theorem builds_arguments : ∀ (fuel : ℕ) (closing : Kind) (row : Row),
    Builds row (arguments source fuel closing) fun row' refs => Grown row row' refs
  | 0, _, _ => by
      rw [arguments]
      exact .throw _
  | fuel + 1, closing, row => by
      rw [arguments]
      refine .still (.lift _) fun _ => .ite (.pure (Grown.nil row)) ?_
      refine (builds_expression fuel _ row).bind fun row' first hfirst => ?_
      refine .still (.lift _) fun _ => .ite ?_ ?_
      · refine (builds_arguments fuel closing row').bind fun row'' rest hrest => ?_
        exact .pure (hfirst.append hrest)
      · exact .still (.lift _) fun _ => .pure hfirst

theorem builds_entries : ∀ (fuel : ℕ) (row : Row),
    Builds row (entries source fuel) fun row' entries => Grown row row' (entries.map Prod.snd)
  | 0, _ => by
      rw [entries]
      exact .throw _
  | fuel + 1, row => by
      rw [entries]
      refine .still (.lift _) fun _ => .ite (.pure (Grown.nil row)) ?_
      refine (builds_entry fuel row).bind fun row' first hfirst => ?_
      refine .still (.lift _) fun _ => .ite ?_ ?_
      · refine (builds_entries fuel row').bind fun row'' rest hrest => ?_
        exact .pure (hfirst.append hrest)
      · exact .still (.lift _) fun _ => .pure hfirst

theorem builds_entry : ∀ (fuel : ℕ) (row : Row),
    Builds row (entry source fuel) fun row' entry => Grown row row' [entry.2]
  | 0, _ => by
      rw [entry]
      exact .throw _
  | fuel + 1, row => by
      rw [entry]
      refine .still (.lift _) fun t => ?_
      have hvalue : ∀ (kind : Kind) (key : String), Builds row (do
          if ← lift (Parser.accept .colon) then
            let value ← expression source fuel 0
            return (key, value)
          else if kind = .identifier then
            let value ← push (.atom (.name key) t.span t.line)
            return (key, value)
          else
            let after ← lift Parser.next
            lift (throw (.error (.unexpected after .colon)))) fun row' entry =>
              Grown row row' [entry.2] := by
        intro kind key
        refine .still (.lift _) fun _ => .ite ?_ (.ite ?_ ?_)
        · exact (builds_expression fuel _ row).bind fun row' value hvalue => .pure hvalue
        · exact .pushed (.pure (Grown.concat (Grown.nil row)))
        · exact .still (.lift _) fun _ => .throw _
      cases t.kind with
      | identifier | number => exact .still (.lexeme t) (hvalue _)
      | string => exact .still ((Still.lexeme t).map _) (hvalue _)
      | _ => exact .still (.lift _) (hvalue _)

end

/-- **What is added to an empty row when an expression is read.** -/
theorem grown_expression {fuel strength : ℕ} {p : Parser} {root : NodeRef} {s : RowParser}
    (h : expression source fuel strength ⟨p, []⟩ = .ok root s) : Grown [] s.row [root] :=
  builds_expression fuel strength [] ⟨p, []⟩ root s rfl h

end Tracepoint.Guarded
