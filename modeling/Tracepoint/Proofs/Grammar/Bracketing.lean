/-
What the parser yields is bracketed by the levels of operators.

Every expression has a level, by what stands at its root, from assignments up to expressions that
start and end with tokens of their own.  An operator takes operands of its own level or above; on
its right side a binary operator takes only those above.  The parser yields no other trees: a strong
continuation is never left to a weak operand, and nothing that would bind stronger is left behind.

Main definitions:

* `Expr.level` — how tightly an expression holds together;
* `Expr.Bracketed` — the operands of all operators are of the levels that they have to be;
* `Parser.Ensures` — what holds of the result of a step at the place it leads to;
* `Parser.Ends` — what is ahead binds weaker than a given strength.

Main results:

* `BinaryOp.strength_eq`, `LogicalOp.strength_eq` — strengths are twice the levels, or one less;
* `Parser.bracketed_continuations`, `Parser.bracketed_operand` and their companions;
* `Parser.bracketed_expression` — **what is yielded for a strength lies above it**.
-/

import Tracepoint.Proofs.Grammar.Steps

set_option relaxedAutoImplicit false
set_option autoImplicit false

namespace Tracepoint

/-! ### Levels -/

/-- The level of a binary operator. -/
def BinaryOp.level : BinaryOp → ℕ
  | equal | notEqual | strictEqual | strictNotEqual => 4
  | less | lessEqual | greater | greaterEqual => 5
  | add | subtract => 6
  | multiply | divide | modulo => 7

/-- The level of an operator that may skip its right operand. -/
def LogicalOp.level : LogicalOp → ℕ
  | or => 2
  | and => 3

/-- The level of an expression. -/
def Expr.level : Expr → ℕ
  | assignName _ _ | assignProperty _ _ _ | assignIndex _ _ _ => 1
  | logical op _ _ => op.level
  | binary op _ _ => op.level
  | unary _ _ => 8
  | call _ _ | property _ _ | index _ _ => 9
  | atom _ _ _ | group _ | array _ | object _ | function _ => 10

theorem BinaryOp.strength_eq (op : BinaryOp) :
    op.strength = ⟨2 * op.level - 1, 2 * op.level⟩ := by
  cases op <;> rfl

theorem LogicalOp.strength_eq (op : LogicalOp) :
    op.strength = ⟨2 * op.level - 1, 2 * op.level⟩ := by
  cases op <;> rfl

theorem BinaryOp.level_bounds (op : BinaryOp) : 4 ≤ op.level ∧ op.level ≤ 7 := by
  cases op <;> decide

theorem LogicalOp.level_bounds (op : LogicalOp) : 2 ≤ op.level ∧ op.level ≤ 3 := by
  cases op <;> decide

theorem Expr.level_pos (e : Expr) : 1 ≤ e.level := by
  cases e with
  | binary op _ _ => exact Nat.le_trans (by decide) op.level_bounds.1
  | logical op _ _ => exact Nat.le_trans (by decide) op.level_bounds.1
  | _ => simp [level]

mutual

/-- All operands are of the levels that their operators ask for. Functions are not looked into. -/
def Expr.Bracketed : Expr → Prop
  | .atom _ _ _ => True
  | .group inner => inner.Bracketed
  | .unary _ operand => 8 ≤ operand.level ∧ operand.Bracketed
  | .binary op left right =>
    op.level ≤ left.level ∧ op.level + 1 ≤ right.level ∧ left.Bracketed ∧ right.Bracketed
  | .logical op left right =>
    op.level ≤ left.level ∧ op.level + 1 ≤ right.level ∧ left.Bracketed ∧ right.Bracketed
  | .assignName _ value => value.Bracketed
  | .assignProperty object _ value => 9 ≤ object.level ∧ object.Bracketed ∧ value.Bracketed
  | .assignIndex object index value =>
    9 ≤ object.level ∧ object.Bracketed ∧ index.Bracketed ∧ value.Bracketed
  | .call callee arguments => 9 ≤ callee.level ∧ callee.Bracketed ∧ exprsBracketed arguments
  | .property object _ => 9 ≤ object.level ∧ object.Bracketed
  | .index object index => 9 ≤ object.level ∧ object.Bracketed ∧ index.Bracketed
  | .array elements => exprsBracketed elements
  | .object entries => entriesBracketed entries
  | .function _ => True

/-- The expressions are bracketed. -/
def exprsBracketed : List Expr → Prop
  | [] => True
  | e :: rest => e.Bracketed ∧ exprsBracketed rest

/-- The values of the entries are bracketed. -/
def entriesBracketed : List (String × Expr) → Prop
  | [] => True
  | (_, e) :: rest => e.Bracketed ∧ entriesBracketed rest

end

/-! ### Strengths -/

/-- Every continuation is as strong as twice a level less one, assignment aside, which is stronger
on its left. -/
theorem Continuation.strength_bounds (c : Continuation) : 2 ≤ c.strength ∧ c.strength ≤ 17 := by
  cases c with
  | suffix s => exact ⟨show 2 ≤ 17 by decide, Nat.le_refl 17⟩
  | binary op =>
      have hbounds := op.level_bounds
      simp only [strength, op.strength_eq]
      omega
  | logical op =>
      have hbounds := op.level_bounds
      simp only [strength, op.strength_eq]
      omega
  | assignment => exact ⟨by decide, by decide⟩

/-- A token binds what is in front of it weaker than `n`, if at all. -/
def Token.Below (n : ℕ) (t : Token) : Prop :=
  ∀ c, Continuation.ofKind? t.kind = some c → c.strength < n

theorem Token.Below.mono {m n : ℕ} {t : Token} (hle : m ≤ n) (h : t.Below m) : t.Below n :=
  fun c hc => Nat.lt_of_lt_of_le (h c hc) hle

theorem Token.below_of_le {n : ℕ} (t : Token) (hle : 18 ≤ n) : t.Below n :=
  fun c _ => Nat.lt_of_lt_of_le (Nat.lt_succ_of_le c.strength_bounds.2) hle

namespace Parser

/-- What is ahead, if it can be read, binds weaker than `n`. -/
def Ends (n : ℕ) (p : Parser) : Prop :=
  ∀ t, p.current = .ok t → t.Below n

/-! ### Steps -/

/-- From where `I` holds a step leads only to where `P` holds of its result. -/
def Ensures {α : Type} (I : Parser → Prop) (x : Parse α) (P : α → Parser → Prop) : Prop :=
  ∀ p a q, I p → x p = .ok a q → P a q

namespace Ensures

variable {α β : Type} {I : Parser → Prop} {x : Parse α} {P : α → Parser → Prop}
  {Q : β → Parser → Prop}

theorem bind {f : α → Parse β} (hx : Ensures I x P) (hf : ∀ a, Ensures (P a) (f a) Q) :
    Ensures I (x >>= f) Q := by
  intro p b q hp heq
  simp only [Bind.bind, EStateM.bind] at heq
  split at heq
  next a p' hrun => exact hf a p' b q (hx p a p' hp hrun) heq
  next => cases heq

theorem pure {a : α} (h : ∀ p, I p → P a p) : Ensures I (pure a : Parse α) P := by
  intro p b q hp heq
  cases heq
  exact h p hp

theorem throw (e : Failure) : Ensures I (throw e : Parse α) P := by
  intro p b q _ heq
  cases heq

theorem failAt (fault : SyntaxFault) (t : Token) : Ensures I (failAt fault t : Parse α) P :=
  throw _

/-- Nothing has to be known of a step for nothing to hold behind it. -/
theorem any : Ensures I x fun _ _ => True :=
  fun _ _ _ _ _ => trivial

theorem start {J : Parser → Prop} (h : Ensures J x P) (hI : ∀ p, I p → J p) : Ensures I x P :=
  fun p a q hp => h p a q (hI p hp)

/-- What follows from what is known of the parser may be used. -/
theorem knowing {C : Prop} (hC : ∀ p, I p → C) (h : C → Ensures I x P) : Ensures I x P :=
  fun p a q hp => h (hC p hp) p a q hp

theorem ite {c : Prop} [Decidable c] {y : Parse α} (hx : c → Ensures I x P)
    (hy : ¬c → Ensures I y P) : Ensures I (if c then x else y) P := by
  split
  next h => exact hx h
  next h => exact hy h

/-- Looking ahead leaves the parser where it is. -/
theorem peek : Ensures I peek fun t p => I p ∧ p.current = .ok t := by
  intro p t q hp heq
  simp only [Parser.peek] at heq
  split at heq
  next hcurrent =>
    cases heq
    exact ⟨hp, hcurrent⟩
  next => cases heq

end Ensures

/-! ### Expressions -/

/-- Behind an expression for the strength `s`: it is bracketed and of a level above, and what is
ahead binds weaker. -/
def Whole (s : ℕ) (e : Expr) (p : Parser) : Prop :=
  e.Bracketed ∧ s < 2 * e.level ∧ p.Ends s

/-- The strengths that are asked for: those on the right of an operator, and none at all. -/
def Asked (s : ℕ) : Prop :=
  s ≤ 15 ∧ s ≠ 2

theorem ends_of_level {e : Expr} (h : 9 ≤ e.level) (p : Parser) : p.Ends (2 * e.level) :=
  fun t _ => t.below_of_le (by omega)

theorem bracketed_of_atomOf? {t : Token} {e : Expr} (h : atomOf? t = some e) :
    e.Bracketed ∧ e.level = 10 := by
  simp only [atomOf?] at h
  split at h
  all_goals cases h
  all_goals exact ⟨trivial, rfl⟩

theorem bracketed_of_assignment? {target value : Expr} {assign : Expr → Expr}
    (h : assignment? target = some assign) (htarget : target.Bracketed)
    (hvalue : value.Bracketed) : (assign value).Bracketed ∧ (assign value).level = 1 := by
  simp only [assignment?] at h
  split at h
  · cases h
    exact ⟨hvalue, rfl⟩
  · cases h
    exact ⟨⟨htarget.1, htarget.2, hvalue⟩, rfl⟩
  · cases h
    exact ⟨⟨htarget.1, htarget.2.1, htarget.2.2, hvalue⟩, rfl⟩
  · cases h

/-- The right operand of an operator of level `n` is read for twice this level, and reading goes on
behind the whole. -/
theorem Ensures.joined {fuel s n : ℕ} {join : Expr → Expr}
    (hright : Ensures (fun _ => True) (expression fuel (2 * n)) (Whole (2 * n)))
    (hlevel : ∀ right, (join right).level = n)
    (hjoin : ∀ right : Expr, right.Bracketed → 2 * n < 2 * right.level → (join right).Bracketed)
    (hgoOn : ∀ right, (join right).Bracketed →
      Ensures (Ends (2 * (join right).level)) (continuations fuel s (join right)) (Whole s)) :
    Ensures (fun _ => True) (do
      let right ← expression fuel (2 * n)
      continuations fuel s (join right)) (Whole s) := by
  refine hright.bind fun right p e q hp => ?_
  refine hgoOn right (hjoin right hp.1 hp.2.1) p e q ?_
  rw [hlevel]
  exact hp.2.2

/-! The proofs follow the recursion on the number of steps. -/

mutual

/-- **What is yielded for a strength lies above it**, and what is left is weaker. -/
theorem bracketed_expression : ∀ (fuel s : ℕ), Asked s →
    Ensures (fun _ => True) (expression fuel s) (Whole s)
  | 0, _, _ => .throw _
  | fuel + 1, s, hs => by
      rw [expression]
      refine (bracketed_operand fuel).bind fun left => ?_
      refine .knowing (C := left.Bracketed ∧ 8 ≤ left.level) (fun p hp => ⟨hp.1, hp.2.1⟩) ?_
      rintro ⟨hleft, hlevel⟩
      have hs' : s < 2 * left.level := by
        have hle := hs.1
        omega
      exact (bracketed_continuations fuel s left hs hleft hs').start fun p hp => hp.2.2

/-- The operand in front of a continuation is at least of the level that the continuation has. -/
theorem bracketed_continuations : ∀ (fuel s : ℕ) (left : Expr), Asked s → left.Bracketed →
    s < 2 * left.level → Ensures (Ends (2 * left.level)) (continuations fuel s left) (Whole s)
  | 0, _, _, _, _, _ => .throw _
  | fuel + 1, s, left, hs, hleft, hlevel => by
      rw [continuations]
      refine Ensures.peek.bind fun t => ?_
      split
      next hnone =>
        refine .pure fun p hp => ⟨hleft, hlevel, fun t' ht' c hc => ?_⟩
        cases hp.2.symm.trans ht'
        rw [hnone] at hc
        cases hc
      next c hc =>
        refine .ite (fun hweak => .pure fun p hp => ⟨hleft, hlevel, fun t' ht' c' hc' => ?_⟩)
          fun hstrong => .knowing (C := c.strength < 2 * left.level)
            (fun p hp => hp.1 t hp.2 c hc) fun hbelow => Ensures.any.bind fun _ => ?_
        · cases hp.2.symm.trans ht'
          cases hc.symm.trans hc'
          exact hweak
        cases c with
        | suffix form =>
            change 17 < 2 * left.level at hbelow
            refine (bracketed_suffix fuel form left hleft (by omega)).bind fun whole => ?_
            refine .knowing (C := whole.Bracketed ∧ whole.level = 9) (fun p hp => hp) ?_
            rintro ⟨hwhole, hnine⟩
            have hs' : s < 2 * whole.level := by
              have hle := hs.1
              omega
            exact (bracketed_continuations fuel s whole hs hwhole hs').start
              fun p _ => ends_of_level (by omega) p
        | binary op =>
            have hbounds := op.level_bounds
            simp only [Continuation.strength, op.strength_eq] at hstrong hbelow ⊢
            refine (bracketed_expression fuel _ ⟨by omega, by omega⟩).joined (fun _ => rfl)
              (fun _ hright _ => ⟨by omega, by omega, hleft, hright⟩) fun right hwhole => ?_
            exact bracketed_continuations fuel s _ hs hwhole (show s < 2 * op.level by omega)
        | logical op =>
            have hbounds := op.level_bounds
            simp only [Continuation.strength, op.strength_eq] at hstrong hbelow ⊢
            refine (bracketed_expression fuel _ ⟨by omega, by omega⟩).joined (fun _ => rfl)
              (fun _ hright _ => ⟨by omega, by omega, hleft, hright⟩) fun right hwhole => ?_
            exact bracketed_continuations fuel s _ hs hwhole (show s < 2 * op.level by omega)
        | assignment =>
            change ¬2 < s at hstrong
            simp only
            split
            next => exact .failAt _ _
            next assign hassign =>
              refine (bracketed_expression fuel 1 ⟨by decide, by decide⟩).bind fun value => ?_
              refine .knowing (C := value.Bracketed) (fun p hp => hp.1) fun hvalue => ?_
              obtain ⟨hwhole, hone⟩ := bracketed_of_assignment? hassign hleft hvalue
              have hs' : s < 2 * (assign value).level := by
                have hne := hs.2
                omega
              refine (bracketed_continuations fuel s _ hs hwhole hs').start fun p hp t ht => ?_
              exact (hp.2.2 t ht).mono (by omega)

theorem bracketed_operand : ∀ fuel : ℕ, Ensures (fun _ => True) (operand fuel)
    fun e p => e.Bracketed ∧ 8 ≤ e.level ∧ p.Ends (2 * e.level)
  | 0 => .throw _
  | fuel + 1 => by
      have hten : ∀ (e : Expr) (p : Parser), e.Bracketed → e.level = 10 →
          e.Bracketed ∧ 8 ≤ e.level ∧ p.Ends (2 * e.level) :=
        fun e p he hlevel => ⟨he, by omega, ends_of_level (by omega) p⟩
      rw [operand]
      refine Ensures.any.bind fun t => ?_
      split
      next atom hatom =>
        obtain ⟨hbracketed, hlevel⟩ := bracketed_of_atomOf? hatom
        exact .pure fun p _ => hten _ p hbracketed hlevel
      next =>
        refine Ensures.bind ((bracketed_expression fuel UnaryOp.strength
          ⟨by decide, by decide⟩).start fun _ _ => trivial) fun inner => .pure ?_
        rintro p ⟨hinner, habove, hends⟩
        change 15 < 2 * inner.level at habove
        refine ⟨⟨by omega, hinner⟩, Nat.le_refl 8, fun t ht => ?_⟩
        exact (hends t ht).mono (show 15 ≤ 2 * 8 by decide)
      next =>
        refine Ensures.bind ((bracketed_expression fuel 0 ⟨by decide, by decide⟩).start
          fun _ _ => trivial) fun inner => .knowing (C := inner.Bracketed) (fun p hp => hp.1) ?_
        exact fun hinner => Ensures.any.bind fun _ =>
          .pure fun p _ => hten (.group inner) p hinner rfl
      next =>
        refine Ensures.bind ((bracketed_arguments fuel _).start fun _ _ => trivial)
          fun elements => .pure fun p helements => hten (.array elements) p helements rfl
      next =>
        refine Ensures.bind ((bracketed_entries fuel).start fun _ _ => trivial)
          fun entries => .pure fun p hentries => hten (.object entries) p hentries rfl
      next =>
        refine Ensures.any.bind fun ahead => .ite (fun _ => ?_) fun _ => ?_
        all_goals
          exact Ensures.any.bind fun name => Ensures.any.bind fun decl =>
            .pure fun p _ => hten (.function decl) p trivial rfl
      next => exact .failAt _ _
      next => exact .failAt _ _

theorem bracketed_suffix : ∀ (fuel : ℕ) (form : Suffix) (object : Expr), object.Bracketed →
    9 ≤ object.level → Ensures (fun _ => True) (suffix fuel form object)
      fun e _ => e.Bracketed ∧ e.level = 9
  | 0, _, _, _, _ => .throw _
  | fuel + 1, .call, object, hobject, hlevel => by
      rw [suffix]
      exact (bracketed_arguments fuel _).bind fun arguments => .pure fun p harguments =>
        ⟨⟨hlevel, hobject, harguments⟩, rfl⟩
  | fuel + 1, .property, object, hobject, hlevel => by
      rw [suffix]
      exact Ensures.any.bind fun t => .ite (fun _ => .pure fun _ _ => ⟨⟨hlevel, hobject⟩, rfl⟩)
        fun _ => .failAt _ _
  | fuel + 1, .index, object, hobject, hlevel => by
      rw [suffix]
      refine (bracketed_expression fuel 0 ⟨by decide, by decide⟩).bind fun index => ?_
      refine .knowing (C := index.Bracketed) (fun p hp => hp.1) fun hindex => ?_
      exact Ensures.any.bind fun _ => .pure fun _ _ => ⟨⟨hlevel, hobject, hindex⟩, rfl⟩

theorem bracketed_arguments : ∀ (fuel : ℕ) (closing : Kind),
    Ensures (fun _ => True) (arguments fuel closing) fun es _ => exprsBracketed es
  | 0, _ => .throw _
  | fuel + 1, closing => by
      rw [arguments]
      refine Ensures.any.bind fun closed => .ite (fun _ => .pure fun _ _ => trivial) fun _ => ?_
      refine (bracketed_expression fuel 0 ⟨by decide, by decide⟩).bind fun first => ?_
      refine .knowing (C := first.Bracketed) (fun p hp => hp.1) fun hfirst => ?_
      refine Ensures.any.bind fun more => .ite (fun _ => ?_) fun _ => ?_
      · exact (bracketed_arguments fuel closing).bind fun rest => .pure fun _ hrest =>
          ⟨hfirst, hrest⟩
      · exact Ensures.any.bind fun _ => .pure fun _ _ => ⟨hfirst, trivial⟩

theorem bracketed_entries : ∀ fuel : ℕ,
    Ensures (fun _ => True) (entries fuel) fun es _ => entriesBracketed es
  | 0 => .throw _
  | fuel + 1 => by
      rw [entries]
      refine Ensures.any.bind fun closed => .ite (fun _ => .pure fun _ _ => trivial) fun _ => ?_
      refine (bracketed_entry fuel).bind fun first => ?_
      refine .knowing (C := first.2.Bracketed) (fun p hp => hp) fun hfirst => ?_
      refine Ensures.any.bind fun more => .ite (fun _ => ?_) fun _ => ?_
      · refine Ensures.bind ((bracketed_entries fuel).start fun _ _ => trivial) fun rest =>
          .pure fun _ hrest => ⟨hfirst, hrest⟩
      · exact Ensures.any.bind fun _ => .pure fun _ _ => ⟨hfirst, trivial⟩

theorem bracketed_entry : ∀ fuel : ℕ,
    Ensures (fun _ => True) (entry fuel) fun e _ => e.2.Bracketed
  | 0 => .throw _
  | fuel + 1 => by
      rw [entry_succ]
      refine Ensures.any.bind fun t => Ensures.any.bind fun key => ?_
      refine Ensures.any.bind fun _ => .ite (fun _ => ?_) fun _ => .ite (fun _ => ?_) fun _ => ?_
      · exact Ensures.bind (bracketed_expression fuel 0 ⟨by decide, by decide⟩) fun value =>
          .pure fun _ hvalue => hvalue.1
      · exact .pure fun _ _ => trivial
      · exact Ensures.any.bind fun _ => .throw _

end

end Parser

end Tracepoint
