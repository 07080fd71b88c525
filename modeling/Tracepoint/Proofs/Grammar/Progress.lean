/-
Parsing makes progress.

The end of a source is never passed, so a reader that takes a token before the end has fewer tokens
in front of it.  Every expression and every statement takes one, and so does every turn of the
readers that go on: over statements, arguments, entries, parameters and continuations.  Between two
tokens that are taken there are fewer than eight steps from reader to reader.  So the steps that a
call is given always suffice, whatever is ahead.

Main definitions:

* `Parser.Ending` — the end of a source is ahead;
* `Parser.Advances` — a step comes to an end and takes tokens.

Main results:

* `Parser.advances_expression`, `Parser.advances_statement` — **expressions and statements take a
  token**, and have steps enough;
* `Parser.not_exhausted` — **a call has steps enough**.
-/

import Tracepoint.Proofs.Grammar.Places

set_option relaxedAutoImplicit false
set_option autoImplicit false

namespace Tracepoint.Parser

/-! ### Before the end of a source -/

/-- The last token ahead is the end of a source. -/
def Ending (p : Parser) : Prop :=
  ∀ x, p.ahead.getLast? = some x → Lexer.isFinish x = true

theorem Ending.of_suffix {p : Parser} {source : String} (h : p.ahead <:+ Lexer.lexemes source) :
    Ending p := by
  obtain ⟨front, hfront⟩ := h
  intro x hx
  refine Lexer.isFinish_of_getLast? (k := Cursor.ofString source) ?_
  rw [← Lexer.lexemes, ← hfront, List.getLast?_append, hx]
  rfl

theorem Ending.of_reaches {p q : Parser} (h : Ending p) (hreaches : Reaches p q) : Ending q := by
  obtain ⟨front, hfront⟩ := hreaches.ahead
  intro x hx
  refine h x ?_
  rw [← hfront, List.getLast?_append, hx]
  rfl

/-- A token that is not the last one has another one behind it. -/
theorem Ending.length_forward {p : Parser} {t : Token} (h : Ending p) (hcurrent : p.current = .ok t)
    (hkind : t.kind ≠ .finish) : p.forward.behind.length < p.behind.length := by
  obtain ⟨current, behind, previousLine, loopDepth, functionDepth⟩ := p
  cases behind with
  | nil =>
      obtain rfl : current = .ok t := hcurrent
      exact absurd (beq_iff_eq.1 (h _ rfl)) hkind
  | cons next behind => exact Nat.lt_succ_self _

/-! ### Progress -/

variable {α β : Type} {m n k : ℕ} {x y : Parse α} {t : Token}

/-- The outcome is a fault, or something with fewer than `n` tokens left. -/
def Advanced (n : ℕ) : EStateM.Result Failure Parser α → Prop
  | .ok _ q => Ending q ∧ q.behind.length < n
  | .error (.error _) _ => True
  | .error .exhausted _ => False

/-- With `m` tokens behind the parser the step has steps enough. Where it yields something, fewer
than `n` tokens are left. -/
def Advances (m n : ℕ) (x : Parse α) : Prop :=
  ∀ p, Ending p → p.behind.length = m → Advanced n (x p)

/-- The same, where the parser is at `t`. -/
def AdvancesAt (t : Token) (m n : ℕ) (x : Parse α) : Prop :=
  ∀ p, Ending p → p.behind.length = m → p.current = .ok t → Advanced n (x p)

namespace Advances

theorem bind {f : α → Parse β} (hx : Advances m n x)
    (hf : ∀ a l, l < n → Advances l k (f a)) : Advances m k (x >>= f) := by
  intro p hp hm
  have hfirst := hx p hp hm
  simp only [Bind.bind, EStateM.bind]
  cases hrun : x p with
  | ok a q =>
      rw [hrun] at hfirst
      exact hf a _ hfirst.2 q hfirst.1 rfl
  | error e q =>
      rw [hrun] at hfirst
      cases e with
      | error e => exact trivial
      | exhausted => exact hfirst.elim

theorem pure {a : α} (h : m < n) : Advances m n (pure a) :=
  fun _ hp hm => ⟨hp, hm ▸ h⟩

theorem throw (e : SyntaxError) : Advances m n (throw (.error e) : Parse α) :=
  fun _ _ _ => trivial

theorem failAt (fault : SyntaxFault) (t : Token) : Advances m n (failAt fault t : Parse α) :=
  .throw _

theorem map {f : α → β} (h : Advances m n x) : Advances m n (f <$> x) :=
  h.bind fun _ _ hl => .pure hl

theorem get : Advances m (m + 1) (get : Parse Parser) :=
  fun _ hp hm => ⟨hp, hm ▸ Nat.lt_succ_self _⟩

theorem weaken (h : Advances m n x) (hle : n ≤ k) : Advances m k x := by
  intro p hp hm
  have hx := h p hp hm
  cases hrun : x p with
  | ok a q =>
      rw [hrun] at hx
      exact ⟨hx.1, Nat.lt_of_lt_of_le hx.2 hle⟩
  | error e q =>
      rw [hrun] at hx
      cases e with
      | error e => exact trivial
      | exhausted => exact hx.elim

theorem ite {c : Prop} [Decidable c] (hx : c → Advances m n x) (hy : ¬c → Advances m n y) :
    Advances m n (if c then x else y) := by
  split
  next h => exact hx h
  next h => exact hy h

/-- Both branches of a condition go on in the same way. -/
theorem branch {c : Prop} [Decidable c] {f : α → Parse β} (hx : Advances m n x)
    (hy : Advances m n y) (hf : ∀ a l, l < n → Advances l k (f a)) :
    Advances m k (if c then x >>= f else y >>= f) :=
  .ite (fun _ => hx.bind hf) fun _ => hy.bind hf

/-- A step that is left out, if a condition does not hold. -/
theorem whenever {c : Prop} [Decidable c] {y : Parse Unit} {f : Unit → Parse β}
    (hy : Advances m (m + 1) y) (hf : ∀ l, l < m + 1 → Advances l k (f ())) :
    Advances m k (if c then y >>= f else f ()) :=
  .ite (fun _ => hy.bind fun _ => hf) fun _ => hf m (Nat.lt_succ_self m)

/-- Depths are no matter. -/
theorem nested {enter : Parser → Parser} {leave : Parser → Parser → Parser}
    (hx : Advances m n x) (haround : Around enter leave) :
    Advances m n (nested enter leave x) := by
  intro p hp hm
  have hahead := haround.ahead_enter p
  have hinside := hx (enter p) (fun u hu => hp u (hahead ▸ hu))
    ((congrArg List.length (List.cons.inj hahead).2).trans hm)
  simp only [Parser.nested]
  cases hrun : x (enter p) with
  | ok a q =>
      rw [hrun] at hinside
      have hleave := haround.ahead_leave p q
      exact ⟨fun u hu => hinside.1 u (hleave ▸ hu),
        (congrArg List.length (List.cons.inj hleave).2).trans_lt hinside.2⟩
  | error e q =>
      rw [hrun] at hinside
      cases e <;> exact hinside

theorem inLoop (hx : Advances m n x) : Advances m n (inLoop x) :=
  hx.nested .loop

theorem inFunction (hx : Advances m n x) : Advances m n (inFunction x) :=
  hx.nested .function

end Advances

namespace AdvancesAt

theorem of (h : Advances m n x) : AdvancesAt t m n x :=
  fun p hp hm _ => h p hp hm

/-- The token ahead is taken, and it is not the last one. -/
theorem take {f : Token → Parse α} (hkind : t.kind ≠ .finish)
    (h : ∀ l, l < m → Advances l n (f t)) : AdvancesAt t m n (next >>= f) := by
  intro p hp hm hcurrent
  have hforward := hp.of_reaches (Reaches.forward p)
  have hlength := hp.length_forward hcurrent hkind
  simp only [Bind.bind, EStateM.bind, Parser.next, hcurrent]
  exact h _ (hm ▸ hlength) _ hforward rfl

end AdvancesAt

namespace Advances

/-! ### Single tokens -/

/-- The token ahead, and where it is ahead. -/
theorem ahead {f : Token → Parse α} (h : ∀ t, AdvancesAt t m n (f t)) :
    Advances m n (peek >>= f) := by
  intro p hp hm
  simp only [Bind.bind, EStateM.bind, Parser.peek]
  cases hcurrent : p.current with
  | ok t => exact h t p hp hm hcurrent
  | error e => exact trivial

/-- A token is taken, which may be the last one. -/
theorem taken {f : Token → Parse α} (h : ∀ t, t.kind ≠ .finish → ∀ l, l < m → Advances l n (f t))
    (hend : ∀ t, t.kind = .finish → ∀ l, l ≤ m → Advances l n (f t)) :
    Advances m n (next >>= f) := by
  intro p hp hm
  cases hcurrent : p.current with
  | error e =>
      simp only [Bind.bind, EStateM.bind, Parser.next, hcurrent]
      exact trivial
  | ok t =>
      by_cases hkind : t.kind = .finish
      · have hforward := hp.of_reaches (Reaches.forward p)
        have hlength := Nat.le_of_succ_le_succ (Reaches.forward p).ahead.length_le
        simp only [Bind.bind, EStateM.bind, Parser.next, hcurrent]
        exact hend t hkind _ (hm ▸ hlength) _ hforward rfl
      · exact AdvancesAt.take hkind (h t hkind) p hp hm hcurrent

theorem next : Advances m (m + 1) next := by
  rw [← bind_pure Parser.next]
  exact .taken (fun _ _ _ hl => .pure (Nat.lt_succ_of_lt hl))
    fun _ _ _ hl => .pure (Nat.lt_succ_of_le hl)

theorem expect {kind : Kind} (hkind : kind ≠ .finish) : Advances m m (expect kind) := by
  refine .taken (fun t _ l hl => .ite (fun _ => .pure hl) fun _ => .throw _) fun t ht l _ => ?_
  rw [if_neg (ht ▸ hkind.symm)]
  exact .throw _

theorem accept (kind : Kind) : Advances m (m + 1) (accept kind) := by
  refine .ahead fun t => .of (.ite (fun _ => ?_) fun _ => .pure (Nat.lt_succ_self m))
  exact Advances.next.bind fun _ l hl => .pure hl

theorem identifier : Advances m m identifier :=
  (expect (by decide)).bind fun _ _ hl => .pure hl

theorem endStatement : Advances m (m + 1) endStatement := by
  refine .ahead fun t => .of (.ite (fun _ => ?_) fun _ => .ite (fun _ => ?_) fun _ => ?_)
  · exact Advances.next.bind fun _ _ hl => .pure hl
  · exact .pure (Nat.lt_succ_self m)
  · exact Advances.get.bind fun _ _ hl => .ite (fun _ => .pure hl) fun _ => .throw _

theorem entryKey (t : Token) : Advances m (m + 1) (entryKey t) := by
  rw [Parser.entryKey]
  split
  · exact .pure (Nat.lt_succ_self m)
  · exact .pure (Nat.lt_succ_self m)
  · exact .pure (Nat.lt_succ_self m)
  · exact .failAt _ _

end Advances

/-! ### The readers -/

theorem kind_of_continuation {kind : Kind} {c : Continuation}
    (h : Continuation.ofKind? kind = some c) : kind ≠ .finish := by
  rintro rfl
  cases h

theorem advances_parameters (fuel m : ℕ) (hfuel : 8 * m + 1 ≤ fuel) :
    Advances m (m + 1) (parameters fuel) := by
  induction fuel generalizing m with
  | zero => omega
  | succ fuel ih =>
      rw [parameters]
      refine (Advances.accept _).bind fun closed l hl => .ite (fun _ => .pure hl) fun _ => ?_
      refine Advances.identifier.bind fun name l hl => (Advances.accept _).bind fun more l hl => ?_
      refine .ite (fun _ => ?_) fun _ => ?_
      · exact (ih l (by omega)).bind fun _ _ hl => .pure (by omega)
      · exact (Advances.expect (by decide)).bind fun _ _ hl => .pure (by omega)

mutual

theorem advances_expression : ∀ fuel strength m : ℕ, 8 * m + 2 ≤ fuel →
    Advances m m (expression fuel strength)
  | 0, _, _, hfuel => by omega
  | fuel + 1, strength, m, hfuel => by
      rw [expression]
      refine (advances_operand fuel m (by omega)).bind fun left l hl => ?_
      exact (advances_continuations fuel strength left l (by omega)).weaken (by omega)

theorem advances_continuations : ∀ (fuel strength : ℕ) (left : Expr) (m : ℕ), 8 * m + 1 ≤ fuel →
    Advances m (m + 1) (continuations fuel strength left)
  | 0, _, _, _, hfuel => by omega
  | fuel + 1, strength, left, m, hfuel => by
      rw [continuations]
      refine .ahead fun t => ?_
      split
      next => exact .of (.pure (Nat.lt_succ_self m))
      next c hc =>
        have hrest : ∀ (whole : Expr) (l : ℕ), l < m →
            Advances l (m + 1) (continuations fuel strength whole) := fun whole l hl =>
          (advances_continuations fuel strength whole l (by omega)).weaken (by omega)
        have hright : ∀ (bound l : ℕ), l < m → Advances l l (expression fuel bound) :=
          fun bound l hl => advances_expression fuel bound l (by omega)
        split
        next => exact .of (.pure (Nat.lt_succ_self m))
        next =>
          refine .take (kind_of_continuation hc) fun l hl => ?_
          cases c with
          | suffix s =>
              refine (advances_suffix fuel s left l (by omega)).bind fun whole k hk => ?_
              exact hrest _ k (by omega)
          | binary op => exact (hright _ l hl).bind fun right k hk => hrest _ k (by omega)
          | logical op => exact (hright _ l hl).bind fun right k hk => hrest _ k (by omega)
          | assignment =>
              dsimp only
              split
              next => exact .failAt _ _
              next => exact (hright _ l hl).bind fun value k hk => hrest _ k (by omega)

theorem advances_operand : ∀ fuel m : ℕ, 8 * m + 1 ≤ fuel → Advances m m (operand fuel)
  | 0, _, hfuel => by omega
  | fuel + 1, m, hfuel => by
      rw [operand]
      refine .taken (fun t _ l hl => ?_) fun t hkind l _ => ?_
      · split
        next => exact .pure hl
        next =>
          exact (advances_expression fuel _ l (by omega)).bind fun _ _ hk => .pure (by omega)
        next =>
          refine (advances_expression fuel _ l (by omega)).bind fun _ k hk => ?_
          exact (Advances.expect (by decide)).bind fun _ _ hk => .pure (by omega)
        next =>
          exact (advances_arguments fuel (by decide) l (by omega)).bind fun _ _ hk =>
            .pure (by omega)
        next => exact (advances_entries fuel l (by omega)).bind fun _ _ hk => .pure (by omega)
        next =>
          refine .ahead fun ahead => .of ?_
          refine .branch (Advances.identifier.map.weaken (Nat.le_succ l))
            (.pure (Nat.lt_succ_self l)) fun name k hk => ?_
          refine (advances_functionRest fuel name _ k (by omega)).bind fun _ _ hk => ?_
          exact .pure (by omega)
        next => exact .failAt _ _
        next => exact .failAt _ _
      · have hnone : atomOf? t = none := by rw [atomOf?, hkind]
        rw [hnone, hkind]
        exact .failAt _ _

theorem advances_suffix : ∀ (fuel : ℕ) (s : Suffix) (object : Expr) (m : ℕ), 8 * m + 4 ≤ fuel →
    Advances m (m + 1) (suffix fuel s object)
  | 0, _, _, _, hfuel => by omega
  | fuel + 1, .call, object, m, hfuel => by
      rw [suffix]
      exact (advances_arguments fuel (by decide) m (by omega)).bind fun _ _ hl => .pure hl
  | fuel + 1, .property, object, m, hfuel => by
      rw [suffix]
      exact Advances.next.bind fun _ _ hl => .ite (fun _ => .pure hl) fun _ => .failAt _ _
  | fuel + 1, .index, object, m, hfuel => by
      rw [suffix]
      refine (advances_expression fuel 0 m (by omega)).bind fun index l hl => ?_
      exact (Advances.expect (by decide)).bind fun _ _ hk => .pure (by omega)

theorem advances_arguments : ∀ (fuel : ℕ) {closing : Kind}, closing ≠ .finish → ∀ m : ℕ,
    8 * m + 3 ≤ fuel → Advances m (m + 1) (arguments fuel closing)
  | 0, _, _, _, hfuel => by omega
  | fuel + 1, closing, hclosing, m, hfuel => by
      rw [arguments]
      refine (Advances.accept _).bind fun closed l hl => .ite (fun _ => .pure hl) fun _ => ?_
      refine (advances_expression fuel 0 l (by omega)).bind fun first l hl => ?_
      refine (Advances.accept _).bind fun more l hl => .ite (fun _ => ?_) fun _ => ?_
      · exact (advances_arguments fuel hclosing l (by omega)).bind fun _ _ hk => .pure (by omega)
      · exact (Advances.expect hclosing).bind fun _ _ hk => .pure (by omega)

theorem advances_entries : ∀ fuel m : ℕ, 8 * m + 2 ≤ fuel → Advances m (m + 1) (entries fuel)
  | 0, _, hfuel => by omega
  | fuel + 1, m, hfuel => by
      rw [entries]
      refine (Advances.accept _).bind fun closed l hl => .ite (fun _ => .pure hl) fun _ => ?_
      refine (advances_entry fuel l (by omega)).bind fun first l hl => ?_
      refine (Advances.accept _).bind fun more l hl => .ite (fun _ => ?_) fun _ => ?_
      · exact (advances_entries fuel l (by omega)).bind fun _ _ hk => .pure (by omega)
      · exact (Advances.expect (by decide)).bind fun _ _ hk => .pure (by omega)

theorem advances_entry : ∀ fuel m : ℕ, 8 * m + 1 ≤ fuel → Advances m m (entry fuel)
  | 0, _, hfuel => by omega
  | fuel + 1, m, hfuel => by
      rw [entry_succ]
      refine .taken (fun t _ l hl => ?_) fun t hkind l _ => ?_
      · refine (Advances.entryKey t).bind fun key l hl => ?_
        refine (Advances.accept _).bind fun given k hk => .ite (fun _ => ?_) fun _ => ?_
        · exact (advances_expression fuel 0 k (by omega)).bind fun _ _ hk => .pure (by omega)
        · refine .ite (fun _ => .pure (by omega)) fun _ => ?_
          exact Advances.next.bind fun _ _ _ => .throw _
      · rw [entryKey, hkind]
        exact (Advances.failAt (n := 0) _ _).bind fun _ _ hk => absurd hk (Nat.not_lt_zero _)

theorem advances_functionRest : ∀ (fuel : ℕ) (name : Option String) (line m : ℕ),
    8 * m + 1 ≤ fuel → Advances m m (functionRest fuel name line)
  | 0, _, _, _, hfuel => by omega
  | fuel + 1, name, line, m, hfuel => by
      rw [functionRest]
      refine (Advances.expect (by decide)).bind fun _ l hl => ?_
      refine (advances_parameters fuel l (by omega)).bind fun parameters l hl => ?_
      refine (advances_block fuel l (by omega)).inFunction.bind fun body _ hl => ?_
      exact .pure (by omega)

theorem advances_block : ∀ fuel m : ℕ, 8 * m + 1 ≤ fuel → Advances m m (block fuel)
  | 0, _, hfuel => by omega
  | fuel + 1, m, hfuel => by
      rw [block]
      refine (Advances.expect (by decide)).bind fun _ l hl => ?_
      exact (advances_blockRest fuel l (by omega)).weaken (by omega)

theorem advances_blockRest : ∀ fuel m : ℕ, 8 * m + 4 ≤ fuel → Advances m (m + 1) (blockRest fuel)
  | 0, _, hfuel => by omega
  | fuel + 1, m, hfuel => by
      rw [blockRest]
      refine .ahead fun t => .of (.ite (fun _ => ?_) fun _ => .ite (fun _ => .throw _) ?_)
      · exact Advances.next.bind fun _ _ hl => .pure hl
      · intro _
        refine (advances_statement fuel m (by omega)).bind fun first l hl => ?_
        exact (advances_blockRest fuel l (by omega)).bind fun rest _ hk => .pure (by omega)

theorem advances_declaration : ∀ (fuel : ℕ) (kind : VariableKind) (terminated : Bool) (m : ℕ),
    8 * m + 1 ≤ fuel → Advances m m (declaration fuel kind terminated)
  | 0, _, _, _, hfuel => by omega
  | fuel + 1, kind, terminated, m, hfuel => by
      rw [declaration]
      refine Advances.next.bind fun keyword l hl => Advances.identifier.bind fun name l hl => ?_
      refine (Advances.accept _).bind fun given l hl => ?_
      have hvalue := (advances_expression fuel 0 l (by omega)).map (f := some)
      refine .branch (hvalue.weaken (Nat.le_succ l)) (.pure (Nat.lt_succ_self l))
        fun initial l hl => ?_
      refine .whenever (.failAt _ _) fun l hl => .whenever .endStatement fun l hl => ?_
      exact .pure (by omega)

theorem advances_condition : ∀ fuel m : ℕ, 8 * m + 1 ≤ fuel → Advances m m (condition fuel)
  | 0, _, hfuel => by omega
  | fuel + 1, m, hfuel => by
      rw [condition]
      refine (Advances.expect (by decide)).bind fun _ l hl => ?_
      refine (advances_expression fuel 0 l (by omega)).bind fun e l hl => ?_
      exact (Advances.expect (by decide)).bind fun _ _ hl => .pure (by omega)

theorem advances_loopStart : ∀ fuel m : ℕ, 8 * m + 3 ≤ fuel → Advances m (m + 1) (loopStart fuel)
  | 0, _, hfuel => by omega
  | fuel + 1, m, hfuel => by
      have hdeclaration : ∀ kind, Advances m (m + 1) (some <$> declaration fuel kind false) :=
        fun kind => (advances_declaration fuel kind false m (by omega)).map.weaken (Nat.le_succ m)
      rw [loopStart]
      refine .ahead fun t => .of ?_
      split
      · exact .pure (Nat.lt_succ_self m)
      · exact hdeclaration _
      · exact hdeclaration _
      · exact hdeclaration _
      · exact (advances_expression fuel 0 m (by omega)).bind fun _ _ hl => .pure (by omega)

theorem advances_optional : ∀ (fuel : ℕ) (closing : Kind) (m : ℕ), 8 * m + 3 ≤ fuel →
    Advances m (m + 1) (optional fuel closing)
  | 0, _, _, hfuel => by omega
  | fuel + 1, closing, m, hfuel => by
      rw [optional]
      refine .ahead fun t => .of (.ite (fun _ => .pure (Nat.lt_succ_self m)) fun _ => ?_)
      exact (advances_expression fuel 0 m (by omega)).map.weaken (Nat.le_succ m)

theorem advances_statement : ∀ fuel m : ℕ, 8 * m + 3 ≤ fuel → Advances m m (statement fuel)
  | 0, _, hfuel => by omega
  | fuel + 1, m, hfuel => by
      rw [statement]
      refine .ahead fun t => ?_
      split
      next => exact .of (advances_declaration fuel _ _ m (by omega))
      next => exact .of (advances_declaration fuel _ _ m (by omega))
      next => exact .of (advances_declaration fuel _ _ m (by omega))
      next hkind =>
        refine .take (hkind ▸ by decide) fun l hl => Advances.identifier.bind fun name l hl => ?_
        exact (advances_functionRest fuel _ _ l (by omega)).bind fun _ _ hl => .pure (by omega)
      next =>
        exact .of ((advances_block fuel m (by omega)).bind fun _ _ hl => .pure hl)
      next hkind =>
        refine .take (hkind ▸ by decide) fun l hl => ?_
        refine (advances_condition fuel l (by omega)).bind fun condition l hl => ?_
        refine (advances_statement fuel l (by omega)).bind fun success l hl => ?_
        refine (Advances.accept _).bind fun given l hl => ?_
        have hfailure := (advances_statement fuel l (by omega)).map (f := some)
        refine .branch (hfailure.weaken (Nat.le_succ l)) (.pure (Nat.lt_succ_self l))
          fun failure l hl => ?_
        exact .pure (by omega)
      next hkind =>
        refine .take (hkind ▸ by decide) fun l hl => ?_
        refine (advances_condition fuel l (by omega)).bind fun condition l hl => ?_
        refine (advances_statement fuel l (by omega)).inLoop.bind fun body l hl => ?_
        exact .pure (by omega)
      next hkind =>
        refine .take (hkind ▸ by decide) fun l hl => ?_
        refine (Advances.expect (by decide)).bind fun _ l hl => ?_
        refine (advances_loopStart fuel l (by omega)).bind fun start l hl => ?_
        refine (Advances.expect (by decide)).bind fun _ l hl => ?_
        refine (advances_optional fuel _ l (by omega)).bind fun condition l hl => ?_
        refine (Advances.expect (by decide)).bind fun _ l hl => ?_
        refine (advances_optional fuel _ l (by omega)).bind fun increment l hl => ?_
        refine (Advances.expect (by decide)).bind fun _ l hl => ?_
        refine (advances_statement fuel l (by omega)).inLoop.bind fun body l hl => ?_
        exact .pure (by omega)
      next hkind =>
        refine .take (hkind ▸ by decide) fun l hl => Advances.get.bind fun p l hl => ?_
        refine .whenever (.failAt _ _) fun l hl => .ahead fun ahead => .of ?_
        have hvalue := (advances_expression fuel 0 l (by omega)).map (f := some)
        refine .branch (.pure (Nat.lt_succ_self l)) (hvalue.weaken (Nat.le_succ l))
          fun value l hl => ?_
        exact Advances.endStatement.bind fun _ _ hl => .pure (by omega)
      next hkind =>
        refine .take (hkind ▸ by decide) fun l hl => Advances.get.bind fun p l hl => ?_
        refine .whenever (.failAt _ _) fun l hl => ?_
        exact Advances.endStatement.bind fun _ _ hl => .pure (by omega)
      next hkind =>
        refine .take (hkind ▸ by decide) fun l hl => Advances.get.bind fun p l hl => ?_
        refine .whenever (.failAt _ _) fun l hl => ?_
        exact Advances.endStatement.bind fun _ _ hl => .pure (by omega)
      next hkind => exact .take (hkind ▸ by decide) fun l hl => .pure hl
      next =>
        refine .of ((advances_expression fuel 0 m (by omega)).bind fun e l hl => ?_)
        exact Advances.endStatement.bind fun _ _ hl => .pure (by omega)

end

theorem advances_statements (fuel m : ℕ) (hfuel : 8 * m + 4 ≤ fuel) :
    Advances m (m + 1) (statements fuel) := by
  induction fuel generalizing m with
  | zero => omega
  | succ fuel ih =>
      rw [statements]
      refine .ahead fun t => .of (.ite (fun _ => .pure (Nat.lt_succ_self m)) fun _ => ?_)
      refine (advances_statement fuel m (by omega)).bind fun first l hl => ?_
      exact (ih l (by omega)).bind fun rest _ hk => .pure (by omega)

/-! ### Calls -/

/-- **A call has steps enough.** -/
theorem not_exhausted {p : Parser} (hp : Ending p) (call : Call) (q : Parser) :
    call.step p.fuelFor p ≠ .error .exhausted q := by
  have hadvances : Advances p.behind.length (p.behind.length + 1) (call.step p.fuelFor) := by
    cases call with
    | expression =>
        refine (advances_expression p.fuelFor 0 _ ?_).map.weaken (Nat.le_succ _)
        rw [fuelFor]
        omega
    | program =>
        refine (advances_statements p.fuelFor _ ?_).map
        rw [fuelFor]
        omega
  intro hrun
  have hends := hadvances p hp rfl
  rw [hrun] at hends
  exact hends

end Tracepoint.Parser
