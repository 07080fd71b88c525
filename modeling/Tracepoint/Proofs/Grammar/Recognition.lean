/-
Trees are read from the tokens that spell them.

From tokens that spell a bracketed tree the parser yields this tree, whatever stands behind them, as
long as that binds weaker than the tree does.  A left operand is not read on its own: its reader
goes on with the operator behind it, for which the strength asked for is the one of the whole.  So
what is shown of an expression is that reading where its tokens are ahead comes to going on behind
it.

Main definitions:

* `Parser.Reads` — a step takes some tokens, and what it yields;
* `Parser.Recognizes` — reading where some tokens are ahead comes to going on behind an expression.

Main results:

* `Parser.recognizes` — **tokens that spell a bracketed tree are recognized as this tree**;
* `Parser.reads_operator_grammar` — **the parser yields the bracketed trees and no others**;
* `Expr.Spelled.bare_eq` — two bracketed trees are not spelled by the same tokens.
-/

import Mathlib
import Tracepoint.Proofs.Grammar.Spelling

set_option relaxedAutoImplicit false
set_option autoImplicit false

namespace Tracepoint

namespace Parser

/-! ### Readers -/

/-- The tokens `ts` are ahead, and behind them the end `fin`. -/
def Ahead (fin : Token) (ts : List Token) (p : Parser) : Prop :=
  p.current :: p.behind = (ts ++ [fin]).map .ok

/-- Where `ts` is ahead a step yields something that `P` holds of, and `us` is ahead behind it. -/
def Reads {α : Type} (fin : Token) (x : Parse α) (ts : List Token) (P : α → Prop)
    (us : List Token) : Prop :=
  ∀ p, p.Ahead fin ts → ∃ a q, x p = .ok a q ∧ P a ∧ q.Ahead fin us

/-- What is ahead binds weaker than `n`. -/
def Follows (fin : Token) (n : ℕ) (ts : List Token) : Prop :=
  ∀ t ∈ (ts ++ [fin]).head?, t.Below n

theorem Follows.mono {fin : Token} {m n : ℕ} {ts : List Token} (h : Follows fin m ts)
    (hle : m ≤ n) : Follows fin n ts :=
  fun t ht => (h t ht).mono hle

theorem Follows.cons {fin t : Token} {n : ℕ} {ts : List Token} (h : t.Below n) :
    Follows fin n (t :: ts) := by
  rintro _ ⟨⟩
  exact h

/-- Goes on behind `left` with a continuation whose token `t` is taken. -/
def goingOn (fuel s : ℕ) (left : Expr) (t : Token) : Continuation → Parse Expr
  | .suffix form => do
    let whole ← suffix fuel form left
    continuations fuel s whole
  | .binary op => do
    let right ← expression fuel op.strength.right
    continuations fuel s (.binary op left right)
  | .logical op => do
    let right ← expression fuel op.strength.right
    continuations fuel s (.logical op left right)
  | .assignment =>
    match assignment? left with
    | none => failAt .notAssignable t
    | some assign => do
      let value ← expression fuel assignmentStrength.right
      continuations fuel s (assign value)

namespace Reads

variable {α β : Type} {fin t : Token} {ts us vs : List Token} {x : Parse α} {P : α → Prop}
  {Q : β → Prop}

theorem bind {f : α → Parse β} (hx : Reads fin x ts P us)
    (hf : ∀ a, P a → Reads fin (f a) us Q vs) : Reads fin (x >>= f) ts Q vs := by
  intro p hp
  obtain ⟨a, q, hrun, ha, hq⟩ := hx p hp
  obtain ⟨b, r, hrun', hb, hr⟩ := hf a ha q hq
  refine ⟨b, r, ?_, hb, hr⟩
  simp only [Bind.bind, EStateM.bind, hrun, hrun']

/-- Of what is yielded is known what it is. -/
theorem bind_eq {a : α} {f : α → Parse β} (hx : Reads fin x ts (a = ·) us)
    (hf : Reads fin (f a) us Q vs) : Reads fin (x >>= f) ts Q vs := by
  refine hx.bind ?_
  rintro _ rfl
  exact hf

theorem pure {a : α} (h : P a) : Reads fin (pure a : Parse α) ts P ts :=
  fun p hp => ⟨a, p, rfl, h, hp⟩

theorem peek : Reads fin peek (t :: ts) (t = ·) (t :: ts) := by
  intro p hp
  obtain ⟨hcurrent, -⟩ := List.cons.inj hp
  exact ⟨t, p, by simp only [Parser.peek, hcurrent], rfl, hp⟩

theorem next : Reads fin next (t :: ts) (t = ·) ts := by
  intro p hp
  obtain ⟨hcurrent, hbehind⟩ := List.cons.inj hp
  refine ⟨t, _, by simp only [Parser.next, hcurrent]; rfl, rfl, ?_⟩
  simp only [Ahead, forward]
  split
  next hnil => simp [hnil] at hbehind
  next first behind hcons => exact hcons.symm.trans hbehind

theorem expect {kind : Kind} (h : t.kind = kind) :
    Reads fin (expect kind) (t :: ts) (t = ·) ts := by
  refine next.bind_eq ?_
  rw [if_pos h]
  exact .pure rfl

theorem accept {kind : Kind} (h : t.kind = kind) :
    Reads fin (accept kind) (t :: ts) (true = ·) ts := by
  refine peek.bind_eq ?_
  rw [if_pos h]
  exact next.bind fun _ _ => .pure rfl

theorem decline {kind : Kind} (h : t.kind ≠ kind) :
    Reads fin (Parser.accept kind) (t :: ts) (false = ·) (t :: ts) := by
  refine peek.bind_eq ?_
  rw [if_neg h]
  exact .pure rfl

theorem entryKey {key : String} (h : t.SpellsKey key) :
    Reads fin (entryKey t) ts (key = ·) ts := by
  rw [Parser.entryKey]
  obtain ⟨hkind | hkind, rfl⟩ | ⟨hkind, rfl⟩ := h
  all_goals
    rw [hkind]
    exact .pure rfl

/-! ### Going on behind an expression -/

variable {fuel s : ℕ} {left : Expr} {R : Expr → Prop}

/-- Nothing goes on with an expression in front of what binds weaker than asked for. -/
theorem stop (left : Expr) (h : Follows fin s ts) (hfuel : 0 < fuel) :
    Reads fin (continuations fuel s left) ts (left = ·) ts := by
  obtain ⟨fuel, rfl⟩ := Nat.exists_eq_succ_of_ne_zero (Nat.ne_of_gt hfuel)
  intro p hp
  obtain ⟨t, ht⟩ : ∃ t, p.current = .ok t ∧ t ∈ (ts ++ [fin]).head? := by
    cases ts with
    | nil => exact ⟨fin, (List.cons.inj hp).1, rfl⟩
    | cons t ts => exact ⟨t, (List.cons.inj hp).1, rfl⟩
  refine ⟨left, p, ?_, rfl, hp⟩
  rw [continuations]
  simp only [Bind.bind, EStateM.bind, Parser.peek, ht.1]
  cases hc : Continuation.ofKind? t.kind with
  | none => rfl
  | some c => simp only [if_pos (h t ht.2 c hc), Pure.pure, EStateM.pure]

/-- What binds at least as strongly as asked for goes on with the expression in front of it. -/
theorem goOn {c : Continuation} (hc : Continuation.ofKind? t.kind = some c) (hs : s ≤ c.strength)
    (h : Reads fin (goingOn fuel s left t c) ts R us) :
    Reads fin (continuations (fuel + 1) s left) (t :: ts) R us := by
  rw [continuations]
  refine peek.bind_eq ?_
  simp only [hc]
  rw [if_neg (Nat.not_lt.mpr hs)]
  exact next.bind fun _ _ => h

end Reads

/-! ### Recognized expressions -/

/-- What an expression denotes as a place does not depend on where it stands. -/
theorem exists_assignment? {e e' : Expr} {assign : Expr → Expr} (h : assignment? e = some assign)
    (heq : e'.bare = e.bare) : ∃ assign', assignment? e' = some assign' ∧
      ∀ value value' : Expr, value'.bare = value.bare →
        (assign' value').bare = (assign value).bare := by
  simp only [assignment?] at h
  split at h
  all_goals cases h
  all_goals cases e' <;> simp only [Expr.bare, reduceCtorEq] at heq
  · cases heq
    exact ⟨_, rfl, fun _ _ hvalue => by simp only [Expr.bare, hvalue]⟩
  · obtain ⟨hobject, hname⟩ := Expr.property.inj heq
    exact ⟨_, rfl, fun _ _ hvalue => by simp only [Expr.bare, hvalue, hobject, hname]⟩
  · obtain ⟨hobject, hindex⟩ := Expr.index.inj heq
    exact ⟨_, rfl, fun _ _ hvalue => by simp only [Expr.bare, hvalue, hobject, hindex]⟩

/-- Where `ts` is ahead, and behind it what binds weaker than `e`, reading comes to going on behind
`e`, with two steps less for each token. -/
def Recognizes (fin : Token) (ts : List Token) (e : Expr) : Prop :=
  ∀ (fuel s : ℕ) (us vs : List Token) (R : Expr → Prop), s < 2 * e.level →
    Follows fin (2 * e.level) us → 2 * ts.length < fuel →
    (∀ fuel' e', fuel ≤ fuel' + 2 * ts.length → e'.bare = e.bare →
      Reads fin (continuations fuel' s e') us R vs) →
    Reads fin (expression fuel s) (ts ++ us) R vs

namespace Recognizes

variable {fin t : Token} {ts us vs : List Token} {e left right : Expr} {fuel s : ℕ}

/-- Where nothing goes on with it, a recognized expression is yielded. -/
theorem yields (h : Recognizes fin ts e) (hs : s < 2 * e.level) (hnext : Follows fin s us)
    (hfuel : 2 * ts.length < fuel) :
    Reads fin (expression fuel s) (ts ++ us) (fun e' => e'.bare = e.bare) us := by
  refine h fuel s us us _ hs (hnext.mono (Nat.le_of_lt hs)) hfuel fun fuel' e' hfuel' he' => ?_
  intro p hp
  obtain ⟨_, q, hrun, rfl, hq⟩ := Reads.stop e' hnext (show 0 < fuel' by omega) p hp
  exact ⟨e', q, hrun, he', hq⟩

/-- An operator of level `n` between its operands, which `join` puts together. -/
theorem joined {n : ℕ} {c : Continuation} {join : Expr → Expr → Expr}
    (hleft : Recognizes fin ts left) (hright : Recognizes fin us right) (hn : 0 < n)
    (hle : n ≤ left.level) (hlt : n + 1 ≤ right.level)
    (hc : Continuation.ofKind? t.kind = some c) (hstrength : c.strength = 2 * n - 1)
    (hgoingOn : ∀ fuel s l, goingOn fuel s l t c = do
      let r ← expression fuel (2 * n)
      continuations fuel s (join l r))
    (hlevel : (join left right).level = n)
    (hbare : ∀ l r, (join l r).bare = join l.bare r.bare) :
    Recognizes fin (ts ++ t :: us) (join left right) := by
  intro fuel s vs ws R hs hnext hfuel hR
  rw [hlevel] at hs hnext
  simp only [List.append_assoc, List.cons_append, List.length_append, List.length_cons] at *
  have hbelow : t.Below (2 * left.level) := by
    intro c' hc'
    cases hc.symm.trans hc'
    omega
  refine hleft fuel s _ ws R (by omega) (.cons hbelow) (by omega) ?_
  intro fuel₁ left' hfuel₁ hleft'
  obtain ⟨fuel₁, rfl⟩ : ∃ k, fuel₁ = k + 1 := ⟨fuel₁ - 1, by omega⟩
  refine .goOn hc (by omega) ?_
  rw [hgoingOn]
  refine (hright.yields (by omega) hnext (by omega)).bind fun right' hright' => ?_
  exact hR fuel₁ _ (by omega) (by rw [hbare, hbare, hleft', hright'])

theorem binary {op : BinaryOp} (hleft : Recognizes fin ts left) (hright : Recognizes fin us right)
    (hop : t.kind = op.kind) (hle : op.level ≤ left.level) (hlt : op.level + 1 ≤ right.level) :
    Recognizes fin (ts ++ t :: us) (.binary op left right) := by
  have hpos : 0 < op.level := Nat.lt_of_lt_of_le (by decide) op.level_bounds.1
  refine hleft.joined hright hpos hle hlt (hop ▸ Continuation.ofKind?_binary op) ?_ ?_ rfl
    fun _ _ => rfl
  · simp only [Continuation.strength, op.strength_eq]
  · intro fuel s l
    simp only [goingOn, op.strength_eq]

theorem logical {op : LogicalOp} (hleft : Recognizes fin ts left)
    (hright : Recognizes fin us right) (hop : t.kind = op.kind) (hle : op.level ≤ left.level)
    (hlt : op.level + 1 ≤ right.level) :
    Recognizes fin (ts ++ t :: us) (.logical op left right) := by
  have hpos : 0 < op.level := Nat.lt_of_lt_of_le (by decide) op.level_bounds.1
  refine hleft.joined hright hpos hle hlt (hop ▸ Continuation.ofKind?_logical op) ?_ ?_ rfl
    fun _ _ => rfl
  · simp only [Continuation.strength, op.strength_eq]
  · intro fuel s l
    simp only [goingOn, op.strength_eq]

/-- An assignment is read as its target first, which is then taken for a place. -/
theorem assigned {assign : Expr → Expr} (hleft : Recognizes fin ts left)
    (hright : Recognizes fin us right) (hassign : assignment? left = some assign)
    (hequal : t.kind = .equal) (hlevel : 9 ≤ left.level)
    (hone : (assign right).level = 1) : Recognizes fin (ts ++ t :: us) (assign right) := by
  intro fuel s vs ws R hs hnext hfuel hR
  rw [hone] at hs hnext
  simp only [List.append_assoc, List.cons_append, List.length_append, List.length_cons] at *
  refine hleft fuel s _ ws R (by omega) (.cons (t.below_of_le (by omega))) (by omega) ?_
  intro fuel₁ left' hfuel₁ hleft'
  obtain ⟨fuel₁, rfl⟩ : ∃ k, fuel₁ = k + 1 := ⟨fuel₁ - 1, by omega⟩
  obtain ⟨assign', hassign', hbare⟩ := exists_assignment? hassign hleft'
  have hc : Continuation.ofKind? t.kind = some .assignment := by rw [hequal]; rfl
  refine .goOn hc (Nat.le_of_lt hs) ?_
  simp only [goingOn, hassign']
  have hone' : assignmentStrength.right < 2 * right.level := by
    have hpos := right.level_pos
    change 1 < _
    omega
  exact (hright.yields hone' (fun t' ht' => (hnext t' ht').least _) (by omega)).bind
    fun right' hright' => hR fuel₁ _ (by omega) (hbare right right' hright')

/-- A suffix behind an expression. -/
theorem suffixed (form : Suffix) (hleft : Recognizes fin ts left)
    (hform : Suffix.ofKind? t.kind = some form) (hle : 9 ≤ left.level) (hlevel : e.level = 9)
    (hsuffix : ∀ fuel left' vs, left'.bare = left.bare → 2 * us.length < fuel →
      Reads fin (suffix (fuel + 1) form left') (us ++ vs) (fun e' => e'.bare = e.bare) vs) :
    Recognizes fin (ts ++ t :: us) e := by
  intro fuel s vs ws R hs hnext hfuel hR
  rw [hlevel] at hs
  simp only [List.append_assoc, List.cons_append, List.length_append, List.length_cons] at *
  refine hleft fuel s _ ws R (by omega) (.cons (t.below_of_le (by omega))) (by omega) ?_
  intro fuel₁ left' hfuel₁ hleft'
  obtain ⟨fuel₁, rfl⟩ : ∃ k, fuel₁ = k + 2 := ⟨fuel₁ - 2, by omega⟩
  have hc : Continuation.ofKind? t.kind = some (.suffix form) := by
    simp only [Continuation.ofKind?, hform]
  refine .goOn hc (Nat.le_of_lt_succ hs) ?_
  exact (hsuffix fuel₁ left' vs hleft' (by omega)).bind fun whole hwhole =>
    hR _ whole (by omega) hwhole

/-- What is read as an operand. -/
theorem operand (h : ∀ fuel us, Follows fin (2 * e.level) us → 2 * ts.length < fuel →
      Reads fin (operand (fuel + 1)) (t :: (ts ++ us)) (fun e' => e'.bare = e.bare) us) :
    Recognizes fin (t :: ts) e := by
  intro fuel s us vs R hs hnext hfuel hR
  simp only [List.length_cons] at *
  obtain ⟨fuel, rfl⟩ : ∃ k, fuel = k + 2 := ⟨fuel - 2, by omega⟩
  rw [expression]
  exact (h fuel us hnext (by omega)).bind fun e' he' => hR _ e' (by omega) he'

theorem atom {a : Atom} (span : Span) (line : ℕ) (h : a.Spelled t) :
    Recognizes fin [t] (.atom a span line) := by
  refine operand fun fuel us _ _ => ?_
  rw [Parser.operand]
  refine Reads.next.bind_eq ?_
  simp only [h.atomOf?]
  exact .pure rfl

theorem group {closing : Token} (h : Recognizes fin ts e) (hopening : t.kind = .leftParen)
    (hclosing : closing.kind = .rightParen) :
    Recognizes fin (t :: (ts ++ [closing])) (.group e) := by
  refine operand fun fuel us _ hfuel => ?_
  rw [Parser.operand]
  refine Reads.next.bind_eq ?_
  simp only [atomOf?, hopening, UnaryOp.ofKind?, List.append_assoc, List.singleton_append,
    List.length_append, List.length_singleton] at *
  have hpos := e.level_pos
  have hend : closing.Below 0 := .of_ofKind? 0 (by rw [hclosing]; rfl)
  refine (h.yields (by omega) (.cons hend) (by omega)).bind fun e' he' => ?_
  exact (Reads.expect hclosing).bind fun _ _ => .pure (congrArg Expr.group he')

theorem unary {op : UnaryOp} (h : Recognizes fin ts e) (hop : t.kind = op.kind)
    (hle : 8 ≤ e.level) : Recognizes fin (t :: ts) (.unary op e) := by
  refine operand fun fuel us hnext hfuel => ?_
  rw [Parser.operand]
  refine Reads.next.bind_eq ?_
  have hatom : atomOf? t = none := by cases op <;> simp only [atomOf?, hop, UnaryOp.kind]
  simp only [hatom, hop, UnaryOp.ofKind?_kind]
  have hstrength : UnaryOp.strength < 2 * e.level := by
    change 15 < _
    omega
  refine (h.yields hstrength (fun t ht => (hnext t ht).unary) hfuel).bind fun e' he' => ?_
  exact .pure (congrArg (Expr.unary op) he')

end Recognizes

/-! ### Recognized lists -/

/-- Tokens of this kind close a list of expressions. -/
def Closes (kind : Kind) : Prop :=
  kind = .rightParen ∨ kind = .rightBracket

theorem Closes.below {kind : Kind} {t : Token} (h : Closes kind) (hkind : t.kind = kind) (n : ℕ) :
    t.Below n := by
  refine .of_ofKind? n ?_
  rw [hkind]
  obtain rfl | rfl := h
  all_goals rfl

theorem Closes.ne_comma {kind : Kind} (h : Closes kind) : kind ≠ .comma := by
  rintro rfl
  obtain h | h := h
  all_goals cases h

/-- In front of an expression a list is not closed. -/
theorem notClosed {fin : Token} {e : Expr} {ts us : List Token} {kind : Kind} (h : e.Spelled ts)
    (hkind : Closes kind) : Reads fin (accept kind) (ts ++ us) (false = ·) (ts ++ us) := by
  obtain ⟨first, ts, rfl, hparen, hbracket⟩ := h.opening
  obtain rfl | rfl := hkind
  · exact .decline hparen
  · exact .decline hbracket

/-- Where `ts` is ahead in front of a closing token, the expressions are read. -/
def RecognizesAll (fin : Token) (ts : List Token) (es : List Expr) : Prop :=
  ∀ (fuel : ℕ) (kind : Kind) (closing : Token) (us : List Token), Closes kind →
    closing.kind = kind → 2 * ts.length + 1 < fuel →
    Reads fin (arguments fuel kind) (ts ++ closing :: us)
      (fun es' => exprsBare es' = exprsBare es) us

/-- Where `ts` is ahead the entry is read. -/
def RecognizesEntry (fin : Token) (ts : List Token) (e : String × Expr) : Prop :=
  ∀ (fuel : ℕ) (us : List Token), Follows fin 0 us → 2 * ts.length < fuel →
    Reads fin (entry fuel) (ts ++ us) (fun e' => e'.1 = e.1 ∧ e'.2.bare = e.2.bare) us

/-- Where `ts` is ahead in front of a closing brace, the entries are read. -/
def RecognizesEntries (fin : Token) (ts : List Token) (es : List (String × Expr)) : Prop :=
  ∀ (fuel : ℕ) (closing : Token) (us : List Token), closing.kind = .rightBrace →
    2 * ts.length + 1 < fuel →
    Reads fin (entries fuel) (ts ++ closing :: us)
      (fun es' => entriesBare es' = entriesBare es) us

namespace RecognizesAll

variable {fin t : Token} {ts us : List Token} {e : Expr} {es : List Expr}

theorem nil : RecognizesAll fin [] [] := by
  intro fuel kind closing us hkind hclosing hfuel
  obtain ⟨fuel, rfl⟩ : ∃ k, fuel = k + 1 := ⟨fuel - 1, by omega⟩
  rw [arguments]
  refine (Reads.accept hclosing).bind_eq ?_
  exact .pure rfl

theorem last (h : Recognizes fin ts e) (hspelled : e.Spelled ts) : RecognizesAll fin ts [e] := by
  intro fuel kind closing us hkind hclosing hfuel
  obtain ⟨fuel, rfl⟩ : ∃ k, fuel = k + 1 := ⟨fuel - 1, by omega⟩
  have hpos := e.level_pos
  rw [arguments]
  refine (notClosed hspelled hkind).bind_eq ?_
  refine (h.yields (by omega) (.cons (hkind.below hclosing 0)) (by omega)).bind fun e' he' => ?_
  refine (Reads.decline (hclosing ▸ hkind.ne_comma)).bind_eq ?_
  refine (Reads.expect hclosing).bind fun _ _ => .pure ?_
  simp only [exprsBare, he']

theorem cons (h : Recognizes fin ts e) (hspelled : e.Spelled ts) (hcomma : t.kind = .comma)
    (hrest : RecognizesAll fin us es) : RecognizesAll fin (ts ++ t :: us) (e :: es) := by
  intro fuel kind closing vs hkind hclosing hfuel
  obtain ⟨fuel, rfl⟩ : ∃ k, fuel = k + 1 := ⟨fuel - 1, by omega⟩
  have hpos := e.level_pos
  have hend : t.Below 0 := .of_ofKind? 0 (by rw [hcomma]; rfl)
  simp only [List.append_assoc, List.cons_append, List.length_append, List.length_cons] at *
  rw [arguments]
  refine (notClosed hspelled hkind).bind_eq ?_
  refine (h.yields (by omega) (.cons hend) (by omega)).bind fun e' he' => ?_
  refine (Reads.accept hcomma).bind_eq ?_
  refine (hrest fuel kind closing vs hkind hclosing (by omega)).bind fun es' hes' => .pure ?_
  simp only [exprsBare, he', hes']

end RecognizesAll

/-- The value of an entry stands behind its key and a colon. -/
theorem RecognizesEntry.mk {fin t colon : Token} {ts : List Token} {key : String} {e : Expr}
    (h : Recognizes fin ts e) (hkey : t.SpellsKey key) (hcolon : colon.kind = .colon) :
    RecognizesEntry fin (t :: colon :: ts) (key, e) := by
  intro fuel us hnext hfuel
  obtain ⟨fuel, rfl⟩ : ∃ k, fuel = k + 1 := ⟨fuel - 1, by omega⟩
  have hpos := e.level_pos
  simp only [List.length_cons] at hfuel
  rw [entry_succ]
  refine Reads.next.bind_eq (.bind_eq (Reads.entryKey hkey) ?_)
  refine (Reads.accept hcolon).bind_eq ?_
  exact (h.yields (by omega) hnext (by omega)).bind fun e' he' => .pure ⟨rfl, he'⟩

namespace RecognizesEntries

variable {fin t : Token} {ts us : List Token} {e : String × Expr} {es : List (String × Expr)}

theorem nil : RecognizesEntries fin [] [] := by
  intro fuel closing us hclosing hfuel
  obtain ⟨fuel, rfl⟩ : ∃ k, fuel = k + 1 := ⟨fuel - 1, by omega⟩
  rw [entries]
  refine (Reads.accept hclosing).bind_eq ?_
  exact .pure rfl

/-- In front of an entry an object is not closed. -/
theorem notClosed (h : entrySpelled e ts) :
    Reads fin (accept .rightBrace) (ts ++ us) (false = ·) (ts ++ us) := by
  obtain ⟨hkey, -, -⟩ := h
  refine .decline ?_
  obtain ⟨hkind | hkind, -⟩ | ⟨hkind, -⟩ := hkey
  all_goals
    rw [hkind]
    exact nofun

theorem last (h : RecognizesEntry fin ts e) (hspelled : entrySpelled e ts) :
    RecognizesEntries fin ts [e] := by
  intro fuel closing us hclosing hfuel
  obtain ⟨fuel, rfl⟩ : ∃ k, fuel = k + 1 := ⟨fuel - 1, by omega⟩
  have hend : closing.Below 0 := .of_ofKind? 0 (by rw [hclosing]; rfl)
  rw [entries]
  refine (notClosed hspelled).bind_eq ?_
  refine (h fuel _ (.cons hend) (by omega)).bind fun e' he' => ?_
  refine (Reads.decline (by rw [hclosing]; exact nofun)).bind_eq ?_
  refine (Reads.expect hclosing).bind fun _ _ => .pure ?_
  simp only [entriesBare, he'.1, he'.2]

theorem cons (h : RecognizesEntry fin ts e) (hspelled : entrySpelled e ts)
    (hcomma : t.kind = .comma) (hrest : RecognizesEntries fin us es) :
    RecognizesEntries fin (ts ++ t :: us) (e :: es) := by
  intro fuel closing vs hclosing hfuel
  obtain ⟨fuel, rfl⟩ : ∃ k, fuel = k + 1 := ⟨fuel - 1, by omega⟩
  have hend : t.Below 0 := .of_ofKind? 0 (by rw [hcomma]; rfl)
  simp only [List.append_assoc, List.cons_append, List.length_append, List.length_cons] at *
  rw [entries]
  refine (notClosed hspelled).bind_eq ?_
  refine (h fuel _ (.cons hend) (by omega)).bind fun e' he' => ?_
  refine (Reads.accept hcomma).bind_eq ?_
  refine (hrest fuel closing vs hclosing (by omega)).bind fun es' hes' => .pure ?_
  simp only [entriesBare, he'.1, he'.2, hes']

end RecognizesEntries

namespace Recognizes

variable {fin t closing : Token} {ts us : List Token} {e i : Expr}

theorem array {es : List Expr} (h : RecognizesAll fin ts es) (hopening : t.kind = .leftBracket)
    (hclosing : closing.kind = .rightBracket) :
    Recognizes fin (t :: (ts ++ [closing])) (.array es) := by
  refine operand fun fuel us _ hfuel => ?_
  rw [Parser.operand]
  refine Reads.next.bind_eq ?_
  simp only [atomOf?, hopening, UnaryOp.ofKind?, List.append_assoc, List.singleton_append,
    List.length_append, List.length_singleton] at *
  refine (h fuel _ closing us (.inr rfl) hclosing (by omega)).bind fun es' hes' => .pure ?_
  exact congrArg Expr.array hes'

theorem object {es : List (String × Expr)} (h : RecognizesEntries fin ts es)
    (hopening : t.kind = .leftBrace) (hclosing : closing.kind = .rightBrace) :
    Recognizes fin (t :: (ts ++ [closing])) (.object es) := by
  refine operand fun fuel us _ hfuel => ?_
  rw [Parser.operand]
  refine Reads.next.bind_eq ?_
  simp only [atomOf?, hopening, UnaryOp.ofKind?, List.append_assoc, List.singleton_append,
    List.length_append, List.length_singleton] at *
  refine (h fuel closing us hclosing (by omega)).bind fun es' hes' => .pure ?_
  exact congrArg Expr.object hes'

theorem call {es : List Expr} (h : Recognizes fin ts e) (hes : RecognizesAll fin us es)
    (hopening : t.kind = .leftParen) (hclosing : closing.kind = .rightParen)
    (hle : 9 ≤ e.level) : Recognizes fin (ts ++ t :: (us ++ [closing])) (.call e es) := by
  refine h.suffixed .call (by rw [hopening]; rfl) hle rfl ?_
  intro fuel e' vs he' hfuel
  simp only [List.append_assoc, List.singleton_append, List.length_append,
    List.length_singleton, suffix] at *
  refine (hes fuel _ closing vs (.inl rfl) hclosing (by omega)).bind fun es' hes' => .pure ?_
  simp only [Expr.bare, he', hes']

theorem property {name : String} (h : Recognizes fin ts e) (hdot : t.kind = .dot)
    (hname : closing.SpellsName name) (hle : 9 ≤ e.level) :
    Recognizes fin (ts ++ [t, closing]) (.property e name) := by
  refine h.suffixed .property (by rw [hdot]; rfl) hle rfl ?_
  intro fuel e' vs he' hfuel
  rw [suffix]
  refine Reads.next.bind_eq ?_
  rw [if_pos hname.namesProperty, hname.2]
  exact .pure (by simp only [Expr.bare, he'])

theorem index (h : Recognizes fin ts e) (hi : Recognizes fin us i)
    (hopening : t.kind = .leftBracket) (hclosing : closing.kind = .rightBracket)
    (hle : 9 ≤ e.level) : Recognizes fin (ts ++ t :: (us ++ [closing])) (.index e i) := by
  refine h.suffixed .index (by rw [hopening]; rfl) hle rfl ?_
  intro fuel e' vs he' hfuel
  have hpos := i.level_pos
  have hend : closing.Below 0 := Closes.below (.inr rfl) hclosing 0
  simp only [List.append_assoc, List.singleton_append, List.length_append,
    List.length_singleton, suffix] at *
  refine (hi.yields (by omega) (.cons hend) (by omega)).bind fun i' hi' => ?_
  exact (Reads.expect hclosing).bind fun _ _ => .pure (by simp only [Expr.bare, he', hi'])

end Recognizes

/-! The proofs follow the rules of spelling. -/

mutual

/-- **Tokens that spell a bracketed tree are recognized as this tree.** -/
theorem recognizes (fin : Token) {e : Expr} {ts : List Token} (h : e.Spelled ts)
    (hb : e.Bracketed) : Recognizes fin ts e := by
  cases h with
  | atom h => exact .atom _ _ h
  | group hopening h hclosing => exact (recognizes fin h hb).group hopening hclosing
  | unary hop h => exact (recognizes fin h hb.2).unary hop hb.1
  | binary hleft hop hright =>
      obtain ⟨hle, hlt, hbleft, hbright⟩ := hb
      exact (recognizes fin hleft hbleft).binary (recognizes fin hright hbright) hop hle hlt
  | logical hleft hop hright =>
      obtain ⟨hle, hlt, hbleft, hbright⟩ := hb
      exact (recognizes fin hleft hbleft).logical (recognizes fin hright hbright) hop hle hlt
  | @assignName name value us t equal hname htext hequal hvalue =>
      have hplace : Recognizes fin [t] (.atom (.name name) t.span t.line) :=
        .atom _ _ ⟨hname, htext⟩
      exact hplace.assigned (recognizes fin hvalue hb) rfl hequal (show 9 ≤ 10 by decide) rfl
  | assignProperty hobject hdot hname hequal hvalue =>
      obtain ⟨hle, hbobject, hbvalue⟩ := hb
      have hplace := (recognizes fin hobject hbobject).property hdot hname hle
      have hwhole := hplace.assigned (recognizes fin hvalue hbvalue) rfl hequal (Nat.le_refl 9) rfl
      simpa only [List.append_assoc, List.cons_append, List.nil_append] using hwhole
  | assignIndex hobject hopening hindex hclosing hequal hvalue =>
      obtain ⟨hle, hbobject, hbindex, hbvalue⟩ := hb
      have hplace := (recognizes fin hobject hbobject).index (recognizes fin hindex hbindex)
        hopening hclosing hle
      have hwhole := hplace.assigned (recognizes fin hvalue hbvalue) rfl hequal (Nat.le_refl 9) rfl
      simpa only [List.append_assoc, List.cons_append, List.nil_append] using hwhole
  | call hcallee hopening harguments hclosing =>
      obtain ⟨hle, hbcallee, hbarguments⟩ := hb
      exact (recognizes fin hcallee hbcallee).call (recognizesAll fin harguments hbarguments)
        hopening hclosing hle
  | property hobject hdot hname => exact (recognizes fin hobject hb.2).property hdot hname hb.1
  | index hobject hopening hindex hclosing =>
      obtain ⟨hle, hbobject, hbindex⟩ := hb
      exact (recognizes fin hobject hbobject).index (recognizes fin hindex hbindex) hopening
        hclosing hle
  | array hopening h hclosing => exact .array (recognizesAll fin h hb) hopening hclosing
  | object hopening h hclosing => exact .object (recognizesEntries fin h hb) hopening hclosing

theorem recognizesAll (fin : Token) {es : List Expr} {ts : List Token} (h : exprsSpelled es ts)
    (hb : exprsBracketed es) : RecognizesAll fin ts es := by
  cases h with
  | nil => exact .nil
  | last h => exact .last (recognizes fin h hb.1) h
  | cons h hcomma hrest =>
      exact .cons (recognizes fin h hb.1) h hcomma (recognizesAll fin hrest hb.2)

theorem recognizesEntry (fin : Token) {e : String × Expr} {ts : List Token}
    (h : entrySpelled e ts) (hb : e.2.Bracketed) : RecognizesEntry fin ts e := by
  cases h with
  | mk hkey hcolon h => exact .mk (recognizes fin h hb) hkey hcolon

theorem recognizesEntries (fin : Token) {es : List (String × Expr)} {ts : List Token}
    (h : entriesSpelled es ts) (hb : entriesBracketed es) : RecognizesEntries fin ts es := by
  cases h with
  | nil => exact .nil
  | last h => exact .last (recognizesEntry fin h hb.1) h
  | cons h hcomma hrest =>
      exact .cons (recognizesEntry fin h hb.1) h hcomma (recognizesEntries fin hrest hb.2)

end

/-! ### Whole sources -/

/-- In front of the end of the source a bracketed tree is yielded by the tokens that spell it. -/
theorem nextExpression_of_spelled {fin : Token} {e : Expr} {ts : List Token} (h : e.Spelled ts)
    (hb : e.Bracketed) (hfin : fin.kind = .finish) {p : Parser} (hp : p.Ahead fin ts) :
    ∃ e' q, p.nextExpression = (.ok e', q) ∧ e'.bare = e.bare ∧ q.Ahead fin [] := by
  have hlength : p.behind.length = ts.length := by
    have hlengths := congrArg List.length hp
    simpa using hlengths
  have hend : Follows fin 0 [] := by
    rintro _ ⟨⟩
    exact .of_ofKind? 0 (by rw [hfin]; rfl)
  have hpos := e.level_pos
  have hreads := (recognizes fin h hb).yields (s := 0) (by omega) hend
    (show 2 * ts.length < p.fuelFor by rw [fuelFor, hlength]; omega)
  rw [List.append_nil] at hreads
  obtain ⟨e', q, hrun, hbare, hq⟩ := hreads p hp
  exact ⟨e', q, by simp only [nextExpression, run, hrun], hbare, hq⟩

/-- All trees that are yielded are bracketed. -/
theorem bracketed_of_nextExpression {p q : Parser} {e : Expr}
    (h : p.nextExpression = (.ok e, q)) : e.Bracketed := by
  simp only [nextExpression, run] at h
  split at h
  next a q' hrun =>
    obtain ⟨⟨⟩, -⟩ := Prod.mk.inj h
    exact (bracketed_expression _ 0 ⟨by decide, by decide⟩ p _ _ trivial hrun).1
  next => cases h
  next => cases h

/-- **The parser yields the bracketed trees and no others.** From a source whose tokens spell such a
tree this tree is yielded, with all tokens in front of the end taken; and from wherever one goes on,
what is yielded is such a tree. -/
theorem reads_operator_grammar :
    (∀ (source : String) (e : Expr) (ts : List Token) (fin : Token), e.Bracketed → e.Spelled ts →
      fin.kind = .finish → Lexer.lexemes source = (ts ++ [fin]).map .ok →
      ∃ e' q, (ofString source).nextExpression = (.ok e', q) ∧ e'.bare = e.bare ∧
        q.current = .ok fin ∧ q.behind = []) ∧
    ∀ (p : Parser) (e : Expr) (q : Parser), p.nextExpression = (.ok e, q) → e.Bracketed := by
  refine ⟨fun source e ts fin hb h hfin hlexemes => ?_, fun p e q => bracketed_of_nextExpression⟩
  have hp : (ofString source).Ahead fin ts := by
    rw [ofString, hlexemes]
    cases ts <;> rfl
  obtain ⟨e', q, hrun, hbare, hq⟩ := nextExpression_of_spelled h hb hfin hp
  obtain ⟨hcurrent, hbehind⟩ := List.cons.inj hq
  exact ⟨e', q, hrun, hbare, hcurrent, hbehind⟩

/-- The tree of `a = b - -c`. -/
def negatedDifference : Expr :=
  .assignName "a" (.binary .subtract (.atom (.name "b") ⟨0, 0⟩ 0)
    (.unary .negate (.atom (.name "c") ⟨0, 0⟩ 0)))

theorem reads_operator_grammar_negatedDifference :
    ∃ e' q, (ofString "a = b - -c").nextExpression = (.ok e', q) ∧
      e'.bare = negatedDifference := by
  have hbracketed : negatedDifference.Bracketed :=
    ⟨show 6 ≤ 10 by decide, show 7 ≤ 8 by decide, trivial, show 8 ≤ 10 by decide, trivial⟩
  have hb : Atom.Spelled ⟨.identifier, "b", ⟨4, 1⟩, 1⟩ (.name "b") := ⟨rfl, rfl⟩
  have hc : Atom.Spelled ⟨.identifier, "c", ⟨9, 1⟩, 1⟩ (.name "c") := ⟨rfl, rfl⟩
  have hspelled : negatedDifference.Spelled
      [⟨.identifier, "a", ⟨0, 1⟩, 1⟩, ⟨.equal, "=", ⟨2, 1⟩, 1⟩, ⟨.identifier, "b", ⟨4, 1⟩, 1⟩,
        ⟨.minus, "-", ⟨6, 1⟩, 1⟩, ⟨.minus, "-", ⟨8, 1⟩, 1⟩, ⟨.identifier, "c", ⟨9, 1⟩, 1⟩] :=
    .assignName rfl rfl rfl (.binary (.atom hb) rfl (.unary rfl (.atom hc)))
  obtain ⟨e', q, hrun, hbare, -⟩ := reads_operator_grammar.1 "a = b - -c" negatedDifference _
    ⟨.finish, "", ⟨10, 0⟩, 1⟩ hbracketed hspelled rfl (by cbv)
  exact ⟨e', q, hrun, hbare⟩

end Parser

/-- Two bracketed trees that are spelled by the same tokens are the same but for their places. -/
theorem Expr.Spelled.bare_eq {e₁ e₂ : Expr} {ts : List Token} (h₁ : e₁.Spelled ts)
    (h₂ : e₂.Spelled ts) (hb₁ : e₁.Bracketed) (hb₂ : e₂.Bracketed) : e₁.bare = e₂.bare := by
  let fin : Token := ⟨.finish, "", ⟨0, 0⟩, 1⟩
  obtain ⟨p, hp⟩ : ∃ p : Parser, p.Ahead fin ts := by
    cases ts with
    | nil => exact ⟨⟨.ok fin, [], 1, 0, 0⟩, rfl⟩
    | cons t ts => exact ⟨⟨.ok t, (ts ++ [fin]).map .ok, 1, 0, 0⟩, rfl⟩
  obtain ⟨e₁', q₁, hrun₁, hbare₁, -⟩ := Parser.nextExpression_of_spelled h₁ hb₁ rfl hp
  obtain ⟨e₂', q₂, hrun₂, hbare₂, -⟩ := Parser.nextExpression_of_spelled h₂ hb₂ rfl hp
  cases hrun₁.symm.trans hrun₂
  exact hbare₁.symm.trans hbare₂

end Tracepoint
