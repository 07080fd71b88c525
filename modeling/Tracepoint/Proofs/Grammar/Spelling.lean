/-
Trees and the tokens that spell them.

A tree is spelled by its tokens in order: operators between their operands, commas between items
and none behind the last.  Spelling does not look at the levels of operators, so the same tokens
spell trees of many shapes; which of them is meant is a matter of reading.

Main definitions:

* `Expr.bare` — an expression without its places in the source;
* `Expr.Spelled`, `exprsSpelled`, `entriesSpelled` — the tokens that spell trees.

Main results:

* `Continuation.ofKind?_binary`, `Continuation.ofKind?_logical`, `UnaryOp.ofKind?_kind` — operators
  are told by their tokens;
* `Expr.Spelled.opening` — nothing that closes a list starts an expression.
-/

import Tracepoint.Proofs.Grammar.Bracketing

set_option relaxedAutoImplicit false
set_option autoImplicit false

namespace Tracepoint

/-! ### Trees without places -/

mutual

/-- The expression without spans and lines. Functions are left as they are. -/
def Expr.bare : Expr → Expr
  | .atom a _ _ => .atom a ⟨0, 0⟩ 0
  | .group inner => .group inner.bare
  | .unary op operand => .unary op operand.bare
  | .binary op left right => .binary op left.bare right.bare
  | .logical op left right => .logical op left.bare right.bare
  | .assignName name value => .assignName name value.bare
  | .assignProperty object name value => .assignProperty object.bare name value.bare
  | .assignIndex object index value => .assignIndex object.bare index.bare value.bare
  | .call callee arguments => .call callee.bare (exprsBare arguments)
  | .property object name => .property object.bare name
  | .index object index => .index object.bare index.bare
  | .array elements => .array (exprsBare elements)
  | .object entries => .object (entriesBare entries)
  | .function decl => .function decl

/-- The expressions without spans and lines. -/
def exprsBare : List Expr → List Expr
  | [] => []
  | e :: rest => e.bare :: exprsBare rest

/-- The entries without the spans and lines of their values. -/
def entriesBare : List (String × Expr) → List (String × Expr)
  | [] => []
  | (key, e) :: rest => (key, e.bare) :: entriesBare rest

end

/-! ### Spellings -/

/-- The kind of the tokens for an operator. -/
def UnaryOp.kind : UnaryOp → Kind
  | not => .bang
  | negate => .minus

/-- The kind of the tokens for an operator. -/
def BinaryOp.kind : BinaryOp → Kind
  | multiply => .star
  | divide => .slash
  | modulo => .percent
  | add => .plus
  | subtract => .minus
  | less => .less
  | lessEqual => .lessEqual
  | greater => .greater
  | greaterEqual => .greaterEqual
  | equal => .equalEqual
  | notEqual => .bangEqual
  | strictEqual => .equalEqualEqual
  | strictNotEqual => .bangEqualEqual

/-- The kind of the tokens for an operator. -/
def LogicalOp.kind : LogicalOp → Kind
  | and => .andAnd
  | or => .orOr

/-- The token spells an expression of one token. -/
def Atom.Spelled (t : Token) : Atom → Prop
  | .number value => t.kind = .number ∧ Literal.numberValue t.text = value
  | .bool true => t.kind = .trueWord
  | .bool false => t.kind = .falseWord
  | .null => t.kind = .nullWord
  | .undefined => t.kind = .undefinedWord
  | .name text => t.kind = .identifier ∧ t.text = text
  | .string text => t.kind = .string ∧ Literal.stringValue t.text = text

/-- The token spells a name behind a point, which may be a keyword. -/
def Token.SpellsName (t : Token) (name : String) : Prop :=
  (t.kind = .identifier ∨ t.kind ∈ keywords) ∧ t.text = name

/-- The token spells the key of an entry. -/
def Token.SpellsKey (t : Token) (key : String) : Prop :=
  (t.kind = .identifier ∨ t.kind = .number) ∧ t.text = key ∨
    t.kind = .string ∧ Literal.stringValue t.text = key

mutual

/-- The tokens spell the expression. There is no rule for functions. -/
inductive Expr.Spelled : Expr → List Token → Prop
  | atom {a : Atom} {span : Span} {line : ℕ} {t : Token} :
    a.Spelled t → Expr.Spelled (.atom a span line) [t]
  | group {inner : Expr} {ts : List Token} {opening closing : Token} :
    opening.kind = .leftParen → inner.Spelled ts → closing.kind = .rightParen →
      Expr.Spelled (.group inner) (opening :: (ts ++ [closing]))
  | unary {op : UnaryOp} {operand : Expr} {ts : List Token} {t : Token} :
    t.kind = op.kind → operand.Spelled ts → Expr.Spelled (.unary op operand) (t :: ts)
  | binary {op : BinaryOp} {left right : Expr} {ts us : List Token} {t : Token} :
    left.Spelled ts → t.kind = op.kind → right.Spelled us →
      Expr.Spelled (.binary op left right) (ts ++ t :: us)
  | logical {op : LogicalOp} {left right : Expr} {ts us : List Token} {t : Token} :
    left.Spelled ts → t.kind = op.kind → right.Spelled us →
      Expr.Spelled (.logical op left right) (ts ++ t :: us)
  | assignName {name : String} {value : Expr} {us : List Token} {t equal : Token} :
    t.kind = .identifier → t.text = name → equal.kind = .equal → value.Spelled us →
      Expr.Spelled (.assignName name value) (t :: equal :: us)
  | assignProperty {object value : Expr} {name : String} {ts us : List Token}
      {dot t equal : Token} :
    object.Spelled ts → dot.kind = .dot → t.SpellsName name → equal.kind = .equal →
      value.Spelled us →
        Expr.Spelled (.assignProperty object name value) (ts ++ dot :: t :: equal :: us)
  | assignIndex {object index value : Expr} {ts is us : List Token}
      {opening closing equal : Token} :
    object.Spelled ts → opening.kind = .leftBracket → index.Spelled is →
      closing.kind = .rightBracket → equal.kind = .equal → value.Spelled us →
        Expr.Spelled (.assignIndex object index value)
          (ts ++ opening :: (is ++ closing :: equal :: us))
  | call {callee : Expr} {arguments : List Expr} {ts us : List Token} {opening closing : Token} :
    callee.Spelled ts → opening.kind = .leftParen → exprsSpelled arguments us →
      closing.kind = .rightParen →
        Expr.Spelled (.call callee arguments) (ts ++ opening :: (us ++ [closing]))
  | property {object : Expr} {name : String} {ts : List Token} {dot t : Token} :
    object.Spelled ts → dot.kind = .dot → t.SpellsName name →
      Expr.Spelled (.property object name) (ts ++ [dot, t])
  | index {object index : Expr} {ts is : List Token} {opening closing : Token} :
    object.Spelled ts → opening.kind = .leftBracket → index.Spelled is →
      closing.kind = .rightBracket →
        Expr.Spelled (.index object index) (ts ++ opening :: (is ++ [closing]))
  | array {elements : List Expr} {ts : List Token} {opening closing : Token} :
    opening.kind = .leftBracket → exprsSpelled elements ts → closing.kind = .rightBracket →
      Expr.Spelled (.array elements) (opening :: (ts ++ [closing]))
  | object {entries : List (String × Expr)} {ts : List Token} {opening closing : Token} :
    opening.kind = .leftBrace → entriesSpelled entries ts → closing.kind = .rightBrace →
      Expr.Spelled (.object entries) (opening :: (ts ++ [closing]))

/-- The tokens spell the expressions, with commas between them. -/
inductive exprsSpelled : List Expr → List Token → Prop
  | nil : exprsSpelled [] []
  | last {e : Expr} {ts : List Token} : e.Spelled ts → exprsSpelled [e] ts
  | cons {e e' : Expr} {rest : List Expr} {ts us : List Token} {comma : Token} :
    e.Spelled ts → comma.kind = .comma → exprsSpelled (e' :: rest) us →
      exprsSpelled (e :: e' :: rest) (ts ++ comma :: us)

/-- The tokens spell the entry, its value behind a colon. -/
inductive entrySpelled : String × Expr → List Token → Prop
  | mk {key : String} {e : Expr} {ts : List Token} {t colon : Token} :
    t.SpellsKey key → colon.kind = .colon → e.Spelled ts →
      entrySpelled (key, e) (t :: colon :: ts)

/-- The tokens spell the entries, with commas between them. -/
inductive entriesSpelled : List (String × Expr) → List Token → Prop
  | nil : entriesSpelled [] []
  | last {entry : String × Expr} {ts : List Token} :
    entrySpelled entry ts → entriesSpelled [entry] ts
  | cons {entry entry' : String × Expr} {rest : List (String × Expr)} {ts us : List Token}
      {comma : Token} :
    entrySpelled entry ts → comma.kind = .comma → entriesSpelled (entry' :: rest) us →
      entriesSpelled (entry :: entry' :: rest) (ts ++ comma :: us)

end

/-! ### Tokens of operators -/

theorem UnaryOp.ofKind?_kind (op : UnaryOp) : ofKind? op.kind = some op := by
  cases op <;> rfl

theorem Continuation.ofKind?_binary (op : BinaryOp) : ofKind? op.kind = some (.binary op) := by
  cases op <;> rfl

theorem Continuation.ofKind?_logical (op : LogicalOp) : ofKind? op.kind = some (.logical op) := by
  cases op <;> rfl

/-- No operator in front of an operand is as strong as one that it stands behind. -/
theorem Continuation.strength_ne (c : Continuation) : c.strength ≠ UnaryOp.strength := by
  cases c with
  | suffix _ => exact nofun
  | binary op => cases op <;> exact nofun
  | logical op => cases op <;> exact nofun
  | assignment => exact nofun

theorem Token.Below.of_ofKind? {t : Token} (n : ℕ) (h : Continuation.ofKind? t.kind = none) :
    t.Below n :=
  fun _ hc => nomatch h.symm.trans hc

/-- What is weaker than an operand in front of an operator is weaker than the operator. -/
theorem Token.Below.unary {t : Token} (h : t.Below 16) : t.Below UnaryOp.strength :=
  fun c hc => Nat.lt_of_le_of_ne (Nat.le_of_lt_succ (h c hc)) c.strength_ne

/-- Nothing is weaker than an assignment. -/
theorem Token.Below.least {t : Token} (h : t.Below 2) (n : ℕ) : t.Below n :=
  fun c hc => absurd (h c hc) (Nat.not_lt.mpr c.strength_bounds.1)

theorem Atom.Spelled.atomOf? {a : Atom} {t : Token} (h : a.Spelled t) :
    Parser.atomOf? t = some (.atom a t.span t.line) := by
  cases a with
  | number value => simp only [Parser.atomOf?, h.1, h.2]
  | bool value =>
      cases value with
      | true => simp only [Parser.atomOf?, show t.kind = .trueWord from h]
      | false => simp only [Parser.atomOf?, show t.kind = .falseWord from h]
  | null => simp only [Parser.atomOf?, show t.kind = .nullWord from h]
  | undefined => simp only [Parser.atomOf?, show t.kind = .undefinedWord from h]
  | name text => simp only [Parser.atomOf?, h.1, h.2]
  | string text => simp only [Parser.atomOf?, h.1, h.2]

theorem Token.SpellsName.namesProperty {t : Token} {name : String} (h : t.SpellsName name) :
    Parser.namesProperty t = true := by
  simpa [Parser.namesProperty] using h.1

/-- The tokens start with one that does not close a list. -/
def Opening (ts : List Token) : Prop :=
  ∃ t us, ts = t :: us ∧ t.kind ≠ .rightParen ∧ t.kind ≠ .rightBracket

theorem Opening.append {ts : List Token} (h : Opening ts) (us : List Token) :
    Opening (ts ++ us) := by
  obtain ⟨t, vs, rfl, ht⟩ := h
  exact ⟨t, vs ++ us, rfl, ht⟩

theorem Atom.Spelled.opening {a : Atom} {t : Token} (h : a.Spelled t) : Opening [t] := by
  refine ⟨t, [], rfl, ?_⟩
  cases a with
  | bool value => cases value <;> simp_all [Atom.Spelled]
  | _ => simp_all [Atom.Spelled]

/-- Nothing that closes a list starts an expression. -/
theorem Expr.Spelled.opening {e : Expr} {ts : List Token} (h : e.Spelled ts) : Opening ts := by
  cases h with
  | atom h => exact h.opening
  | @unary op _ _ _ h _ => exact ⟨_, _, rfl, by cases op <;> simp [h, UnaryOp.kind]⟩
  | group h _ _ => exact ⟨_, _, rfl, by simp [h]⟩
  | assignName h _ _ _ => exact ⟨_, _, rfl, by simp [h]⟩
  | array h _ _ => exact ⟨_, _, rfl, by simp [h]⟩
  | object h _ _ => exact ⟨_, _, rfl, by simp [h]⟩
  | binary h _ _ => exact h.opening.append _
  | logical h _ _ => exact h.opening.append _
  | assignProperty h _ _ _ _ => exact h.opening.append _
  | assignIndex h _ _ _ _ _ => exact h.opening.append _
  | call h _ _ _ => exact h.opening.append _
  | property h _ _ => exact h.opening.append _
  | index h _ _ _ => exact h.opening.append _

end Tracepoint
