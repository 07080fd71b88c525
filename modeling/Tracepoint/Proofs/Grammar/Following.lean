/-
Steps with guards and steps without them.

The parser with guards does what the parser without them does.  Side by side, both are at the same
token of the source all the time.  Every token is one that the lexer made, so the span of a token
selects its text, and the text of a number has a value.  A node is added to a row only after a
token was taken for it, and no token is taken twice; so a row is never longer than the source.  And
a place that one of the readers yields is a place in the row, where the tree is found that the
other one yields.

Main definitions:

* `Guarded.Stands` — what is known of a parser with guards;
* `Guarded.Follows` — a step with guards follows a step without them.

Main results:

* `Guarded.Follows.bind`, `Guarded.Follows.lifted` and the like — the ways to put steps together;
* `Guarded.Follows.push`, `Guarded.Follows.finished` and the like — the steps with guards.
-/

import Tracepoint.Proofs.Grammar.Guarded
import Tracepoint.Proofs.Grammar.Progress
import Tracepoint.Proofs.Token.Numerals
import Tracepoint.Proofs.Token.Spans

set_option relaxedAutoImplicit false
set_option autoImplicit false

open Tracepoint.Parser (Prolonged Keeps Travels Reaches Ending)

namespace Tracepoint.Guarded

/-! ### Side by side -/

/-- The parser is at a token of the source, and the row has room for as many nodes as tokens are
behind it, and for `spare` nodes more. -/
structure Stands (source : String) (spare : ℕ) (s : RowParser) : Prop where
  ahead : s.parser.ahead <:+ Lexer.lexemes source
  room : s.row.length + s.parser.behind.length + spare < Row.limit

variable {α β γ δ : Type} {source : String} {row : Row} {m n k : ℕ}

/-- The outcome of a step with guards is the same as the outcome of the step without them, up to
what it yields. The row has grown. -/
def Agrees (source : String) (row : Row) (n : ℕ) (R : Row → β → α → Prop) :
    EStateM.Result Halt RowParser β → EStateM.Result Failure Parser α → Prop
  | .ok b s, .ok a p => s.parser = p ∧ row <+: s.row ∧ Stands source n s ∧ R s.row b a
  | .error (.failure f') s, .error f p => f' = f ∧ s.parser = p
  | _, _ => False

/-- From the same place, with a row that begins with `row` and room for `n` nodes to spare, both
steps have the same outcome, and `m` nodes can be spared behind them. -/
def Follows (source : String) (row : Row) (n m : ℕ) (y : Guarded β) (x : Parse α)
    (R : Row → β → α → Prop) : Prop :=
  ∀ s, Stands source n s → row <+: s.row → Agrees source row m R (y s) (x s.parser)

/-- Both yield the same. -/
def Same (_ : Row) (b a : α) : Prop :=
  b = a

theorem Stands.spend {s : RowParser} (h : Stands source (n + 1) s) : Stands source n s :=
  ⟨h.ahead, by have := h.room; omega⟩

/-- Both steps end with the same outcome, in one of two ways. -/
theorem Agrees.cases {R : Row → β → α → Prop} {r' : EStateM.Result Halt RowParser β}
    {r : EStateM.Result Failure Parser α} (h : Agrees source row n R r' r) :
    (∃ b a s, r' = .ok b s ∧ r = .ok a s.parser ∧ row <+: s.row ∧ Stands source n s ∧
      R s.row b a) ∨
    ∃ f s, r' = .error (.failure f) s ∧ r = .error f s.parser := by
  cases r' with
  | ok b s =>
      cases r with
      | ok a p =>
          obtain ⟨rfl, hgrows, hstands, hR⟩ := h
          exact Or.inl ⟨b, a, s, rfl, rfl, hgrows, hstands, hR⟩
      | error f p => exact h.elim
  | error halt s =>
      cases halt with
      | guarded => cases r <;> exact h.elim
      | failure f' =>
          cases r with
          | ok a p => exact h.elim
          | error f p =>
              obtain ⟨rfl, rfl⟩ := h
              exact Or.inr ⟨f', s, rfl, rfl⟩

theorem Agrees.imp {first : Row} {R S : Row → β → α → Prop}
    {r' : EStateM.Result Halt RowParser β} {r : EStateM.Result Failure Parser α}
    (h : Agrees source row n R r' r) (hrow : first <+: row)
    (hRS : ∀ row' b a, row <+: row' → R row' b a → S row' b a) :
    Agrees source first n S r' r := by
  obtain ⟨b, a, s, rfl, rfl, hgrows, hstands, hR⟩ | ⟨f, s, rfl, rfl⟩ := h.cases
  · exact ⟨rfl, hrow.trans hgrows, hstands, hRS _ _ _ hgrows hR⟩
  · exact ⟨rfl, rfl⟩

namespace Follows

variable {y : Guarded β} {x : Parse α} {R : Row → β → α → Prop} {S : Row → δ → γ → Prop}

theorem bind {g : β → Guarded δ} {f : α → Parse γ} (hx : Follows source row n m y x R)
    (hf : ∀ row' b a, row <+: row' → R row' b a → Follows source row' m k (g b) (f a) S) :
    Follows source row n k (y >>= g) (x >>= f) S := by
  intro s hs hrow
  simp only [Bind.bind, EStateM.bind]
  obtain ⟨b, a, s', hy, hrun, hgrows, hstands, hR⟩ | ⟨f, s', hy, hrun⟩ := (hx s hs hrow).cases
  · rw [hy, hrun]
    have hrest := hf s'.row b a hgrows hR s' hstands List.prefix_rfl
    exact hrest.imp hgrows fun _ _ _ _ h => h
  · rw [hy, hrun]
    exact ⟨rfl, rfl⟩

theorem pure {b : β} {a : α} (h : ∀ row', row <+: row' → R row' b a) :
    Follows source row n n (pure b) (pure a) R :=
  fun s hs hrow => ⟨rfl, hrow, hs, h s.row hrow⟩

/-- Both yield what has been known already. -/
theorem same (a : α) : Follows source row n n (Pure.pure a) (Pure.pure a) Same :=
  .pure fun _ _ => rfl

theorem throw (f : Failure) :
    Follows source row n m (lift (throw f) : Guarded β) (throw f : Parse α) R :=
  fun _ _ _ => ⟨rfl, rfl⟩

theorem failAt (fault : SyntaxFault) (t : Token) :
    Follows source row n m (lift (Parser.failAt fault t) : Guarded β)
      (Parser.failAt fault t : Parse α) R :=
  .throw _

/-- What would come next does not. -/
theorem fails {g : β → Guarded δ} {f : α → Parse γ} (fault : SyntaxFault) (t : Token) :
    Follows source row n m (lift (Parser.failAt fault t) >>= g) (Parser.failAt fault t >>= f) S :=
  fun _ _ _ => ⟨rfl, rfl⟩

/-- Room that is not needed. -/
theorem spend (h : Follows source row n m y x R) : Follows source row (n + 1) m y x R :=
  fun s hs hrow => h s hs.spend hrow

theorem weaken {Q : Row → β → α → Prop} (h : Follows source row n m y x R)
    (hRQ : ∀ row' b a, row <+: row' → R row' b a → Q row' b a) :
    Follows source row n m y x Q :=
  fun s hs hrow => (h s hs hrow).imp List.prefix_rfl hRQ

theorem map {g : β → δ} {f : α → γ} (h : Follows source row n m y x R)
    (hS : ∀ row' longer b a, R row' b a → row' <+: longer → S longer (g b) (f a)) :
    Follows source row n m (g <$> y) (f <$> x) S :=
  h.bind fun row' b a _ hR => .pure fun longer hlonger => hS row' longer b a hR hlonger

/-- Both go on with the same. -/
theorem bind_same {y : Guarded α} {g : α → Guarded δ} {f : α → Parse γ}
    (hx : Follows source row n m y x Same)
    (hf : ∀ row' a, row <+: row' → Follows source row' m k (g a) (f a) S) :
    Follows source row n k (y >>= g) (x >>= f) S := by
  refine hx.bind fun row' b a hgrows h => ?_
  obtain rfl : b = a := h
  exact hf row' b hgrows

theorem map_same {y : Guarded α} (f : α → γ) (h : Follows source row n m y x Same) :
    Follows source row n m (f <$> y) (f <$> x) Same :=
  h.map fun _ _ _ _ h _ => congrArg f h

theorem ite {c : Prop} [Decidable c] {y' : Guarded β} {x' : Parse α}
    (hx : c → Follows source row n m y x R) (hx' : ¬c → Follows source row n m y' x' R) :
    Follows source row n m (if c then y else y') (if c then x else x') R := by
  split
  next h => exact hx h
  next h => exact hx' h

/-- Both branches of a condition go on in the same way. -/
theorem branch {c : Prop} [Decidable c] {y y' : Guarded α} {x' : Parse α}
    {g : α → Guarded δ} {f : α → Parse γ} (hx : c → Follows source row n m y x Same)
    (hx' : ¬c → Follows source row n m y' x' Same)
    (hf : ∀ row' a, row <+: row' → Follows source row' m k (g a) (f a) S) :
    Follows source row n k (if c then y >>= g else y' >>= g) (if c then x >>= f else x' >>= f)
      S :=
  .ite (fun h => (hx h).bind_same hf) fun h => (hx' h).bind_same hf

/-- A step that is left out, if a condition does not hold. -/
theorem whenever {c : Prop} [Decidable c] {y : Guarded Unit} {x : Parse Unit}
    {g : Unit → Guarded δ} {f : Unit → Parse γ} (hx : Follows source row n n y x Same)
    (hf : ∀ row', row <+: row' → Follows source row' n k (g ()) (f ()) S) :
    Follows source row n k (if c then y >>= g else g ()) (if c then x >>= f else f ()) S :=
  .ite (fun _ => hx.bind fun row' _ _ hgrows _ => hf row' hgrows) fun _ => hf row List.prefix_rfl

end Follows

/-! ### Steps without guards -/

/-- Tokens are tokens of the source. -/
def Inside (source : String) (p : Parser) : Prop :=
  p.ahead <:+ Lexer.lexemes source

theorem travels (source : String) :
    Travels (Inside source) fun t => .ok t ∈ Lexer.lexemes source where
  token p t hp hcurrent := by
    refine hp.mem ?_
    rw [Parser.ahead, hcurrent]
    exact List.mem_cons_self
  forward p line hp := (Reaches.forward p).ahead.trans hp

theorem Stands.of_reaches {s : RowParser} {p : Parser} (h : Stands source n s)
    (hreaches : Reaches s.parser p) : Stands source n { s with parser := p } := by
  refine ⟨hreaches.ahead.trans h.ahead, ?_⟩
  have hlength := hreaches.ahead.length_le
  have hroom := h.room
  simp only [Parser.ahead, List.length_cons] at hlength
  change s.row.length + p.behind.length + n < Row.limit
  omega

namespace Follows

/-- A step without guards, and what is known of its result. -/
theorem lifted {x : Parse α} {P : α → Prop} (h : Prolonged x x) (hP : Keeps (Inside source) x P) :
    Follows source row n n (lift x) x fun _ b a => b = a ∧ P a := by
  intro s hs hrow
  have hreaches := h.reaches s.parser
  simp only [lift]
  cases hrun : x s.parser with
  | ok a p =>
      rw [hrun] at hreaches
      exact ⟨rfl, hrow, hs.of_reaches hreaches, rfl, (hP _ a p hs.ahead hrun).2⟩
  | error f p => exact ⟨rfl, rfl⟩

/-- The same token of the source. -/
def Taken (source : String) (_ : Row) (t u : Token) : Prop :=
  t = u ∧ .ok u ∈ Lexer.lexemes source

theorem peek : Follows source row n n (lift Parser.peek) Parser.peek (Taken source) :=
  .lifted .peek (travels source).peek

theorem next : Follows source row n n (lift Parser.next) Parser.next (Taken source) :=
  .lifted .next (travels source).next

theorem expect (kind : Kind) :
    Follows source row n n (lift (Parser.expect kind)) (Parser.expect kind) (Taken source) :=
  .lifted (.expect kind) ((travels source).expect kind)

theorem plain {x : Parse α} {P : α → Prop} (h : Prolonged x x)
    (hP : Keeps (Inside source) x P) : Follows source row n n (lift x) x Same :=
  (lifted h hP).weaken fun _ _ _ _ h => h.1

theorem accept (kind : Kind) :
    Follows source row n n (lift (Parser.accept kind)) (Parser.accept kind) Same :=
  .plain (.accept kind) ((travels source).accept kind)

theorem endStatement :
    Follows source row n n (lift Parser.endStatement) Parser.endStatement Same :=
  .plain .endStatement (travels source).endStatement

theorem get : Follows source row n n (lift get) get Same :=
  .plain .get .get

end Follows

/-! ### Tokens and room -/

/-- Taking a token makes room for a node. -/
theorem Stands.next {s : RowParser} {t : Token} (h : Stands source n s)
    (hcurrent : s.parser.current = .ok t) (hkind : t.kind ≠ .finish) (line : ℕ) :
    Stands source (n + 1) { s with parser := { s.parser.forward with previousLine := line } } := by
  refine ⟨(travels source).forward _ line h.ahead, ?_⟩
  have hlength := (Ending.of_suffix h.ahead).length_forward hcurrent hkind
  have hroom := h.room
  change s.row.length + s.parser.forward.behind.length + (n + 1) < Row.limit
  omega

/-- The same as `Follows`, where the parser is at `t`. -/
def FollowsAt (t : Token) (source : String) (row : Row) (n m : ℕ) (y : Guarded β) (x : Parse α)
    (R : Row → β → α → Prop) : Prop :=
  ∀ s, Stands source n s → row <+: s.row → s.parser.current = .ok t →
    Agrees source row m R (y s) (x s.parser)

namespace Follows

variable {y : Guarded β} {x : Parse α} {R : Row → β → α → Prop} {S : Row → δ → γ → Prop}
variable {t : Token}

theorem at_token (h : Follows source row n m y x R) : FollowsAt t source row n m y x R :=
  fun s hs hrow _ => h s hs hrow

/-- The token ahead, and where it is ahead. -/
theorem ahead {g : Token → Guarded β} {f : Token → Parse α}
    (h : ∀ t, .ok t ∈ Lexer.lexemes source → FollowsAt t source row n m (g t) (f t) R) :
    Follows source row n m (lift Parser.peek >>= g) (Parser.peek >>= f) R := by
  intro s hs hrow
  simp only [Bind.bind, EStateM.bind, lift, Parser.peek]
  cases hcurrent : s.parser.current with
  | ok t => exact h t ((travels source).token _ t hs.ahead hcurrent) s hs hrow hcurrent
  | error e => exact ⟨rfl, rfl⟩

/-- The token is taken that was ahead. -/
theorem take {g : Token → Guarded β} {f : Token → Parse α} (hkind : t.kind ≠ .finish)
    (h : Follows source row (n + 1) m (g t) (f t) R) :
    FollowsAt t source row n m (lift Parser.next >>= g) (Parser.next >>= f) R := by
  intro s hs hrow hcurrent
  simp only [Bind.bind, EStateM.bind, lift, Parser.next, hcurrent]
  exact h _ (hs.next hcurrent hkind t.line) hrow

/-- A token is taken. If it is not the last one, this makes room for a node. -/
theorem taken {g : Token → Guarded β} {f : Token → Parse α}
    (h : ∀ t, .ok t ∈ Lexer.lexemes source → t.kind ≠ .finish →
      Follows source row (n + 1) m (g t) (f t) R)
    (hend : ∀ t, .ok t ∈ Lexer.lexemes source → t.kind = .finish →
      Follows source row n m (g t) (f t) R) :
    Follows source row n m (lift Parser.next >>= g) (Parser.next >>= f) R := by
  intro s hs hrow
  cases hcurrent : s.parser.current with
  | error e =>
      simp only [Bind.bind, EStateM.bind, lift, Parser.next, hcurrent]
      exact ⟨rfl, rfl⟩
  | ok t =>
      have ht := (travels source).token _ t hs.ahead hcurrent
      have hforward : Reaches s.parser { s.parser.forward with previousLine := t.line } :=
        ⟨(Reaches.forward _).ahead, (Reaches.forward _).loopDepth, (Reaches.forward _).functionDepth⟩
      by_cases hkind : t.kind = .finish
      · simp only [Bind.bind, EStateM.bind, lift, Parser.next, hcurrent]
        exact hend t ht hkind _ (hs.of_reaches hforward) hrow
      · exact take hkind (h t ht hkind) s hs hrow hcurrent

end Follows

/-! ### Guards -/

/-- **The span of a token selects its text.** -/
theorem lexeme_eq {t : Token} (h : .ok t ∈ Lexer.lexemes source) :
    lexeme source t = pure t.text := by
  rw [lexeme, (Lexer.liesIn_lexemes h).slice?_eq]
  rfl

/-- **The text of a number has a value.** -/
theorem literal_eq {t : Token} (h : .ok t ∈ Lexer.lexemes source) :
    literal source t = pure (atom? t.kind t.text) := by
  rw [literal, lexeme_eq h, pure_bind]
  split
  next hkind =>
    obtain ⟨value, hvalue⟩ :=
      Option.isSome_iff_exists.1 (Lexer.isNumeral_of_mem h hkind).isSome_numeral?
    rw [hvalue]
    rfl
  next => rfl

theorem atomOf?_eq (t : Token) :
    Parser.atomOf? t = (atom? t.kind t.text).map fun a => .atom a t.span t.line := by
  simp only [Parser.atomOf?, atom?]
  cases t.kind <;> rfl

namespace Follows

variable {y : Guarded β} {x : Parse α} {R : Row → β → α → Prop} {S : Row → δ → γ → Prop}

theorem identifier : Follows source row n n (identifier source) Parser.identifier Same := by
  refine (expect _).bind fun row' _ t _ ht => ?_
  obtain ⟨rfl, ht⟩ := ht
  rw [lexeme_eq ht]
  exact .same _

theorem parameters (fuel : ℕ) :
    Follows source row n n (parameters source fuel) (Parser.parameters fuel) Same := by
  induction fuel generalizing row with
  | zero => exact .throw _
  | succ fuel ih =>
      rw [Guarded.parameters, Parser.parameters]
      refine (accept _).bind_same fun _ closed _ => ?_
      refine .ite (fun _ => .same _) fun _ => identifier.bind_same fun _ name _ => ?_
      refine (accept _).bind_same fun _ more _ => ?_
      refine .ite (fun _ => ih.bind_same fun _ rest _ => .same _) fun _ => ?_
      exact (expect _).bind fun _ _ _ _ _ => .same _

/-- **A node that a token was taken for fits into the row.** -/
theorem pushed {node : Node} {e : Expr} {g : NodeRef → Guarded δ} {f : Expr → Parse γ}
    (h : row.Reads node e)
    (hf : ∀ (row' : Row) ref, row <+: row' → row'.Denotes ref e →
      Follows source row' n k (g ref) (f e) S) :
    Follows source row (n + 1) k (push node >>= g) (f e) S := by
  intro s hs hrow
  have hroom := hs.room
  have hfits : s.row.length + 1 < Row.limit := by omega
  have hpush : s.row.push? node = some (s.row.length, s.row ++ [node]) := if_pos hfits
  have hgrows : row <+: s.row ++ [node] := hrow.trans (List.prefix_append _ _)
  have hdenotes : (s.row ++ [node] : Row).Denotes s.row.length e :=
    Row.denotes_push fun longer hlonger => h longer (hrow.trans hlonger)
  have hstands : Stands source n { s with row := s.row ++ [node] } := by
    refine ⟨hs.ahead, ?_⟩
    simp only [List.length_append, List.length_singleton]
    omega
  simp only [Bind.bind, EStateM.bind, push, hpush]
  exact (hf _ _ hgrows hdenotes _ hstands List.prefix_rfl).imp hgrows fun _ _ _ _ h => h

theorem push {node : Node} {e : Expr} (h : row.Reads node e) :
    Follows source row (n + 1) n (push node) (Pure.pure e) Row.Denotes := by
  have hbind : Follows source row (n + 1) n (Guarded.push node >>= Pure.pure) (Pure.pure e)
      Row.Denotes :=
    pushed h fun row' ref _ hdenotes => .pure fun _ hlonger => hdenotes.mono hlonger
  rwa [bind_pure] at hbind

/-- What is assigned to is looked up in the node of its expression, wherever the row has grown. -/
theorem targeted {left : NodeRef} {e : Expr} {g : Option Target → Guarded δ} {x : Parse γ}
    (hleft : row.Denotes left e)
    (h : Follows source row n k (g (row[left]?.bind Node.target?)) x S) :
    Follows source row n k (target? left >>= g) x S := by
  intro s hs hrow
  rw [← Row.getElem?_grown hrow hleft.lt_length] at h
  exact h s hs hrow

/-- **The tree of an expression is found in its row.** -/
theorem finished {step : Guarded NodeRef} {x : Parse Expr} {left : ℕ}
    (h : Follows source [] 0 left step x Row.Denotes)
    (hx : ∀ p, Reaches p (Parser.reached (x p))) :
    Follows source row n n (finished step) x Same := by
  intro s hs hrow
  have hroom := hs.room
  have hinside := h { s with row := [] } ⟨hs.ahead, by simp only [List.length_nil]; omega⟩
    List.prefix_rfl
  have hreaches := hx s.parser
  simp only [Guarded.finished]
  obtain ⟨root, e, q, hy, hrun, -, -, hdenotes⟩ | ⟨f, q, hy, hrun⟩ := hinside.cases
  · rw [hrun] at hreaches
    simp only [hy, hrun, show q.row.tree? root = some e from hdenotes]
    exact ⟨rfl, hrow, hs.of_reaches hreaches, rfl⟩
  · simp only [hy, hrun]
    exact ⟨rfl, rfl⟩

/-- A step between entering and leaving. -/
theorem nested {enter : Parser → Parser} {leave : Parser → Parser → Parser}
    (hx : Follows source row n n y x R) (haround : Parser.Around enter leave) :
    Follows source row n n (nested enter leave y) (Parser.nested enter leave x) R := by
  intro s hs hrow
  have hbehind : (enter s.parser).behind = s.parser.behind :=
    List.tail_eq_of_cons_eq (haround.ahead_enter s.parser)
  have hinside := hx { s with parser := enter s.parser }
    ⟨by rw [haround.ahead_enter]; exact hs.ahead, by rw [hbehind]; exact hs.room⟩ hrow
  simp only [Guarded.nested, Parser.nested]
  obtain ⟨b, a, q, hy, hrun, hgrows, hstands, hR⟩ | ⟨f, q, hy, hrun⟩ := hinside.cases
  · simp only [hy, hrun]
    have hsame : (leave s.parser q.parser).behind = q.parser.behind :=
      List.tail_eq_of_cons_eq (haround.ahead_leave s.parser q.parser)
    exact ⟨rfl, hgrows,
      ⟨by rw [haround.ahead_leave]; exact hstands.ahead, by rw [hsame]; exact hstands.room⟩, hR⟩
  · simp only [hy, hrun]
    exact ⟨rfl, rfl⟩

theorem inLoop (hx : Follows source row n n y x R) :
    Follows source row n n (inLoop y) (Parser.inLoop x) R :=
  .nested hx .loop

theorem inFunction (hx : Follows source row n n y x R) :
    Follows source row n n (inFunction y) (Parser.inFunction x) R :=
  .nested hx .function

end Follows

end Tracepoint.Guarded
