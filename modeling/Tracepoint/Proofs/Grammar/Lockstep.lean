/-
Two runs of the parser in step.

Whether a jump may stand at a place is seen by a second run, which finds a name where the first one
finds the word of the jump, and anything behind it.  Up to the word the runs do the same.  There the
first one may refuse the jump, and then it is over, while the second one takes the name and goes on.
If the first one takes the word, it will not meet it again, and does not refuse it any more.

So of a step it is enough to know two things.  From where the word is not ahead it does not refuse
the jump.  And from where the word is ahead in one run and the name in the other, the runs end in
one of these ways: the first one has failed, without refusing the jump; or it has taken the word; or
both are still in front of it, with the same result; or the first one has refused the jump, and the
second one is behind the name.

Main definitions:

* `Token.named` — a name in the place of the word;
* `SyntaxError.Refuses` — an error that refuses a jump;
* `Parser.Clear`, `Parser.Twins` — one parser behind the word, two parsers in front of it;
* `Parser.InStep` — a step that keeps two runs in step.

Main results:

* `Parser.InStep.bind`, `Parser.InStep.ahead` and the like — the ways to put steps together;
* `Parser.InStep.expect`, `Parser.InStep.endStatement` and the like — the steps for single tokens.
-/

import Tracepoint.Proofs.Grammar.Composition
import Tracepoint.Proofs.Grammar.Places

set_option relaxedAutoImplicit false
set_option autoImplicit false

namespace Tracepoint

/-! ### Words and names -/

namespace Kind

/-- The word of a jump. -/
def IsJump (kind : Kind) : Prop :=
  kind = .breakWord ∨ kind = .continueWord ∨ kind = .returnWord

instance (kind : Kind) : Decidable kind.IsJump :=
  inferInstanceAs (Decidable (_ ∨ _))

/-- Neither the word of a jump nor a name. -/
def IsOther (kind : Kind) : Prop :=
  ¬kind.IsJump ∧ kind ≠ .identifier

instance (kind : Kind) : Decidable kind.IsOther :=
  inferInstanceAs (Decidable (_ ∧ _))

theorem IsJump.ne {kind other : Kind} (h : kind.IsJump) (hother : ¬other.IsJump) : kind ≠ other :=
  fun heq => hother (heq ▸ h)

end Kind

/-- Only the words of jumps are admitted anywhere. -/
theorem Place.Admits.isJump {place : Place} {kind : Kind} (h : place.Admits kind) :
    kind.IsJump := by
  unfold Admits at h
  split at h
  · exact Or.inl rfl
  · exact Or.inr (Or.inl rfl)
  · exact Or.inr (Or.inr rfl)
  · exact h.elim

namespace Token

/-- A name in the place of a token. -/
def named (t : Token) (name : String) : Token :=
  { t with kind := .identifier, text := name }

@[simp]
theorem named_kind (t : Token) (name : String) : (t.named name).kind = .identifier :=
  rfl

@[simp]
theorem named_line (t : Token) (name : String) : (t.named name).line = t.line :=
  rfl

/-- The expression of this name. -/
def nameExpr (t : Token) (name : String) : Expr :=
  .atom (.name name) t.span t.line

/-- The statement of this name. -/
def nameStmt (t : Token) (name : String) : Stmt :=
  .expression (t.nameExpr name) t.line

end Token

/-! ### Refusals -/

/-- The fault is that a jump stands where it may not. -/
def SyntaxFault.OfJump : SyntaxFault → Prop
  | illegalBreak | illegalContinue | illegalReturn => True
  | _ => False

theorem SyntaxFault.ofJump_iff (fault : SyntaxFault) :
    fault.OfJump ↔ fault.code ∈ ["SE007", "SE008", "SE009"] := by
  cases fault <;> simp [OfJump, code]

/-- The error refuses the jump whose word is `t`. -/
def SyntaxError.Refuses (e : SyntaxError) (t : Token) : Prop :=
  e.fault.OfJump ∧ e.span = t.span

theorem SyntaxError.not_refuses_unexpected (t u : Token) (expected : Kind) :
    ¬(unexpected u expected).Refuses t := by
  rintro ⟨hfault, -⟩
  simp only [unexpected, atToken] at hfault
  split at hfault <;> exact hfault

namespace Parser

/-! ### Where two runs are -/

variable (t : Token) (name : String) (loops functions : ℕ)

/-- The word is not ahead. -/
structure Clear (p : Parser) : Prop where
  away : ∀ u, .ok u ∈ p.ahead → u.span ≠ t.span
  depths : AtDepths loops functions p

/-- The same tokens, up to the word on one side and the name on the other. -/
inductive TwinTokens : List Lexeme → List Lexeme → Prop
  | here {rest after : List Lexeme} (nonempty : rest ≠ [] ∧ after ≠ [])
      (away : ∀ u, .ok u ∈ rest ++ after → u.span ≠ t.span) :
      TwinTokens (.ok t :: rest) (.ok (t.named name) :: after)
  | there {x : Lexeme} {us vs : List Lexeme} (away : ∀ u, x = .ok u → u.span ≠ t.span)
      (behind : TwinTokens us vs) : TwinTokens (x :: us) (x :: vs)

/-- The word is ahead of one parser, and the name of the other. -/
structure Twins (p q : Parser) : Prop where
  tokens : TwinTokens t name p.ahead q.ahead
  line : p.previousLine = q.previousLine
  left : AtDepths loops functions p
  right : AtDepths loops functions q

variable {t name loops functions}

theorem AtDepths.forward {p : Parser} (h : AtDepths loops functions p) (line : ℕ) :
    AtDepths loops functions { p.forward with previousLine := line } :=
  ⟨(Reaches.forward p).loopDepth.trans h.1, (Reaches.forward p).functionDepth.trans h.2⟩

theorem Clear.forward {p : Parser} (h : Clear t loops functions p) (line : ℕ) :
    Clear t loops functions { p.forward with previousLine := line } :=
  ⟨fun u hu => h.away u ((Reaches.forward p).ahead.mem hu), h.depths.forward line⟩

theorem ahead_forward {p : Parser} (h : p.behind ≠ []) : p.forward.ahead = p.behind := by
  obtain ⟨next, behind, heq⟩ := List.exists_cons_of_ne_nil h
  simp only [Parser.forward, heq, ahead]

theorem TwinTokens.nonempty {us vs : List Lexeme} (h : TwinTokens t name us vs) :
    us ≠ [] ∧ vs ≠ [] := by
  cases h <;> exact ⟨List.cons_ne_nil _ _, List.cons_ne_nil _ _⟩

/-- Both parsers stand at the word, which is not ahead behind it, or both at the same token, and
the word is still ahead behind it. -/
theorem Twins.cases {p q : Parser} (h : Twins t name loops functions p q) :
    (p.current = .ok t ∧ q.current = .ok (t.named name) ∧
      (∀ line, Clear t loops functions { p.forward with previousLine := line }) ∧
      ∀ line, Clear t loops functions { q.forward with previousLine := line }) ∨
    (q.current = p.current ∧ (∀ u, p.current = .ok u → u.span ≠ t.span) ∧
      ∀ line, Twins t name loops functions { p.forward with previousLine := line }
        { q.forward with previousLine := line }) := by
  obtain ⟨htokens, hline, hleft, hright⟩ := h
  obtain ⟨current, behind, previousLine, loopDepth, functionDepth⟩ := p
  obtain ⟨current', behind', previousLine', loopDepth', functionDepth'⟩ := q
  cases htokens with
  | here nonempty away =>
      refine Or.inl ⟨rfl, rfl, fun line => ⟨fun u hu => ?_, hleft.forward line⟩,
        fun line => ⟨fun u hu => ?_, hright.forward line⟩⟩
      · rw [← ahead_forward nonempty.1] at away
        exact away u (List.mem_append_left _ hu)
      · rw [← ahead_forward nonempty.2] at away
        exact away u (List.mem_append_right _ hu)
  | there away hbehind =>
      refine Or.inr ⟨rfl, away, fun line => ⟨?_, rfl, hleft.forward line, hright.forward line⟩⟩
      obtain ⟨hne, hne'⟩ := hbehind.nonempty
      rw [← ahead_forward hne, ← ahead_forward hne'] at hbehind
      exact hbehind

/-! ### Steps that keep two runs in step -/

section

variable {α : Type}

/-- How a step may end that starts clear of the word. -/
def Fine (t : Token) (loops functions : ℕ) (P : α → Prop) :
    EStateM.Result Failure Parser α → Prop
  | .ok a q => Clear t loops functions q ∧ P a
  | .error (.error e) _ => ¬e.Refuses t
  | .error .exhausted _ => True

/-- How a step may end in the run with the word, if it yields `b` and leads to `q` in the run with
the name. -/
def Matches (t : Token) (name : String) (loops functions : ℕ) (P : α → Prop) (b : α)
    (q : Parser) : EStateM.Result Failure Parser α → Prop
  | .ok a p => Clear t loops functions p ∧ P a ∨ a = b ∧ P b ∧ Twins t name loops functions p q
  | .error (.error e) _ => e.Refuses t → P b ∧ Clear t loops functions q
  | .error .exhausted _ => True

/-- The step keeps two runs in step, and yields only what `P` holds of, unless the run with the
name is alone in going on. -/
structure InStep (t : Token) (name : String) (loops functions : ℕ) (x : Parse α) (P : α → Prop) :
    Prop where
  alone : ∀ p, Clear t loops functions p → Fine t loops functions P (x p)
  together : ∀ p q b q', Twins t name loops functions p q → x q = .ok b q' →
    Matches t name loops functions P b q' (x p)

/-- The same of two steps, `y` in the run with the word and `z` in the run with the name, where both
stand there. -/
def AtWord (t : Token) (name : String) (loops functions : ℕ) (y z : Parse α) (P : α → Prop) :
    Prop :=
  ∀ p q b q', Twins t name loops functions p q → p.current = .ok t →
    q.current = .ok (t.named name) → z q = .ok b q' → Matches t name loops functions P b q' (y p)

theorem Fine.matched {P : α → Prop} {r : EStateM.Result Failure Parser α}
    (h : Fine t loops functions P r) (b : α) (q : Parser) :
    Matches t name loops functions P b q r := by
  match r, h with
  | .ok a p, h => exact Or.inl h
  | .error (.error e) p, h => exact fun hrefuses => absurd hrefuses h
  | .error .exhausted p, _ => trivial

/-- A step that ends clear of the word goes on like one that starts there. -/
theorem Fine.bind {β : Type} {x : Parse α} {f : α → Parse β} {P : α → Prop} {Q : β → Prop}
    {p : Parser} (hx : Fine t loops functions P (x p))
    (hf : ∀ a, P a → InStep t name loops functions (f a) Q) :
    Fine t loops functions Q ((x >>= f) p) := by
  simp only [Bind.bind, EStateM.bind]
  cases hrun : x p with
  | ok a p' =>
      rw [hrun] at hx
      exact (hf a hx.2).alone p' hx.1
  | error e p' =>
      rw [hrun] at hx
      cases e <;> exact hx

end

namespace InStep

variable {α β : Type} {x : Parse α} {P : α → Prop} {Q : β → Prop}

theorem bind {f : α → Parse β} (hx : InStep t name loops functions x P)
    (hf : ∀ a, P a → InStep t name loops functions (f a) Q) :
    InStep t name loops functions (x >>= f) Q := by
  constructor
  · exact fun p hp => (hx.alone p hp).bind hf
  · intro p q c q'' hpq hrun
    simp only [Bind.bind, EStateM.bind] at hrun ⊢
    split at hrun
    next b q' hsecond =>
      have hfirst := hx.together p q b q' hpq hsecond
      cases hrun' : x p with
      | ok a p' =>
          rw [hrun'] at hfirst
          rcases hfirst with ⟨hclear, ha⟩ | ⟨rfl, ha, htwins⟩
          · exact ((hf a ha).alone p' hclear).matched c q''
          · exact (hf a ha).together p' q' c q'' htwins hrun
      | error e p' =>
          rw [hrun'] at hfirst
          cases e with
          | exhausted => trivial
          | error e =>
              -- The first run is over; what the second one still does, it does alone.
              intro hrefuses
              obtain ⟨hb, hclear⟩ := hfirst hrefuses
              have hrest := (hf b hb).alone q' hclear
              rw [hrun] at hrest
              exact hrest.symm
    next => cases hrun

theorem pure {a : α} (h : P a) : InStep t name loops functions (pure a : Parse α) P := by
  constructor
  · exact fun p hp => ⟨hp, h⟩
  · intro p q b q' hpq hrun
    cases hrun
    exact Or.inr ⟨rfl, h, hpq⟩

theorem fails {e : Failure} (h : ∀ e', e = .error e' → ¬e'.Refuses t) :
    InStep t name loops functions (throw e : Parse α) P := by
  constructor
  · intro p _
    cases e with
    | error e => exact h e rfl
    | exhausted => trivial
  · intro p q b q' _ hrun
    cases hrun

theorem exhausted : InStep t name loops functions (throw .exhausted : Parse α) P :=
  .fails fun _ h => (nomatch h)

theorem unexpected (u : Token) (expected : Kind) :
    InStep t name loops functions (throw (.error (.unexpected u expected)) : Parse α) P :=
  .fails fun _ h => by
    cases h
    exact SyntaxError.not_refuses_unexpected t u expected

theorem failAt {fault : SyntaxFault} {u : Token} (h : fault.OfJump → u.span ≠ t.span) :
    InStep t name loops functions (failAt fault u : Parse α) P :=
  .fails fun _ heq => by
    cases heq
    exact fun hrefuses => h hrefuses.1 hrefuses.2

theorem weaken {R : α → Prop} (h : InStep t name loops functions x P) (hPR : ∀ a, P a → R a) :
    InStep t name loops functions x R := by
  have hbind : InStep t name loops functions (x >>= fun a => Pure.pure a) R :=
    h.bind fun a ha => .pure (hPR a ha)
  rwa [bind_pure] at hbind

theorem map {f : α → β} (h : InStep t name loops functions x P) (hf : ∀ a, P a → Q (f a)) :
    InStep t name loops functions (f <$> x) Q :=
  h.bind fun a ha => .pure (hf a ha)

theorem ite {c : Prop} [Decidable c] {y : Parse α}
    (hx : c → InStep t name loops functions x P) (hy : ¬c → InStep t name loops functions y P) :
    InStep t name loops functions (if c then x else y) P := by
  split
  next h => exact hx h
  next h => exact hy h

/-- Both branches of a condition go on in the same way. -/
theorem branch {c : Prop} [Decidable c] {y : Parse α} {f : α → Parse β}
    (hx : c → InStep t name loops functions x P) (hy : ¬c → InStep t name loops functions y P)
    (hf : ∀ a, P a → InStep t name loops functions (f a) Q) :
    InStep t name loops functions (if c then x >>= f else y >>= f) Q :=
  .ite (fun h => (hx h).bind hf) fun h => (hy h).bind hf

/-- A step that is left out, if a condition does not hold. -/
theorem whenever {c : Prop} [Decidable c] {y : Parse Unit} {f : Unit → Parse β}
    (hy : c → InStep t name loops functions y anything)
    (hf : InStep t name loops functions (f ()) Q) :
    InStep t name loops functions (if c then y >>= f else f ()) Q :=
  .ite (fun h => (hy h).bind fun _ _ => hf) fun _ => hf

/-- What is known of the parser is the same in both runs, as far as it is used. -/
theorem get {g : Parser → Parse α}
    (hsame : ∀ p q, Twins t name loops functions p q → g p = g q)
    (h : ∀ p, AtDepths loops functions p → InStep t name loops functions (g p) P) :
    InStep t name loops functions (get >>= g) P := by
  constructor
  · exact fun p hp => (h p hp.depths).alone p hp
  · intro p q b q' hpq hrun
    refine (h p hpq.left).together p q b q' hpq ?_
    rw [hsame p q hpq]
    exact hrun

/-- A step between entering and leaving, which restores the depths. -/
theorem nested {enter : Parser → Parser} {leave : Parser → Parser → Parser} {loops' functions' : ℕ}
    (hx : InStep t name loops' functions' x P) (haround : Around enter leave)
    (henter : ∀ p, AtDepths loops functions p → AtDepths loops' functions' (enter p))
    (hleave : ∀ p q, AtDepths loops functions p → AtDepths loops' functions' q →
      AtDepths loops functions (leave p q)) :
    InStep t name loops functions (nested enter leave x) P := by
  have hclear : ∀ {p q}, AtDepths loops functions p → Clear t loops' functions' q →
      Clear t loops functions (leave p q) := fun hp hq =>
    ⟨fun u hu => hq.away u (haround.ahead_leave _ _ ▸ hu), hleave _ _ hp hq.depths⟩
  constructor
  · intro p hp
    have hinside := hx.alone (enter p) ⟨haround.ahead_enter p ▸ hp.away, henter p hp.depths⟩
    simp only [Parser.nested]
    cases hrun : x (enter p) with
    | ok a q =>
        rw [hrun] at hinside
        exact ⟨hclear hp.depths hinside.1, hinside.2⟩
    | error e q =>
        rw [hrun] at hinside
        cases e <;> exact hinside
  · intro p q b q' hpq hrun
    have htwins : Twins t name loops' functions' (enter p) (enter q) :=
      ⟨by rw [haround.ahead_enter, haround.ahead_enter]; exact hpq.tokens,
        by rw [haround.line_enter, haround.line_enter]; exact hpq.line,
        henter p hpq.left, henter q hpq.right⟩
    simp only [Parser.nested] at hrun ⊢
    cases hsecond : x (enter q) with
    | error e r =>
        rw [hsecond] at hrun
        cases hrun
    | ok b' r =>
        rw [hsecond] at hrun
        cases hrun
        have hinside := hx.together _ _ b r htwins hsecond
        cases hfirst : x (enter p) with
        | ok a p' =>
            rw [hfirst] at hinside
            rcases hinside with ⟨hp', ha⟩ | ⟨heq, hb, hbehind⟩
            · exact Or.inl ⟨hclear hpq.left hp', ha⟩
            · refine Or.inr ⟨heq, hb, ?_, ?_, hleave _ _ hpq.left hbehind.left,
                hleave _ _ hpq.right hbehind.right⟩
              · rw [haround.ahead_leave, haround.ahead_leave]
                exact hbehind.tokens
              · rw [haround.line_leave, haround.line_leave]
                exact hbehind.line
        | error e p' =>
            rw [hfirst] at hinside
            cases e with
            | exhausted => trivial
            | error e =>
                intro hrefuses
                obtain ⟨hb, hr⟩ := hinside hrefuses
                exact ⟨hb, hclear hpq.right hr⟩

theorem inLoop (h : InStep t name (loops + 1) functions x P) :
    InStep t name loops functions (inLoop x) P :=
  .nested h .loop (fun _ => .enterLoop) fun _ _ _ hq => hq.leaveLoop

theorem inFunction (h : InStep t name 0 (functions + 1) x P) :
    InStep t name loops functions (inFunction x) P :=
  .nested h .function (fun _ => .enterFunction) fun _ _ hp hq => hq.leaveFunction hp

/-! ### Single tokens -/

/-- A look at the token ahead. -/
theorem ahead {g : Token → Parse α}
    (h : ∀ u, u.span ≠ t.span → InStep t name loops functions (g u) P)
    (hword : AtWord t name loops functions (g t) (g (t.named name)) P) :
    InStep t name loops functions (peek >>= g) P := by
  constructor
  · intro p hp
    simp only [Bind.bind, EStateM.bind, peek]
    cases hcurrent : p.current with
    | error e => exact fun hrefuses => hrefuses.1
    | ok u => exact (h u (hp.away u (hcurrent ▸ List.mem_cons_self))).alone p hp
  · intro p q b q' hpq hrun
    simp only [Bind.bind, EStateM.bind, peek] at hrun ⊢
    rcases hpq.cases with ⟨hp, hq, -, -⟩ | ⟨hsame, haway, -⟩
    · rw [hq] at hrun
      rw [hp]
      exact hword p q b q' hpq hp hq hrun
    · rw [hsame] at hrun
      cases hcurrent : p.current with
      | error e =>
          rw [hcurrent] at hrun
          cases hrun
      | ok u =>
          rw [hcurrent] at hrun
          exact (h u (haway u hcurrent)).together p q b q' hpq hrun

/-- The token taken is the word, or lies somewhere else. -/
theorem next : InStep t name loops functions next fun u => u.span = t.span → u = t := by
  constructor
  · intro p hp
    simp only [Parser.next]
    cases hcurrent : p.current with
    | error e => exact fun hrefuses => hrefuses.1
    | ok u =>
        refine ⟨hp.forward u.line, fun hspan => absurd hspan ?_⟩
        exact hp.away u (hcurrent ▸ List.mem_cons_self)
  · intro p q b q' hpq hrun
    simp only [Parser.next] at hrun ⊢
    rcases hpq.cases with ⟨hp, -, hclear, -⟩ | ⟨hsame, haway, htwins⟩
    · rw [hp]
      exact Or.inl ⟨hclear t.line, fun _ => rfl⟩
    · rw [hsame] at hrun
      cases hcurrent : p.current with
      | error e =>
          rw [hcurrent] at hrun
          cases hrun
      | ok u =>
          rw [hcurrent] at hrun
          cases hrun
          exact Or.inr ⟨rfl, fun hspan => absurd hspan (haway _ hcurrent), htwins _⟩

/-- What both runs do at the word. -/
theorem atWord (h : InStep t name loops functions x P) :
    AtWord t name loops functions x x P :=
  fun p q b q' hpq _ _ hrun => h.together p q b q' hpq hrun

theorem expect (kind : Kind) : InStep t name loops functions (expect kind) anything :=
  next.bind fun _ _ => .ite (fun _ => .pure trivial) fun _ => .unexpected _ _

theorem identifier : InStep t name loops functions identifier anything :=
  (expect _).bind fun _ _ => .pure trivial

theorem accept (ht : t.kind.IsJump) {kind : Kind} (hkind : kind.IsOther) :
    InStep t name loops functions (accept kind) anything := by
  refine ahead (fun u _ => .ite (fun _ => ?_) fun _ => .pure trivial) ?_
  · exact next.bind fun _ _ => .pure trivial
  · rw [if_neg (ht.ne hkind.1), Token.named_kind, if_neg hkind.2.symm]
    exact (pure trivial).atWord

/-- The line is the only thing about the next token that matters where it does not end the
statement by itself. -/
theorem endStatement (ht : t.kind.IsJump) :
    InStep t name loops functions endStatement anything := by
  have hline : ∀ u : Token, InStep t name loops functions (do
      let p ← MonadState.get
      if p.previousLine < u.line then return () else throw (.error (.unexpected u .semicolon)))
      anything := by
    refine fun u => get (fun p q hpq => by rw [hpq.line]) fun p _ => ?_
    exact .ite (fun _ => .pure trivial) fun _ => .unexpected _ _
  refine ahead (fun u _ => .ite (fun _ => ?_) fun _ => .ite (fun _ => .pure trivial)
    fun _ => hline u) ?_
  · exact next.bind fun _ _ => .pure trivial
  · have hword : t.kind ≠ .rightBrace ∧ t.kind ≠ .finish := ⟨ht.ne (by decide), ht.ne (by decide)⟩
    rw [if_neg (ht.ne (by decide)), if_neg (not_or.2 hword)]
    intro p q b q' hpq _ _ hrun
    refine (hline t).together p q b q' hpq ?_
    -- Only the failures of the two runs differ, and the second one did not fail.
    simp only [Token.named_kind, Token.named_line, reduceCtorEq, or_self, reduceIte] at hrun
    change (if q.previousLine < t.line then _ else _ : Parse Unit) q = _ at hrun ⊢
    split at hrun
    next hlater =>
      rw [if_pos hlater]
      exact hrun
    next => cases hrun

theorem parameters (ht : t.kind.IsJump) (fuel : ℕ) :
    InStep t name loops functions (parameters fuel) anything := by
  induction fuel with
  | zero => exact .exhausted
  | succ fuel ih =>
      rw [Parser.parameters]
      refine (accept ht (by decide)).bind fun closed _ => .ite (fun _ => .pure trivial) fun _ => ?_
      refine identifier.bind fun name _ => (accept ht (by decide)).bind fun more _ => ?_
      refine .ite (fun _ => ?_) fun _ => ?_
      · exact ih.bind fun _ _ => .pure trivial
      · exact (expect _).bind fun _ _ => .pure trivial

theorem entryKey (u : Token) : InStep t name loops functions (entryKey u) anything := by
  rw [Parser.entryKey]
  split
  · exact .pure trivial
  · exact .pure trivial
  · exact .pure trivial
  · exact .failAt fun hfault => hfault.elim

end InStep

end Parser

end Tracepoint
