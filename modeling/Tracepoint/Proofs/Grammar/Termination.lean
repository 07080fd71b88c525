/-
Parsing ends.

The readers that go on are loops: over the statements of a program or of a block, over what stands
between commas, and over the continuations of an operand.  Here each of them is taken apart into
its turns.  A turn leaves the loop, fails, or has taken a token when the loop goes on, so no loop
makes more turns than there are tokens ahead.  With that a call has steps enough, and it comes to
the same end however many more it is given.  At the end of the source nothing is left to take: a
parser that asks for its tokens is given the end once, and then fails or returns.

Main definitions:

* `Parser.Takes` — something is taken on the way from one parser to another;
* `Parser.Turn`, `Parser.loop` — the turns of a loop;
* `Parser.listTurn`, `Parser.continuationTurn` and the like — the turns of the readers that go on;
* `Parser.Terminates` — what it means that parsing ends.

Main results:

* `Parser.takes_expression`, `Parser.takes_statement` — **expressions and statements take a token**;
* `Parser.turnsTake_listTurn`, `Parser.turnsTake_continuationTurn` and the like — **so does every
  turn behind which a loop goes on**;
* `Parser.parsing_ends` — **parsing ends**, wherever in a source it begins.
-/

import Tracepoint.Proofs.Grammar.Intake

set_option relaxedAutoImplicit false
set_option autoImplicit false

namespace Tracepoint.Parser

/-! ### Taking tokens -/

/-- Something is taken on the way from `p` to `q`. -/
structure Takes (p q : Parser) : Prop where
  ahead : q.ahead <:+ p.ahead
  fewer : q.ahead.length < p.ahead.length

section

variable {α β : Type} {p q r : Parser} {x y : Parse α} {a : α} {fuel strength : ℕ}

theorem Takes.of_reaches (h : Reaches p q) (h' : Takes q r) : Takes p r :=
  ⟨h'.ahead.trans h.ahead, Nat.lt_of_lt_of_le h'.fewer h.ahead.length_le⟩

theorem Takes.reaches (h : Takes p q) (h' : Reaches q r) : Takes p r :=
  ⟨h'.ahead.trans h.ahead, Nat.lt_of_le_of_lt h'.ahead.length_le h.fewer⟩

/-- Where a step leads that yields something. -/
theorem Prolonged.reaches_ok (h : Prolonged x y) (hrun : x p = .ok a q) : Reaches p q := by
  have hreaches := h.reaches p
  rw [hrun] at hreaches
  exact hreaches

theorem Advances.takes (h : Advances p.behind.length p.behind.length x) (hx : Prolonged x y)
    (hp : Ending p) (hrun : x p = .ok a q) : Takes p q := by
  have hadvanced := h p hp rfl
  rw [hrun] at hadvanced
  exact ⟨(hx.reaches_ok hrun).ahead, Nat.succ_lt_succ hadvanced.2⟩

/-- With more steps a reader comes to the same end, and with enough of them it is known to take a
token. -/
theorem takes_of_enough {reader : ℕ → Parse α} {k : ℕ}
    (hprolonged : ∀ more fuel, Prolonged (reader fuel) (reader (more + fuel)))
    (hadvances : ∀ fuel m, 8 * m + k ≤ fuel → Advances m m (reader fuel)) (hp : Ending p)
    (hrun : reader fuel p = .ok a q) : Takes p q := by
  have hmore : reader (8 * p.behind.length + k + fuel) p = .ok a q := by
    rcases (hprolonged (8 * p.behind.length + k) fuel).agrees p with ⟨q', hq'⟩ | hagrees
    · rw [hrun] at hq'
      cases hq'
    · exact hagrees.trans hrun
  exact (hadvances _ _ (Nat.le_add_right _ _)).takes (hprolonged 0 _) hp hmore

/-- **An expression takes a token.** -/
theorem takes_expression {e : Expr} (hp : Ending p) (hrun : expression fuel strength p = .ok e q) :
    Takes p q :=
  takes_of_enough (fun more fuel => prolonged_expression more fuel strength)
    (fun fuel m => advances_expression fuel strength m) hp hrun

/-- **A statement takes a token.** -/
theorem takes_statement {s : Stmt} (hp : Ending p) (hrun : statement fuel p = .ok s q) :
    Takes p q :=
  takes_of_enough prolonged_statement advances_statement hp hrun

theorem takes_entry {entry : String × Expr} (hp : Ending p)
    (hrun : Parser.entry fuel p = .ok entry q) : Takes p q :=
  takes_of_enough prolonged_entry advances_entry hp hrun

theorem takes_identifier {name : String} (hp : Ending p) (hrun : identifier p = .ok name q) :
    Takes p q :=
  Advances.identifier.takes .identifier hp hrun

/-- A token that is not the last one is taken. -/
theorem takes_next {t u : Token} (hp : Ending p) (hcurrent : p.current = .ok t)
    (hkind : t.kind ≠ .finish) (hrun : next p = .ok u q) : Takes p q := by
  have hforward := hp.length_forward hcurrent hkind
  simp only [Parser.next, hcurrent] at hrun
  cases hrun
  exact ⟨(Reaches.forward p).ahead, Nat.succ_lt_succ hforward⟩

end

/-! ### Turns of loops -/

/-- What a turn of a loop comes to. -/
inductive Turn (σ β : Type)
  /-- The loop is left with a result. -/
  | leaves (result : β)
  /-- The loop goes on, and its result will be completed. -/
  | goesOn (state : σ) (complete : β → β)

/-- A loop of such turns. -/
def loop {σ β : Type} (turn : ℕ → σ → Parse (Turn σ β)) : ℕ → σ → Parse β
  | 0, _ => throw .exhausted
  | fuel + 1, state => do
    match ← turn fuel state with
    | .leaves result => return result
    | .goesOn state complete =>
      let result ← loop turn fuel state
      return complete result

/-- A statement of a program, if the end is not ahead. -/
def statementTurn (fuel : ℕ) (_ : Unit) : Parse (Turn Unit (List Stmt)) := do
  let t ← peek
  if t.kind = .finish then return .leaves []
  else
    let first ← statement fuel
    return .goesOn () (first :: ·)

/-- A statement of a block, if the closing brace is not ahead. -/
def blockTurn (fuel : ℕ) (_ : Unit) : Parse (Turn Unit (List Stmt)) := do
  let t ← peek
  if t.kind = .rightBrace then
    let _ ← next
    return .leaves []
  else if t.kind = .finish then throw (.error (.unexpected t .rightBrace))
  else
    let first ← statement fuel
    return .goesOn () (first :: ·)

/-- Something between commas, if the closing token is not ahead. -/
def listTurn {α : Type} (closing : Kind) (item : ℕ → Parse α) (fuel : ℕ) (_ : Unit) :
    Parse (Turn Unit (List α)) := do
  if ← accept closing then return .leaves []
  let first ← item fuel
  if ← accept .comma then return .goesOn () (first :: ·)
  else
    let _ ← expect closing
    return .leaves [first]

/-- A continuation of an operand, if it binds strongly enough. -/
def continuationTurn (strength fuel : ℕ) (left : Expr) : Parse (Turn Expr Expr) := do
  let t ← peek
  match Continuation.ofKind? t.kind with
  | none => return .leaves left
  | some c =>
    if c.strength < strength then return .leaves left
    let _ ← next
    match c with
    | .suffix s =>
      let whole ← suffix fuel s left
      return .goesOn whole id
    | .binary op =>
      let right ← expression fuel op.strength.right
      return .goesOn (.binary op left right) id
    | .logical op =>
      let right ← expression fuel op.strength.right
      return .goesOn (.logical op left right) id
    | .assignment =>
      match assignment? left with
      | none => failAt .notAssignable t
      | some assign =>
        let value ← expression fuel assignmentStrength.right
        return .goesOn (assign value) id

/-! ### The readers that go on are loops -/

theorem statements_eq_loop (fuel : ℕ) : statements fuel = loop statementTurn fuel () := by
  induction fuel with
  | zero => rfl
  | succ fuel ih =>
      rw [statements, loop, statementTurn, bind_assoc, ih]
      congr 1
      funext t
      split
      · rw [pure_bind]
      · simp only [bind_assoc, pure_bind]

theorem blockRest_eq_loop (fuel : ℕ) : blockRest fuel = loop blockTurn fuel () := by
  induction fuel with
  | zero => rw [blockRest, loop]
  | succ fuel ih =>
      rw [blockRest, loop, blockTurn, bind_assoc, ih]
      congr 1
      funext t
      split
      · simp only [bind_assoc, pure_bind]
      · split
        · rfl
        · simp only [bind_assoc, pure_bind]

/-- A reader of this form goes on as long as there are commas. -/
theorem eq_loop_listTurn {α : Type} (reader : ℕ → Parse (List α)) {closing : Kind}
    {item : ℕ → Parse α} (hzero : reader 0 = throw .exhausted)
    (hsucc : ∀ fuel, reader (fuel + 1) = do
      if ← accept closing then return []
      let first ← item fuel
      if ← accept .comma then
        let rest ← reader fuel
        return first :: rest
      else
        let _ ← expect closing
        return [first]) (fuel : ℕ) :
    reader fuel = loop (listTurn closing item) fuel () := by
  induction fuel with
  | zero => exact hzero
  | succ fuel ih =>
      rw [hsucc, loop, listTurn, bind_assoc, ih]
      congr 1
      funext closed
      split
      · rw [pure_bind]
      · rw [bind_assoc]
        congr 1
        funext first
        rw [bind_assoc]
        congr 1
        funext more
        split
        · rw [pure_bind]
        · simp only [bind_assoc, pure_bind]

theorem arguments_eq_loop (closing : Kind) (fuel : ℕ) :
    arguments fuel closing = loop (listTurn closing fun fuel => expression fuel 0) fuel () := by
  refine eq_loop_listTurn (arguments · closing) ?_ (fun fuel => ?_) fuel
  · rw [arguments]
  · rw [arguments]

theorem entries_eq_loop (fuel : ℕ) : entries fuel = loop (listTurn .rightBrace entry) fuel () := by
  refine eq_loop_listTurn entries ?_ (fun fuel => ?_) fuel
  · rw [entries]
  · rw [entries]

theorem parameters_eq_loop (fuel : ℕ) :
    parameters fuel = loop (listTurn .rightParen fun _ => identifier) fuel () :=
  eq_loop_listTurn parameters rfl (fun _ => rfl) fuel

theorem continuations_eq_loop (strength fuel : ℕ) (left : Expr) :
    continuations fuel strength left = loop (continuationTurn strength) fuel left := by
  induction fuel generalizing left with
  | zero => rw [continuations, loop]
  | succ fuel ih =>
      rw [continuations, loop, continuationTurn, bind_assoc]
      congr 1
      funext t
      cases Continuation.ofKind? t.kind with
      | none => dsimp only; rw [pure_bind]
      | some c =>
          dsimp only
          split
          · rw [pure_bind]
          · rw [bind_assoc]
            congr 1
            funext _
            cases c with
            | suffix s => simp only [bind_assoc, pure_bind, ih, id_eq, bind_pure]
            | binary op => simp only [bind_assoc, pure_bind, ih, id_eq, bind_pure]
            | logical op => simp only [bind_assoc, pure_bind, ih, id_eq, bind_pure]
            | assignment =>
                cases assignment? left with
                | none => rfl
                | some assign => simp only [bind_assoc, pure_bind, ih, id_eq, bind_pure]

/-! ### Turns take tokens -/

/-- Whenever a loop goes on behind such a turn, the turn has taken a token. -/
def TurnsTake {σ β : Type} (p : Parser) (turn : ℕ → σ → Parse (Turn σ β)) : Prop :=
  ∀ fuel state state' complete q, turn fuel state p = .ok (.goesOn state' complete) q → Takes p q

section

variable {p : Parser}

theorem turnsTake_statementTurn (hp : Ending p) : TurnsTake p statementTurn := by
  intro fuel state state' complete q hrun
  obtain ⟨t, -, hrun⟩ := peek_bind_eq_ok hrun
  split at hrun
  · cases hrun
  · obtain ⟨first, p₁, hfirst, hrun⟩ := bind_eq_ok hrun
    cases hrun
    exact takes_statement hp hfirst

theorem turnsTake_blockTurn (hp : Ending p) : TurnsTake p blockTurn := by
  intro fuel state state' complete q hrun
  obtain ⟨t, -, hrun⟩ := peek_bind_eq_ok hrun
  split at hrun
  · obtain ⟨_, p₁, -, hrun⟩ := bind_eq_ok hrun
    cases hrun
  · split at hrun
    · cases hrun
    · obtain ⟨first, p₁, hfirst, hrun⟩ := bind_eq_ok hrun
      cases hrun
      exact takes_statement hp hfirst

/-- Where every item takes a token, so does every turn with a comma. -/
theorem turnsTake_listTurn {α : Type} {item : ℕ → Parse α} (closing : Kind)
    (hitem : ∀ {p q : Parser} {fuel : ℕ} {a : α}, Ending p → item fuel p = .ok a q → Takes p q)
    (hp : Ending p) : TurnsTake p (listTurn closing item) := by
  intro fuel state state' complete q hrun
  obtain ⟨closed, p₁, hclosed, hrun⟩ := bind_eq_ok hrun
  have hreaches := (Prolonged.accept _).reaches_ok hclosed
  split at hrun
  · cases hrun
  · obtain ⟨first, p₂, hfirst, hrun⟩ := bind_eq_ok hrun
    have htakes := Takes.of_reaches hreaches (hitem (hp.of_reaches hreaches) hfirst)
    obtain ⟨more, p₃, hcomma, hrun⟩ := bind_eq_ok hrun
    split at hrun
    · cases hrun
      exact htakes.reaches ((Prolonged.accept _).reaches_ok hcomma)
    · obtain ⟨_, p₄, -, hrun⟩ := bind_eq_ok hrun
      cases hrun

theorem turnsTake_continuationTurn (strength : ℕ) (hp : Ending p) :
    TurnsTake p (continuationTurn strength) := by
  intro fuel left left' complete q hrun
  obtain ⟨t, hcurrent, hrun⟩ := peek_bind_eq_ok hrun
  cases hc : Continuation.ofKind? t.kind with
  | none =>
      rw [hc] at hrun
      cases hrun
  | some c =>
      rw [hc] at hrun
      dsimp only at hrun
      split at hrun
      next => cases hrun
      next =>
        -- The operator is taken, and what comes behind it only goes forward.
        obtain ⟨_, p₁, hnext, hrun⟩ := bind_eq_ok hrun
        refine (takes_next hp hcurrent (kind_of_continuation hc) hnext).reaches ?_
        cases c with
        | suffix s =>
            obtain ⟨whole, p₂, hwhole, hrun⟩ := bind_eq_ok hrun
            cases hrun
            exact (prolonged_suffix 0 fuel s left).reaches_ok hwhole
        | binary op =>
            obtain ⟨right, p₂, hright, hrun⟩ := bind_eq_ok hrun
            cases hrun
            exact (prolonged_expression 0 fuel _).reaches_ok hright
        | logical op =>
            obtain ⟨right, p₂, hright, hrun⟩ := bind_eq_ok hrun
            cases hrun
            exact (prolonged_expression 0 fuel _).reaches_ok hright
        | assignment =>
            cases htarget : assignment? left with
            | none =>
                rw [htarget] at hrun
                cases hrun
            | some assign =>
                rw [htarget] at hrun
                obtain ⟨value, p₂, hvalue, hrun⟩ := bind_eq_ok hrun
                cases hrun
                exact (prolonged_expression 0 fuel _).reaches_ok hvalue

end

/-! ### Parsing ends -/

/-- At `p` the reader is a loop of such turns, and has taken a token whenever it goes on. -/
structure LoopsAt {σ β : Type} (p : Parser) (reader : ℕ → σ → Parse β)
    (turn : ℕ → σ → Parse (Turn σ β)) : Prop where
  eq_loop : ∀ fuel state, reader fuel state = loop turn fuel state
  takes : TurnsTake p turn

/-- What it means that parsing ends, where it begins at `p`. -/
structure Terminates (p : Parser) : Prop where
  /-- A call comes to an end, however many steps more it is given. -/
  call : ∀ (call : Call) (fuel : ℕ), p.fuelFor ≤ fuel →
    call.step fuel p = call.step p.fuelFor p ∧ ∀ q, call.step fuel p ≠ .error .exhausted q
  expression : ∀ fuel strength e q, Parser.expression fuel strength p = .ok e q → Takes p q
  statement : ∀ fuel s q, Parser.statement fuel p = .ok s q → Takes p q
  statements : LoopsAt p (fun fuel (_ : Unit) => Parser.statements fuel) statementTurn
  blockRest : LoopsAt p (fun fuel (_ : Unit) => Parser.blockRest fuel) blockTurn
  arguments : ∀ closing, LoopsAt p (fun fuel (_ : Unit) => Parser.arguments fuel closing)
    (listTurn closing fun fuel => Parser.expression fuel 0)
  entries : LoopsAt p (fun fuel (_ : Unit) => Parser.entries fuel) (listTurn .rightBrace entry)
  parameters : LoopsAt p (fun fuel (_ : Unit) => Parser.parameters fuel)
    (listTurn .rightParen fun _ => identifier)
  continuations : ∀ strength,
    LoopsAt p (fun fuel => Parser.continuations fuel strength) (continuationTurn strength)
  /-- The end of the source is ahead, as the last token and nowhere else. -/
  ending : ∃ (front : List Lexeme) (last : Token), p.ahead = front ++ [.ok last] ∧
    last.kind = .finish ∧ ∀ x ∈ front, Lexer.isFinish x = false
  /-- A call that yields something has not taken the end. -/
  yields : ∀ (call : Call) (tree : Tree) (q : Parser), call.step p.fuelFor p = .ok tree q →
    ∃ taken : List Token, p.ahead = taken.map .ok ++ q.ahead ∧ ∀ t ∈ taken, t.kind ≠ .finish
  /-- A parser that asks for its tokens is given nothing behind the end. -/
  asks : (∃ s : Intake, s.Shows p) ∧ ∀ (s : Intake) (call : Call), s.Shows p →
    ∃ r, Runs (call.step p.fuelFor) s r ∧ Tallies s p r (call.step p.fuelFor p)

/-- The end of the source is the last thing that is read, and nothing else is. -/
theorem exists_finish (k : Cursor) : ∃ (front : List Lexeme) (last : Token),
    Lexer.lexemesFrom k = front ++ [.ok last] ∧ last.kind = .finish ∧
      ∀ x ∈ front, Lexer.isFinish x = false := by
  fun_induction Lexer.lexemesFrom k with
  | case1 k x k' heq hend =>
      cases x with
      | error e => cases hend
      | ok t => exact ⟨[], t, rfl, beq_iff_eq.1 hend, List.forall_mem_nil _⟩
  | case2 k x k' heq hmore _ ih =>
      obtain ⟨front, last, hsplit, hlast, hfront⟩ := ih
      refine ⟨x :: front, last, ?_, hlast, List.forall_mem_cons.2 ⟨?_, hfront⟩⟩
      · rw [hsplit, List.cons_append]
      · exact Bool.eq_false_iff.2 hmore

/-- The rest of the results of a source is read from some place of it. -/
theorem exists_cursor {k : Cursor} {rest : List Lexeme} (hrest : rest ≠ [])
    (h : rest <:+ Lexer.lexemesFrom k) : ∃ k', Lexer.lexemesFrom k' = rest := by
  fun_induction Lexer.lexemesFrom k with
  | case1 k x k' heq hend =>
      refine ⟨k, (Lexer.lexemesFrom_of_finish heq hend).trans ?_⟩
      rcases List.suffix_cons_iff.1 h with rfl | h
      · rfl
      · exact absurd (List.suffix_nil.1 h) hrest
  | case2 k x k' heq hmore _ ih =>
      rcases List.suffix_cons_iff.1 h with rfl | h
      · exact ⟨k, Lexer.lexemesFrom_of_more heq (Bool.eq_false_iff.2 hmore)⟩
      · exact ih h

/-- **Parsing ends**, wherever in a source it begins. Every call comes to an end. Expressions and
statements take a token. Every turn of a loop leaves it, fails or has taken a token. And the end of
the source is given at most once to a parser that asks for tokens, and nothing behind it: a call
that takes the end fails. -/
theorem parsing_ends (source : String) (p : Parser) (h : p.ahead <:+ Lexer.lexemes source) :
    Terminates p := by
  have hp : Ending p := .of_suffix h
  obtain ⟨k, hk⟩ : ∃ k, Lexer.lexemesFrom k = p.ahead := exists_cursor (List.cons_ne_nil _ _) h
  refine
    { call := fun call fuel hfuel => ?call
      expression := fun fuel strength e q hrun => takes_expression hp hrun
      statement := fun fuel s q hrun => takes_statement hp hrun
      statements := ⟨fun fuel _ => statements_eq_loop fuel, turnsTake_statementTurn hp⟩
      blockRest := ⟨fun fuel _ => blockRest_eq_loop fuel, turnsTake_blockTurn hp⟩
      arguments := fun closing => ⟨fun fuel _ => arguments_eq_loop closing fuel,
        turnsTake_listTurn closing takes_expression hp⟩
      entries := ⟨fun fuel _ => entries_eq_loop fuel, turnsTake_listTurn _ takes_entry hp⟩
      parameters := ⟨fun fuel _ => parameters_eq_loop fuel,
        turnsTake_listTurn _ takes_identifier hp⟩
      continuations := fun strength =>
        ⟨continuations_eq_loop strength, turnsTake_continuationTurn strength hp⟩
      ending := ?ending
      yields := fun call tree q hrun => ?yields
      asks := ⟨⟨⟨k, none, [], [], p.previousLine, p.loopDepth, p.functionDepth⟩,
        ⟨hk, rfl, rfl, rfl, rfl⟩⟩, fun s call hs => ?asks⟩ }
  case call =>
    obtain ⟨more, rfl⟩ := Nat.exists_eq_add_of_le' hfuel
    rcases (call.prolonged more p.fuelFor).agrees p with ⟨q, hq⟩ | hagrees
    · exact absurd hq (not_exhausted hp call q)
    · refine ⟨hagrees, fun q hq => ?_⟩
      exact not_exhausted hp call q (hagrees.symm.trans hq)
  case ending =>
    rw [← hk]
    exact exists_finish k
  case yields =>
    have hconcludes := concludes_step hp call p.fuelFor
    rw [hrun] at hconcludes
    cases hconcludes with
    | yields taken hkind hahead => exact ⟨taken, hahead, hkind⟩
  case asks => exact (careful_step call p.fuelFor none []).runs hp hs (standsAt_none p)

/-- A source that is cut off inside of a call. -/
theorem parsing_ends_cutOff :
    ((ofString "f(").read .program).1 = .error ⟨.endOfInput, ⟨2, 0⟩, 1⟩ ∧
      Terminates (ofString "f(") := by
  have htokens : Lexer.lexemes "f(" = [.ok ⟨.identifier, "f", ⟨0, 1⟩, 1⟩,
      .ok ⟨.leftParen, "(", ⟨1, 1⟩, 1⟩, .ok ⟨.finish, "", ⟨2, 0⟩, 1⟩] := by cbv
  refine ⟨?_, parsing_ends "f(" (ofString "f(") (ahead_after "f(" [])⟩
  rw [ofString, htokens]
  rfl

end Tracepoint.Parser
