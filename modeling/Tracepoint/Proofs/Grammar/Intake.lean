/-
Tokens that are asked for one at a time.

The parser of this library has all tokens of a source before it.  A parser need not: it may ask for
the next token only when it needs one, and hold it as long as it has only looked at it.  This file
follows the steps of the readers on such a parser, which keeps account of what it was given and of
what it took.  A careful step comes to the same end on both.  So the readers ask for every token
once, in order, lose none of those they hold, and ask for nothing behind the end of the source.

Main definitions:

* `Intake` — a parser that asks for one token at a time; `Intake.peek`, `Intake.next` — its steps;
* `Parser.Runs` — a reader runs on such a parser;
* `Intake.Shows` — such a parser has the same tokens before it as a parser that has them all.

Main results:

* `Parser.Careful.runs` — **a careful step comes to the same end**, and loses no token;
* `Parser.runs_statements` — statements are read up to the end of the source, which is then held;
* `Parser.program_reads_source` — **a program is read off all tokens of its source**, each of them
  asked for once, and the error of a place that cannot be read is that of the first such place.
-/

import Tracepoint.Proofs.Grammar.Faults

set_option relaxedAutoImplicit false
set_option autoImplicit false

namespace Tracepoint

/-- A parser that asks for a token when it needs one. -/
structure Intake where
  /-- Where the next token will be read. -/
  cursor : Cursor
  /-- What was looked at and not taken so far. -/
  held : Option Lexeme
  /-- All that was given by the lexer, in order. -/
  asked : List Lexeme
  /-- All that was taken, in order. -/
  taken : List Lexeme
  previousLine : ℕ
  loopDepth : ℕ
  functionDepth : ℕ

namespace Intake

/-- At the start of a source, where nothing was asked for. -/
def ofString (source : String) : Intake :=
  ⟨Cursor.ofString source, none, [], [], 1, 0, 0⟩

/-- What is ahead. It is asked for, if it is not held. -/
def look (s : Intake) : Lexeme × Intake :=
  match s.held with
  | some x => (x, s)
  | none =>
    let (x, cursor) := Lexer.nextLexeme s.cursor
    (x, { s with cursor, held := some x, asked := s.asked ++ [x] })

/-- What is taken is held no more. -/
def take (s : Intake) (x : Lexeme) : Intake :=
  { s with
    held := none
    taken := s.taken ++ [x]
    previousLine := match x with
      | .ok t => t.line
      | .error _ => s.previousLine }

/-- A token is given to the reader, a place that cannot be read makes it fail. -/
def answer (x : Lexeme) (s : Intake) : EStateM.Result Failure Intake Token :=
  match x with
  | .ok t => .ok t s
  | .error e => .error (.error (.ofLexical e)) s

/-- The token ahead. -/
def peek (s : Intake) : EStateM.Result Failure Intake Token :=
  answer s.look.1 s.look.2

/-- Takes the token ahead. -/
def next (s : Intake) : EStateM.Result Failure Intake Token :=
  answer s.look.1 (s.look.2.take s.look.1)

/-- Inside of one more loop. -/
def enterLoop (s : Intake) : Intake :=
  { s with loopDepth := s.loopDepth + 1 }

/-- Outside of a loop again. -/
def leaveLoop (s : Intake) : Intake :=
  { s with loopDepth := s.loopDepth - 1 }

/-- Inside of one more function. -/
def enterFunction (s : Intake) : Intake :=
  { s with loopDepth := 0, functionDepth := s.functionDepth + 1 }

/-- Outside of a function again. -/
def leaveFunction (loops : ℕ) (s : Intake) : Intake :=
  { s with loopDepth := loops, functionDepth := s.functionDepth - 1 }

/-- Leaves, whatever the outcome. -/
def left {α : Type} (leave : Intake → Intake) :
    EStateM.Result Failure Intake α → EStateM.Result Failure Intake α
  | .ok a s => .ok a (leave s)
  | .error e s => .error e (leave s)

/-- All that is still to be taken, up to the end of the source. -/
def pending (s : Intake) : List Lexeme :=
  match s.held with
  | none => Lexer.lexemesFrom s.cursor
  | some x => if Lexer.isFinish x then [x] else x :: Lexer.lexemesFrom s.cursor

end Intake

namespace Parser

/-- A step runs on a parser that asks for its tokens, and ends as told. Of such a parser a step
can see no more than the token ahead, the line of the token taken last and the depths. -/
inductive Runs : {α : Type} → Parse α → Intake → EStateM.Result Failure Intake α → Prop
  | pure {α : Type} (a : α) (s : Intake) : Runs (pure a) s (.ok a s)
  | throw {α : Type} (e : Failure) (s : Intake) : Runs (throw e : Parse α) s (.error e s)
  | get {α : Type} {f : Parser → Parse α} {s : Intake} {r : EStateM.Result Failure Intake α}
      (h : ∀ p : Parser, p.previousLine = s.previousLine → p.loopDepth = s.loopDepth →
        p.functionDepth = s.functionDepth → Runs (f p) s r) : Runs (get >>= f) s r
  | peek (s : Intake) : Runs peek s s.peek
  | next (s : Intake) : Runs next s s.next
  | bind {α β : Type} {x : Parse α} {f : α → Parse β} {s s' : Intake} {a : α}
      {r : EStateM.Result Failure Intake β} (hx : Runs x s (.ok a s')) (hf : Runs (f a) s' r) :
      Runs (x >>= f) s r
  | fail {α β : Type} {x : Parse α} {f : α → Parse β} {s s' : Intake} {e : Failure}
      (hx : Runs x s (.error e s')) : Runs (x >>= f) s (.error e s')
  | inLoop {α : Type} {x : Parse α} {s : Intake} {r : EStateM.Result Failure Intake α}
      (hx : Runs x s.enterLoop r) : Runs (inLoop x) s (Intake.left Intake.leaveLoop r)
  | inFunction {α : Type} {x : Parse α} {s : Intake} {r : EStateM.Result Failure Intake α}
      (hx : Runs x s.enterFunction r) :
      Runs (inFunction x) s (Intake.left (Intake.leaveFunction s.loopDepth) r)

end Parser

/-! ### One token -/

namespace Intake

/-- The parser `p` has all the tokens before it that `s` has still to ask for or holds. All that
was given to `s` it took or holds. -/
structure Shows (s : Intake) (p : Parser) : Prop where
  ahead : s.pending = p.ahead
  previousLine : s.previousLine = p.previousLine
  loopDepth : s.loopDepth = p.loopDepth
  functionDepth : s.functionDepth = p.functionDepth
  account : s.asked = s.taken ++ s.held.toList

namespace Shows

variable {s : Intake} {p : Parser}

theorem enterLoop (h : s.Shows p) : s.enterLoop.Shows p.enterLoop :=
  ⟨h.ahead, h.previousLine, congrArg (· + 1) h.loopDepth, h.functionDepth, h.account⟩

theorem leaveLoop (h : s.Shows p) : s.leaveLoop.Shows p.leaveLoop :=
  ⟨h.ahead, h.previousLine, congrArg (· - 1) h.loopDepth, h.functionDepth, h.account⟩

theorem enterFunction (h : s.Shows p) : s.enterFunction.Shows p.enterFunction :=
  ⟨h.ahead, h.previousLine, rfl, congrArg (· + 1) h.functionDepth, h.account⟩

theorem leaveFunction {loops loops' : ℕ} (h : s.Shows p) (hloops : loops = loops') :
    (s.leaveFunction loops).Shows (p.leaveFunction loops') :=
  ⟨h.ahead, h.previousLine, hloops, congrArg (· - 1) h.functionDepth, h.account⟩

end Shows

section

variable {s : Intake} {p : Parser} {x : Lexeme}

/-- What is still to be taken is the same, whether the first of it is held or not. -/
theorem pending_hold {k : Cursor} (hheld : s.held = some (Lexer.nextLexeme k).1)
    (hcursor : s.cursor = (Lexer.nextLexeme k).2) : s.pending = Lexer.lexemesFrom k := by
  simp only [pending, hheld, hcursor]
  split
  next hfinish => exact (Lexer.lexemesFrom_of_finish rfl hfinish).symm
  next hmore => exact (Lexer.lexemesFrom_of_more rfl (Bool.eq_false_iff.2 hmore)).symm

/-- What is held comes first. -/
theorem Shows.current_of_held (h : s.Shows p) (hheld : s.held = some x) : p.current = x := by
  have hfirst := h.ahead
  simp only [pending, hheld] at hfirst
  split at hfirst
  · exact (List.cons.inj hfirst).1.symm
  · exact (List.cons.inj hfirst).1.symm

theorem Shows.held_prefix (h : s.Shows p) : s.held.toList <+: p.ahead := by
  cases hheld : s.held with
  | none => exact List.nil_prefix
  | some x =>
      obtain rfl := h.current_of_held hheld
      exact ⟨p.behind, rfl⟩

/-- What is ahead is held behind a look at it. -/
theorem Shows.look (h : s.Shows p) : s.look.1 = p.current ∧ s.look.2.held = some p.current ∧
    s.look.2.taken = s.taken ∧ s.look.2.Shows p := by
  cases hheld : s.held with
  | some x =>
      have hlook : s.look = (x, s) := by rw [Intake.look, hheld]
      obtain rfl := h.current_of_held hheld
      rw [hlook]
      exact ⟨rfl, hheld, rfl, h⟩
  | none =>
      have hlook : s.look = ((Lexer.nextLexeme s.cursor).1, { s with
          cursor := (Lexer.nextLexeme s.cursor).2, held := some (Lexer.nextLexeme s.cursor).1,
          asked := s.asked ++ [(Lexer.nextLexeme s.cursor).1] }) := by
        rw [Intake.look, hheld]
      have hpending : s.look.2.pending = s.pending := by
        rw [hlook, pending_hold rfl rfl, pending, hheld]
      have hshows : s.look.2.Shows p := by
        refine ⟨hpending.trans h.ahead, ?_, ?_, ?_, ?_⟩ <;> rw [hlook]
        · exact h.previousLine
        · exact h.loopDepth
        · exact h.functionDepth
        · simp only [h.account, hheld, Option.toList_none, Option.toList_some, List.append_nil]
      have hcurrent : p.current = (Lexer.nextLexeme s.cursor).1 :=
        hshows.current_of_held (by rw [hlook])
      refine ⟨?_, ?_, ?_, hshows⟩
      · rw [hlook, hcurrent]
      · rw [hlook, hcurrent]
      · rw [hlook]

/-- What is held and then taken is accounted for. -/
theorem Shows.account_take (h : s.Shows p) (hheld : s.held = some x) :
    (s.take x).asked = (s.take x).taken := by
  change s.asked = s.taken ++ [x]
  rw [h.account, hheld, Option.toList_some]

/-- The rest is shown, when a token that is not the last one is taken. -/
theorem Shows.take {t : Token} (h : s.Shows p) (hheld : s.held = some (.ok t))
    (hp : p.Ending) (hkind : t.kind ≠ .finish) :
    (s.take (.ok t)).Shows { p.forward with previousLine := t.line } := by
  have hmore : Lexer.isFinish (.ok t) = false := beq_eq_false_iff_ne.2 hkind
  have hpending : s.pending = .ok t :: (s.take (.ok t)).pending := by
    simp only [pending, hheld, hmore, Intake.take]
    rfl
  have hahead := hpending.symm.trans h.ahead
  have hforward := hahead.trans (hp.ahead_forward (h.current_of_held hheld) hkind t.line)
  refine ⟨(List.cons.inj hforward).2, rfl, ?_, ?_, ?_⟩
  · exact h.loopDepth.trans (Parser.Reaches.forward p).loopDepth.symm
  · exact h.functionDepth.trans (Parser.Reaches.forward p).functionDepth.symm
  · rw [h.account_take hheld]
    exact (List.append_nil _).symm

end

end Intake

namespace Parser

variable {α β : Type} {here : Option Token} {seen : List Token} {s s' : Intake} {p q : Parser}

theorem runs_peek (h : s.Shows p) : ∃ s' : Intake, Runs peek s (Intake.answer p.current s') ∧
    s'.held = some p.current ∧ s'.taken = s.taken ∧ s'.Shows p := by
  obtain ⟨hcurrent, hheld, htaken, hshows⟩ := h.look
  have hpeek : s.peek = Intake.answer p.current s.look.2 := by rw [Intake.peek, hcurrent]
  exact ⟨s.look.2, hpeek ▸ Runs.peek s, hheld, htaken, hshows⟩

theorem runs_next (h : s.Shows p) : ∃ s' : Intake, Runs next s (Intake.answer p.current s') ∧
    s'.held = none ∧ s'.taken = s.taken ++ [p.current] ∧ s'.asked = s'.taken ∧
      ∀ t, p.current = .ok t → Ending p → t.kind ≠ .finish →
        s'.Shows { p.forward with previousLine := t.line } := by
  obtain ⟨hcurrent, hheld, htaken, hshows⟩ := h.look
  have hnext : s.next = Intake.answer p.current (s.look.2.take p.current) := by
    rw [Intake.next, hcurrent]
  refine ⟨s.look.2.take p.current, hnext ▸ Runs.next s, rfl, congrArg (· ++ [p.current]) htaken,
    hshows.account_take hheld, fun t ht hp hkind => ?_⟩
  rw [ht] at hheld ⊢
  exact hshows.take hheld hp hkind

/-! ### Whole readers -/

/-- What was taken from `s` on, and what is held then, was ahead of `p`. A step that yields
something leaves behind it just what it took. -/
inductive Tallies (s : Intake) (p : Parser) :
    EStateM.Result Failure Intake α → EStateM.Result Failure Parser α → Prop
  | yields {a : α} {s' : Intake} {q : Parser} (front : List Lexeme)
      (htaken : s'.taken = s.taken ++ front) (hahead : p.ahead = front ++ q.ahead)
      (hshows : s'.Shows q) : Tallies s p (.ok a s') (.ok a q)
  | fails {e : Failure} {s' : Intake} {q : Parser} (front : List Lexeme)
      (htaken : s'.taken = s.taken ++ front) (haccount : s'.asked = s'.taken ++ s'.held.toList)
      (hahead : front ++ s'.held.toList <+: p.ahead) : Tallies s p (.error e s') (.error e q)

namespace Tallies

variable {r : EStateM.Result Failure Intake α} {r' : EStateM.Result Failure Parser α}

/-- What comes behind the results that were taken before. -/
theorem behind {front : List Lexeme} (htaken : s'.taken = s.taken ++ front)
    (hahead : p.ahead = front ++ q.ahead) (h : Tallies s' q r r') : Tallies s p r r' := by
  cases h with
  | yields front' htaken' hahead' hshows =>
      refine .yields (front ++ front') ?_ ?_ hshows
      · rw [htaken', htaken, List.append_assoc]
      · rw [hahead, hahead', List.append_assoc]
  | fails front' htaken' haccount hahead' =>
      refine .fails (front ++ front') ?_ haccount ?_
      · rw [htaken', htaken, List.append_assoc]
      · rw [hahead, List.append_assoc]
        exact (List.prefix_append_right_inj front).2 hahead'

/-- A look changes nothing. -/
theorem behind_look (htaken : s'.taken = s.taken) (h : Tallies s' p r r') : Tallies s p r r' :=
  h.behind (htaken.trans (List.append_nil _).symm) rfl

/-- A step that fails where it begins. -/
theorem stays (h : s.Shows p) (e : Failure) : Tallies (α := α) s p (.error e s) (.error e p) :=
  .fails [] (List.append_nil _).symm h.account h.held_prefix

/-- A step that fails with what it takes. -/
theorem stops (hheld : s'.held = none) (htaken : s'.taken = s.taken ++ [p.current])
    (hasked : s'.asked = s'.taken) (e : Failure) :
    Tallies (α := α) s p (.error e s') (.error e q) := by
  refine .fails [p.current] htaken ?_ ?_
  · rw [hasked, hheld, Option.toList_none, List.append_nil]
  · rw [hheld]
    exact ⟨p.behind, rfl⟩

/-- Depths are no matter, if both sides leave in the same way. -/
theorem nested {enter : Parser → Parser} {leave : Parser → Parser → Parser}
    {leave' : Intake → Intake} {x : Parse α} (haround : Around enter leave)
    (hleave : ∀ s' q, s'.Shows q → (leave' s').Shows (leave p q))
    (hkeep : ∀ s', (leave' s').asked = s'.asked ∧ (leave' s').taken = s'.taken ∧
      (leave' s').held = s'.held)
    (h : Tallies s' (enter p) r (x (enter p))) (htaken : s'.taken = s.taken) :
    Tallies s p (Intake.left leave' r) (nested enter leave x p) := by
  have henter := haround.ahead_enter p
  simp only [Parser.nested]
  generalize x (enter p) = r' at h
  cases h with
  | yields front htaken' hahead hshows =>
      refine .yields front ?_ ?_ (hleave _ _ hshows)
      · rw [(hkeep _).2.1, htaken', htaken]
      · rw [haround.ahead_leave, ← henter, hahead]
  | @fails e s'' q front htaken' haccount hahead =>
      obtain ⟨hasked, htaken'', hheld⟩ := hkeep s''
      refine .fails front ?_ ?_ ?_
      · rw [htaken'', htaken', htaken]
      · rw [hasked, htaken'', hheld, haccount]
      · rw [hheld, ← henter]
        exact hahead

end Tallies

/-- **A careful step comes to the same end**, whether it asks for the tokens or has them all. What
it is given it takes or holds, and it is given what is ahead, in order, and nothing twice. -/
theorem Careful.runs {x : Parse α} (h : Careful here seen x) (hp : Ending p) (hs : s.Shows p)
    (hhere : p.StandsAt here) :
    ∃ r, Runs x s r ∧ Tallies s p r (x p) := by
  induction h generalizing p s with
  | pure a => exact ⟨_, .pure a s, .yields [] (List.append_nil _).symm rfl hs⟩
  | exhausted => exact ⟨_, .throw _ s, .stays hs _⟩
  | failAt hfault ht => exact ⟨_, .throw _ s, .stays hs _⟩
  | @ahead _ _ seen f _ ih =>
      obtain ⟨s₁, hpeek, -, htaken, hshows⟩ := runs_peek hs
      simp only [Bind.bind, EStateM.bind, Parser.peek]
      cases hcurrent : p.current with
      | error e =>
          rw [hcurrent] at hpeek
          exact ⟨_, .fail hpeek, (Tallies.stays hshows _).behind_look htaken⟩
      | ok t =>
          rw [hcurrent] at hpeek
          obtain ⟨r, hrun, htallies⟩ := ih t hp hshows (standsAt_some hcurrent)
          exact ⟨r, .bind hpeek hrun, htallies.behind_look htaken⟩
  | @taken _ _ seen f _ hend ih =>
      obtain ⟨s₁, hnext, hheld, htaken, hasked, hshows⟩ := runs_next hs
      simp only [Bind.bind, EStateM.bind, Parser.next]
      cases hcurrent : p.current with
      | error e =>
          rw [hcurrent] at hnext
          exact ⟨_, .fail hnext, .stops hheld htaken hasked _⟩
      | ok t =>
          by_cases hkind : t.kind = .finish
          · obtain ⟨fault, -, heq⟩ := hend t hkind
            rw [hcurrent] at hnext
            dsimp only
            rw [heq]
            exact ⟨_, .bind hnext (heq ▸ Runs.throw _ s₁), .stops hheld htaken hasked _⟩
          · have hahead := hp.ahead_forward hcurrent hkind t.line
            obtain ⟨r, hrun, htallies⟩ := ih t hkind (hp.behind hahead)
              (hshows t hcurrent hp hkind) (standsAt_none _)
            rw [hcurrent] at hnext htaken
            exact ⟨r, .bind hnext hrun, htallies.behind htaken hahead⟩
  | @take _ t seen f hkind _ ih =>
      obtain ⟨s₁, hnext, -, htaken, -, hshows⟩ := runs_next hs
      have hcurrent := hhere t rfl
      have hahead := hp.ahead_forward hcurrent hkind t.line
      obtain ⟨r, hrun, htallies⟩ :=
        ih (hp.behind hahead) (hshows t hcurrent hp hkind) (standsAt_none _)
      rw [hcurrent] at hnext htaken
      simp only [Bind.bind, EStateM.bind, Parser.next, hcurrent]
      exact ⟨r, .bind hnext hrun, htallies.behind htaken hahead⟩
  | @get _ _ seen f hsame _ ih =>
      obtain ⟨r, hrun, htallies⟩ := ih p hp hs hhere
      refine ⟨r, .get fun p' hline hloops hfunctions => ?_, htallies⟩
      rw [hsame p' p (hline.trans hs.previousLine) (hloops.trans hs.loopDepth)
        (hfunctions.trans hs.functionDepth)]
      exact hrun
  | @bind _ _ _ seen x f _ _ ihx ihf =>
      obtain ⟨r, hrun, htallies⟩ := ihx hp hs hhere
      simp only [Bind.bind, EStateM.bind]
      generalize x p = r' at htallies
      cases htallies with
      | fails front htaken haccount hahead =>
          exact ⟨_, .fail hrun, .fails front htaken haccount hahead⟩
      | yields front htaken hahead hshows =>
          obtain ⟨r, hrest, htallies⟩ := ihf _ (hp.behind hahead) hshows (standsAt_none _)
          exact ⟨r, .bind hrun hrest, htallies.behind htaken hahead⟩
  | inLoop _ ih =>
      obtain ⟨r, hrun, htallies⟩ := ih (p := p.enterLoop) hp hs.enterLoop hhere
      exact ⟨_, .inLoop hrun, .nested .loop (fun _ _ => .leaveLoop) (fun _ => ⟨rfl, rfl, rfl⟩)
        htallies rfl⟩
  | inFunction _ ih =>
      obtain ⟨r, hrun, htallies⟩ := ih (p := p.enterFunction) hp hs.enterFunction hhere
      exact ⟨_, .inFunction hrun, .nested .function (fun _ _ hq => hq.leaveFunction hs.loopDepth)
        (fun _ => ⟨rfl, rfl, rfl⟩) htallies rfl⟩

/-! ### Programs -/

theorem shows_ofString (source : String) :
    (Intake.ofString source).Shows (Parser.ofString source) := by
  obtain ⟨first, behind, heq⟩ :=
    List.exists_cons_of_ne_nil (Lexer.lexemesFrom_ne_nil (Cursor.ofString source : Cursor))
  have hparser : Parser.ofString source = ⟨first, behind, 1, 0, 0⟩ := by
    rw [Parser.ofString, Lexer.lexemes, heq]
    rfl
  refine ⟨(ahead_ofString source).symm, ?_, ?_, ?_, rfl⟩ <;> rw [hparser] <;> rfl

/-- What a chain of steps yields is yielded by its second part behind its first part. -/
theorem bind_eq_ok {x : Parse α} {f : α → Parse β} {b : β} (h : (x >>= f) p = .ok b q) :
    ∃ a p', x p = .ok a p' ∧ f a p' = .ok b q := by
  simp only [Bind.bind, EStateM.bind] at h
  split at h
  next a p' hrun => exact ⟨a, p', hrun, h⟩
  next => cases h

/-- A look at a token leaves the parser where it is. -/
theorem peek_bind_eq_ok {f : Token → Parse β} {b : β} (h : (peek >>= f) p = .ok b q) :
    ∃ t, p.current = .ok t ∧ f t p = .ok b q := by
  obtain ⟨t, p', hlook, hrest⟩ := bind_eq_ok h
  simp only [Parser.peek] at hlook
  split at hlook
  next t' hcurrent =>
    cases hlook
    exact ⟨t, hcurrent, hrest⟩
  next => cases hlook

/-- **Statements are read up to the end of the source**: whatever was ahead was taken, but for the
end, which was looked at. -/
theorem runs_statements {fuel : ℕ} {program : Program} (hp : Ending p) (hs : s.Shows p)
    (h : statements fuel p = .ok program q) :
    ∃ (front : List Lexeme) (last : Token) (s' : Intake),
      Runs (statements fuel) s (.ok program s') ∧ p.ahead = front ++ [.ok last] ∧
        q.ahead = [.ok last] ∧ last.kind = .finish ∧ s'.taken = s.taken ++ front ∧
        s'.asked = s'.taken ++ [.ok last] ∧ s'.held = some (.ok last) := by
  induction fuel generalizing s p program with
  | zero =>
      rw [statements] at h
      cases h
  | succ fuel ih =>
      rw [statements] at h ⊢
      obtain ⟨t, hcurrent, h⟩ := peek_bind_eq_ok h
      obtain ⟨s₁, hpeek, hheld, htaken, hshows⟩ := runs_peek hs
      rw [hcurrent] at hpeek hheld
      split at h
      next hkind =>
        obtain ⟨rfl, rfl⟩ : [] = program ∧ p = q := by
          cases h
          exact ⟨rfl, rfl⟩
        have hahead : p.ahead = [.ok t] := by
          rw [← hshows.ahead, Intake.pending, hheld]
          exact if_pos (beq_iff_eq.2 hkind)
        refine ⟨[], t, s₁, .bind hpeek ?_, hahead, hahead, hkind,
          htaken.trans (List.append_nil _).symm, ?_, hheld⟩
        · rw [if_pos hkind]
          exact .pure _ _
        · rw [hshows.account, hheld, Option.toList_some]
      next hkind =>
        obtain ⟨first, p₂, hfirst, h⟩ := bind_eq_ok h
        obtain ⟨rest, p₃, hrest, h⟩ := bind_eq_ok h
        cases h
        obtain ⟨r, hrun, htallies⟩ :=
          (careful_statement fuel none []).runs hp hshows (standsAt_none p)
        rw [hfirst] at htallies
        cases htallies with
        | @yields _ s₂ _ front htaken₂ hahead₂ hshows₂ =>
        obtain ⟨front', last, s₃, hrun₃, hahead₃, hq, hlast, htaken₃, hasked, hheld₃⟩ :=
          ih (hp.behind hahead₂) hshows₂ hrest
        refine ⟨front ++ front', last, s₃, .bind hpeek ?_, ?_, hq, hlast, ?_, hasked, hheld₃⟩
        · rw [if_neg hkind]
          exact .bind hrun (.bind hrun₃ (.pure _ _))
        · rw [hahead₂, hahead₃, List.append_assoc]
        · rw [htaken₃, htaken₂, htaken, List.append_assoc]

/-- **A program is read off all tokens of its source.** If a source is a program, all of it can be
read, and a parser that asks for one token at a time is given every token of it, up to the end,
once and in order; it takes all of them but the end, which it holds. If the error is that of a place
that cannot be read, this is the first such place in the source. -/
theorem program_reads_source (source : String) :
    match parse source with
    | .ok program => ∃ (tokens : List Token) (last : Token) (s : Intake),
        Lexer.lexemes source = (tokens ++ [last]).map .ok ∧ last.kind = .finish ∧
        Runs (statements (Parser.ofString source).fuelFor) (Intake.ofString source)
          (.ok program s) ∧
        s.asked = Lexer.lexemes source ∧ s.taken = tokens.map .ok ∧ s.held = some (.ok last)
    | .error e => e.fault.code = "LX001" → ∃ (tokens : List Token) (l : LexicalError)
        (rest : List Lexeme),
        Lexer.lexemes source = tokens.map .ok ++ .error l :: rest ∧ e = .ofLexical l := by
  have hahead := ahead_ofString source
  have hp : Ending (Parser.ofString source) := .of_suffix (ahead_after source [])
  have hconcludes := (careful_statements (Parser.ofString source).fuelFor none []).concludes hp
    (standsAt_none _)
  have hexhausted := not_exhausted hp .program
  simp only [parse, Parser.program, run]
  cases hrun : statements (Parser.ofString source).fuelFor (Parser.ofString source) with
  | ok program q =>
      rw [hrun] at hconcludes
      cases hconcludes with
      | yields taken hkind htokens =>
      obtain ⟨front, last, s, hruns, hfront, hq, hlast, htaken, hasked, hheld⟩ :=
        runs_statements hp (shows_ofString source) hrun
      have heq : taken.map .ok = front := by
        rw [hfront, hq] at htokens
        exact (List.append_cancel_right htokens).symm
      refine ⟨taken, last, s, ?_, hlast, hruns, ?_, htaken.trans heq.symm, hheld⟩
      · rw [← hahead, htokens, hq, List.map_append]
        rfl
      · rw [hasked, htaken, ← hahead, hfront]
        rfl
  | error failure q =>
      cases failure with
      | exhausted =>
          refine absurd ?_ (hexhausted q)
          simp only [Call.step, Functor.map, EStateM.map, hrun]
      | error e =>
          intro hcode
          rw [hrun] at hconcludes
          cases hconcludes with
          | unreadable taken l rest htokens => exact ⟨taken, l, rest, hahead ▸ htokens, rfl⟩
          | @refused _ fault hfault t ht => exact absurd hcode (fault.ofToken_iff.1 hfault)

/-- The first place that cannot be read comes behind a statement. -/
theorem program_reads_source_unrecognized :
    parse "; @ $" = .error (.ofLexical ⟨.unrecognized '@', ⟨2, 1⟩, 1⟩) ∧
      ∃ (tokens : List Token) (rest : List Lexeme), Lexer.lexemes "; @ $" =
        tokens.map .ok ++ .error ⟨.unrecognized '@', ⟨2, 1⟩, 1⟩ :: rest := by
  have hparse : parse "; @ $" = .error (.ofLexical ⟨.unrecognized '@', ⟨2, 1⟩, 1⟩) := by cbv
  have hread := program_reads_source "; @ $"
  rw [hparse] at hread
  obtain ⟨tokens, ⟨fault, span, line⟩, rest, hlexemes, hl⟩ := hread rfl
  cases hl
  exact ⟨hparse, tokens, rest, hlexemes⟩

end Parser

end Tracepoint
