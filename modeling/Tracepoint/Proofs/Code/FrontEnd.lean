/-
From a source to code, without a fault.

Reading tokens, parsing and compiling have places where they could go wrong: a third character is
put back, a span selects no text of the source, a number has no value, a row of nodes gets too long,
a reference leads out of its row, a jump is patched that was not emitted.  The lexer, the parser and
the compiler have been written with a guard at each of these places, and a parser that has not steps
enough counts as one that went wrong.  On sources of less than `2 ^ 32` bytes no guard is hit,
whatever calls are made of a parser.

Main definitions:

* `Tree.toProgram` — what a call yields, as a program.

Main results:

* `placed_of_read` — what a call yields is placed;
* `front_end_safe` — **no guard is hit**.
-/

import Mathlib
import Tracepoint.Proofs.Code.Assembled
import Tracepoint.Proofs.Grammar.Safety
import Tracepoint.Proofs.Token.Checked
import Tracepoint.Proofs.Token.Numerals

set_option relaxedAutoImplicit false
set_option autoImplicit false

namespace Tracepoint

/-- What a call yields as a program. An expression is a statement, which may be on any line. -/
def Tree.toProgram (line : ℕ) : Tree → Program
  | expression e => [.expression e line]
  | program statements => statements

namespace Parser

/-- **What a call yields is placed.** -/
theorem placed_of_read {p : Parser} {call : Call} {tree : Tree} (hp : p.AtDepths 0 0)
    (h : (p.read call).1 = .ok tree) (line : ℕ) : stmtsPlaced false false (tree.toProgram line) := by
  have hyields : Yields 0 0 (call.step p.fuelFor)
      fun tree => stmtsPlaced false false (tree.toProgram line) := by
    cases call with
    | expression => exact (yields_expression _ 0 0 0).map fun e he => ⟨he, trivial⟩
    | program => exact (yields_statements _ 0 0).map fun ss hss => hss
  rw [read_eq_run, run] at h
  split at h
  next tree' q hrun =>
    cases h
    exact (hyields p tree q hp hrun).2
  next => cases h
  next => cases h

/-- There are no more tokens behind a place of a source than bytes in the source. -/
theorem length_behind_le {source : String} {p : Parser} (h : p.ahead <:+ Lexer.lexemes source) :
    p.behind.length ≤ source.utf8ByteSize :=
  Nat.succ_le_succ_iff.1 (h.length_le.trans (Lexer.length_lexemes_le source))

theorem length_behind_after (source : String) (calls : List Call) :
    ((ofString source).after calls).behind.length ≤ source.utf8ByteSize :=
  length_behind_le (ahead_after source calls)

end Parser

/-- **From a source to code nothing goes wrong.** No character is put back where two are held
already.  The span of every token selects the text of the token, and numbers have values.  After any
calls of a parser, a further call hits no guard and comes to an end; and what it yields is compiled,
where every jump that is patched was emitted before. -/
theorem front_end_safe (source : String) (h : source.utf8ByteSize < UInt32.size) :
    (Lexer.lexemes? source : Option (List Lexeme)) = some (Lexer.lexemes source) ∧
    (∀ t : Token, .ok t ∈ Lexer.lexemes source →
      t.span.slice? source = some t.text ∧ t.span.stop < UInt32.size ∧
      (t.kind = .number →
        Decimal.IsNumeral t.text.toList ∧ (Decimal.numeral? t.text).isSome)) ∧
    ∀ (calls : List Parser.Call) (call : Parser.Call),
      let p := (Parser.ofString source).after calls
      Guarded.read? source p call = some (p.read call) ∧
      ∀ tree line, (p.read call).1 = .ok tree →
        Assemble.program (tree.toProgram line) = some (compileProgram (tree.toProgram line)) := by
  refine ⟨Lexer.lexemes?_eq source, fun t ht => ?_, fun calls call => ⟨?_, fun tree line htree => ?_⟩⟩
  · have hlies := Lexer.liesIn_lexemes ht
    refine ⟨hlies.slice?_eq, Nat.lt_of_le_of_lt hlies.stop_le h, fun hkind => ?_⟩
    have hnumeral := Lexer.isNumeral_of_mem ht hkind
    exact ⟨hnumeral, hnumeral.isSome_numeral?⟩
  · have hroom := Nat.lt_of_le_of_lt (Parser.length_behind_after source calls) h
    exact Guarded.read?_eq (Parser.ahead_after source calls) hroom call
  · exact Assemble.program_eq (Parser.placed_of_read (Parser.depths_after source calls) htree line)

/-- A loop that is left at once, with a number for a key in its condition. -/
def keyedLoop : Program :=
  [.whileLoop (.object [("1.5", .atom (.name "a") ⟨13, 1⟩ 1)]) (.breakLoop 1) 1]

/-- Its number has a value, and its two jumps forward are patched. -/
theorem front_end_safe_keyedLoop :
    "while ({1.5: a}) break;".utf8ByteSize < UInt32.size ∧
    (Lexer.lexemes? "while ({1.5: a}) break;" : Option (List Lexeme)) =
      some (Lexer.lexemes "while ({1.5: a}) break;") ∧
    (Span.mk 8 3).slice? "while ({1.5: a}) break;" = some "1.5" ∧
    Decimal.IsNumeral "1.5".toList ∧
    Guarded.read? "while ({1.5: a}) break;" (Parser.ofString "while ({1.5: a}) break;") .program =
      some ((Parser.ofString "while ({1.5: a}) break;").read .program) ∧
    ((Parser.ofString "while ({1.5: a}) break;").read .program).1 = .ok (.program keyedLoop) ∧
    Assemble.program keyedLoop = some (compileProgram keyedLoop) := by
  have hsize : "while ({1.5: a}) break;".utf8ByteSize < UInt32.size := by decide
  have hnumber : (Lexer.lexemes "while ({1.5: a}) break;" : List Lexeme)[3]? =
      some (.ok ⟨.number, "1.5", ⟨8, 3⟩, 1⟩) := by cbv
  have hread : ((Parser.ofString "while ({1.5: a}) break;").read .program).1 =
      .ok (.program keyedLoop) := by cbv
  obtain ⟨hlexer, htokens, hcalls⟩ := front_end_safe "while ({1.5: a}) break;" hsize
  obtain ⟨hslice, -, hnumeral⟩ := htokens _ (List.mem_of_getElem? hnumber)
  obtain ⟨hguarded, hcompiled⟩ := hcalls [] .program
  exact ⟨hsize, hlexer, hslice, (hnumeral rfl).1, hguarded, hread,
    hcompiled (.program keyedLoop) 1 hread⟩

end Tracepoint
