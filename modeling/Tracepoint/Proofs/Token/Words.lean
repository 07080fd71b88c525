/-
Lines of 32 bits.

What a cursor reads does not depend on what lines are counted in.  A map between line counters that
keeps the first line and the step from one line to the next carries every reader over, and so the
tokens and errors of a source.  Reduction to 32 bits is such a map: a source has the same tokens
whether its lines are counted by natural numbers or by words, with their lines reduced, and below
`2 ^ 32 - 1` line breaks nothing is lost.

Main definitions:

* `LineCount.Keeps` — a map between line counters that keeps first line and step;
* `Located.map`, `Cursor.map`, `Lexeme.map` and the like — the same with other lines.

Main results:

* `Cursor.advance_map`, `Cursor.peek_map`, `Lexer.skipGap_map`, `Lexer.readFrom_map` and the like — a
  reader carried over;
* `Lexer.lexemes_map` — **a source read in two line counters**;
* `Lexer.lexemes_word` — the lines of 32 bits;
* `Parser.ofWords_eq` — **a parser sees no difference below `2 ^ 32 - 1` line breaks**.
-/

import Tracepoint.Grammar.Parser
import Tracepoint.Proofs.Token.Spans

set_option relaxedAutoImplicit false
set_option autoImplicit false

namespace Tracepoint

variable {ν μ : Type}

/-! ### Other lines -/

/-- A map between line counters that keeps the first line and the step. -/
structure LineCount.Keeps [LineCount ν] [LineCount μ] (f : ν → μ) : Prop where
  first : f LineCount.first = LineCount.first
  next (line : ν) : f (LineCount.next line) = LineCount.next (f line)

/-- Reduction to 32 bits keeps first line and step. -/
theorem LineCount.keeps_word : LineCount.Keeps UInt32.ofNat where
  first := rfl
  next line := UInt32.ofNat_add line 1

section Map

variable (f : ν → μ)

def Located.map (c : Located ν) : Located μ :=
  ⟨c.char, c.offset, f c.line⟩

def Held.map : Held ν → Held μ
  | .none => .none
  | .one c => .one (c.map f)
  | .two c d => .two (c.map f) (d.map f)

def Cursor.map (k : Cursor ν) : Cursor μ :=
  ⟨k.rest, k.restOffset, f k.restLine, k.held.map f⟩

def Token.map (t : Token ν) : Token μ :=
  ⟨t.kind, t.text, t.span, f t.line⟩

def LexicalError.map (e : LexicalError ν) : LexicalError μ :=
  ⟨e.fault, e.span, f e.line⟩

def Lexeme.map : Lexeme ν → Lexeme μ
  | .ok t => .ok (t.map f)
  | .error e => .error (e.map f)

@[simp]
theorem Located.map_char (c : Located ν) : (c.map f).char = c.char :=
  rfl

@[simp]
theorem Located.map_offset (c : Located ν) : (c.map f).offset = c.offset :=
  rfl

@[simp]
theorem Located.map_line (c : Located ν) : (c.map f).line = f c.line :=
  rfl

theorem Cursor.hasRoom_map {k : Cursor ν} : (k.map f).HasRoom ↔ k.HasRoom := by
  obtain ⟨rest, offset, line, held⟩ := k
  cases held <;> exact Iff.rfl

@[simp]
theorem Cursor.offset_map (k : Cursor ν) : (k.map f).offset = k.offset := by
  obtain ⟨rest, offset, line, held⟩ := k
  cases held <;> rfl

@[simp]
theorem Cursor.line_map (k : Cursor ν) : (k.map f).line = f k.line := by
  obtain ⟨rest, offset, line, held⟩ := k
  cases held <;> rfl

theorem Cursor.putBack_map (k : Cursor ν) (c : Located ν) (room : k.HasRoom) :
    (k.putBack c room).map f = (k.map f).putBack (c.map f) ((hasRoom_map f).2 room) := by
  obtain ⟨rest, offset, line, held⟩ := k
  match held, room with
  | .none, _ => rfl
  | .one _, _ => rfl
  | .two _ _, room => exact absurd room (by simp [HasRoom, Held.HasRoom, Held.count])

end Map

variable [LineCount ν] [LineCount μ] {f : ν → μ}

/-! ### Readers -/

theorem lineAfter_map (hf : LineCount.Keeps f) (c : Char) (line : ν) :
    f (lineAfter c line) = lineAfter c (f line) := by
  rw [lineAfter, lineAfter]
  split
  · exact hf.next line
  · rfl

namespace Cursor

theorem advance_map (hf : LineCount.Keeps f) (k : Cursor ν) :
    (k.map f).advance = k.advance.map (Prod.map (Located.map f) (Cursor.map f)) := by
  obtain ⟨rest, offset, line, held⟩ := k
  cases held with
  | none =>
      cases rest with
      | nil => rfl
      | cons c cs =>
          have hline := lineAfter_map hf c line
          simp only [advance, map, Held.map, Option.map_some, Prod.map, Located.map, hline]
  | one c => rfl
  | two c d => rfl

theorem advance_map_none (hf : LineCount.Keeps f) {k : Cursor ν} (h : k.advance = none) :
    (k.map f).advance = none := by
  rw [advance_map hf, h, Option.map_none]

theorem advance_map_some (hf : LineCount.Keeps f) {k k' : Cursor ν} {c : Located ν}
    (h : k.advance = some (c, k')) : (k.map f).advance = some (c.map f, k'.map f) := by
  rw [advance_map hf, h, Option.map_some, Prod.map]

theorem peek_map (hf : LineCount.Keeps f) (k : Cursor ν) :
    (k.map f).peek = (k.peek.1, k.peek.2.map f) := by
  cases h : k.advance with
  | none => 
    have h' := advance_map_none hf h
    rw [peek, peek]
    grind
  | some p => 
    have h' := advance_map_some hf h
    have := putBack_map f p.2 p.1 (hasRoom_of_advance h)
    rw [peek, peek]
    grind [Located.map_char]

theorem takeIf_map (hf : LineCount.Keeps f) (expected : Char) (k : Cursor ν) :
    (k.map f).takeIf expected =
      ((k.takeIf expected).1.map (Located.map f), (k.takeIf expected).2.map f) := by
  cases h : k.advance with
  | none => 
    have h' := advance_map_none hf h
    rw [takeIf, takeIf]
    grind
  | some p => 
    have h' := advance_map_some hf h
    have := putBack_map f p.2 p.1 (hasRoom_of_advance h)
    rw [takeIf, takeIf]
    grind [Located.map_char]

theorem takeWhile_map (hf : LineCount.Keeps f) (p : Char → Bool) (k : Cursor ν) :
    (k.map f).takeWhile p = ((k.takeWhile p).1, (k.takeWhile p).2.map f) := by
  fun_induction Cursor.takeWhile p k with
  | case1 k h =>
    have h' := advance_map_none hf h
    rw [takeWhile]
    grind
  | case2 k c k' h hp _ cs last hrest ih =>
    have h' := advance_map_some hf h
    rw [takeWhile]
    grind [Located.map_char]
  | case3 k c k' h hp =>
    have h' := advance_map_some hf h
    have := putBack_map f k' c (hasRoom_of_advance h)
    rw [takeWhile]
    grind [Located.map_char]

end Cursor

namespace Lexer

open Cursor

variable (hf : LineCount.Keeps f)
include hf

theorem skipLine_map (k : Cursor ν) : skipLine (k.map f) = (skipLine k).map f := by
  fun_induction skipLine k with
  | case1 k h =>
      have h' := advance_map_none hf h
      rw [skipLine]
      grind
  | case2 k c k' h hbreak =>
      have h' := advance_map_some hf h
      rw [skipLine]
      grind [Located.map_char]
  | case3 k c k' h hbreak ih =>
      have h' := advance_map_some hf h
      rw [skipLine]
      grind [Located.map_char]

theorem skipBlock_map (k : Cursor ν) :
    skipBlock (k.map f) = ((skipBlock k).1, (skipBlock k).2.map f) := by
  fun_induction skipBlock k with
  | case1 k h =>
      have h' := advance_map_none hf h
      rw [skipBlock]
      grind
  | case2 k c k' h hstar d k'' ht =>
      have h' := advance_map_some hf h
      have ht' := takeIf_map hf '/' k'
      rw [skipBlock]
      grind [Located.map_char]
  | case3 k c k' h hstar k'' ht =>
      have h' := advance_map_some hf h
      have ht' := takeIf_map hf '/' k'
      rw [skipBlock]
      grind [Located.map_char]
  | case4 k c k' h hstar =>
      have h' := advance_map_some hf h
      rw [skipBlock]
      grind [Located.map_char]

theorem skipGap_map (k : Cursor ν) :
    skipGap (k.map f) = ((skipGap k).1.map (LexicalError.map f), (skipGap k).2.map f) := by
  fun_induction skipGap k with
  | case1 k h =>
      have h' := advance_map_none hf h
      rw [skipGap]
      grind
  | case2 k c k' h hblank =>
      have h' := advance_map_some hf h
      rw [skipGap]
      grind [Located.map_char]
  | case3 k c k' h _ _ _ ahead hp =>
      have h' := advance_map_some hf h
      have hp' := peek_map hf k'
      have := skipLine_map hf ahead
      rw [skipGap]
      grind [Located.map_char]
  | case4 k c k' h _ _ _ ahead hp ha =>
      have h' := advance_map_some hf h
      have hp' := peek_map hf k'
      have := advance_map_none hf ha
      rw [skipGap]
      grind [Located.map_char]
  | case5 k c k' h _ _ _ ahead hp d inside ha after hs =>
      have h' := advance_map_some hf h
      have hp' := peek_map hf k'
      have := advance_map_some hf ha
      have := skipBlock_map hf inside
      rw [skipGap]
      grind [Located.map_char]
  | case6 k c k' h _ _ _ ahead hp d inside ha after hs =>
      have h' := advance_map_some hf h
      have hp' := peek_map hf k'
      have := advance_map_some hf ha
      have := skipBlock_map hf inside
      rw [skipGap]
      grind [Located.map_char, Located.map_offset, Located.map_line, LexicalError.map, offset_map]
  | case7 k c k' h _ _ _ next? ahead _ _ hp =>
      have h' := advance_map_some hf h
      have hp' := peek_map hf k'
      have := putBack_map f ahead c (hasRoom_of_peek (hasRoom_of_advance h) hp)
      rw [skipGap]
      grind [Located.map_char]
  | case8 k c k' h =>
      have h' := advance_map_some hf h
      have := putBack_map f k' c (hasRoom_of_advance h)
      rw [skipGap]
      grind [Located.map_char]

theorem readString_map (quote : Char) (k : Cursor ν) :
    readString quote (k.map f) = ((readString quote k).1, (readString quote k).2.map f) := by
  fun_induction readString quote k with
  | case1 k h =>
      have h' := advance_map_none hf h
      rw [readString]
      grind
  | case2 k c k' h _ _ ha =>
      have h' := advance_map_some hf h
      have := advance_map_none hf ha
      rw [readString]
      grind [Located.map_char]
  | case3 k c k' h _ _ d k'' ha =>
      have h' := advance_map_some hf h
      have := advance_map_some hf ha
      rw [readString]
      grind [Located.map_char]
  | case4 k c k' h _ _ d k'' ha =>
      have h' := advance_map_some hf h
      have := advance_map_some hf ha
      rw [readString]
      grind [Located.map_char]
  | case5 k c k' h =>
      have h' := advance_map_some hf h
      rw [readString]
      grind [Located.map_char]
  | case6 k c k' h =>
      have h' := advance_map_some hf h
      rw [readString]
      grind [Located.map_char]
  | case7 k c k' h =>
      have h' := advance_map_some hf h
      rw [readString]
      grind [Located.map_char]

theorem readNumber_map (k : Cursor ν) :
    readNumber (k.map f) = ((readNumber k).1, (readNumber k).2.map f) := by
  have := takeWhile_map hf Decimal.isDigit
  cases h : (k.takeWhile Decimal.isDigit).2.advance with
  | none =>
      have h' := advance_map_none hf h
      rw [readNumber, readNumber]
      grind
  | some p =>
      have h' := advance_map_some hf h
      have hp' := peek_map hf p.2
      have := putBack_map f p.2 p.1 (hasRoom_of_advance h)
      have := putBack_map f p.2.peek.2 p.1 (hasRoom_peek (hasRoom_of_advance h))
      rw [readNumber, readNumber]
      grind [Located.map_char]

omit hf [LineCount ν] [LineCount μ] in
theorem makeToken_map (kind : Kind) (start : Located ν) (cs : List Char) :
    makeToken kind (start.map f) cs = (makeToken kind start cs).map f :=
  rfl

theorem readEquality_map (start : Located ν) (one two three : Kind) (k : Cursor ν) :
    readEquality (start.map f) one two three (k.map f) =
      ((readEquality start one two three k).1.map f,
        (readEquality start one two three k).2.map f) := by
  have := takeIf_map hf '=' k
  have := takeIf_map hf '=' (k.takeIf '=').2
  rw [readEquality, readEquality]
  grind [makeToken_map, Located.map_char]

theorem readOrEqual_map (start : Located ν) (one two : Kind) (k : Cursor ν) :
    readOrEqual (start.map f) one two (k.map f) =
      ((readOrEqual start one two k).1.map f, (readOrEqual start one two k).2.map f) := by
  have := takeIf_map hf '=' k
  rw [readOrEqual, readOrEqual]
  grind [makeToken_map, Located.map_char]

omit hf [LineCount ν] [LineCount μ] in
theorem unrecognized_map (c : Located ν) : unrecognized (c.map f) = (unrecognized c).map f :=
  rfl

theorem readDouble_map (start : Located ν) (kind : Kind) (k : Cursor ν) :
    readDouble (start.map f) kind (k.map f) =
      ((readDouble start kind k).1.map f, (readDouble start kind k).2.map f) := by
  have := takeIf_map hf start.char k
  rw [readDouble, readDouble]
  grind [makeToken_map, unrecognized_map, Lexeme.map, Located.map_char]

theorem readFrom_map (c : Located ν) (k : Cursor ν) :
    readFrom (c.map f) (k.map f) = ((readFrom c k).1.map f, (readFrom c k).2.map f) := by
  rw [readFrom, readFrom, Located.map_char]
  cases symbol? c.char with
  | some kind => rfl
  | none =>
      simp only [readEquality_map hf, readOrEqual_map hf, readDouble_map hf, readString_map hf,
        readNumber_map hf, takeWhile_map hf]
      split_ifs
      any_goals rfl
      -- An open string is left: its error reaches to where the cursor is.
      cases readString c.char k with
      | mk cs? k' =>
      cases cs? with
      | some cs => rfl
      | none => simp only [offset_map, Located.map_offset, Located.map_line, Lexeme.map, LexicalError.map]

omit hf [LineCount ν] [LineCount μ] in
theorem finish_map (k : Cursor ν) : finish (k.map f) = (finish k).map f := by
  rw [finish, finish, offset_map, line_map]
  rfl

theorem readToken_map (k : Cursor ν) :
    readToken (k.map f) = ((readToken k).1.map f, (readToken k).2.map f) := by
  rw [readToken, readToken, advance_map hf]
  cases k.advance with
  | none => 
    simp only [Option.map_none, finish_map]
    rfl
  | some p => exact readFrom_map hf p.1 p.2

/-- **One result in two line counters.** -/
theorem nextLexeme_map (k : Cursor ν) :
    nextLexeme (k.map f) = ((nextLexeme k).1.map f, (nextLexeme k).2.map f) := by
  rw [nextLexeme, nextLexeme, skipGap_map hf]
  cases skipGap k with
  | mk e? k' =>
    cases e? with
    | none => exact readToken_map hf k'
    | some e => rfl

omit hf [LineCount ν] [LineCount μ] in
theorem isFinish_map (x : Lexeme ν) : isFinish (x.map f) = isFinish x := by
  cases x <;> rfl

theorem lexemesFrom_map (k : Cursor ν) :
    lexemesFrom (k.map f) = (lexemesFrom k).map (Lexeme.map f) := by
  fun_induction lexemesFrom k with
  | case1 k x k' hread hend =>
    have := nextLexeme_map hf k
    have := isFinish_map (f := f) x
    rw [lexemesFrom]
    grind
  | case2 k x k' hread hmore _ ih =>
    have := nextLexeme_map hf k
    have := isFinish_map (f := f) x
    rw [lexemesFrom]
    grind

/-- **A source read in two line counters.** -/
theorem lexemes_map (source : String) :
    (lexemes source : List (Lexeme μ)) = (lexemes source : List (Lexeme ν)).map (Lexeme.map f) := by
  rw [lexemes, lexemes, ← lexemesFrom_map hf]
  exact congrArg lexemesFrom (congrArg (Cursor.mk _ _ · _) hf.first.symm)

/-! ### Lines of 32 bits -/

omit hf in
/-- **Lines of 32 bits are lines reduced to 32 bits.** -/
theorem lexemes_word (source : String) :
    (lexemes source : List (Lexeme UInt32)) =
      (lexemes source : List Lexeme).map (Lexeme.map UInt32.ofNat) :=
  lexemes_map LineCount.keeps_word source

omit hf [LineCount ν] [LineCount μ] in
theorem map_of_lineOf {g : ν → ν} {x : Lexeme ν} (h : g (lineOf x) = lineOf x) : x.map g = x := by
  cases x with
  | ok t => exact congrArg (fun line => (.ok ⟨t.kind, t.text, t.span, line⟩ : Lexeme ν)) h
  | error e => exact congrArg (fun line => (.error ⟨e.fault, e.span, line⟩ : Lexeme ν)) h

end Lexer

/-- At the start of a source whose lines are counted in 32 bits. -/
def Parser.ofWords (source : String) : Parser :=
  ofLexemes ((Lexer.lexemes source : List (Lexeme UInt32)).map (Lexeme.map UInt32.toNat))

/-- **A parser sees no difference** where 32 bits can count the lines. -/
theorem Parser.ofWords_eq {source : String} (h : source.toList.count '\n' < 2 ^ 32 - 1) :
    ofWords source = ofString source := by
  have hsame : ∀ x ∈ (Lexer.lexemes source : List Lexeme),
      ((Lexeme.map UInt32.toNat ∘ Lexeme.map UInt32.ofNat) x : Lexeme) = x := by
    intro x hx
    have hline := (Lexer.liesIn_lexemes hx).line_le
    rw [Text.lineBehind_nat] at hline
    have hword : (UInt32.ofNat (Lexer.lineOf x)).toNat = Lexer.lineOf x := by
      rw [UInt32.toNat_ofNat', Nat.mod_eq_of_lt (by omega)]
    exact (show _ = x.map (UInt32.toNat ∘ UInt32.ofNat) by cases x <;> rfl).trans
      (Lexer.map_of_lineOf hword)
  rw [ofWords, ofString, Lexer.lexemes_word, List.map_map, List.map_congr_left hsame, List.map_id']

end Tracepoint
