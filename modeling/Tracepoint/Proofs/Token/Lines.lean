/-
The lines of tokens.

Lines are counted from one, and they are never counted down.  So a cursor that is put to the start
of a source, and moved and put back in any way, only gives characters of lines behind zero; and a
token belongs to the line of the character it starts with.

Main definitions:

* `Cursor.From` — everything that is unread lies in some line or behind it;
* `Lexer.ReadFrom` — so do a token that was read and what is unread behind it.

Main results:

* `Cursor.From.advance`, `Cursor.From.putBack` — the moves of a cursor;
* `Lexer.from_skipGap`, `Lexer.readFrom_nextLexeme` — gaps and tokens;
* `Lexer.one_le_line` — **every token of a source belongs to a line from the first on**.
-/

import Mathlib.Data.Nat.Notation
import Tracepoint.Token.Lexer

set_option relaxedAutoImplicit false
set_option autoImplicit false

namespace Tracepoint

/-! ### Cursors -/

/-- Everything that is unread lies in line `n` or behind it. -/
structure Cursor.From (n : ℕ) (k : Cursor) : Prop where
  rest : n ≤ k.restLine
  held : ∀ c ∈ k.held.toList, n ≤ c.line

theorem le_lineAfter (c : Char) (line : ℕ) : line ≤ lineAfter c line := by
  rw [lineAfter]
  split
  · exact Nat.le_succ line
  · exact Nat.le_refl line

namespace Cursor.From

variable {n : ℕ} {k k' : Cursor} {c : Located}

theorem ofString (source : String) : (Cursor.ofString source).From 1 :=
  ⟨Nat.le_refl 1, fun _ hc => nomatch hc⟩

theorem line (h : k.From n) : n ≤ k.line := by
  have hheld := h.held
  rw [Cursor.line]
  split
  next => exact h.rest
  next c heq =>
    rw [heq] at hheld
    exact hheld c List.mem_cons_self
  next c d heq =>
    rw [heq] at hheld
    exact hheld c List.mem_cons_self

theorem advance (h : k.From n) (heq : k.advance = some (c, k')) : n ≤ c.line ∧ k'.From n := by
  have hheld := h.held
  rw [Cursor.advance] at heq
  split at heq
  next hk =>
    split at heq
    · cases heq
    · cases heq
      exact ⟨h.rest, Nat.le_trans h.rest (le_lineAfter _ _), fun _ hc => nomatch hc⟩
  next hk =>
    cases heq
    rw [hk] at hheld
    exact ⟨hheld c List.mem_cons_self, h.rest, fun _ hc => nomatch hc⟩
  next d hk =>
    cases heq
    rw [hk] at hheld
    exact ⟨hheld c List.mem_cons_self, h.rest,
      fun e he => hheld e (List.mem_cons_of_mem c he)⟩

theorem putBack (h : k.From n) (hc : n ≤ c.line) (room : k.HasRoom) :
    (k.putBack c room).From n := by
  refine ⟨h.rest, fun d hd => ?_⟩
  have hmem : d ∈ c :: k.held.toList := Held.toList_cons c k.held room ▸ hd
  rcases List.mem_cons.1 hmem with rfl | hd
  · exact hc
  · exact h.held d hd

theorem peek (h : k.From n) : k.peek.2.From n := by
  rw [Cursor.peek]
  split
  · exact h
  next c k' heq => exact (h.advance heq).2.putBack (h.advance heq).1 _

theorem of_peek {next? : Option Char} (h : k.From n) (heq : k.peek = (next?, k')) : k'.From n := by
  have hpeek := h.peek
  rw [heq] at hpeek
  exact hpeek

theorem takeIf (h : k.From n) (expected : Char) : (k.takeIf expected).2.From n := by
  rw [Cursor.takeIf]
  split
  · exact h
  next c k' heq =>
    split
    · exact (h.advance heq).2
    · exact (h.advance heq).2.putBack (h.advance heq).1 _

theorem of_takeIf {expected : Char} {c? : Option Located} (h : k.From n)
    (heq : k.takeIf expected = (c?, k')) : k'.From n := by
  have htake := h.takeIf expected
  rw [heq] at htake
  exact htake

theorem takeWhile (h : k.From n) (p : Char → Bool) : (k.takeWhile p).2.From n := by
  fun_induction Cursor.takeWhile p k with
  | case1 => exact h
  | case2 k c k' heq _ _ cs last hrest ih =>
      rw [hrest] at ih
      exact ih (h.advance heq).2
  | case3 k c k' heq => exact (h.advance heq).2.putBack (h.advance heq).1 _

end Cursor.From

/-! ### Gaps -/

namespace Lexer

variable {n : ℕ} {k : Cursor} {start : Located}

theorem from_skipLine (h : k.From n) : (skipLine k).From n := by
  fun_induction skipLine k with
  | case1 => exact h
  | case2 k c k' heq => exact (h.advance heq).2
  | case3 k c k' heq _ _ ih => exact ih (h.advance heq).2

theorem from_skipBlock (h : k.From n) : (skipBlock k).2.From n := by
  fun_induction skipBlock k with
  | case1 => exact h
  | case2 k c k' heq _ _ _ k'' htake => exact (h.advance heq).2.of_takeIf htake
  | case3 k c k' heq _ _ k'' htake _ ih => exact ih ((h.advance heq).2.of_takeIf htake)
  | case4 k c k' heq _ _ ih => exact ih (h.advance heq).2

theorem from_skipGap (h : k.From n) : (skipGap k).2.From n := by
  fun_induction skipGap k with
  | case1 => exact h
  | case2 k c k' heq _ _ ih => exact ih (h.advance heq).2
  | case3 k c k' heq _ _ _ ahead hpeek _ ih =>
      exact ih (from_skipLine ((h.advance heq).2.of_peek hpeek))
  | case4 k c k' heq _ _ _ ahead hpeek => exact (h.advance heq).2.of_peek hpeek
  | case5 k c k' heq _ _ _ ahead hpeek d inside hinside after hblock _ ih =>
      have hskip := from_skipBlock ((((h.advance heq).2.of_peek hpeek).advance hinside).2)
      rw [hblock] at hskip
      exact ih hskip
  | case6 k c k' heq _ _ _ ahead hpeek d inside hinside after hblock =>
      have hskip := from_skipBlock ((((h.advance heq).2.of_peek hpeek).advance hinside).2)
      rw [hblock] at hskip
      exact hskip
  | case7 k c k' heq _ _ _ next? ahead _ _ hpeek =>
      exact ((h.advance heq).2.of_peek hpeek).putBack (h.advance heq).1 _
  | case8 k c k' heq => exact (h.advance heq).2.putBack (h.advance heq).1 _

/-! ### Tokens -/

theorem from_readString (quote : Char) (h : k.From n) : (readString quote k).2.From n := by
  fun_induction readString quote k with
  | case1 => exact h
  | case2 k c k' heq => exact (h.advance heq).2
  | case3 k c k' heq _ _ d k'' heq' => exact ((h.advance heq).2.advance heq').2
  | case4 k c k' heq _ _ d k'' heq' _ _ cs last hrest ih =>
      rw [hrest] at ih
      exact ih ((h.advance heq).2.advance heq').2
  | case5 k c k' heq => exact (h.advance heq).2
  | case6 k c k' heq => exact (h.advance heq).2
  | case7 k c k' heq _ _ _ _ cs last hrest ih =>
      rw [hrest] at ih
      exact ih (h.advance heq).2

theorem from_readNumber (h : k.From n) : (readNumber k).2.From n := by
  have hfront := h.takeWhile Decimal.isDigit
  simp only [readNumber]
  split
  · exact hfront
  next c k₂ heq =>
    have hpoint := hfront.advance heq
    split
    · split
      · exact hpoint.2.peek.takeWhile _
      · exact hpoint.2.peek.putBack hpoint.1 _
    · exact hpoint.2.putBack hpoint.1 _

/-- What was read, if it is a token, and what is unread behind it lie in line `n` or behind it. -/
structure ReadFrom (n : ℕ) (read : Lexeme × Cursor) : Prop where
  token : ∀ t, read.1 = .ok t → n ≤ t.line
  behind : read.2.From n

theorem ReadFrom.made {kind : Kind} {cs : List Char} (hstart : n ≤ start.line) (h : k.From n) :
    ReadFrom n (.ok (makeToken kind start cs), k) := by
  refine ⟨fun t ht => ?_, h⟩
  cases ht
  exact hstart

theorem ReadFrom.failed {e : LexicalError} (h : k.From n) : ReadFrom n (.error e, k) :=
  ⟨fun _ ht => (nomatch ht), h⟩

theorem readFrom_readEquality (one two three : Kind) (hstart : n ≤ start.line) (h : k.From n) :
    ReadFrom n (.ok (readEquality start one two three k).1,
      (readEquality start one two three k).2) := by
  rw [readEquality]
  split
  next k' heq => exact .made hstart (h.of_takeIf heq)
  next c k' heq =>
    split
    next k'' heq' => exact .made hstart ((h.of_takeIf heq).of_takeIf heq')
    next d k'' heq' => exact .made hstart ((h.of_takeIf heq).of_takeIf heq')

theorem readFrom_readOrEqual (one two : Kind) (hstart : n ≤ start.line) (h : k.From n) :
    ReadFrom n (.ok (readOrEqual start one two k).1, (readOrEqual start one two k).2) := by
  rw [readOrEqual]
  split
  next k' heq => exact .made hstart (h.of_takeIf heq)
  next c k' heq => exact .made hstart (h.of_takeIf heq)

theorem readFrom_readDouble (kind : Kind) (hstart : n ≤ start.line) (h : k.From n) :
    ReadFrom n (readDouble start kind k) := by
  rw [readDouble]
  split
  next k' heq => exact .failed (h.of_takeIf heq)
  next c k' heq => exact .made hstart (h.of_takeIf heq)

theorem readFrom_readFrom {c : Located} (hc : n ≤ c.line) (h : k.From n) :
    ReadFrom n (readFrom c k) := by
  rw [readFrom]
  split
  · exact .made hc h
  split
  · exact readFrom_readEquality _ _ _ hc h
  split
  · exact readFrom_readEquality _ _ _ hc h
  split
  · exact readFrom_readOrEqual _ _ hc h
  split
  · exact readFrom_readOrEqual _ _ hc h
  split
  · exact readFrom_readDouble _ hc h
  split
  · exact readFrom_readDouble _ hc h
  split
  · have hstring := from_readString c.char h
    split
    next cs k' heq =>
      rw [heq] at hstring
      exact .made hc hstring
    next k' heq =>
      rw [heq] at hstring
      exact .failed hstring
  split
  · exact .made hc (from_readNumber h)
  split
  · exact .made hc (h.takeWhile _)
  · exact .failed h

theorem readFrom_nextLexeme (h : k.From n) : ReadFrom n (nextLexeme k) := by
  have hgap := from_skipGap h
  rw [nextLexeme]
  split
  next e k' heq =>
    rw [heq] at hgap
    exact .failed hgap
  next k' heq =>
    rw [heq] at hgap
    rw [readToken]
    split
    -- The end of the source lies in the line that the cursor is in.
    next =>
      refine ⟨fun t ht => ?_, hgap⟩
      cases ht
      exact hgap.line
    next c k'' hadvance =>
      exact readFrom_readFrom (hgap.advance hadvance).1 (hgap.advance hadvance).2

theorem le_line_of_lexemesFrom {t : Token} (h : k.From n) (ht : .ok t ∈ lexemesFrom k) :
    n ≤ t.line := by
  fun_induction lexemesFrom k with
  | case1 k lexeme k' heq =>
      have hread := readFrom_nextLexeme h
      rw [heq] at hread
      exact hread.token t (List.mem_singleton.1 ht).symm
  | case2 k lexeme k' heq _ _ ih =>
      have hread := readFrom_nextLexeme h
      rw [heq] at hread
      rcases List.mem_cons.1 ht with ht | ht
      · exact hread.token t ht.symm
      · exact ih hread.behind ht

/-- **Every token of a source belongs to a line from the first on.** -/
theorem one_le_line {source : String} {t : Token} (ht : .ok t ∈ lexemes source) : 1 ≤ t.line :=
  le_line_of_lexemesFrom (Cursor.From.ofString source) ht

end Lexer

end Tracepoint
