/-
The spans of the tokens of a source.

Every token and every error of a source, its end included, lies at its own place: its span starts
and ends between characters of the source, and selects the text of the token.  No two of them
start at the same place, since every one but the last stands for at least one character.

Main definitions:

* `Lexer.LiesIn` — a token or an error lies in a source.

Main results:

* `Lexer.liesIn_lexemes` — **all of a source lie in it**;
* `Lexer.LiesIn.slice?_eq` — **the span of a token selects its text**;
* `Lexer.pairwise_lexemes`, `Lexer.length_lexemes_le` — **they start one after the other**, and there
  are at most as many as bytes, but for the end of the source.
-/

import Tracepoint.Proofs.Token.Coverage

set_option relaxedAutoImplicit false
set_option autoImplicit false

namespace Tracepoint.Lexer

open Text

variable {ν : Type} [LineCount ν]

/-- The result stands for a text of the source, which may be empty only at its end. -/
def LiesIn (source : List Char) (x : Lexeme ν) : Prop :=
  ∃ before text after, source = before ++ text ++ after ∧
    spanOf x = ⟨bytes before, bytes text⟩ ∧ lineOf x = lineBehind before ∧
    (∀ t, x = .ok t → t.text = String.ofList text) ∧ (text = [] → isFinish x = true ∧ after = [])

theorem LiesIn.slice?_eq {source : String} {t : Token ν} (h : LiesIn source.toList (.ok t)) :
    t.span.slice? source = some t.text := by
  obtain ⟨before, text, after, hsource, hspan, -, htext, -⟩ := h
  rw [show t.span = _ from hspan, htext t rfl]
  exact Span.slice?_append hsource

theorem bytes_toList (source : String) : bytes source.toList = source.utf8ByteSize := by
  rw [bytes, String.ofList_toList]

theorem LiesIn.stop_le {source : String} {x : Lexeme ν} (h : LiesIn source.toList x) :
    (spanOf x).stop ≤ source.utf8ByteSize := by
  obtain ⟨before, text, after, hsource, hspan, -⟩ := h
  rw [hspan, ← bytes_toList, hsource, bytes_append, bytes_append]
  exact Nat.le_add_right _ _

/-- Nothing lies in a line behind the last one of the source. -/
theorem LiesIn.line_le {source : List Char} {x : Lexeme} (h : LiesIn source x) :
    lineOf x ≤ lineBehind source := by
  obtain ⟨before, text, after, rfl, -, hline, -⟩ := h
  rw [hline, lineBehind_nat, lineBehind_nat, List.append_assoc, List.count_append]
  exact Nat.add_le_add_left (Nat.le_add_right _ _) 1

theorem Covers.liesIn {x : Lexeme ν} {before text : List Char} (h : Covers x before text)
    (after : List Char) : LiesIn (before ++ text ++ after) x :=
  ⟨before, text, after, rfl, h.span, h.line, h.token, fun hnil => absurd hnil h.nonempty⟩

theorem liesIn_endOf (source : List Char) : LiesIn source (endOf source : Lexeme ν) := by
  refine ⟨source, [], [], by simp, rfl, rfl, fun t ht => ?_, fun _ => ⟨rfl, rfl⟩⟩
  cases ht
  rfl

/-- A result that is not the end of the source stands for the text behind a gap. -/
theorem covers_of_nextLexeme {k k' : Cursor ν} {x : Lexeme ν} {before after : List Char}
    (h : k.At before after) (hnext : nextLexeme k = (x, k')) (hmore : ¬isFinish x = true) :
    ∃ gap text rest, after = gap ++ (text ++ rest) ∧ Covers x (before ++ gap) text ∧
      k'.At (before ++ gap ++ text) rest := by
  rcases nextLexeme_at h with ⟨-, hx, -⟩ | ⟨gap, text, rest, -, hsplit, hcovers, hat⟩
  · rw [hnext] at hx
    obtain rfl : x = _ := hx
    exact absurd rfl hmore
  · rw [hnext] at hcovers hat
    exact ⟨gap, text, rest, hsplit, hcovers, hat⟩

/-- What a cursor leads to lies in the source, and not in what the cursor has read. -/
theorem liesIn_lexemesFrom {k : Cursor ν} {before after : List Char} (h : k.At before after) :
    ∀ x ∈ lexemesFrom k, LiesIn (before ++ after) x ∧ bytes before ≤ (spanOf x).start := by
  fun_induction lexemesFrom k generalizing before after with
  | case1 k x k' heq hend =>
      intro y hy
      obtain rfl := List.mem_singleton.1 hy
      rcases nextLexeme_at h with ⟨-, hx, -⟩ | ⟨gap, text, rest, -, rfl, hcovers, -⟩
      · rw [heq] at hx
        obtain rfl : y = _ := hx
        refine ⟨liesIn_endOf _, ?_⟩
        change bytes before ≤ bytes (before ++ after)
        rw [bytes_append]
        exact Nat.le_add_right _ _
      · rw [heq] at hcovers
        exact absurd hend (Bool.eq_false_iff.1 hcovers.more)
  | case2 k x k' heq hmore _ ih =>
      intro y hy
      obtain ⟨gap, text, rest, rfl, hcovers, hat⟩ := covers_of_nextLexeme h heq hmore
      rcases List.mem_cons.1 hy with rfl | hy
      · refine ⟨by simpa using hcovers.liesIn rest, ?_⟩
        rw [show spanOf y = _ from hcovers.span, bytes_append]
        exact Nat.le_add_right _ _
      · obtain ⟨hlies, hle⟩ := ih hat y hy
        refine ⟨by simpa using hlies, ?_⟩
        rw [bytes_append, bytes_append] at hle
        omega

/-- What a cursor leads to starts at one place after the other. -/
theorem pairwise_lexemesFrom {k : Cursor ν} {before after : List Char} (h : k.At before after) :
    (lexemesFrom k).Pairwise fun x y => (spanOf x).start < (spanOf y).start := by
  fun_induction lexemesFrom k generalizing before after with
  | case1 => exact List.pairwise_singleton _ _
  | case2 k x k' heq hmore _ ih =>
      obtain ⟨gap, text, rest, rfl, hcovers, hat⟩ := covers_of_nextLexeme h heq hmore
      refine List.pairwise_cons.2 ⟨fun y hy => ?_, ih hat⟩
      have hle := (liesIn_lexemesFrom hat y hy).2
      have hpos := bytes_pos hcovers.nonempty
      rw [show spanOf x = _ from hcovers.span]
      rw [bytes_append] at hle
      change bytes (before ++ gap) < _
      omega

/-- There are no more results than characters, but for the end of the source. -/
theorem length_lexemesFrom_le {k : Cursor ν} {before after : List Char} (h : k.At before after) :
    (lexemesFrom k).length ≤ bytes after + 1 := by
  fun_induction lexemesFrom k generalizing before after with
  | case1 => exact Nat.le_add_left _ _
  | case2 k x k' heq hmore _ ih =>
      obtain ⟨gap, text, rest, rfl, hcovers, hat⟩ := covers_of_nextLexeme h heq hmore
      have hrest := ih hat
      have hpos := bytes_pos hcovers.nonempty
      rw [List.length_cons, bytes_append, bytes_append]
      omega

/-- There is at least the end token. -/
theorem lexemesFrom_ne_nil (k : Cursor ν) : lexemesFrom k ≠ [] := by
  rw [lexemesFrom]
  split
  split
  · exact List.cons_ne_nil _ _
  · exact List.cons_ne_nil _ _

/-- Nothing but the end of the source comes last. -/
theorem isFinish_of_getLast? {k : Cursor ν} {x : Lexeme ν} (h : (lexemesFrom k).getLast? = some x) :
    isFinish x = true := by
  fun_induction lexemesFrom k with
  | case1 k y k' heq hend =>
      obtain rfl := Option.some.inj h
      exact hend
  | case2 k y k' heq hmore _ ih =>
      rw [List.getLast?_cons, List.getLast?_eq_some_getLast (lexemesFrom_ne_nil k')] at h
      rw [List.getLast?_eq_some_getLast (lexemesFrom_ne_nil k')] at ih
      exact ih h

/-- **Every token and every error of a source lies in it.** -/
theorem liesIn_lexemes {source : String} {x : Lexeme ν} (h : x ∈ lexemes source) :
    LiesIn source.toList x :=
  (liesIn_lexemesFrom (.ofString source) x h).1

/-- **There are no more tokens and errors than bytes**, but for the end of the source. -/
theorem length_lexemes_le (source : String) :
    (lexemes source : List (Lexeme ν)).length ≤ source.utf8ByteSize + 1 := by
  rw [← bytes_toList]
  exact length_lexemesFrom_le (.ofString source)

/-- **The tokens and errors of a source start at one place after the other.** -/
theorem pairwise_lexemes (source : String) :
    (lexemes source : List (Lexeme ν)).Pairwise fun x y => (spanOf x).start < (spanOf y).start :=
  pairwise_lexemesFrom (.ofString source)

end Tracepoint.Lexer
