/-
Every character of a source is accounted for.

A source is read piece by piece.  A piece is a gap, which holds only blanks and comments, and the
text of one result behind it, a token or an error.  What is left behind the last piece is a gap as
well, in which the last comment need not end; from there on every result is the end of the source.

Main definitions:

* `Lexer.Gap`, `Lexer.LastGap` — blanks and comments, between results and behind the last one;
* `Lexer.Covers` — a result stands for a text at its place;
* `Lexer.resultFrom` — what the lexer gives when it is asked again and again, errors or not;
* `Lexer.Piece` — a gap with the text of the result behind it.

Main results:

* `Cursor.At.skipLine`, `Cursor.At.skipBlock`, `Cursor.At.skipGap` — gaps are skipped;
* `Cursor.At.readFrom` — a token or an error behind its first character;
* `Cursor.At.nextLexeme` — **one result** with the gap in front of it;
* `Lexer.exists_pieces` — the whole of what is unread;
* `Lexer.accounts_for_source` — **gaps and results make up the source**.
-/

import Mathlib.Data.List.Infix
import Tracepoint.Proofs.Token.Position

set_option relaxedAutoImplicit false
set_option autoImplicit false

namespace Tracepoint

open Text

variable {ν : Type} [LineCount ν]

/-! ### Gaps -/

namespace Lexer

/-- Blanks and comments that end. A block comment ends at the first closing mark. -/
inductive Gap : List Char → Prop
  | nil : Gap []
  | blank {c : Char} {gap : List Char} (isBlank : Text.isBlank c = true) (rest : Gap gap) :
      Gap (c :: gap)
  | line {body gap : List Char} (inLine : '\n' ∉ body) (rest : Gap gap) :
      Gap ('/' :: '/' :: (body ++ '\n' :: gap))
  | block {body gap : List Char} (first : ¬['*', '/'] <:+: body ++ ['*']) (rest : Gap gap) :
      Gap ('/' :: '*' :: (body ++ '*' :: '/' :: gap))

/-- A gap in which the last line comment may be ended by the end of the source. -/
def LastGap (cs : List Char) : Prop :=
  Gap cs ∨ ∃ gap body, Gap gap ∧ '\n' ∉ body ∧ cs = gap ++ '/' :: '/' :: body

theorem LastGap.behind {front cs : List Char} (hfront : ∀ gap, Gap gap → Gap (front ++ gap))
    (h : LastGap cs) : LastGap (front ++ cs) := by
  rcases h with h | ⟨gap, body, hgap, hbody, rfl⟩
  · exact Or.inl (hfront _ h)
  · exact Or.inr ⟨front ++ gap, body, hfront _ hgap, hbody, (List.append_assoc ..).symm⟩

end Lexer

namespace Cursor.At

open Lexer

variable {k k' : Cursor ν} {before after : List Char}

/-- The rest of a line comment. -/
theorem skipLine (h : k.At before after) :
    (∃ body rest, after = body ++ '\n' :: rest ∧ '\n' ∉ body ∧
      (skipLine k).At (before ++ body ++ ['\n']) rest) ∨
    ('\n' ∉ after ∧ (Lexer.skipLine k).At (before ++ after) []) := by
  fun_induction Lexer.skipLine k generalizing before after with
  | case1 k hadvance =>
      obtain rfl := h.nil_of_advance hadvance
      exact Or.inr ⟨List.not_mem_nil, by simpa using h⟩
  | case2 k c k' hadvance _ hc =>
      obtain ⟨rest, rfl, -, -, hat⟩ := h.of_advance hadvance
      rw [hc] at hat ⊢
      exact Or.inl ⟨[], rest, rfl, List.not_mem_nil, by simpa using hat⟩
  | case3 k c k' hadvance _ hc ih =>
      obtain ⟨rest, rfl, -, -, hat⟩ := h.of_advance hadvance
      have hne : '\n' ≠ c.char := fun heq => hc heq.symm
      rcases ih hat with ⟨body, rest, rfl, hbody, hskip⟩ | ⟨hrest, hskip⟩
      · exact Or.inl ⟨c.char :: body, rest, rfl, List.not_mem_cons_of_ne_of_not_mem hne hbody,
          by simpa using hskip⟩
      · exact Or.inr ⟨List.not_mem_cons_of_ne_of_not_mem hne hrest, by simpa using hskip⟩

/-- No closing mark starts with a character that is no star, or that no slash follows. -/
theorem not_closing_cons {c : Char} {cs : List Char} (hc : c ≠ '*' ∨ cs.head? ≠ some '/')
    (h : ¬['*', '/'] <:+: cs) : ¬['*', '/'] <:+: c :: cs := by
  intro hinfix
  rcases List.infix_cons_iff.1 hinfix with hprefix | hinfix
  · obtain ⟨rest, hrest⟩ := hprefix
    obtain ⟨rfl, rfl⟩ := List.cons.inj hrest
    rcases hc with hc | hc
    · exact hc rfl
    · exact hc rfl
  · exact h hinfix

/-- The rest of a block comment, if it ends. -/
theorem skipBlock (h : k.At before after) :
    ((skipBlock k).1 = true → ∃ body rest, after = body ++ '*' :: '/' :: rest ∧
      ¬['*', '/'] <:+: body ++ ['*'] ∧
        (Lexer.skipBlock k).2.At (before ++ body ++ ['*', '/']) rest) ∧
    ((Lexer.skipBlock k).1 = false → (Lexer.skipBlock k).2.At (before ++ after) []) := by
  fun_induction Lexer.skipBlock k generalizing before after with
  | case1 k hadvance =>
      obtain rfl := h.nil_of_advance hadvance
      exact ⟨fun htrue => (by cases htrue), fun _ => by simpa using h⟩
  | case2 k c k' hadvance _ hc d k'' htake =>
      obtain ⟨rest, rfl, -, -, hat⟩ := h.of_advance hadvance
      rcases hat.takeIf htake with ⟨hnone, -, -⟩ | ⟨d', rest, -, rfl, hat'⟩
      · cases hnone
      rw [hc] at hat' ⊢
      refine ⟨fun _ => ⟨[], rest, rfl, ?_, by simpa using hat'⟩, fun hfalse => by cases hfalse⟩
      rw [List.nil_append]
      exact fun hinfix => absurd hinfix.length_le (by simp)
  | case3 k c k' hadvance _ hc k'' htake _ ih =>
      obtain ⟨rest, rfl, -, -, hat⟩ := h.of_advance hadvance
      rcases hat.takeIf htake with ⟨-, hhead, hat'⟩ | ⟨d, cs, hsome, -, -⟩
      · obtain ⟨hclosed, hopen⟩ := ih hat'
        refine ⟨fun htrue => ?_, fun hfalse => by simpa using hopen hfalse⟩
        obtain ⟨body, rest, rfl, hbody, hskip⟩ := hclosed htrue
        refine ⟨c.char :: body, rest, rfl, ?_, by simpa using hskip⟩
        refine not_closing_cons (Or.inr ?_) hbody
        cases body with
        | nil => exact fun heq => by cases heq
        | cons e body => exact hhead
      · cases hsome
  | case4 k c k' hadvance _ hc ih =>
      obtain ⟨rest, rfl, -, -, hat⟩ := h.of_advance hadvance
      obtain ⟨hclosed, hopen⟩ := ih hat
      refine ⟨fun htrue => ?_, fun hfalse => by simpa using hopen hfalse⟩
      obtain ⟨body, rest, rfl, hbody, hskip⟩ := hclosed htrue
      exact ⟨c.char :: body, rest, rfl, not_closing_cons (Or.inl hc) hbody, by simpa using hskip⟩

end Cursor.At

namespace Lexer

omit [LineCount ν] in
/-- Where a result lies. -/
def spanOf : Lexeme ν → Span
  | .ok t => t.span
  | .error e => e.span

omit [LineCount ν] in
/-- The line that a result starts in. -/
def lineOf : Lexeme ν → ν
  | .ok t => t.line
  | .error e => e.line

/-- A result that is not the end of the source stands for `text`, which comes behind `before`. -/
structure Covers (x : Lexeme ν) (before text : List Char) : Prop where
  more : isFinish x = false
  nonempty : text ≠ []
  span : spanOf x = ⟨bytes before, bytes text⟩
  line : lineOf x = lineBehind before
  token : ∀ t, x = .ok t → t.text = String.ofList text

/-- A character that comes behind `before`. -/
structure Starts (c : Located ν) (before : List Char) : Prop where
  offset : c.offset = bytes before
  line : c.line = lineBehind before

/-- An error that reaches from a character to where the cursor is. -/
theorem Starts.failed {c : Located ν} {k : Cursor ν} {before text rest : List Char}
    (hc : Starts c before) (h : k.At (before ++ text) rest) (htext : text ≠ [])
    (fault : LexicalFault) :
    Covers (.error ⟨fault, ⟨c.offset, k.offset - c.offset⟩, c.line⟩) before text := by
  refine ⟨rfl, htext, ?_, hc.line, nofun⟩
  change Span.mk c.offset (k.offset - c.offset) = _
  rw [h.offset_eq, hc.offset, bytes_append, Nat.add_sub_cancel_left]

/-- What is skipped of `after`, which is unread behind `before`. -/
inductive Skips (before after : List Char) : Option (LexicalError ν) × Cursor ν → Prop
  /-- A gap. -/
  | gap {gap rest : List Char} {k : Cursor ν} (isGap : Gap gap) (split : after = gap ++ rest)
      (behind : k.At (before ++ gap) rest) : Skips before after (none, k)
  /-- All of it. -/
  | all {k : Cursor ν} (isLast : LastGap after) (behind : k.At (before ++ after) []) :
      Skips before after (none, k)
  /-- A gap with a comment behind it that does not end. -/
  | unclosed {gap text : List Char} {e : LexicalError ν} {k : Cursor ν} (isGap : Gap gap)
      (split : after = gap ++ text) (covers : Covers (.error e) (before ++ gap) text)
      (behind : k.At (before ++ after) []) : Skips before after (some e, k)

variable {before after front : List Char}

/-- A blank or a comment in front of what is skipped. -/
theorem Skips.cons {read : Option (LexicalError ν) × Cursor ν}
    (hfront : ∀ gap, Gap gap → Gap (front ++ gap)) (h : Skips (before ++ front) after read) :
    Skips before (front ++ after) read := by
  cases h with
  | @gap gap rest k isGap split behind =>
      rw [List.append_assoc] at behind
      exact .gap (hfront gap isGap) (by rw [split, List.append_assoc]) behind
  | all isLast behind =>
      rw [List.append_assoc] at behind
      exact .all (isLast.behind hfront) behind
  | @unclosed gap text e k isGap split covers behind =>
      rw [List.append_assoc] at covers behind
      exact .unclosed (hfront gap isGap) (by rw [split, List.append_assoc]) covers behind

/-- Behind the last character there is nothing to skip. -/
theorem Skips.of_nil {read : Option (LexicalError ν) × Cursor ν} (h : Skips before [] read) :
    read.1 = none ∧ read.2.At before [] := by
  cases h with
  | gap isGap split behind =>
      obtain ⟨rfl, rfl⟩ := List.nil_eq_append_iff.1 split
      exact ⟨rfl, by simpa using behind⟩
  | all isLast behind => exact ⟨rfl, by simpa using behind⟩
  | unclosed isGap split covers behind =>
      obtain ⟨rfl, rfl⟩ := List.nil_eq_append_iff.1 split
      exact absurd rfl covers.nonempty

end Lexer

namespace Cursor.At

open Lexer

variable {k k' : Cursor ν} {before after : List Char}

/-- A line comment, whose second slash is unread, and what is skipped behind it. -/
theorem skips_line {read : Option (LexicalError ν) × Cursor ν} (h : k.At (before ++ ['/']) ('/' :: after))
    (ih : ∀ {before after}, (Lexer.skipLine k).At before after → Skips before after read) :
    Skips before ('/' :: '/' :: after) read := by
  rcases h.skipLine with ⟨body, rest, hsplit, hbody, hskip⟩ | ⟨hbody, hskip⟩
  · -- The body begins with the second slash.
    obtain ⟨body, rfl⟩ : ∃ body', body = '/' :: body' := by
      cases body with
      | nil => cases hsplit
      | cons d body => exact ⟨body, by rw [(List.cons.inj hsplit).1]⟩
    rw [hsplit]
    have hfront : ∀ gap, Gap gap → Gap ('/' :: '/' :: body ++ ['\n'] ++ gap) := by
      intro gap hgap
      have hline := Gap.line (fun hmem => hbody (List.mem_cons_of_mem _ hmem)) hgap
      simpa using hline
    have hat : (Lexer.skipLine k).At (before ++ ('/' :: '/' :: body ++ ['\n'])) rest := by
      simpa using hskip
    simpa using (ih hat).cons hfront
  · obtain ⟨hnone, hend⟩ := (ih hskip).of_nil
    have hlast : LastGap ('/' :: '/' :: after) :=
      Or.inr ⟨[], after, .nil, fun hmem => hbody (List.mem_cons_of_mem _ hmem), rfl⟩
    have hall : read.2.At (before ++ '/' :: '/' :: after) [] := by simpa using hend
    exact (Prod.ext hnone rfl : read = (none, _)) ▸ .all hlast hall

/-- A block comment that ends, with its opening mark behind, and what is skipped behind it. -/
theorem skips_block {read : Option (LexicalError ν) × Cursor ν}
    (h : k.At (before ++ ['/', '*']) after) (hblock : Lexer.skipBlock k = (true, k'))
    (ih : ∀ {before after}, k'.At before after → Skips before after read) :
    Skips before ('/' :: '*' :: after) read := by
  have hclosed := h.skipBlock.1
  rw [hblock] at hclosed
  obtain ⟨body, rest, rfl, hbody, hskip⟩ := hclosed rfl
  have hfront : ∀ gap, Gap gap → Gap ('/' :: '*' :: body ++ ['*', '/'] ++ gap) := by
    intro gap hgap
    simpa using Gap.block hbody hgap
  have hat : k'.At (before ++ ('/' :: '*' :: body ++ ['*', '/'])) rest := by
    simpa using hskip
  simpa using (ih hat).cons hfront

/-- **Blanks and comments are skipped.** -/
theorem skipGap (h : k.At before after) : Skips before after (skipGap k) := by
  fun_induction Lexer.skipGap k generalizing before after with
  | case1 k hadvance =>
      obtain rfl := h.nil_of_advance hadvance
      exact .all (Or.inl .nil) (by simpa using h)
  | case2 k c k' hadvance _ hc ih =>
      obtain ⟨rest, rfl, -, -, hat⟩ := h.of_advance hadvance
      exact (ih hat).cons fun gap hgap => .blank hc hgap
  | case3 k c k' hadvance _ _ hc ahead hpeek _ ih =>
      obtain ⟨rest, rfl, -, -, hat⟩ := h.of_advance hadvance
      obtain ⟨hhead, hahead⟩ := hat.peek hpeek
      obtain ⟨rest, rfl⟩ := List.head?_eq_some_iff.1 hhead.symm
      rw [hc] at hahead ⊢
      exact hahead.skips_line ih
  | case4 k c k' hadvance _ _ _ ahead hpeek hnone =>
      obtain ⟨rest, rfl, -, -, hat⟩ := h.of_advance hadvance
      obtain ⟨hhead, hahead⟩ := hat.peek hpeek
      rw [hahead.nil_of_advance hnone] at hhead
      cases hhead
  | case5 k c k' hadvance _ _ hc ahead hpeek d inside hinside k'' hblock _ ih =>
      obtain ⟨rest, rfl, -, -, hat⟩ := h.of_advance hadvance
      obtain ⟨hhead, hahead⟩ := hat.peek hpeek
      obtain ⟨rest, rfl⟩ := List.head?_eq_some_iff.1 hhead.symm
      obtain ⟨rest', hsplit, -, -, hinner⟩ := hahead.of_advance hinside
      obtain ⟨hd, rfl⟩ := List.cons.inj hsplit
      rw [hc, ← hd, List.append_assoc] at hinner
      rw [hc]
      exact skips_block hinner hblock ih
  | case6 k c k' hadvance _ _ hc ahead hpeek d inside hinside k'' hblock =>
      obtain ⟨rest, rfl, hoffset, hline, hat⟩ := h.of_advance hadvance
      obtain ⟨-, hahead⟩ := hat.peek hpeek
      obtain ⟨rest, rfl, -, -, hinner⟩ := hahead.of_advance hinside
      have hopen := hinner.skipBlock.2
      rw [hblock] at hopen
      have hend : k''.At (before ++ c.char :: d.char :: rest) [] := by simpa using hopen rfl
      refine .unclosed .nil rfl ?_ hend
      rw [List.append_nil]
      exact Starts.failed ⟨hoffset, hline⟩ hend (List.cons_ne_nil _ _) _
  | case7 k c k' hadvance _ _ _ next? ahead _ _ hpeek =>
      obtain ⟨rest, rfl, hoffset, hline, hat⟩ := h.of_advance hadvance
      have hroom := hasRoom_of_peek (hasRoom_of_advance hadvance) hpeek
      have hback := (hat.peek hpeek).2.putBack hoffset hline hroom
      exact .gap .nil rfl (by simpa using hback)
  | case8 k c k' hadvance =>
      obtain ⟨rest, rfl, hoffset, hline, hat⟩ := h.of_advance hadvance
      have hback := hat.putBack hoffset hline (hasRoom_of_advance hadvance)
      exact .gap .nil rfl (by simpa using hback)

/-! ### Tokens -/

/-- A string, or as much of it as there is in its line. -/
theorem readString (quote : Char) (h : k.At before after) :
    ∃ text rest, after = text ++ rest ∧ (readString quote k).2.At (before ++ text) rest ∧
      ∀ cs, (Lexer.readString quote k).1 = some cs → cs = text := by
  fun_induction Lexer.readString quote k generalizing before after with
  | case1 k hadvance =>
      obtain rfl := h.nil_of_advance hadvance
      exact ⟨[], [], rfl, by simpa using h, fun cs hcs => by cases hcs⟩
  | case2 k c k' hadvance _ _ hend =>
      obtain ⟨rest, rfl, -, -, hat⟩ := h.of_advance hadvance
      exact ⟨[c.char], rest, rfl, hat, fun cs hcs => by cases hcs⟩
  | case3 k c k' hadvance _ _ d k'' hinner =>
      obtain ⟨rest, rfl, -, -, hat⟩ := h.of_advance hadvance
      obtain ⟨rest, rfl, -, -, hat'⟩ := hat.of_advance hinner
      exact ⟨[c.char, d.char], rest, rfl, by simpa using hat', fun cs hcs => by cases hcs⟩
  | case4 k c k' hadvance _ _ d k'' hinner _ _ cs? last hrest ih =>
      obtain ⟨rest, rfl, -, -, hat⟩ := h.of_advance hadvance
      obtain ⟨rest, rfl, -, -, hat'⟩ := hat.of_advance hinner
      obtain ⟨text, rest, rfl, hlast, hcs⟩ := ih hat'
      rw [hrest] at hlast hcs
      refine ⟨c.char :: d.char :: text, rest, rfl, by simpa using hlast, fun cs heq => ?_⟩
      obtain ⟨ds, hds, rfl⟩ := Option.map_eq_some_iff.1 heq
      rw [hcs ds hds]
  | case5 k c k' hadvance =>
      obtain ⟨rest, rfl, -, -, hat⟩ := h.of_advance hadvance
      exact ⟨[c.char], rest, rfl, hat, fun cs hcs => by cases hcs⟩
  | case6 k c k' hadvance =>
      obtain ⟨rest, rfl, -, -, hat⟩ := h.of_advance hadvance
      exact ⟨[c.char], rest, rfl, hat, fun cs hcs => (Option.some.inj hcs).symm⟩
  | case7 k c k' hadvance _ _ _ _ cs? last hrest ih =>
      obtain ⟨rest, rfl, -, -, hat⟩ := h.of_advance hadvance
      obtain ⟨text, rest, rfl, hlast, hcs⟩ := ih hat
      rw [hrest] at hlast hcs
      refine ⟨c.char :: text, rest, rfl, by simpa using hlast, fun cs heq => ?_⟩
      obtain ⟨ds, hds, rfl⟩ := Option.map_eq_some_iff.1 heq
      rw [hcs ds hds]

/-- A number: a point belongs to it only if digits follow. -/
theorem readNumber (h : k.At before after) :
    ∃ rest, after = (readNumber k).1 ++ rest ∧
      (Lexer.readNumber k).2.At (before ++ (Lexer.readNumber k).1) rest := by
  obtain ⟨hfront, hat⟩ := h.takeWhile Decimal.isDigit
  have hsplit : after = (k.takeWhile Decimal.isDigit).1 ++ after.dropWhile Decimal.isDigit := by
    rw [hfront, List.takeWhile_append_dropWhile]
  rw [← hfront] at hat
  simp only [Lexer.readNumber]
  split
  · exact ⟨_, hsplit, hat⟩
  next c k₂ hadvance =>
    obtain ⟨rest, hrest, hoffset, hline, hat₂⟩ := hat.of_advance hadvance
    have hpoint : after = (k.takeWhile Decimal.isDigit).1 ++ c.char :: rest := hrest ▸ hsplit
    split
    next hc =>
      have hpeek : k₂.peek = (k₂.peek.1, k₂.peek.2) := rfl
      have hat₃ : k₂.peek.2.At _ rest := (hat₂.peek hpeek).2
      split
      · obtain ⟨hback, hlast⟩ := hat₃.takeWhile Decimal.isDigit
        refine ⟨rest.dropWhile Decimal.isDigit, ?_, ?_⟩
        · rw [hpoint, hback, hc, List.append_assoc, List.cons_append,
            List.takeWhile_append_dropWhile]
        · rw [← hback, hc] at hlast
          simpa using hlast
      · exact ⟨_, hpoint, hat₃.putBack hoffset hline _⟩
    · exact ⟨_, hpoint, hat₂.putBack hoffset hline _⟩

end Cursor.At

namespace Lexer

variable {k : Cursor ν} {c : Located ν} {before after text rest : List Char}

/-- A result that stands for the beginning of `after` has been read. -/
def Reads (before after : List Char) (read : Lexeme ν × Cursor ν) : Prop :=
  ∃ text rest, after = text ++ rest ∧ Covers read.1 before text ∧ read.2.At (before ++ text) rest

theorem Starts.made {kind : Kind} (hc : Starts c before) (hkind : kind ≠ .finish)
    (htext : text ≠ []) (h : k.At (before ++ text) rest) :
    Reads before (text ++ rest) (.ok (makeToken kind c text), k) := by
  refine ⟨text, rest, rfl, ⟨?_, htext, ?_, hc.line, ?_⟩, h⟩
  · exact beq_false_of_ne hkind
  · change Span.mk c.offset (bytes text) = _
    rw [hc.offset]
  · intro t ht
    cases ht
    rfl

theorem Starts.unrecognized (hc : Starts c before) (h : k.At (before ++ [c.char]) rest) :
    Reads before (c.char :: rest) (.error (unrecognized c), k) := by
  refine ⟨[c.char], rest, rfl, ⟨rfl, List.cons_ne_nil _ _, ?_, hc.line, nofun⟩, h⟩
  change Span.mk c.offset c.char.utf8Size = _
  rw [hc.offset, bytes_singleton]

theorem Starts.readEquality {one two three : Kind} (hc : Starts c before)
    (h : k.At (before ++ [c.char]) after) (hone : one ≠ .finish) (htwo : two ≠ .finish)
    (hthree : three ≠ .finish) :
    Reads before (c.char :: after)
      (.ok (readEquality c one two three k).1, (readEquality c one two three k).2) := by
  simp only [Lexer.readEquality]
  split
  next k' htake =>
    rcases h.takeIf htake with ⟨-, -, hat⟩ | ⟨d, cs, hsome, -, -⟩
    · exact hc.made hone (List.cons_ne_nil _ _) hat
    · cases hsome
  next d k' htake =>
    rcases h.takeIf htake with ⟨hnone, -, -⟩ | ⟨d, cs, -, rfl, hat⟩
    · cases hnone
    split
    next k'' htake' =>
      rcases hat.takeIf htake' with ⟨-, -, hat'⟩ | ⟨e, cs, hsome, -, -⟩
      · exact hc.made htwo (List.cons_ne_nil _ _) (by simpa using hat')
      · cases hsome
    next e k'' htake' =>
      rcases hat.takeIf htake' with ⟨hnone, -, -⟩ | ⟨e, cs, -, rfl, hat'⟩
      · cases hnone
      · exact hc.made hthree (List.cons_ne_nil _ _) (by simpa using hat')

theorem Starts.readOrEqual {one two : Kind} (hc : Starts c before)
    (h : k.At (before ++ [c.char]) after) (hone : one ≠ .finish) (htwo : two ≠ .finish) :
    Reads before (c.char :: after)
      (.ok (readOrEqual c one two k).1, (readOrEqual c one two k).2) := by
  simp only [Lexer.readOrEqual]
  split
  next k' htake =>
    rcases h.takeIf htake with ⟨-, -, hat⟩ | ⟨d, cs, hsome, -, -⟩
    · exact hc.made hone (List.cons_ne_nil _ _) hat
    · cases hsome
  next d k' htake =>
    rcases h.takeIf htake with ⟨hnone, -, -⟩ | ⟨d, cs, -, rfl, hat⟩
    · cases hnone
    · exact hc.made htwo (List.cons_ne_nil _ _) (by simpa using hat)

theorem Starts.readDouble {kind : Kind} (hc : Starts c before)
    (h : k.At (before ++ [c.char]) after) (hkind : kind ≠ .finish) :
    Reads before (c.char :: after) (readDouble c kind k) := by
  simp only [Lexer.readDouble]
  split
  next k' htake =>
    rcases h.takeIf htake with ⟨-, -, hat⟩ | ⟨d, cs, hsome, -, -⟩
    · exact hc.unrecognized hat
    · cases hsome
  next d k' htake =>
    rcases h.takeIf htake with ⟨hnone, -, -⟩ | ⟨d, cs, -, rfl, hat⟩
    · cases hnone
    · exact hc.made hkind (List.cons_ne_nil _ _) (by simpa using hat)

theorem symbol?_ne_finish {c : Char} {kind : Kind} (h : symbol? c = some kind) :
    kind ≠ .finish := by
  unfold symbol? at h
  split at h <;> cases h <;> decide

theorem keyword?_ne_finish (text : String) : (keyword? text).getD .identifier ≠ .finish := by
  have hkeywords : ∀ kind ∈ keywords, kind ≠ .finish := by decide
  cases hfound : keyword? text with
  | none => exact nofun
  | some kind => exact hkeywords kind (List.mem_of_find?_eq_some hfound)

/-- **A token or an error** behind its first character. -/
theorem Starts.readFrom (hc : Starts c before) (h : k.At (before ++ [c.char]) after) :
    Reads before (c.char :: after) (readFrom c k) := by
  rw [Lexer.readFrom]
  split
  next kind hkind => exact hc.made (symbol?_ne_finish hkind) (List.cons_ne_nil _ _) h
  split
  · exact hc.readEquality h (by decide) (by decide) (by decide)
  split
  · exact hc.readEquality h (by decide) (by decide) (by decide)
  split
  · exact hc.readOrEqual h (by decide) (by decide)
  split
  · exact hc.readOrEqual h (by decide) (by decide)
  split
  · exact hc.readDouble h (by decide)
  split
  · exact hc.readDouble h (by decide)
  split
  · obtain ⟨text, rest, rfl, hat, htext⟩ := h.readString c.char
    have hat' : (readString c.char k).2.At (before ++ c.char :: text) rest := by simpa using hat
    split
    next cs k' hread =>
      rw [hread] at hat' htext
      obtain rfl := htext cs rfl
      have hkind : Kind.string ≠ .finish := by decide
      exact hc.made hkind (List.cons_ne_nil _ _) hat'
    next k' hread =>
      rw [hread] at hat'
      exact ⟨_, rest, rfl, hc.failed hat' (List.cons_ne_nil _ _) _, hat'⟩
  split
  · obtain ⟨rest, hsplit, hat⟩ := h.readNumber
    have hkind : Kind.number ≠ .finish := by decide
    have hat' : (readNumber k).2.At (before ++ c.char :: (readNumber k).1) rest := by
      simpa using hat
    rw [hsplit]
    exact hc.made hkind (List.cons_ne_nil _ _) hat'
  split
  · obtain ⟨hcs, hat⟩ := h.takeWhile continuesName
    rw [← hcs] at hat
    have hat' : (k.takeWhile continuesName).2.At
        (before ++ c.char :: (k.takeWhile continuesName).1) (after.dropWhile continuesName) := by
      simpa using hat
    have hsplit : after =
        (k.takeWhile continuesName).1 ++ after.dropWhile continuesName := by
      rw [hcs, List.takeWhile_append_dropWhile]
    rw [hsplit]
    exact hc.made (keyword?_ne_finish _) (List.cons_ne_nil _ _) hat'
  · exact hc.unrecognized h

/-! ### Results -/

/-- The end of a source. -/
def endOf (source : List Char) : Lexeme ν :=
  .ok ⟨.finish, "", ⟨bytes source, 0⟩, lineBehind source⟩

theorem readToken_of_nil (h : k.At before []) :
    (readToken k).1 = endOf before ∧ (readToken k).2.At before [] := by
  rw [readToken]
  split
  next => exact ⟨by rw [finish, h.offset_eq, h.line_eq]; rfl, h⟩
  next c k' hadvance =>
    obtain ⟨rest, hrest, -, -, -⟩ := h.of_advance hadvance
    cases hrest

/-- **One result**: behind a gap either a text or the end of the source. -/
theorem nextLexeme_at (h : k.At before after) :
    (LastGap after ∧ (nextLexeme k).1 = endOf (before ++ after) ∧
      (nextLexeme k).2.At (before ++ after) []) ∨
    ∃ gap text rest, Gap gap ∧ after = gap ++ (text ++ rest) ∧
      Covers (nextLexeme k).1 (before ++ gap) text ∧
        (nextLexeme k).2.At (before ++ gap ++ text) rest := by
  have hskips := h.skipGap
  rw [nextLexeme]
  cases hread : skipGap k with
  | mk e? k' =>
  rw [hread] at hskips
  cases hskips with
  | all isLast behind => exact Or.inl ⟨isLast, readToken_of_nil behind⟩
  | @unclosed gap text e k' isGap split covers behind =>
      refine Or.inr ⟨gap, text, [], isGap, by simpa using split, covers, ?_⟩
      rw [List.append_assoc, ← split]
      exact behind
  | @gap gap rest k' isGap split behind =>
      rw [split]
      cases hadvance : k'.advance with
      | none =>
          obtain rfl := behind.nil_of_advance hadvance
          rw [List.append_nil]
          exact Or.inl ⟨Or.inl isGap, readToken_of_nil behind⟩
      | some read =>
          obtain ⟨c, k''⟩ := read
          obtain ⟨rest', rfl, hoffset, hline, hat⟩ := behind.of_advance hadvance
          obtain ⟨text, rest, hsplit, hcovers, hlast⟩ := Starts.readFrom ⟨hoffset, hline⟩ hat
          have htoken : readToken k' = readFrom c k'' := by
            rw [readToken, hadvance]
          simp only [htoken]
          exact Or.inr ⟨gap, text, rest, isGap, by rw [hsplit], hcovers, hlast⟩

/-- What the lexer gives when it is asked again and again, going on behind errors. -/
def resultFrom : Cursor ν → ℕ → Lexeme ν
  | k, 0 => (nextLexeme k).1
  | k, n + 1 => resultFrom (nextLexeme k).2 n

/-- A gap with the text of the result behind it. -/
structure Piece where
  gap : List Char
  text : List Char

/-- The characters of a piece. -/
def Piece.chars (p : Piece) : List Char :=
  p.gap ++ p.text

/-- The characters of the pieces in front of one. -/
def front (pieces : List Piece) (i : ℕ) : List Char :=
  (pieces.take i).flatMap Piece.chars

theorem front_cons_succ (p : Piece) (pieces : List Piece) (i : ℕ) :
    front (p :: pieces) (i + 1) = p.chars ++ front pieces i := by
  simp [front]

/-- The `i`-th result for a source, with lines of 32 bits. -/
def result (source : String) (i : ℕ) : Lexeme UInt32 :=
  resultFrom (Cursor.ofString source) i

end Lexer

end Tracepoint
