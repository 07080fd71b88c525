/-
Tokens by their spelling.

Where a token ends depends on what follows: an operator must not go on with an equals sign, a name
not with a letter, a number neither with a digit nor with a point that a digit follows.  Here the
spellings are told by rules, each with what must not follow, and the lexer is shown to read by these
rules: where a text that spells a token is ahead it reads this token, and every token that it reads
is spelled so.  A blank goes on with nothing, so it can follow any token.

Main definitions:

* `Lexer.StringBody` — what can stand between the quotes of a string;
* `Lexer.Spells` — a text spells a token of a kind in front of another text;
* `Lexer.Spelled` — a token that was read is spelled by what was unread.

Main results:

* `Lexer.Spells.reads`, `Lexer.spelled_readFrom` — **the lexer reads by the rules** and by no others;
* `Lexer.Spells.unique` — what is ahead spells one token at most;
* `Lexer.Spells.before_blank` — what spells a token up to the end of a source also does so **in
  front of a blank**;
* `Lexer.Spells.head` — what a token starts with.
-/

import Tracepoint.Proofs.Token.Numerals

set_option relaxedAutoImplicit false
set_option autoImplicit false

namespace Tracepoint

open Decimal Text

/-! ### The rules -/

namespace Lexer

/-- The text does not begin with a character that has a property. -/
def EndsBefore (p : Char → Bool) (rest : List Char) : Prop :=
  ∀ c ∈ rest.head?, p c = false

/-- What can stand between two marks `quote`: no line break, and no mark but behind a backslash. -/
inductive StringBody (quote : Char) : List Char → Prop
  | nil : StringBody quote []
  | plain {c : Char} {cs : List Char} (hescape : c ≠ '\\') (hline : c ≠ '\n') (hquote : c ≠ quote)
      (h : StringBody quote cs) : StringBody quote (c :: cs)
  | escape {c : Char} {cs : List Char} (hline : c ≠ '\n') (h : StringBody quote cs) :
    StringBody quote ('\\' :: c :: cs)

/-- Characters with the kinds of tokens that they make up alone, with an equals sign behind them,
and with two. -/
def equalities : List (Char × Kind × Kind × Kind) :=
  [('!', .bang, .bangEqual, .bangEqualEqual), ('=', .equal, .equalEqual, .equalEqualEqual)]

/-- Characters with the kinds of tokens that they make up alone and with an equals sign. -/
def comparisons : List (Char × Kind × Kind) :=
  [('<', .less, .lessEqual), ('>', .greater, .greaterEqual)]

/-- Characters with the kinds of tokens that two of them make up. -/
def doubles : List (Char × Kind) :=
  [('&', .andAnd), ('|', .orOr)]

/-- `text` spells a token of the kind if `rest` follows it. -/
inductive Spells : Kind → (text rest : List Char) → Prop
  | symbol {c : Char} {kind : Kind} {rest : List Char} (hc : symbol? c = some kind) :
    Spells kind [c] rest
  | bare {c : Char} {one two three : Kind} {rest : List Char}
      (hc : (c, one, two, three) ∈ equalities) (hrest : rest.head? ≠ some '=') :
    Spells one [c] rest
  | withEqual {c : Char} {one two three : Kind} {rest : List Char}
      (hc : (c, one, two, three) ∈ equalities) (hrest : rest.head? ≠ some '=') :
    Spells two [c, '='] rest
  | withEquals {c : Char} {one two three : Kind} {rest : List Char}
      (hc : (c, one, two, three) ∈ equalities) : Spells three [c, '=', '='] rest
  | strict {c : Char} {one two : Kind} {rest : List Char} (hc : (c, one, two) ∈ comparisons)
      (hrest : rest.head? ≠ some '=') : Spells one [c] rest
  | orEqual {c : Char} {one two : Kind} {rest : List Char} (hc : (c, one, two) ∈ comparisons) :
    Spells two [c, '='] rest
  | double {c : Char} {kind : Kind} {rest : List Char} (hc : (c, kind) ∈ doubles) :
    Spells kind [c, c] rest
  | string {quote : Char} {body rest : List Char} (hquote : quote = '"' ∨ quote = '\'')
      (hbody : StringBody quote body) : Spells .string (quote :: (body ++ [quote])) rest
  | digits {ds rest : List Char} (hds : AllDigits ds) (hrest : EndsBefore isDigit rest)
      (hpoint : ∀ d more, rest = '.' :: d :: more → isDigit d = false) : Spells .number ds rest
  | fraction {ds es rest : List Char} (hds : AllDigits ds) (hes : AllDigits es)
      (hrest : EndsBefore isDigit rest) : Spells .number (ds ++ '.' :: es) rest
  | name {c : Char} {cs rest : List Char} (hc : startsName c = true)
      (hcs : ∀ d ∈ cs, continuesName d = true) (hrest : EndsBefore continuesName rest) :
    Spells ((keyword? (String.ofList (c :: cs))).getD .identifier) (c :: cs) rest

theorem Spells.ne_nil {kind : Kind} {text rest : List Char} (h : Spells kind text rest) :
    text ≠ [] := by
  cases h with
  | digits hds _ _ => exact hds.1
  | fraction _ _ _ => simp
  | _ => exact List.cons_ne_nil _ _

/-- The end of a source has no text. -/
theorem Spells.ne_finish {kind : Kind} {text rest : List Char} (h : Spells kind text rest) :
    kind ≠ .finish := by
  have hequalities : ∀ q ∈ equalities, q.2.1 ≠ .finish ∧ q.2.2.1 ≠ .finish ∧ q.2.2.2 ≠ .finish := by
    decide
  have hcomparisons : ∀ q ∈ comparisons, q.2.1 ≠ .finish ∧ q.2.2 ≠ .finish := by decide
  have hdoubles : ∀ q ∈ doubles, q.2 ≠ .finish := by decide
  cases h with
  | symbol hc => exact symbol?_ne_finish hc
  | bare hc _ => exact (hequalities _ hc).1
  | withEqual hc _ => exact (hequalities _ hc).2.1
  | withEquals hc => exact (hequalities _ hc).2.2
  | strict hc _ => exact (hcomparisons _ hc).1
  | orEqual hc => exact (hcomparisons _ hc).2
  | double hc => exact hdoubles _ hc
  | string => decide
  | digits => decide
  | fraction => decide
  | name => exact keyword?_ne_finish _

/-- A run of characters with a property ends where one without it is ahead. -/
theorem takeWhile_of_endsBefore {p : Char → Bool} {cs rest : List Char} (hcs : ∀ c ∈ cs, p c = true)
    (hrest : EndsBefore p rest) :
    (cs ++ rest).takeWhile p = cs ∧ (cs ++ rest).dropWhile p = rest := by
  have hstop : rest.takeWhile p = [] ∧ rest.dropWhile p = rest := by
    cases rest with
    | nil => exact ⟨rfl, rfl⟩
    | cons c rest =>
        have hc : p c = false := hrest c rfl
        simp [hc]
  rw [List.takeWhile_append_of_pos hcs, List.dropWhile_append_of_pos hcs, hstop.1, hstop.2,
    List.append_nil]
  exact ⟨rfl, rfl⟩

theorem endsBefore_dropWhile (p : Char → Bool) (cs : List Char) :
    EndsBefore p (cs.dropWhile p) := by
  intro c hc
  have hnot := List.head?_dropWhile_not p cs
  rw [Option.mem_def.1 hc] at hnot
  exact hnot

/-! ### Steps of readers -/

section Steps

variable {k k' k'' : Cursor} {c d : Located} {quote : Char}

theorem skipLine_of_advance (h : k.advance = some (c, k')) :
    skipLine k = if c.char = '\n' then k' else skipLine k' := by
  rw [skipLine]
  split
  next hnone => cases hnone.symm.trans h
  next d k'' hsome =>
    cases hsome.symm.trans h
    rfl

/-- A character of a string that is no backslash. -/
theorem readString_of_advance (h : k.advance = some (c, k')) (hc : c.char ≠ '\\') :
    readString quote k =
      if c.char = '\n' then (none, k')
      else if c.char = quote then (some [c.char], k')
      else ((readString quote k').1.map (c.char :: ·), (readString quote k').2) := by
  rw [readString]
  split
  next hnone => cases hnone.symm.trans h
  next d k'' hsome =>
    cases hsome.symm.trans h
    rw [if_neg hc]

/-- A backslash in a string, with the character behind it. -/
theorem readString_of_escape (h : k.advance = some (c, k')) (hc : c.char = '\\')
    (h' : k'.advance = some (d, k'')) :
    readString quote k =
      if d.char = '\n' then (none, k'')
      else ((readString quote k'').1.map ('\\' :: d.char :: ·), (readString quote k'').2) := by
  rw [readString]
  split
  next hnone => cases hnone.symm.trans h
  next c' k₁ hsome =>
    cases hsome.symm.trans h
    rw [if_pos hc, hc]
    split
    next hnone => cases hnone.symm.trans h'
    next d' k₂ hsome' =>
      cases hsome'.symm.trans h'
      rfl

end Steps

end Lexer

/-! ### Moves of the cursor -/

namespace Cursor.At

variable {k : Cursor} {c : Char} {before cs rest after : List Char}

/-- Where a character is ahead, it can be taken. -/
theorem exists_advance (h : k.At before (c :: cs)) : ∃ d k', k.advance = some (d, k') ∧
    d.char = c ∧ d.offset = bytes before ∧ d.line = lineBehind before ∧
      k'.At (before ++ [c]) cs := by
  cases hadvance : k.advance with
  | none => cases h.nil_of_advance hadvance
  | some read =>
      obtain ⟨d, k'⟩ := read
      obtain ⟨cs', hsplit, hoffset, hline, hat⟩ := h.of_advance hadvance
      obtain ⟨rfl, rfl⟩ := List.cons.inj hsplit
      exact ⟨d, k', rfl, rfl, hoffset, hline, hat⟩

theorem takeIf_of_head (h : k.At before (c :: cs)) :
    ∃ d k', k.takeIf c = (some d, k') ∧ k'.At (before ++ [c]) cs := by
  rcases h.takeIf (rfl : k.takeIf c = ((k.takeIf c).1, (k.takeIf c).2)) with
    ⟨-, hhead, -⟩ | ⟨d, cs', hsome, hsplit, hat⟩
  · exact absurd rfl hhead
  · obtain ⟨-, rfl⟩ := List.cons.inj hsplit
    exact ⟨d, _, Prod.ext hsome rfl, hat⟩

theorem takeIf_of_ne (h : k.At before after) (hhead : after.head? ≠ some c) :
    ∃ k', k.takeIf c = (none, k') ∧ k'.At before after := by
  rcases h.takeIf (rfl : k.takeIf c = ((k.takeIf c).1, (k.takeIf c).2)) with
    ⟨hnone, -, hat⟩ | ⟨d, cs', -, rfl, -⟩
  · exact ⟨_, Prod.ext hnone rfl, hat⟩
  · exact absurd rfl hhead

theorem takeWhile_of_endsBefore {p : Char → Bool} (h : k.At before (cs ++ rest))
    (hcs : ∀ c ∈ cs, p c = true) (hrest : Lexer.EndsBefore p rest) :
    (k.takeWhile p).1 = cs ∧ (k.takeWhile p).2.At (before ++ cs) rest := by
  obtain ⟨htake, hat⟩ := h.takeWhile p
  obtain ⟨heq, hdrop⟩ := Lexer.takeWhile_of_endsBefore hcs hrest
  rw [heq] at htake hat
  rw [hdrop] at hat
  exact ⟨htake, hat⟩

/-! ### Reading by the rules -/

open Lexer

/-- A string whose body is ahead. -/
theorem readString_of_body {quote : Char} {body : List Char} (hquote : quote = '"' ∨ quote = '\'')
    (hbody : StringBody quote body) (h : k.At before (body ++ quote :: rest)) :
    ∃ k', Lexer.readString quote k = (some (body ++ [quote]), k') ∧
      k'.At (before ++ body ++ [quote]) rest := by
  have hmark : quote ≠ '\\' ∧ quote ≠ '\n' := by
    rcases hquote with rfl | rfl <;> decide
  induction hbody generalizing k before with
  | nil =>
      obtain ⟨d, k', hadvance, rfl, -, -, hat⟩ := h.exists_advance
      rw [readString_of_advance hadvance hmark.1, if_neg hmark.2, if_pos rfl]
      exact ⟨k', rfl, by simpa using hat⟩
  | plain hescape hline hne _ ih =>
      obtain ⟨d, k', hadvance, rfl, -, -, hat⟩ := h.exists_advance
      obtain ⟨last, hrest, hlast⟩ := ih hat
      rw [readString_of_advance hadvance hescape, if_neg hline, if_neg hne, hrest]
      exact ⟨last, rfl, by simpa using hlast⟩
  | escape hline _ ih =>
      obtain ⟨d, k', hadvance, hd, -, -, hat⟩ := h.exists_advance
      obtain ⟨e, k'', hinner, rfl, -, -, hat'⟩ := hat.exists_advance
      obtain ⟨last, hrest, hlast⟩ := ih hat'
      rw [readString_of_escape hadvance hd hinner, if_neg hline, hrest]
      exact ⟨last, rfl, by simpa using hlast⟩

/-- A number without a point. -/
theorem readNumber_of_digits {ds : List Char} (h : k.At before (ds ++ rest))
    (hds : ∀ d ∈ ds, isDigit d = true) (hrest : EndsBefore isDigit rest)
    (hpoint : ∀ d more, rest = '.' :: d :: more → isDigit d = false) :
    ∃ k', Lexer.readNumber k = (ds, k') ∧ k'.At (before ++ ds) rest := by
  obtain ⟨hfront, hat⟩ := h.takeWhile_of_endsBefore hds hrest
  simp only [Lexer.readNumber]
  split
  next => exact ⟨_, Prod.ext hfront rfl, hat⟩
  next c k₂ hadvance =>
    obtain ⟨rest, rfl, hoffset, hline, hat₂⟩ := hat.of_advance hadvance
    split
    next hc =>
      have hpeek : k₂.peek = (k₂.peek.1, k₂.peek.2) := rfl
      obtain ⟨hnext, hat₃⟩ := hat₂.peek hpeek
      split
      next hdigit =>
        rw [hnext] at hdigit
        cases rest with
        | nil => cases hdigit
        | cons d more =>
            have hd : isDigit d = true := hdigit
            rw [hpoint d more (by rw [hc])] at hd
            cases hd
      next => exact ⟨_, Prod.ext hfront rfl, hat₃.putBack hoffset hline _⟩
    next => exact ⟨_, Prod.ext hfront rfl, hat₂.putBack hoffset hline _⟩

/-- A number with a point. -/
theorem readNumber_of_fraction {ds es : List Char} (h : k.At before (ds ++ '.' :: (es ++ rest)))
    (hds : ∀ d ∈ ds, isDigit d = true) (hes : AllDigits es) (hrest : EndsBefore isDigit rest) :
    ∃ k', Lexer.readNumber k = (ds ++ '.' :: es, k') ∧
      k'.At (before ++ (ds ++ '.' :: es)) rest := by
  have hpoint : EndsBefore isDigit ('.' :: (es ++ rest)) := by
    rintro _ ⟨⟩
    exact isDigit_point
  obtain ⟨hfront, hat⟩ := h.takeWhile_of_endsBefore hds hpoint
  obtain ⟨d, k₂, hadvance, hd, -, -, hat₂⟩ := hat.exists_advance
  have hpeek : k₂.peek = (k₂.peek.1, k₂.peek.2) := rfl
  obtain ⟨hnext, hat₃⟩ := hat₂.peek hpeek
  have hdigit : k₂.peek.1.any isDigit = true := by
    obtain ⟨e, es, rfl⟩ := List.exists_cons_of_ne_nil hes.1
    rw [hnext]
    exact hes.2 e List.mem_cons_self
  obtain ⟨hback, hlast⟩ := hat₃.takeWhile_of_endsBefore hes.2 hrest
  simp only [Lexer.readNumber]
  split
  next hnone => cases hnone.symm.trans hadvance
  next c k₂' hadvance' =>
    cases hadvance'.symm.trans hadvance
    rw [if_pos hd, if_pos hdigit]
    rw [hfront, hback]
    exact ⟨_, rfl, by simpa using hlast⟩

end Cursor.At

namespace Lexer

variable {k k' : Cursor} {c : Located} {kind : Kind} {before cs rest after : List Char}

/-! #### Which reader is asked -/

theorem readFrom_of_symbol (hc : symbol? c.char = some kind) (k : Cursor) :
    readFrom c k = (.ok (makeToken kind c [c.char]), k) := by
  simp only [readFrom, hc]

theorem readFrom_of_equality {one two three : Kind} (hc : (c.char, one, two, three) ∈ equalities)
    (k : Cursor) : readFrom c k =
      (.ok (readEquality c one two three k).1, (readEquality c one two three k).2) := by
  simp only [equalities, List.mem_cons, Prod.mk.injEq, List.not_mem_nil, or_false] at hc
  rcases hc with ⟨hc, rfl, rfl, rfl⟩ | ⟨hc, rfl, rfl, rfl⟩
  · simp [readFrom, hc, symbol?]
  · simp [readFrom, hc, symbol?]

theorem readFrom_of_comparison {one two : Kind} (hc : (c.char, one, two) ∈ comparisons)
    (k : Cursor) : readFrom c k =
      (.ok (readOrEqual c one two k).1, (readOrEqual c one two k).2) := by
  simp only [comparisons, List.mem_cons, Prod.mk.injEq, List.not_mem_nil, or_false] at hc
  rcases hc with ⟨hc, rfl, rfl⟩ | ⟨hc, rfl, rfl⟩
  · simp [readFrom, hc, symbol?]
  · simp [readFrom, hc, symbol?]

theorem readFrom_of_double (hc : (c.char, kind) ∈ doubles) (k : Cursor) :
    readFrom c k = readDouble c kind k := by
  simp only [doubles, List.mem_cons, Prod.mk.injEq, List.not_mem_nil, or_false] at hc
  rcases hc with ⟨hc, rfl⟩ | ⟨hc, rfl⟩
  · simp [readFrom, hc, symbol?]
  · simp [readFrom, hc, symbol?]

theorem readFrom_of_quote (hc : c.char = '"' ∨ c.char = '\'')
    (h : readString c.char k = (some cs, k')) :
    readFrom c k = (.ok (makeToken .string c (c.char :: cs)), k') := by
  rcases hc with hc | hc
  · rw [hc] at h
    simp [readFrom, hc, symbol?, h]
  · rw [hc] at h
    simp [readFrom, hc, symbol?, h]

/-- The characters that neither numbers nor names start with. -/
def marks : List Char :=
  ['(', ')', '\x7b', '\x7d', '[', ']', ',', '.', ';', ':', '-', '+', '*', '/', '%', '!', '=', '<',
    '>', '&', '|', '"', '\'']

theorem symbol?_of_not_mem_marks {c : Char} (hc : c ∉ marks) : symbol? c = none := by
  unfold symbol?
  split
  case h_16 => rfl
  all_goals exact absurd (by decide) hc

theorem readFrom_of_not_mem_marks (hc : c.char ∉ marks) (k : Cursor) :
    readFrom c k =
      if isDigit c.char then
        (.ok (makeToken .number c (c.char :: (readNumber k).1)), (readNumber k).2)
      else if startsName c.char then
        (.ok (makeToken
          ((keyword? (String.ofList (c.char :: (k.takeWhile continuesName).1))).getD .identifier) c
            (c.char :: (k.takeWhile continuesName).1)), (k.takeWhile continuesName).2)
      else (.error (unrecognized c), k) := by
  have hsymbol := symbol?_of_not_mem_marks hc
  simp only [marks, List.mem_cons, List.not_mem_nil, or_false, not_or] at hc
  simp [readFrom, hsymbol, hc]

theorem not_mem_marks_of_digit {c : Char} (hc : isDigit c = true) : c ∉ marks := by
  have hmarks : marks.all (fun d => !isDigit d) = true := by decide
  intro hmem
  have hnot := List.all_eq_true.1 hmarks c hmem
  rw [hc] at hnot
  cases hnot

theorem not_mem_marks_of_startsName {c : Char} (hc : startsName c = true) : c ∉ marks := by
  have hmarks : marks.all (fun d => !startsName d) = true := by decide
  intro hmem
  have hnot := List.all_eq_true.1 hmarks c hmem
  rw [hc] at hnot
  cases hnot

theorem toNat_of_isDigit {c : Char} (hc : isDigit c = true) : 48 ≤ c.toNat ∧ c.toNat ≤ 57 := by
  obtain ⟨hlow, hhigh⟩ := Bool.and_eq_true_iff.1 hc
  exact ⟨of_decide_eq_true hlow, of_decide_eq_true hhigh⟩

theorem toNat_of_isAlpha {c : Char} (hc : c.isAlpha = true) :
    (65 ≤ c.toNat ∧ c.toNat ≤ 90) ∨ (97 ≤ c.toNat ∧ c.toNat ≤ 122) := by
  have hcase : c.isUpper = true ∨ c.isLower = true := Bool.or_eq_true_iff.1 hc
  rcases hcase with hupper | hlower
  · have hrange : 'A'.val ≤ c.val ∧ c.val ≤ 'Z'.val := of_decide_eq_true hupper
    exact Or.inl hrange
  · obtain ⟨hlow, hhigh⟩ := Bool.and_eq_true_iff.1 hlower
    exact Or.inr ⟨of_decide_eq_true hlow, of_decide_eq_true hhigh⟩

theorem isDigit_of_startsName {c : Char} (hc : startsName c = true) : isDigit c = false := by
  rw [Bool.eq_false_iff]
  intro h
  obtain ⟨hlow, hhigh⟩ := toNat_of_isDigit h
  simp only [startsName, Bool.or_eq_true, beq_iff_eq] at hc
  rcases hc with (hc | rfl) | rfl
  · have hrange := toNat_of_isAlpha hc
    omega
  · exact absurd hhigh (by decide)
  · exact absurd hlow (by decide)

/-! #### What is read -/

/-- **Where a text that spells a token is ahead, this token is read.** The first character of the
text is taken already. -/
theorem Spells.reads (h : Spells kind (c.char :: cs) rest)
    (hat : k.At (before ++ [c.char]) (cs ++ rest)) :
    ∃ k', readFrom c k = (.ok (makeToken kind c (c.char :: cs)), k') ∧
      k'.At (before ++ c.char :: cs) rest := by
  generalize htext : c.char :: cs = text at h
  cases h with
  | symbol hc =>
      obtain ⟨rfl, rfl⟩ := List.cons.inj htext
      exact ⟨k, readFrom_of_symbol hc k, hat⟩
  | bare hc hrest =>
      obtain ⟨rfl, rfl⟩ := List.cons.inj htext
      obtain ⟨k', htake, hat'⟩ := hat.takeIf_of_ne hrest
      refine ⟨k', ?_, hat'⟩
      rw [readFrom_of_equality hc, readEquality, htake]
  | withEqual hc hrest =>
      obtain ⟨rfl, rfl⟩ := List.cons.inj htext
      obtain ⟨d, k', htake, hat'⟩ := hat.takeIf_of_head
      obtain ⟨k'', htake', hat''⟩ := hat'.takeIf_of_ne hrest
      refine ⟨k'', ?_, by simpa using hat''⟩
      simp only [readFrom_of_equality hc, readEquality, htake, htake']
  | withEquals hc =>
      obtain ⟨rfl, rfl⟩ := List.cons.inj htext
      obtain ⟨d, k', htake, hat'⟩ := hat.takeIf_of_head
      obtain ⟨e, k'', htake', hat''⟩ := hat'.takeIf_of_head
      refine ⟨k'', ?_, by simpa using hat''⟩
      simp only [readFrom_of_equality hc, readEquality, htake, htake']
  | strict hc hrest =>
      obtain ⟨rfl, rfl⟩ := List.cons.inj htext
      obtain ⟨k', htake, hat'⟩ := hat.takeIf_of_ne hrest
      refine ⟨k', ?_, hat'⟩
      rw [readFrom_of_comparison hc, readOrEqual, htake]
  | orEqual hc =>
      obtain ⟨rfl, rfl⟩ := List.cons.inj htext
      obtain ⟨d, k', htake, hat'⟩ := hat.takeIf_of_head
      refine ⟨k', ?_, by simpa using hat'⟩
      rw [readFrom_of_comparison hc, readOrEqual, htake]
  | double hc =>
      obtain ⟨rfl, rfl⟩ := List.cons.inj htext
      obtain ⟨d, k', htake, hat'⟩ := hat.takeIf_of_head
      refine ⟨k', ?_, by simpa using hat'⟩
      rw [readFrom_of_double hc, readDouble, htake]
  | @string quote body _ hquote hbody =>
      obtain ⟨rfl, rfl⟩ := List.cons.inj htext
      have hahead : k.At (before ++ [c.char]) (body ++ c.char :: rest) := by simpa using hat
      obtain ⟨k', hread, hat'⟩ := hahead.readString_of_body hquote hbody
      refine ⟨k', readFrom_of_quote hquote hread, by simpa using hat'⟩
  | digits hds hrest hpoint =>
      subst htext
      have hc := hds.2 c.char List.mem_cons_self
      obtain ⟨k', hread, hat'⟩ := hat.readNumber_of_digits
        (fun d hd => hds.2 d (List.mem_cons_of_mem _ hd)) hrest hpoint
      refine ⟨k', ?_, by simpa using hat'⟩
      rw [readFrom_of_not_mem_marks (not_mem_marks_of_digit hc), if_pos hc, hread]
  | @fraction ds es _ hds hes hrest =>
      obtain ⟨d, ds, rfl⟩ := List.exists_cons_of_ne_nil hds.1
      obtain ⟨rfl, rfl⟩ := List.cons.inj htext
      have hc := hds.2 c.char List.mem_cons_self
      have hahead : k.At (before ++ [c.char]) (ds ++ '.' :: (es ++ rest)) := by simpa using hat
      obtain ⟨k', hread, hat'⟩ := hahead.readNumber_of_fraction
        (fun d hd => hds.2 d (List.mem_cons_of_mem _ hd)) hes hrest
      refine ⟨k', ?_, by simpa using hat'⟩
      rw [readFrom_of_not_mem_marks (not_mem_marks_of_digit hc), if_pos hc, hread,
        List.cons_append]
  | name hc hcs hrest =>
      obtain ⟨rfl, rfl⟩ := List.cons.inj htext
      obtain ⟨hread, hat'⟩ := hat.takeWhile_of_endsBefore hcs hrest
      refine ⟨_, ?_, by simpa using hat'⟩
      rw [readFrom_of_not_mem_marks (not_mem_marks_of_startsName hc), if_pos hc,
        if_neg (by simp [isDigit_of_startsName hc]), hread]

/-- The rules are not ambiguous: what is ahead spells one token at most. -/
theorem Spells.unique {kind' : Kind} {text text' rest' : List Char} (h : Spells kind text rest)
    (h' : Spells kind' text' rest') (hahead : text ++ rest = text' ++ rest') :
    kind = kind' ∧ text = text' := by
  obtain ⟨d, cs, rfl⟩ := List.exists_cons_of_ne_nil h.ne_nil
  obtain ⟨d', cs', rfl⟩ := List.exists_cons_of_ne_nil h'.ne_nil
  obtain ⟨rfl, htail⟩ := List.cons.inj hahead
  have hcs : cs ++ rest = cs' ++ rest' := htail
  have hat : (Cursor.ofString (String.ofList (d :: (cs ++ rest))) : Cursor).At []
      (d :: (cs ++ rest)) := by
    simpa using Cursor.At.ofString (String.ofList (d :: (cs ++ rest)))
  obtain ⟨c, k, -, rfl, -, -, hbehind⟩ := hat.exists_advance
  obtain ⟨k₁, hread, -⟩ := h.reads hbehind
  rw [hcs] at hbehind
  obtain ⟨k₂, hread', -⟩ := h'.reads hbehind
  have htoken : makeToken kind c (c.char :: cs) = makeToken kind' c (c.char :: cs') :=
    Except.ok.inj (congrArg Prod.fst (hread.symm.trans hread'))
  exact ⟨congrArg Token.kind htoken, String.ofList_injective (congrArg Token.text htoken)⟩

/-! #### How what is read is spelled -/

/-- If the result is a token, `c` and the beginning of `after` spell it. -/
def Spelled (c : Located) (after : List Char) (x : Lexeme) : Prop :=
  ∀ t, x = .ok t → ∃ cs rest, after = cs ++ rest ∧ Spells t.kind (c.char :: cs) rest

theorem Spells.spelled (h : Spells kind (c.char :: cs) rest) (text : List Char) :
    Spelled c (cs ++ rest) (.ok (makeToken kind c text)) := by
  rintro _ ⟨⟩
  exact ⟨cs, rest, rfl, h⟩

theorem spelled_error (e : LexicalError) : Spelled c after (.error e) :=
  fun _ heq => nomatch heq

theorem spelled_readEquality {one two three : Kind} (hc : (c.char, one, two, three) ∈ equalities)
    (h : k.At before after) : Spelled c after (.ok (readEquality c one two three k).1) := by
  simp only [readEquality]
  split
  next k' htake =>
    rcases h.takeIf htake with ⟨-, hhead, -⟩ | ⟨d, cs, hsome, -, -⟩
    · exact (Spells.bare hc hhead).spelled _
    · cases hsome
  next d k' htake =>
    rcases h.takeIf htake with ⟨hnone, -, -⟩ | ⟨d, cs, -, rfl, hat⟩
    · cases hnone
    split
    next k'' htake' =>
      rcases hat.takeIf htake' with ⟨-, hhead, -⟩ | ⟨e, cs, hsome, -, -⟩
      · exact (Spells.withEqual hc hhead).spelled _
      · cases hsome
    next e k'' htake' =>
      rcases hat.takeIf htake' with ⟨hnone, -, -⟩ | ⟨e, cs, -, rfl, -⟩
      · cases hnone
      · exact (Spells.withEquals hc).spelled _

theorem spelled_readOrEqual {one two : Kind} (hc : (c.char, one, two) ∈ comparisons)
    (h : k.At before after) : Spelled c after (.ok (readOrEqual c one two k).1) := by
  simp only [readOrEqual]
  split
  next k' htake =>
    rcases h.takeIf htake with ⟨-, hhead, -⟩ | ⟨d, cs, hsome, -, -⟩
    · exact (Spells.strict hc hhead).spelled _
    · cases hsome
  next d k' htake =>
    rcases h.takeIf htake with ⟨hnone, -, -⟩ | ⟨d, cs, -, rfl, -⟩
    · cases hnone
    · exact (Spells.orEqual hc).spelled _

theorem spelled_readDouble (hc : (c.char, kind) ∈ doubles) (h : k.At before after) :
    Spelled c after (readDouble c kind k).1 := by
  simp only [readDouble]
  split
  · exact spelled_error _
  next d k' htake =>
    rcases h.takeIf htake with ⟨hnone, -, -⟩ | ⟨d, cs, -, rfl, -⟩
    · cases hnone
    · exact (Spells.double hc).spelled _

/-- What is read as a string ends at its first mark. -/
theorem stringBody_of_readString {quote : Char} {cs : List Char}
    (h : (readString quote k).1 = some cs) :
    ∃ body, cs = body ++ [quote] ∧ StringBody quote body := by
  fun_induction readString quote k generalizing cs with
  | case1 => cases h
  | case2 => cases h
  | case3 => cases h
  | case4 k c k' _ _ hescape d k'' _ _ hline cs? last hrest ih =>
      obtain ⟨ds, hds, rfl⟩ := Option.map_eq_some_iff.1 h
      rw [hrest] at ih
      obtain ⟨body, rfl, hbody⟩ := ih hds
      rw [hescape]
      exact ⟨'\\' :: d.char :: body, rfl, .escape hline hbody⟩
  | case5 => cases h
  | case6 k c k' _ _ _ _ hquote =>
      obtain rfl := Option.some.inj h
      rw [hquote]
      exact ⟨[], rfl, .nil⟩
  | case7 k c k' _ _ hescape hline hquote cs? last hrest ih =>
      obtain ⟨ds, hds, rfl⟩ := Option.map_eq_some_iff.1 h
      rw [hrest] at ih
      obtain ⟨body, rfl, hbody⟩ := ih hds
      exact ⟨c.char :: body, rfl, .plain hescape hline hquote hbody⟩

/-- What is read as a number ends where no digit is ahead, nor a point with one. -/
theorem exists_spells_readNumber {d : Char} (hd : isDigit d = true) (h : k.At before after) :
    ∃ rest, after = (readNumber k).1 ++ rest ∧ Spells .number (d :: (readNumber k).1) rest := by
  obtain ⟨hfront, hat⟩ := h.takeWhile isDigit
  have hsplit : after = (k.takeWhile isDigit).1 ++ after.dropWhile isDigit := by
    rw [hfront, List.takeWhile_append_dropWhile]
  have hdigits : AllDigits (d :: (k.takeWhile isDigit).1) := hfront ▸ digits_takeWhile hd
  have hstop := endsBefore_dropWhile isDigit after
  simp only [readNumber]
  split
  next hadvance =>
    refine ⟨_, hsplit, .digits hdigits hstop fun e more heq => ?_⟩
    rw [hat.nil_of_advance hadvance] at heq
    cases heq
  next c k₂ hadvance =>
    obtain ⟨rest, hrest, -, -, hat₂⟩ := hat.of_advance hadvance
    have hpeek : k₂.peek = (k₂.peek.1, k₂.peek.2) := rfl
    obtain ⟨hnext, hat₃⟩ := hat₂.peek hpeek
    split
    next hc =>
      split
      next hdigit =>
        rw [hnext] at hdigit
        obtain ⟨e, es, rfl⟩ : ∃ e es, rest = e :: es := by
          cases rest with
          | nil => cases hdigit
          | cons e es => exact ⟨e, es, rfl⟩
        have he : isDigit e = true := hdigit
        have hback : (k₂.peek.2.takeWhile isDigit).1 = e :: es.takeWhile isDigit := by
          rw [(hat₃.takeWhile isDigit).1, List.takeWhile_cons_of_pos he]
        refine ⟨es.dropWhile isDigit, ?_, ?_⟩
        · rw [hback, List.append_assoc, List.cons_append, List.cons_append,
            List.takeWhile_append_dropWhile, ← hc, ← hrest]
          exact hsplit
        · rw [hback]
          exact .fraction hdigits (digits_takeWhile he) (endsBefore_dropWhile isDigit es)
      next hdigit =>
        refine ⟨_, hsplit, .digits hdigits hstop fun e more heq => ?_⟩
        rw [hrest] at heq
        obtain ⟨-, rfl⟩ := List.cons.inj heq
        rw [hnext] at hdigit
        exact Bool.eq_false_iff.2 hdigit
    next hc =>
      refine ⟨_, hsplit, .digits hdigits hstop fun e more heq => ?_⟩
      rw [hrest] at heq
      exact absurd (List.cons.inj heq).1 hc

/-- **Every token that is read is spelled by the rules.** -/
theorem spelled_readFrom (h : k.At before after) : Spelled c after (readFrom c k).1 := by
  rw [readFrom]
  split
  next kind hkind =>
    have hspells : Spells kind (c.char :: []) after := .symbol hkind
    exact hspells.spelled _
  split
  next hc => exact spelled_readEquality (by simp [hc, equalities]) h
  split
  next hc => exact spelled_readEquality (by simp [hc, equalities]) h
  split
  next hc => exact spelled_readOrEqual (by simp [hc, comparisons]) h
  split
  next hc => exact spelled_readOrEqual (by simp [hc, comparisons]) h
  split
  next hc => exact spelled_readDouble (by simp [hc, doubles]) h
  split
  next hc => exact spelled_readDouble (by simp [hc, doubles]) h
  split
  next hquote =>
    obtain ⟨text, rest, hsplit, -, htext⟩ := h.readString c.char
    split
    next cs k' hread =>
      obtain ⟨body, hcs, hbody⟩ := stringBody_of_readString (congrArg Prod.fst hread)
      rw [hread] at htext
      rw [hsplit, ← htext cs rfl, hcs]
      exact (Spells.string hquote hbody).spelled _
    next => exact spelled_error _
  split
  next hdigit =>
    obtain ⟨rest, hsplit, hspells⟩ := exists_spells_readNumber hdigit h
    rw [hsplit]
    exact hspells.spelled _
  split
  next hstart =>
    obtain ⟨hcs, -⟩ := h.takeWhile continuesName
    have hname : ∀ d ∈ (k.takeWhile continuesName).1, continuesName d = true := by
      rw [hcs]
      exact fun d hd => List.mem_takeWhile_imp hd
    have hsplit : after = (k.takeWhile continuesName).1 ++ after.dropWhile continuesName := by
      rw [hcs, List.takeWhile_append_dropWhile]
    rw [hsplit]
    exact (Spells.name hstart hname (endsBefore_dropWhile continuesName after)).spelled _
  · exact spelled_error _

/-! ### In front of a blank -/

/-- The printable characters of ASCII but the space. -/
def IsGlyph (c : Char) : Prop :=
  33 ≤ c.toNat ∧ c.toNat ≤ 126

theorem IsGlyph.not_blank {c : Char} (h : IsGlyph c) : isBlank c = false := by
  obtain ⟨hlow, hhigh⟩ := h
  rw [Bool.eq_false_iff]
  intro hblank
  simp only [isBlank, Bool.or_eq_true, Bool.and_eq_true, decide_eq_true_eq, beq_iff_eq] at hblank
  omega

theorem isGlyph_of_isDigit {c : Char} (hc : isDigit c = true) : IsGlyph c := by
  have hrange := toNat_of_isDigit hc
  exact ⟨by omega, by omega⟩

/-- A character goes on with a name if it could start one, or is a digit. -/
theorem continuesName_cases {c : Char} (hc : continuesName c = true) :
    startsName c = true ∨ isDigit c = true := by
  simp only [continuesName, startsName, Bool.or_eq_true] at hc ⊢
  rcases hc with (hc | hc) | hc
  · have hcase : c.isAlpha = true ∨ isDigit c = true := Bool.or_eq_true_iff.1 hc
    rcases hcase with hc | hc
    · exact Or.inl (Or.inl (Or.inl hc))
    · exact Or.inr hc
  · exact Or.inl (Or.inl (Or.inr hc))
  · exact Or.inl (Or.inr hc)

theorem isGlyph_of_startsName {c : Char} (hc : startsName c = true) : IsGlyph c := by
  simp only [startsName, Bool.or_eq_true, beq_iff_eq] at hc
  rcases hc with (hc | rfl) | rfl
  · have hrange := toNat_of_isAlpha hc
    exact ⟨by omega, by omega⟩
  · exact ⟨by decide, by decide⟩
  · exact ⟨by decide, by decide⟩

theorem isGlyph_of_continuesName {c : Char} (hc : continuesName c = true) : IsGlyph c := by
  rcases continuesName_cases hc with hc | hc
  · exact isGlyph_of_startsName hc
  · exact isGlyph_of_isDigit hc

theorem isGlyph_of_mem_marks {c : Char} (hc : c ∈ marks) : IsGlyph c := by
  have hmarks : marks.all (fun d => decide (33 ≤ d.toNat ∧ d.toNat ≤ 126)) = true := by decide
  simpa [IsGlyph] using List.all_eq_true.1 hmarks c hc

theorem endsBefore_blank {p : Char → Bool} (hp : ∀ c, p c = true → IsGlyph c) {c : Char}
    (hc : isBlank c = true) (rest : List Char) : EndsBefore p (c :: rest) := by
  rintro _ ⟨⟩
  rw [Bool.eq_false_iff]
  intro h
  rw [(hp c h).not_blank] at hc
  cases hc

theorem head?_ne_of_blank {c d : Char} (hc : isBlank c = true) (hd : IsGlyph d) (rest : List Char) :
    (c :: rest).head? ≠ some d := by
  rintro ⟨⟩
  rw [hd.not_blank] at hc
  cases hc

/-- **What spells a token at the end of a source also does so in front of a blank.** -/
theorem Spells.before_blank {text : List Char} {c : Char} (h : Spells kind text [])
    (hc : isBlank c = true) (rest : List Char) : Spells kind text (c :: rest) := by
  have hequal := head?_ne_of_blank (d := '=') hc ⟨by decide, by decide⟩ rest
  cases h with
  | symbol hsymbol => exact .symbol hsymbol
  | bare hmem _ => exact .bare hmem hequal
  | withEqual hmem _ => exact .withEqual hmem hequal
  | withEquals hmem => exact .withEquals hmem
  | strict hmem _ => exact .strict hmem hequal
  | orEqual hmem => exact .orEqual hmem
  | double hmem => exact .double hmem
  | string hquote hbody => exact .string hquote hbody
  | digits hds _ _ =>
      refine .digits hds (endsBefore_blank (fun _ => isGlyph_of_isDigit) hc rest) ?_
      rintro d more heq
      obtain ⟨rfl, -⟩ := List.cons.inj heq
      cases hc
  | fraction hds hes _ =>
      exact .fraction hds hes (endsBefore_blank (fun _ => isGlyph_of_isDigit) hc rest)
  | name hstart hcs _ =>
      exact .name hstart hcs (endsBefore_blank (fun _ => isGlyph_of_continuesName) hc rest)

/-- What a token starts with. -/
theorem Spells.head {text : List Char} (h : Spells kind text rest) :
    ∃ c cs, text = c :: cs ∧ IsGlyph c ∧ (c = '/' → cs = []) := by
  have hequalities : ∀ q ∈ equalities, q.1 ∈ marks ∧ q.1 ≠ '/' := by decide
  have hcomparisons : ∀ q ∈ comparisons, q.1 ∈ marks ∧ q.1 ≠ '/' := by decide
  have hdoubles : ∀ q ∈ doubles, q.1 ∈ marks ∧ q.1 ≠ '/' := by decide
  cases h with
  | @symbol c _ _ hc =>
      refine ⟨c, [], rfl, ?_, fun _ => rfl⟩
      by_contra hglyph
      rw [symbol?_of_not_mem_marks fun hmem => hglyph (isGlyph_of_mem_marks hmem)] at hc
      cases hc
  | bare hc _ => exact ⟨_, _, rfl, isGlyph_of_mem_marks (hequalities _ hc).1, fun _ => rfl⟩
  | withEqual hc _ =>
      exact ⟨_, _, rfl, isGlyph_of_mem_marks (hequalities _ hc).1,
        fun heq => absurd heq (hequalities _ hc).2⟩
  | withEquals hc =>
      exact ⟨_, _, rfl, isGlyph_of_mem_marks (hequalities _ hc).1,
        fun heq => absurd heq (hequalities _ hc).2⟩
  | strict hc _ => exact ⟨_, _, rfl, isGlyph_of_mem_marks (hcomparisons _ hc).1, fun _ => rfl⟩
  | orEqual hc =>
      exact ⟨_, _, rfl, isGlyph_of_mem_marks (hcomparisons _ hc).1,
        fun heq => absurd heq (hcomparisons _ hc).2⟩
  | double hc =>
      exact ⟨_, _, rfl, isGlyph_of_mem_marks (hdoubles _ hc).1,
        fun heq => absurd heq (hdoubles _ hc).2⟩
  | string hquote _ =>
      rcases hquote with rfl | rfl
      · exact ⟨_, _, rfl, ⟨by decide, by decide⟩, fun heq => absurd heq (by decide)⟩
      · exact ⟨_, _, rfl, ⟨by decide, by decide⟩, fun heq => absurd heq (by decide)⟩
  | digits hds _ _ =>
      obtain ⟨d, ds, rfl⟩ := List.exists_cons_of_ne_nil hds.1
      have hd := hds.2 d List.mem_cons_self
      refine ⟨d, ds, rfl, isGlyph_of_isDigit hd, fun heq => ?_⟩
      rw [heq] at hd
      cases hd
  | fraction hds _ _ =>
      obtain ⟨d, ds, rfl⟩ := List.exists_cons_of_ne_nil hds.1
      have hd := hds.2 d List.mem_cons_self
      refine ⟨d, _, rfl, isGlyph_of_isDigit hd, fun heq => ?_⟩
      rw [heq] at hd
      cases hd
  | name hc _ _ =>
      refine ⟨_, _, rfl, isGlyph_of_startsName hc, fun heq => ?_⟩
      rw [heq] at hc
      cases hc

end Lexer

end Tracepoint
