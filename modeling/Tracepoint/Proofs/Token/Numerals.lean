/-
The texts of numbers.

A token is read as a number only where a digit is ahead, and a point belongs to it only if a digit
follows.  So the text of a number is a run of digits, possibly with a point and another run behind
it, and has a value.

Main definitions:

* `Decimal.IsNumeral` — digits, or digits with a point between them.

Main results:

* `Decimal.IsNumeral.isSome_numeral?` — such a text has a value;
* `Lexer.isNumeral_of_mem` — **the number tokens of a source are such texts**.
-/

import Mathlib.Data.List.TakeWhile
import Tracepoint.Proofs.Token.Coverage

set_option relaxedAutoImplicit false
set_option autoImplicit false

namespace Tracepoint

namespace Decimal

/-- At least one digit, and nothing else. -/
def AllDigits (cs : List Char) : Prop :=
  cs ≠ [] ∧ ∀ c ∈ cs, isDigit c = true

/-- AllDigits, or digits with a point between them. -/
def IsNumeral (cs : List Char) : Prop :=
  AllDigits cs ∨ ∃ front back, AllDigits front ∧ AllDigits back ∧ cs = front ++ '.' :: back

theorem AllDigits.takeWhile_eq {cs : List Char} (h : AllDigits cs) : cs.takeWhile isDigit = cs :=
  List.takeWhile_eq_self_iff.2 h.2

theorem AllDigits.dropWhile_eq {cs : List Char} (h : AllDigits cs) : cs.dropWhile isDigit = [] :=
  List.dropWhile_eq_nil_iff.2 h.2

theorem isDigit_point : isDigit '.' = false := by
  decide

/-- A numeral has a value. -/
theorem IsNumeral.isSome_numeral? {text : String} (h : IsNumeral text.toList) :
    (numeral? text).isSome = true := by
  rcases h with hdigits | ⟨front, back, hfront, hback, heq⟩
  · have hsplit : splitNumeral text.toList = (text.toList, [], []) := by
      rw [splitNumeral, hdigits.takeWhile_eq, hdigits.dropWhile_eq]
    have hempty := List.isEmpty_eq_false_iff.2 hdigits.1
    rw [numeral?, hsplit]
    simp only [hempty, Bool.false_eq_true, if_false, Option.isSome_some]
  · have hsplit : splitNumeral text.toList = (front, back, []) := by
      rw [splitNumeral, heq, List.takeWhile_append_of_pos hfront.2,
        List.dropWhile_append_of_pos hfront.2, List.takeWhile_cons_of_neg (by simp [isDigit_point]),
        List.dropWhile_cons_of_neg (by simp [isDigit_point]), List.append_nil]
      simp only [hback.takeWhile_eq, hback.dropWhile_eq]
    have hempty := List.isEmpty_eq_false_iff.2 hfront.1
    rw [numeral?, hsplit]
    simp only [hempty, Bool.false_eq_true, if_false, Option.isSome_some]

end Decimal

open Decimal

namespace Lexer

variable {k : Cursor} {before after : List Char}

theorem digits_takeWhile {c : Char} {cs : List Char} (hc : isDigit c = true) :
    AllDigits (c :: cs.takeWhile isDigit) := by
  refine ⟨List.cons_ne_nil _ _, fun d hd => ?_⟩
  rcases List.mem_cons.1 hd with rfl | hd
  · exact hc
  · exact List.mem_takeWhile_imp hd

/-- A digit with what is read behind it. -/
theorem isNumeral_readNumber {c : Char} (hc : isDigit c = true) (h : k.At before after) :
    IsNumeral (c :: (readNumber k).1) := by
  obtain ⟨hfront, hat⟩ := h.takeWhile isDigit
  simp only [readNumber]
  split
  next => exact Or.inl (hfront ▸ digits_takeWhile hc)
  next d k₂ hadvance =>
    obtain ⟨rest, -, -, -, hat₂⟩ := hat.of_advance hadvance
    have hpeek : k₂.peek = (k₂.peek.1, k₂.peek.2) := rfl
    obtain ⟨hnext, hat₃⟩ := hat₂.peek hpeek
    split
    next =>
      split
      next hdigit =>
        rw [hnext] at hdigit
        obtain ⟨e, rest, rfl⟩ : ∃ e es, rest = e :: es := by
          cases rest with
          | nil => cases hdigit
          | cons e es => exact ⟨e, es, rfl⟩
        have he : isDigit e = true := hdigit
        have hback : (k₂.peek.2.takeWhile isDigit).1 = e :: rest.takeWhile isDigit := by
          rw [(hat₃.takeWhile isDigit).1, List.takeWhile_cons_of_pos he]
        refine Or.inr ⟨_, _, hfront ▸ digits_takeWhile hc, hback ▸ digits_takeWhile he, rfl⟩
      next => exact Or.inl (hfront ▸ digits_takeWhile hc)
    next => exact Or.inl (hfront ▸ digits_takeWhile hc)

/-- If the result is a number, its text is a numeral. -/
def Numbers (x : Lexeme) : Prop :=
  ∀ t, x = .ok t → t.kind = .number → IsNumeral t.text.toList

theorem numbers_made {kind : Kind} {start : Located} {cs : List Char} (h : kind ≠ .number) :
    Numbers (.ok (makeToken kind start cs)) := by
  rintro _ ⟨⟩ hkind
  exact absurd hkind h

theorem numbers_error (e : LexicalError) : Numbers (.error e) :=
  fun _ heq => (nomatch heq)

theorem symbol?_ne_number {c : Char} {kind : Kind} (h : symbol? c = some kind) :
    kind ≠ .number := by
  unfold symbol? at h
  split at h <;> cases h <;> decide

theorem keyword?_ne_number (text : String) : (keyword? text).getD .identifier ≠ .number := by
  have hkeywords : ∀ kind ∈ keywords, kind ≠ .number := by decide
  cases hfound : keyword? text with
  | none => exact nofun
  | some kind => exact hkeywords kind (List.mem_of_find?_eq_some hfound)

theorem numbers_readEquality {one two three : Kind} (start : Located) (k : Cursor)
    (hone : one ≠ .number) (htwo : two ≠ .number) (hthree : three ≠ .number) :
    Numbers (.ok (readEquality start one two three k).1) := by
  simp only [readEquality]
  split
  · exact numbers_made hone
  · split
    · exact numbers_made htwo
    · exact numbers_made hthree

theorem numbers_readOrEqual {one two : Kind} (start : Located) (k : Cursor) (hone : one ≠ .number)
    (htwo : two ≠ .number) : Numbers (.ok (readOrEqual start one two k).1) := by
  simp only [readOrEqual]
  split
  · exact numbers_made hone
  · exact numbers_made htwo

theorem numbers_readDouble {kind : Kind} (start : Located) (k : Cursor) (h : kind ≠ .number) :
    Numbers (readDouble start kind k).1 := by
  simp only [readDouble]
  split
  · exact numbers_error _
  · exact numbers_made h

theorem numbers_readFrom (c : Located) (h : k.At before after) : Numbers (readFrom c k).1 := by
  rw [readFrom]
  split
  next kind hkind => exact numbers_made (symbol?_ne_number hkind)
  split
  · exact numbers_readEquality _ _ (by decide) (by decide) (by decide)
  split
  · exact numbers_readEquality _ _ (by decide) (by decide) (by decide)
  split
  · exact numbers_readOrEqual _ _ (by decide) (by decide)
  split
  · exact numbers_readOrEqual _ _ (by decide) (by decide)
  split
  · exact numbers_readDouble _ _ (by decide)
  split
  · exact numbers_readDouble _ _ (by decide)
  split
  · split
    · exact numbers_made (by decide)
    · exact numbers_error _
  split
  next hdigit =>
    rintro _ ⟨⟩ -
    rw [makeToken, String.toList_ofList]
    exact isNumeral_readNumber hdigit h
  split
  · exact numbers_made (keyword?_ne_number _)
  · exact numbers_error _

theorem numbers_readToken (h : k.At before after) : Numbers (readToken k).1 := by
  rw [readToken]
  split
  · rintro _ ⟨⟩ hkind
    cases hkind
  next c k' hadvance =>
    obtain ⟨rest, -, -, -, hat⟩ := h.of_advance hadvance
    exact numbers_readFrom c hat

theorem numbers_nextLexeme (h : k.At before after) : Numbers (nextLexeme k).1 := by
  have hskips := h.skipGap
  rw [nextLexeme]
  cases hread : skipGap k with
  | mk e? k' =>
  rw [hread] at hskips
  cases hskips with
  | all _ behind => exact numbers_readToken behind
  | unclosed => exact numbers_error _
  | gap _ _ behind => exact numbers_readToken behind

theorem exists_at_nextLexeme (h : k.At before after) :
    ∃ before' after', (nextLexeme k).2.At before' after' := by
  rcases nextLexeme_at h with ⟨-, -, hat⟩ | ⟨gap, text, rest, -, -, -, hat⟩
  · exact ⟨_, _, hat⟩
  · exact ⟨_, _, hat⟩

theorem numbers_lexemesFrom (h : k.At before after) : ∀ x ∈ lexemesFrom k, Numbers x := by
  fun_induction lexemesFrom k generalizing before after with
  | case1 k x k' heq _ =>
      have hx := numbers_nextLexeme h
      rw [heq] at hx
      exact fun y hy => (List.mem_singleton.1 hy) ▸ hx
  | case2 k x k' heq hmore _ ih =>
      have hx := numbers_nextLexeme h
      obtain ⟨before', after', hat⟩ := exists_at_nextLexeme h
      rw [heq] at hx hat
      intro y hy
      rcases List.mem_cons.1 hy with rfl | hy
      · exact hx
      · exact ih hat y hy

/-- **A number token is written as a numeral.** -/
theorem isNumeral_of_mem {source : String} {t : Token} (h : .ok t ∈ lexemes source)
    (hkind : t.kind = .number) : IsNumeral t.text.toList :=
  numbers_lexemesFrom (.ofString source) _ h t rfl hkind

end Lexer

end Tracepoint
