/-
Printed strings are literals.

On the console a string inside another value stands between single quotes, and only the quote, the
backslash, line breaks and tabs are escaped.  These four escapes are enough for the text to be one
literal of the script language: no line break and no lone quote is left in it, and what an escape
stands for is the character that it was written for.

Main results:

* `Text.escapeSingle_cases` — a character is escaped, or can stand for itself;
* `Lexer.stringBody_escaped`, `Literal.unescape_escaped` — what is written between the quotes, for
  the lexer and for the meaning of a literal;
* `Literal.stringValue_quote`, `Lexer.spells_quote` — the quoted text;
* `Value.printed_string_reads_back` — **a printed string is one literal that stands for it**.
-/

import Tracepoint.Proofs.Token.Joining
import Tracepoint.Token.Literal
import Tracepoint.Value.Render

set_option relaxedAutoImplicit false
set_option autoImplicit false

namespace Tracepoint

open Text

/-! ### Between the quotes -/

/-- A character is written behind a backslash, as one that stands for it there, or as itself. -/
theorem Text.escapeSingle_cases (c : Char) :
    (∃ d, escapeSingle c = ['\\', d] ∧ d ≠ '\n' ∧ Literal.escaped d = c) ∨
      (escapeSingle c = [c] ∧ c ≠ '\\' ∧ c ≠ '\n' ∧ c ≠ '\'') := by
  unfold escapeSingle
  split
  case h_1 => exact Or.inl ⟨'\'', rfl, by decide, rfl⟩
  case h_2 => exact Or.inl ⟨'\\', rfl, by decide, rfl⟩
  case h_3 => exact Or.inl ⟨'n', rfl, by decide, rfl⟩
  case h_4 => exact Or.inl ⟨'t', rfl, by decide, rfl⟩
  case h_5 hquote hslash hline _ => exact Or.inr ⟨rfl, hslash, hline, hquote⟩

/-- The lexer reads over what is written between the quotes. -/
theorem Lexer.stringBody_escaped (cs : List Char) : StringBody '\'' (cs.flatMap escapeSingle) := by
  induction cs with
  | nil => exact .nil
  | cons c cs ih =>
      rw [List.flatMap_cons]
      rcases escapeSingle_cases c with ⟨d, hc, hline, -⟩ | ⟨hc, hslash, hline, hquote⟩
      · rw [hc]
        exact .escape hline ih
      · rw [hc]
        exact .plain hslash hline hquote ih

namespace Literal

theorem unescape_escape (c : Char) (cs : List Char) :
    unescape ('\\' :: c :: cs) = escaped c :: unescape cs := by
  rw [unescape]

theorem unescape_plain {c : Char} (hc : c ≠ '\\') (cs : List Char) :
    unescape (c :: cs) = c :: unescape cs := by
  rw [unescape]
  · exact fun heq => absurd heq hc
  · exact fun _ _ heq => absurd heq hc

/-- What is written between the quotes stands for the text. -/
theorem unescape_escaped (cs : List Char) : unescape (cs.flatMap escapeSingle) = cs := by
  induction cs with
  | nil => rfl
  | cons c cs ih =>
      rw [List.flatMap_cons]
      rcases escapeSingle_cases c with ⟨d, hc, -, hd⟩ | ⟨hc, hslash, -, -⟩
      · rw [hc, List.cons_append, List.cons_append, List.nil_append, unescape_escape, hd, ih]
      · rw [hc, List.cons_append, List.nil_append, unescape_plain hslash, ih]

/-! ### The quoted text -/

theorem inside_quoted (body : List Char) : inside ('\'' :: (body ++ ['\''])) = body := by
  have hlast : (body ++ ['\'']).getLast? = some '\'' := by simp
  have hsize : ('\'' : Char).utf8Size = 1 := by decide
  simp only [inside, hlast, hsize, and_self, if_true, List.dropLast_concat]

/-- **What a quoted text stands for.** -/
theorem stringValue_quote (text : String) : stringValue (single.quote text) = text := by
  have hinside : inside (single.chars text.toList) = text.toList.flatMap escapeSingle :=
    inside_quoted _
  rw [stringValue, Quotation.quote, String.toList_ofList, hinside, unescape_escaped,
    String.ofList_toList]

end Literal

/-- **A quoted text is spelled as a string**, whatever follows it. -/
theorem Lexer.spells_quote (text : String) (rest : List Char) :
    Spells .string (single.quote text).toList rest := by
  rw [Quotation.quote, String.toList_ofList]
  exact .string (Or.inr rfl) (stringBody_escaped text.toList)

/-- **A printed string is one literal that stands for it.** -/
theorem Value.printed_string_reads_back (heap : Heap Value) (text : String) :
    let printed := (Value.string text).inspect heap
    printed = single.quote text ∧
      Lexer.lexemes printed =
        [.ok ⟨.string, printed, ⟨0, printed.utf8ByteSize⟩, 1⟩, Lexer.endOf printed.toList] ∧
      Literal.stringValue printed = text := by
  intro printed
  have hprinted : printed = single.quote text := by
    simp only [printed, Value.inspect, Value.inspectWithin]
  rw [hprinted]
  exact ⟨rfl, (Lexer.spells_quote text []).lexemes, Literal.stringValue_quote text⟩

end Tracepoint
