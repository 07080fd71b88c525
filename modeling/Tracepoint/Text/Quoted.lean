/-
Quoted texts.

A quoted text is a mark, the characters of the text, each written by the escaping rule of the
quotation, and the mark again.  A quotation is a mark with its rule.

* `Quotation`, `Quotation.quote` — the common form;
* `single` — how values are shown on the console: only the mark, the backslash, line breaks and
  tabs are escaped, so the text is again a string literal of the script language;
* `visible`, `visibleChar` — how texts and single characters are shown to a reader of listings
  and messages: also every character without a glyph of its own is spelled as its code point;
* `isUnprintable` — the characters without a glyph of their own.
-/

import Tracepoint.Text.Combining
import Tracepoint.Text.Hidden

set_option relaxedAutoImplicit false
set_option autoImplicit false

namespace Tracepoint.Text

/-- A mark with the rule that writes the characters between two of them. -/
structure Quotation where
  /-- Opens and closes the quoted text. -/
  mark : Char
  /-- What is written for one character. -/
  escape : Char → List Char

/-- The quoted form as characters. -/
def Quotation.chars (q : Quotation) (cs : List Char) : List Char :=
  q.mark :: (cs.flatMap q.escape ++ [q.mark])

/-- The quoted form of a text. -/
def Quotation.quote (q : Quotation) (text : String) : String :=
  String.ofList (q.chars text.toList)

/-! ### On the console -/

/-- Escapes the mark, the backslash, line breaks and tabs. -/
def escapeSingle : Char → List Char
  | '\'' => ['\\', '\'']
  | '\\' => ['\\', '\\']
  | '\n' => ['\\', 'n']
  | '\t' => ['\\', 't']
  | c => [c]

/-- The quotation of strings inside shown values. -/
def single : Quotation := ⟨'\'', escapeSingle⟩

/-! ### In listings and messages -/

/-- The character has no glyph of its own: it prints nothing, or combines with the one before. -/
def isUnprintable (c : Char) : Bool :=
  hidden.contains c.toNat || combining.contains c.toNat

/-- Lower-case hexadecimal digits without padding. -/
def hex (n : Nat) : List Char :=
  Nat.toDigits 16 n

/-- Escapes `mark`, the backslash and every character without a glyph. -/
def escapeVisible (mark : Char) (c : Char) : List Char :=
  if c = mark ∨ c = '\\' then ['\\', c]
  else if c = '\x00' then ['\\', '0']
  else if c = '\t' then ['\\', 't']
  else if c = '\r' then ['\\', 'r']
  else if c = '\n' then ['\\', 'n']
  else if isUnprintable c then ['\\', 'u', '\x7b'] ++ hex c.toNat ++ ['\x7d']
  else [c]

/-- The quotation of texts in listings, messages and displayed values. -/
def visible : Quotation := ⟨'"', escapeVisible '"'⟩

/-- The quotation of a single character in messages. -/
def visibleChar : Quotation := ⟨'\'', escapeVisible '\''⟩

end Tracepoint.Text
