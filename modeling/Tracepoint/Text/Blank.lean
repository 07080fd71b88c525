/-
Blank characters, and the words between them.

Between the tokens of a script, at the end of a quoted source line and between the words of a
typed command, the same characters are blank: the twenty-five that the Unicode property
`White_Space` holds of.

* `isBlank` — the property, as a table of code points;
* `words` — the maximal runs of characters that are not blank, in order;
* `trimEnd` — a text without the blanks at its end;
* `isBlank_of_isWhitespace` — every blank of the ASCII class is blank here.
-/

set_option relaxedAutoImplicit false
set_option autoImplicit false

namespace Tracepoint.Text

/-- The characters of the Unicode property `White_Space`. -/
def isBlank (c : Char) : Bool :=
  let n := c.toNat
  (9 ≤ n && n ≤ 13) || n == 0x20 || n == 0x85 || n == 0xA0 || n == 0x1680 ||
    (0x2000 ≤ n && n ≤ 0x200A) || n == 0x2028 || n == 0x2029 || n == 0x202F || n == 0x205F ||
    n == 0x3000

theorem isBlank_of_isWhitespace {c : Char} (h : c.isWhitespace = true) : isBlank c = true := by
  simp only [Char.isWhitespace, Bool.or_eq_true, decide_eq_true_eq] at h
  rcases h with ((rfl | rfl) | rfl) | rfl <;> rfl

/-- The words of `cs`, given the characters `current` of the word being read, last one first. -/
def wordsFrom (current : List Char) : List Char → List String
  | [] => if current.isEmpty then [] else [String.ofList current.reverse]
  | c :: rest =>
    if isBlank c then
      if current.isEmpty then wordsFrom [] rest
      else String.ofList current.reverse :: wordsFrom [] rest
    else wordsFrom (c :: current) rest

/-- The maximal runs of characters that are not blank. -/
def words (text : String) : List String :=
  wordsFrom [] text.toList

/-- `cs` without the blanks at its end. -/
def trimEnd (cs : List Char) : List Char :=
  (cs.reverse.dropWhile isBlank).reverse

end Tracepoint.Text
