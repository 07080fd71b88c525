/-
Lines of a text, as they are shown.

A line ends after a line break, and the text behind the last line break is a line unless it is
empty.  A carriage return with a line feed behind it is one line break.

* `isLineBreak`, `linesOf` — the lines with their line breaks;
* `Place`, `place` — the line and column of a character;
* `flatten_linesOf` — the lines are the text.
-/

set_option relaxedAutoImplicit false
set_option autoImplicit false

namespace Tracepoint.Text

/-- The character ends a line. -/
def isLineBreak (c : Char) : Bool :=
  let n := c.toNat
  (10 ≤ n && n ≤ 13) || n == 0x85 || n == 0x2028 || n == 0x2029

/-- The lines of some characters, given the characters `current` of the first line, last one
first. -/
def linesFrom (current : List Char) : List Char → List (List Char)
  | [] => if current.isEmpty then [] else [current.reverse]
  | c :: rest =>
    if c = '\r' ∧ rest.head? = some '\n' then linesFrom (c :: current) rest
    else if isLineBreak c then (c :: current).reverse :: linesFrom [] rest
    else linesFrom (c :: current) rest

/-- The lines of a text. -/
def linesOf (text : String) : List (List Char) :=
  linesFrom [] text.toList

theorem flatten_linesFrom (current cs : List Char) :
    (linesFrom current cs).flatten = current.reverse ++ cs := by
  induction cs generalizing current with
  | nil => cases current <;> simp [linesFrom]
  | cons c rest ih =>
    simp only [linesFrom]
    split
    · simp [ih]
    · split <;> simp [ih]

theorem flatten_linesOf (text : String) : (linesOf text).flatten = text.toList := by
  simp [linesOf, flatten_linesFrom]

/-- A place in a text. -/
structure Place where
  /-- The number of the line, from one on. -/
  line : Nat
  /-- The number of characters in front of the place in its line. -/
  column : Nat
  /-- The characters of the line. -/
  content : List Char
  deriving Repr, DecidableEq

/-- The place of the character at an offset in some lines, the first of which has the number
`line`. Behind the last character is a place in the last line. -/
def placeIn (line offset : Nat) : List (List Char) → Place
  | [] => ⟨line, offset, []⟩
  | [content] => ⟨line, offset, content⟩
  | content :: next :: rest =>
    if offset < content.length then ⟨line, offset, content⟩
    else placeIn (line + 1) (offset - content.length) (next :: rest)

/-- The place of the character at an offset. -/
def place (text : String) (offset : Nat) : Place :=
  placeIn 1 offset (linesOf text)

end Tracepoint.Text
