/-
Tokens of the script language.

Offsets and lengths are numbers without a bound here and stand for words of 32 bits: a source is
meant to have less than `2 ^ 32` bytes, since a span cannot tell further ones from the first.

* `Span` — a range of bytes of a source, with `Span.merge` and the text it selects;
* `Kind` — what a token is; `Kind.spelling?` gives the text of those that have only one;
* `keywords` — the names that are not identifiers;
* `Token` — a kind with its text and place;
* `LexicalError` — a place that cannot be read as a token.
-/

import Tracepoint.Text.Quoted

set_option relaxedAutoImplicit false
set_option autoImplicit false

namespace Tracepoint

/-! ### Spans -/

/-- A range of bytes of a source. -/
structure Span where
  start : Nat
  length : Nat
  deriving Repr, DecidableEq, Inhabited

namespace Span

/-- The offset after the last byte. -/
def stop (s : Span) : Nat :=
  s.start + s.length

/-- The smallest span that covers both. -/
def merge (s t : Span) : Span :=
  let start := min s.start t.start
  ⟨start, max s.stop t.stop - start⟩

/-- What is left of `cs` after `n` bytes, if a character ends there. -/
def dropBytes? : Nat → List Char → Option (List Char)
  | 0, cs => some cs
  | _ + 1, [] => none
  | n + 1, c :: cs => if c.utf8Size ≤ n + 1 then dropBytes? (n + 1 - c.utf8Size) cs else none
termination_by _ cs => cs.length

/-- The characters of the first `n` bytes of `cs`, if a character ends there. -/
def takeBytes? : Nat → List Char → Option (List Char)
  | 0, _ => some []
  | _ + 1, [] => none
  | n + 1, c :: cs =>
    if c.utf8Size ≤ n + 1 then (takeBytes? (n + 1 - c.utf8Size) cs).map (c :: ·) else none
termination_by _ cs => cs.length

/-- The text that a span selects. There is none if the span leaves the source or cuts a
character. -/
def slice? (s : Span) (source : String) : Option String :=
  (dropBytes? s.start source.toList).bind fun rest =>
    (takeBytes? s.length rest).map String.ofList

end Span

/-! ### Kinds -/

/-- What a token is. -/
inductive Kind
  | leftParen | rightParen | leftBrace | rightBrace | leftBracket | rightBracket
  | comma | dot | semicolon | colon
  | minus | plus | star | slash | percent
  | bang | bangEqual | bangEqualEqual
  | equal | equalEqual | equalEqualEqual
  | less | lessEqual | greater | greaterEqual
  | andAnd | orOr
  | number | string | identifier
  | breakWord | constWord | continueWord | elseWord | falseWord | forWord | functionWord | ifWord
  | letWord | nullWord | returnWord | trueWord | undefinedWord | varWord | whileWord
  /-- The end of the source. -/
  | finish
  deriving Repr, DecidableEq, Inhabited

namespace Kind

/-- The text of a token of this kind, if there is only one. -/
def spelling? : Kind → Option String
  | leftParen => some "("
  | rightParen => some ")"
  | leftBrace => some "\x7b"
  | rightBrace => some "\x7d"
  | leftBracket => some "["
  | rightBracket => some "]"
  | comma => some ","
  | dot => some "."
  | semicolon => some ";"
  | colon => some ":"
  | minus => some "-"
  | plus => some "+"
  | star => some "*"
  | slash => some "/"
  | percent => some "%"
  | bang => some "!"
  | bangEqual => some "!="
  | bangEqualEqual => some "!=="
  | equal => some "="
  | equalEqual => some "=="
  | equalEqualEqual => some "==="
  | less => some "<"
  | lessEqual => some "<="
  | greater => some ">"
  | greaterEqual => some ">="
  | andAnd => some "&&"
  | orOr => some "||"
  | number | string | identifier | finish => none
  | breakWord => some "break"
  | constWord => some "const"
  | continueWord => some "continue"
  | elseWord => some "else"
  | falseWord => some "false"
  | forWord => some "for"
  | functionWord => some "function"
  | ifWord => some "if"
  | letWord => some "let"
  | nullWord => some "null"
  | returnWord => some "return"
  | trueWord => some "true"
  | undefinedWord => some "undefined"
  | varWord => some "var"
  | whileWord => some "while"

/-- How messages name the kind. -/
def describe (k : Kind) : String :=
  match k.spelling?, k with
  | some text, _ => "`" ++ text ++ "`"
  | none, number => "number"
  | none, string => "string"
  | none, identifier => "identifier"
  | none, _ => "end of input"

end Kind

/-- The names that are not identifiers. -/
def keywords : List Kind :=
  [.breakWord, .constWord, .continueWord, .elseWord, .falseWord, .forWord, .functionWord,
   .ifWord, .letWord, .nullWord, .returnWord, .trueWord, .undefinedWord, .varWord, .whileWord]

/-- The keyword with the given text. -/
def keyword? (text : String) : Option Kind :=
  keywords.find? fun k => k.spelling? == some text

/-! ### Tokens and errors -/

/-- A piece of a source. -/
structure Token (ν : Type := Nat) where
  kind : Kind
  text : String
  span : Span
  line : ν
  deriving Repr, DecidableEq, Inhabited

/-- Why a place cannot be read. -/
inductive LexicalFault
  /-- No token starts with this character. -/
  | unrecognized (c : Char)
  | unclosedString
  | unclosedComment
  deriving Repr, DecidableEq

/-- The wording of a fault. -/
def LexicalFault.message : LexicalFault → String
  | unrecognized c => "Unrecognized character " ++ String.ofList (Text.visibleChar.chars [c])
  | unclosedString => "Unterminated string literal"
  | unclosedComment => "Unterminated block comment"

/-- A place that cannot be read as a token. -/
structure LexicalError (ν : Type := Nat) where
  fault : LexicalFault
  span : Span
  line : ν
  deriving Repr, DecidableEq

/-- A token, or the place where none could be read. -/
abbrev Lexeme (ν : Type := Nat) := Except (LexicalError ν) (Token ν)

end Tracepoint
