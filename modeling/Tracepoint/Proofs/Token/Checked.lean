/-
Reading that checks the room for what is put back.

A cursor holds two characters at most, and putting one back asks for a proof that there is room.
Here the lexer is written again without such proofs: putting a character back where two are held
already fails, and with it everything that is read.  It never does, so both lexers are the same.

Main definitions:

* `Cursor.putBack?` — puts a character back, if there is room;
* `Cursor.peek?`, `Cursor.takeIf?`, `Cursor.takeWhile?`, `Lexer.skipGap?`, `Lexer.readToken?` and
  the like — readers that fail with it;
* `Lexer.lexemes?` — every token and error of a source, if nothing fails.

Main results:

* `Cursor.putBack?_eq` — where there is room, a character is put back;
* `Lexer.skipGap?_eq`, `Lexer.readToken?_eq` and the like — no reader fails;
* `Lexer.lexemes?_eq` — **nothing fails on any source**.
-/

import Mathlib.Data.Nat.Notation
import Tracepoint.Token.Lexer

set_option relaxedAutoImplicit false
set_option autoImplicit false

namespace Tracepoint

variable {ν : Type}

/-! ### The cursor -/

/-- Holds one more character in front of the others, if there is room. -/
def Held.cons? (c : Located ν) : Held ν → Option (Held ν)
  | none => some (one c)
  | one d => some (two c d)
  | two _ _ => .none

namespace Cursor

/-- Puts a character in front of the unread ones, if there is room. -/
def putBack? (k : Cursor ν) (c : Located ν) : Option (Cursor ν) :=
  (k.held.cons? c).map fun held => { k with held }

theorem putBack?_eq {k : Cursor ν} (c : Located ν) (room : k.HasRoom) :
    k.putBack? c = some (k.putBack c room) := by
  obtain ⟨rest, restOffset, restLine, held⟩ := k
  match held, room with
  | .none, _ => rfl
  | .one _, _ => rfl
  | .two _ _, room => exact absurd room (by simp [HasRoom, Held.HasRoom, Held.count])

variable [LineCount ν]

/-- The next character, without taking it. -/
def peek? (k : Cursor ν) : Option (Option Char × Cursor ν) :=
  match k.advance with
  | none => some (none, k)
  | some (c, k') => (k'.putBack? c).map fun ahead => (some c.char, ahead)

theorem peek?_eq (k : Cursor ν) : k.peek? = some k.peek := by
  rw [peek]
  split
  next hadvance => simp only [peek?, hadvance]
  next c k' hadvance =>
    simp only [peek?, hadvance, putBack?_eq c (hasRoom_of_advance hadvance), Option.map_some]

/-- Takes the next character if it is `expected`. -/
def takeIf? (expected : Char) (k : Cursor ν) : Option (Option (Located ν) × Cursor ν) :=
  match k.advance with
  | none => some (none, k)
  | some (c, k') =>
    if c.char = expected then some (some c, k')
    else (k'.putBack? c).map fun back => (none, back)

theorem takeIf?_eq (expected : Char) (k : Cursor ν) :
    k.takeIf? expected = some (k.takeIf expected) := by
  rw [takeIf]
  split
  next hadvance => simp only [takeIf?, hadvance]
  next c k' hadvance =>
    simp only [takeIf?, hadvance, putBack?_eq c (hasRoom_of_advance hadvance), Option.map_some]
    split <;> rfl

/-- Takes characters as long as they satisfy `p`. -/
def takeWhile? (p : Char → Bool) (k : Cursor ν) : Option (List Char × Cursor ν) :=
  match h : k.advance with
  | none => some ([], k)
  | some (c, k') =>
    if p c.char then
      have := remaining_lt_of_advance h
      (takeWhile? p k').map fun (cs, last) => (c.char :: cs, last)
    else (k'.putBack? c).map fun back => ([], back)
termination_by k.remaining

theorem takeWhile?_eq (p : Char → Bool) (k : Cursor ν) : k.takeWhile? p = some (k.takeWhile p) := by
  fun_induction takeWhile p k with
  | case1 k hadvance =>
      rw [takeWhile?]
      grind
  | case2 k c k' hadvance hp _ cs last hrest ih =>
      rw [takeWhile?]
      grind
  | case3 k c k' hadvance hp =>
      have hback := putBack?_eq c (hasRoom_of_advance hadvance)
      rw [takeWhile?]
      grind

end Cursor

namespace Lexer

open Cursor

variable [LineCount ν]

/-! ### Gaps -/

theorem remaining_lt_of_star? {k k' k'' : Cursor ν} {c : Located ν} (h : k.advance = some (c, k'))
    (ht : k'.takeIf? '/' = some (none, k'')) : k''.remaining < k.remaining := by
  rw [takeIf?_eq] at ht
  exact remaining_lt_of_star h (Option.some.inj ht)

/-- Skips the rest of a block comment with its closing mark, and tells whether there was one. -/
def skipBlock? (k : Cursor ν) : Option (Bool × Cursor ν) :=
  match h : k.advance with
  | none => some (false, k)
  | some (c, k') =>
    have := remaining_lt_of_advance h
    if c.char = '*' then
      match ht : k'.takeIf? '/' with
      | none => none
      | some (some _, k'') => some (true, k'')
      | some (none, k'') =>
        have := remaining_lt_of_star? h ht
        skipBlock? k''
    else skipBlock? k'
termination_by k.remaining

theorem skipBlock?_eq (k : Cursor ν) : skipBlock? k = some (skipBlock k) := by
  fun_induction skipBlock k with
  | case1 k hadvance =>
      rw [skipBlock?]
      grind
  | case2 k c k' hadvance _ hc d k'' htake =>
      have htake? := takeIf?_eq '/' k'
      rw [skipBlock?]
      grind
  | case3 k c k' hadvance _ hc k'' htake _ ih =>
      have htake? := takeIf?_eq '/' k'
      rw [skipBlock?]
      grind
  | case4 k c k' hadvance _ hc ih =>
      rw [skipBlock?]
      grind

theorem peek_of_peek? {k : Cursor ν} {read : Option Char × Cursor ν} (h : k.peek? = some read) :
    k.peek = read :=
  Option.some.inj ((peek?_eq k).symm.trans h)

theorem skipBlock_of_skipBlock? {k : Cursor ν} {read : Bool × Cursor ν} (h : skipBlock? k = some read) :
    skipBlock k = read :=
  Option.some.inj ((skipBlock?_eq k).symm.trans h)

/-- Skips blanks and comments, or gives the error of a comment that is not closed. -/
def skipGap? (k : Cursor ν) : Option (Option (LexicalError ν) × Cursor ν) :=
  match h : k.advance with
  | none => some (none, k)
  | some (c, k') =>
    have := remaining_lt_of_advance h
    if Text.isBlank c.char then skipGap? k'
    else if c.char = '/' then
      match hp : k'.peek? with
      | none => none
      | some (some '/', ahead) =>
        have := remaining_lt_of_line h (peek_of_peek? hp)
        skipGap? (skipLine ahead)
      | some (some '*', ahead) =>
        match ha : ahead.advance with
        | none => some (none, ahead)
        | some (_, inside) =>
          match hs : skipBlock? inside with
          | none => none
          | some (true, after) =>
            have := remaining_lt_of_block h (peek_of_peek? hp) ha (skipBlock_of_skipBlock? hs)
            skipGap? after
          | some (false, after) =>
            some (some ⟨.unclosedComment, ⟨c.offset, after.offset - c.offset⟩, c.line⟩, after)
      | some (_, ahead) => (ahead.putBack? c).map fun back => (none, back)
    else (k'.putBack? c).map fun back => (none, back)
termination_by k.remaining

theorem skipGap?_eq (k : Cursor ν) : skipGap? k = some (skipGap k) := by
  fun_induction skipGap k with
  | case1 k hadvance =>
      rw [skipGap?]
      grind
  | case2 k c k' hadvance _ hc ih =>
      rw [skipGap?]
      grind
  | case3 k c k' hadvance _ _ hc ahead hpeek _ ih =>
      have hpeek? := peek?_eq k'
      rw [skipGap?]
      grind
  | case4 k c k' hadvance _ _ _ ahead hpeek hnone =>
      have hpeek? := peek?_eq k'
      rw [skipGap?]
      grind
  | case5 k c k' hadvance _ _ hc ahead hpeek d inside hinside after hblock _ ih =>
      have hpeek? := peek?_eq k'
      have hblock? := skipBlock?_eq inside
      rw [skipGap?]
      grind
  | case6 k c k' hadvance _ _ hc ahead hpeek d inside hinside after hblock =>
      have hpeek? := peek?_eq k'
      have hblock? := skipBlock?_eq inside
      rw [skipGap?]
      grind
  | case7 k c k' hadvance _ _ _ next? ahead _ _ hpeek =>
      have hpeek? := peek?_eq k'
      have hback := putBack?_eq c (hasRoom_of_peek (hasRoom_of_advance hadvance) hpeek)
      rw [skipGap?]
      grind
  | case8 k c k' hadvance =>
      have hback := putBack?_eq c (hasRoom_of_advance hadvance)
      rw [skipGap?]
      grind

/-! ### Tokens -/

/-- Reads a number behind its first digit: more digits, and a point if digits follow it. -/
def readNumber? (k : Cursor ν) : Option (List Char × Cursor ν) := do
  let (front, k₁) ← k.takeWhile? Decimal.isDigit
  match k₁.advance with
  | none => return (front, k₁)
  | some (c, k₂) =>
    if c.char = '.' then
      let (next?, k₃) ← k₂.peek?
      if next?.any Decimal.isDigit then
        let (back, last) ← k₃.takeWhile? Decimal.isDigit
        return (front ++ '.' :: back, last)
      else return (front, ← k₃.putBack? c)
    else return (front, ← k₂.putBack? c)

theorem readNumber?_eq (k : Cursor ν) : readNumber? k = some (readNumber k) := by
  simp only [readNumber]
  split
  next hadvance =>
    simp only [readNumber?, takeWhile?_eq, hadvance, Option.bind_eq_bind, Option.bind_some,
      Option.pure_def]
  next c k₂ hadvance =>
    have room := hasRoom_of_advance hadvance
    simp only [readNumber?, takeWhile?_eq, peek?_eq, hadvance, putBack?_eq c room,
      putBack?_eq c (hasRoom_peek room), Option.bind_eq_bind, Option.bind_some, Option.pure_def]
    split
    · split <;> rfl
    · rfl

/-- Reads `op`, `op=` or `op==` behind `op`. -/
def readEquality? (start : Located ν) (one two three : Kind) (k : Cursor ν) :
    Option (Token ν × Cursor ν) := do
  match ← k.takeIf? '=' with
  | (none, k') => return (makeToken one start [start.char], k')
  | (some _, k') =>
    match ← k'.takeIf? '=' with
    | (none, k'') => return (makeToken two start [start.char, '='], k'')
    | (some _, k'') => return (makeToken three start [start.char, '=', '='], k'')

theorem readEquality?_eq (start : Located ν) (one two three : Kind) (k : Cursor ν) :
    readEquality? start one two three k = some (readEquality start one two three k) := by
  simp only [readEquality?, readEquality, takeIf?_eq, Option.bind_eq_bind, Option.bind_some,
    Option.pure_def]
  grind

/-- Reads `op` or `op=` behind `op`. -/
def readOrEqual? (start : Located ν) (one two : Kind) (k : Cursor ν) : Option (Token ν × Cursor ν) := do
  match ← k.takeIf? '=' with
  | (none, k') => return (makeToken one start [start.char], k')
  | (some _, k') => return (makeToken two start [start.char, '='], k')

theorem readOrEqual?_eq (start : Located ν) (one two : Kind) (k : Cursor ν) :
    readOrEqual? start one two k = some (readOrEqual start one two k) := by
  simp only [readOrEqual?, readOrEqual, takeIf?_eq, Option.bind_eq_bind, Option.bind_some,
    Option.pure_def]
  grind

/-- Reads the second character of a doubled operator. The first alone is no token. -/
def readDouble? (start : Located ν) (kind : Kind) (k : Cursor ν) : Option (Lexeme ν × Cursor ν) := do
  match ← k.takeIf? start.char with
  | (none, k') => return (.error (unrecognized start), k')
  | (some _, k') => return (.ok (makeToken kind start [start.char, start.char]), k')

theorem readDouble?_eq (start : Located ν) (kind : Kind) (k : Cursor ν) :
    readDouble? start kind k = some (readDouble start kind k) := by
  simp only [readDouble?, readDouble, takeIf?_eq, Option.bind_eq_bind, Option.bind_some,
    Option.pure_def]
  grind

/-- Reads the token that starts with `c`, which is already taken. -/
def readFrom? (c : Located ν) (k : Cursor ν) : Option (Lexeme ν × Cursor ν) :=
  match symbol? c.char with
  | some kind => some (.ok (makeToken kind c [c.char]), k)
  | none =>
    if c.char = '!' then
      (readEquality? c .bang .bangEqual .bangEqualEqual k).map fun (t, k') => (.ok t, k')
    else if c.char = '=' then
      (readEquality? c .equal .equalEqual .equalEqualEqual k).map fun (t, k') => (.ok t, k')
    else if c.char = '<' then
      (readOrEqual? c .less .lessEqual k).map fun (t, k') => (.ok t, k')
    else if c.char = '>' then
      (readOrEqual? c .greater .greaterEqual k).map fun (t, k') => (.ok t, k')
    else if c.char = '&' then readDouble? c .andAnd k
    else if c.char = '|' then readDouble? c .orOr k
    else if c.char = '"' ∨ c.char = '\'' then
      match readString c.char k with
      | (some cs, k') => some (.ok (makeToken .string c (c.char :: cs)), k')
      | (none, k') =>
        some (.error ⟨.unclosedString, ⟨c.offset, k'.offset - c.offset⟩, c.line⟩, k')
    else if Decimal.isDigit c.char then
      (readNumber? k).map fun (cs, k') => (.ok (makeToken .number c (c.char :: cs)), k')
    else if startsName c.char then
      (k.takeWhile? continuesName).map fun (cs, k') =>
        let name := c.char :: cs
        (.ok (makeToken ((keyword? (String.ofList name)).getD .identifier) c name), k')
    else some (.error (unrecognized c), k)

theorem readFrom?_eq (c : Located ν) (k : Cursor ν) : readFrom? c k = some (readFrom c k) := by
  simp only [readFrom?, readFrom, readEquality?_eq, readOrEqual?_eq, readDouble?_eq, readNumber?_eq,
    takeWhile?_eq, Option.map_some]
  cases symbol? c.char with
  | some kind => rfl
  | none =>
      cases hread : readString c.char k with
      | mk cs? k' => cases cs? <;> simp only [apply_ite some]

/-- Reads a token that starts at the next character. -/
def readToken? (k : Cursor ν) : Option (Lexeme ν × Cursor ν) :=
  match k.advance with
  | none => some (.ok (finish k), k)
  | some (c, k') => readFrom? c k'

theorem readToken?_eq (k : Cursor ν) : readToken? k = some (readToken k) := by
  simp only [readToken?, readToken, readFrom?_eq]
  cases k.advance <;> rfl

/-- Skips a gap and reads a token. -/
def nextLexeme? (k : Cursor ν) : Option (Lexeme ν × Cursor ν) := do
  match ← skipGap? k with
  | (some e, k') => return (.error e, k')
  | (none, k') => readToken? k'

theorem nextLexeme?_eq (k : Cursor ν) : nextLexeme? k = some (nextLexeme k) := by
  simp only [nextLexeme?, nextLexeme, skipGap?_eq, readToken?_eq, Option.bind_eq_bind,
    Option.bind_some, Option.pure_def]
  grind

/-! ### Whole sources -/

theorem nextLexeme_of_nextLexeme? {k : Cursor ν} {read : Lexeme ν × Cursor ν}
    (h : nextLexeme? k = some read) : nextLexeme k = read :=
  Option.some.inj ((nextLexeme?_eq k).symm.trans h)

/-- Every token and error from the cursor on, up to the end token, if nothing fails. -/
def lexemesFrom? (k : Cursor ν) : Option (List (Lexeme ν)) :=
  match h : nextLexeme? k with
  | none => none
  | some (lexeme, k') =>
    if hf : isFinish lexeme then some [lexeme]
    else
      have := remaining_lt_of_nextLexeme (nextLexeme_of_nextLexeme? h) hf
      (lexemesFrom? k').map (lexeme :: ·)
termination_by k.remaining

theorem lexemesFrom?_eq (k : Cursor ν) : lexemesFrom? k = some (lexemesFrom k) := by
  fun_induction lexemesFrom k with
  | case1 k lexeme k' hread hend =>
      have hread? := nextLexeme?_eq k
      rw [lexemesFrom?]
      grind
  | case2 k lexeme k' hread hmore _ ih =>
      have hread? := nextLexeme?_eq k
      rw [lexemesFrom?]
      grind

/-- Every token and error of a source, up to its end token, if nothing fails. -/
def lexemes? (source : String) : Option (List (Lexeme ν)) :=
  lexemesFrom? (Cursor.ofString source)

/-- **Nothing fails on any source.** -/
theorem lexemes?_eq (source : String) :
    (lexemes? source : Option (List (Lexeme ν))) = some (lexemes source) :=
  lexemesFrom?_eq _

end Lexer

end Tracepoint
