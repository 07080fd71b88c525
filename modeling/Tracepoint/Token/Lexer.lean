/-
From source text to tokens.

Before each token lies a gap of blanks and comments.  `skipGap` leaves the cursor at the first
character behind the gap, and `readToken` reads one token from there.  A place that cannot be
read is reported and skipped, so reading goes on behind it; at the end of the source the end
token is given again and again.

* `skipGap` — skips blanks and comments, or reports a comment that is not closed;
* `readToken` — reads a token that starts at the next character;
* `nextLexeme` — both in order;
* `lexemes` — every token and error of a source up to its end;
* `remaining_nextLexeme_lt` — only the end of the source is read without consuming a character.
-/

import Tracepoint.Decimal.Reader
import Tracepoint.Text.Blank
import Tracepoint.Token.Basic
import Tracepoint.Token.Cursor

set_option relaxedAutoImplicit false
set_option autoImplicit false

namespace Tracepoint.Lexer

open Cursor

variable {ν : Type} [LineCount ν]

/-! ### Gaps -/

/-- Skips the rest of a line comment, with the line break that ends it. -/
def skipLine (k : Cursor ν) : Cursor ν :=
  match h : k.advance with
  | none => k
  | some (c, k') =>
    have := remaining_lt_of_advance h
    if c.char = '\n' then k' else skipLine k'
termination_by k.remaining

theorem remaining_lt_of_star {k k' k'' : Cursor ν} {c : Located ν} (h : k.advance = some (c, k'))
    (ht : k'.takeIf '/' = (none, k'')) : k''.remaining < k.remaining :=
  Nat.lt_of_le_of_lt (remaining_of_takeIf ht) (remaining_lt_of_advance h)

/-- Skips the rest of a block comment with its closing mark, and tells whether there was one. -/
def skipBlock (k : Cursor ν) : Bool × Cursor ν :=
  match h : k.advance with
  | none => (false, k)
  | some (c, k') =>
    have := remaining_lt_of_advance h
    if c.char = '*' then
      match ht : k'.takeIf '/' with
      | (some _, k'') => (true, k'')
      | (none, k'') =>
        have := remaining_lt_of_star h ht
        skipBlock k''
    else skipBlock k'
termination_by k.remaining

theorem remaining_skipLine_le (k : Cursor ν) : (skipLine k).remaining ≤ k.remaining := by
  fun_induction skipLine k with
  | case1 => exact Nat.le_refl _
  | case2 => omega
  | case3 => omega

theorem remaining_skipBlock_le (k : Cursor ν) : (skipBlock k).2.remaining ≤ k.remaining := by
  fun_induction skipBlock k with
  | case1 => exact Nat.le_refl _
  | case2 k c k' h _ _ _ _ ht =>
    have := remaining_takeIf_le '/' k'
    simp only [ht] at this
    simp only
    omega
  | case3 => omega
  | case4 => omega

theorem remaining_lt_of_line {k k' ahead : Cursor ν} {c : Located ν} (h : k.advance = some (c, k'))
    (hp : k'.peek = (some '/', ahead)) : (skipLine ahead).remaining < k.remaining := by
  have h₁ := remaining_lt_of_advance h
  have h₂ := remaining_of_peek hp
  have h₃ := remaining_skipLine_le ahead
  omega

theorem remaining_lt_of_block {k k' ahead inside after : Cursor ν} {c d : Located ν}
    (h : k.advance = some (c, k')) (hp : k'.peek = (some '*', ahead))
    (ha : ahead.advance = some (d, inside)) (hs : skipBlock inside = (true, after)) :
    after.remaining < k.remaining := by
  have h₁ := remaining_lt_of_advance h
  have h₂ := remaining_of_peek hp
  have h₃ := remaining_lt_of_advance ha
  have h₄ := remaining_skipBlock_le inside
  simp only [hs] at h₄
  omega

/-- Skips blanks and comments. Gives the error of a comment that is not closed; it reaches from
its opening mark to the end of the source. -/
def skipGap (k : Cursor ν) : Option (LexicalError ν) × Cursor ν :=
  match h : k.advance with
  | none => (none, k)
  | some (c, k') =>
    have := remaining_lt_of_advance h
    if Text.isBlank c.char then skipGap k'
    else if c.char = '/' then
      match hp : k'.peek with
      | (some '/', ahead) =>
        have := remaining_lt_of_line h hp
        skipGap (skipLine ahead)
      | (some '*', ahead) =>
        match ha : ahead.advance with
        | none => (none, ahead)
        | some (_, inside) =>
          match hs : skipBlock inside with
          | (true, after) =>
            have := remaining_lt_of_block h hp ha hs
            skipGap after
          | (false, after) =>
            (some ⟨.unclosedComment, ⟨c.offset, after.offset - c.offset⟩, c.line⟩, after)
      | (_, ahead) => (none, ahead.putBack c (hasRoom_of_peek (hasRoom_of_advance h) hp))
    else (none, k'.putBack c (hasRoom_of_advance h))
termination_by k.remaining

/-! ### Tokens -/

/-- The character can start a name. -/
def startsName (c : Char) : Bool :=
  c.isAlpha || c == '_' || c == '$'

/-- The character can stand in a name behind its start. -/
def continuesName (c : Char) : Bool :=
  c.isAlphanum || c == '_' || c == '$'

omit [LineCount ν] in
/-- The token of the given characters that begins where `start` lies. -/
def makeToken (kind : Kind) (start : Located ν) (cs : List Char) : Token ν :=
  let text := String.ofList cs
  ⟨kind, text, ⟨start.offset, text.utf8ByteSize⟩, start.line⟩

/-- Reads a string behind its opening quote: its characters with the closing quote. There are
none if the string is not closed in its line. -/
def readString (quote : Char) (k : Cursor ν) : Option (List Char) × Cursor ν :=
  match h : k.advance with
  | none => (none, k)
  | some (c, k') =>
    have less := remaining_lt_of_advance h
    if c.char = '\\' then
      match h' : k'.advance with
      | none => (none, k')
      | some (d, k'') =>
        have := Nat.lt_trans (remaining_lt_of_advance h') less
        if d.char = '\n' then (none, k'')
        else
          let (cs?, last) := readString quote k''
          (cs?.map fun cs => c.char :: d.char :: cs, last)
    else if c.char = '\n' then (none, k')
    else if c.char = quote then (some [c.char], k')
    else
      let (cs?, last) := readString quote k'
      (cs?.map fun cs => c.char :: cs, last)
termination_by k.remaining

/-- Reads a number behind its first digit: more digits, and a point if digits follow it. -/
def readNumber (k : Cursor ν) : List Char × Cursor ν :=
  let (front, k₁) := k.takeWhile Decimal.isDigit
  match h : k₁.advance with
  | none => (front, k₁)
  | some (c, k₂) =>
    if c.char = '.' then
      match hp : k₂.peek with
      | (next?, k₃) =>
        if next?.any Decimal.isDigit then
          let (back, last) := k₃.takeWhile Decimal.isDigit
          (front ++ '.' :: back, last)
        else (front, k₃.putBack c (hasRoom_of_peek (hasRoom_of_advance h) hp))
    else (front, k₂.putBack c (hasRoom_of_advance h))

/-- Reads `op`, `op=` or `op==` behind `op`. -/
def readEquality (start : Located ν) (one two three : Kind) (k : Cursor ν) : Token ν × Cursor ν :=
  match k.takeIf '=' with
  | (none, k') => (makeToken one start [start.char], k')
  | (some _, k') =>
    match k'.takeIf '=' with
    | (none, k'') => (makeToken two start [start.char, '='], k'')
    | (some _, k'') => (makeToken three start [start.char, '=', '='], k'')

/-- Reads `op` or `op=` behind `op`. -/
def readOrEqual (start : Located ν) (one two : Kind) (k : Cursor ν) : Token ν × Cursor ν :=
  match k.takeIf '=' with
  | (none, k') => (makeToken one start [start.char], k')
  | (some _, k') => (makeToken two start [start.char, '='], k')

omit [LineCount ν] in
/-- The error of a character that starts no token. -/
def unrecognized (c : Located ν) : LexicalError ν :=
  ⟨.unrecognized c.char, ⟨c.offset, c.char.utf8Size⟩, c.line⟩

/-- Reads the second character of a doubled operator. The first alone is no token. -/
def readDouble (start : Located ν) (kind : Kind) (k : Cursor ν) : Lexeme ν × Cursor ν :=
  match k.takeIf start.char with
  | (none, k') => (.error (unrecognized start), k')
  | (some _, k') => (.ok (makeToken kind start [start.char, start.char]), k')

/-- The kind of a token that is this character, whatever follows. -/
def symbol? : Char → Option Kind
  | '(' => some .leftParen
  | ')' => some .rightParen
  | '\x7b' => some .leftBrace
  | '\x7d' => some .rightBrace
  | '[' => some .leftBracket
  | ']' => some .rightBracket
  | ',' => some .comma
  | '.' => some .dot
  | ';' => some .semicolon
  | ':' => some .colon
  | '-' => some .minus
  | '+' => some .plus
  | '*' => some .star
  | '/' => some .slash
  | '%' => some .percent
  | _ => none

omit [LineCount ν] in
/-- The end token. -/
def finish (k : Cursor ν) : Token ν :=
  ⟨.finish, "", ⟨k.offset, 0⟩, k.line⟩

/-- Reads the token that starts with `c`, which is already taken. -/
def readFrom (c : Located ν) (k : Cursor ν) : Lexeme ν × Cursor ν :=
  match symbol? c.char with
  | some kind => (.ok (makeToken kind c [c.char]), k)
  | none =>
    if c.char = '!' then
      let (t, k') := readEquality c .bang .bangEqual .bangEqualEqual k
      (.ok t, k')
    else if c.char = '=' then
      let (t, k') := readEquality c .equal .equalEqual .equalEqualEqual k
      (.ok t, k')
    else if c.char = '<' then
      let (t, k') := readOrEqual c .less .lessEqual k
      (.ok t, k')
    else if c.char = '>' then
      let (t, k') := readOrEqual c .greater .greaterEqual k
      (.ok t, k')
    else if c.char = '&' then readDouble c .andAnd k
    else if c.char = '|' then readDouble c .orOr k
    else if c.char = '"' ∨ c.char = '\'' then
      match readString c.char k with
      | (some cs, k') => (.ok (makeToken .string c (c.char :: cs)), k')
      | (none, k') =>
        (.error ⟨.unclosedString, ⟨c.offset, k'.offset - c.offset⟩, c.line⟩, k')
    else if Decimal.isDigit c.char then
      let (cs, k') := readNumber k
      (.ok (makeToken .number c (c.char :: cs)), k')
    else if startsName c.char then
      let (cs, k') := k.takeWhile continuesName
      let name := c.char :: cs
      (.ok (makeToken ((keyword? (String.ofList name)).getD .identifier) c name), k')
    else (.error (unrecognized c), k)

/-- Reads a token that starts at the next character. -/
def readToken (k : Cursor ν) : Lexeme ν × Cursor ν :=
  match k.advance with
  | none => (.ok (finish k), k)
  | some (c, k') => readFrom c k'

/-- Skips a gap and reads a token. -/
def nextLexeme (k : Cursor ν) : Lexeme ν × Cursor ν :=
  match skipGap k with
  | (some e, k') => (.error e, k')
  | (none, k') => readToken k'

/-! ### Progress -/

theorem remaining_readString_le (quote : Char) (k : Cursor ν) :
    (readString quote k).2.remaining ≤ k.remaining := by
  fun_induction readString quote k with
  | case1 => exact Nat.le_refl _
  | case2 => simp only; omega
  | case3 => simp only; omega
  | case4 _ _ _ _ _ _ _ _ _ _ _ _ _ heq ih => simp only [heq] at ih; simp only; omega
  | case5 => simp only; omega
  | case6 => simp only; omega
  | case7 _ _ _ _ _ _ _ _ _ _ heq ih => simp only [heq] at ih; simp only; omega

theorem remaining_readNumber_le (k : Cursor ν) : (readNumber k).2.remaining ≤ k.remaining := by
  simp only [readNumber]
  have h₁ := remaining_takeWhile_le Decimal.isDigit k
  split
  · exact h₁
  next c k₂ h =>
    have h₂ := remaining_of_advance h
    have h₃ := remaining_peek k₂
    have h₄ := remaining_takeWhile_le Decimal.isDigit k₂.peek.2
    split
    · split
      · simp only; omega
      · rw [remaining_putBack]; omega
    · rw [remaining_putBack]; omega

theorem remaining_readEquality_le (start : Located ν) (one two three : Kind) (k : Cursor ν) :
    (readEquality start one two three k).2.remaining ≤ k.remaining := by
  simp only [readEquality]
  have h₁ := remaining_takeIf_le '=' k
  split
  next heq => simpa only [heq] using h₁
  next k' heq =>
    simp only [heq] at h₁
    have h₂ := remaining_takeIf_le '=' k'
    split <;> next heq' => simp only [heq'] at h₂; simp only; omega

theorem remaining_readOrEqual_le (start : Located ν) (one two : Kind) (k : Cursor ν) :
    (readOrEqual start one two k).2.remaining ≤ k.remaining := by
  simp only [readOrEqual]
  have h₁ := remaining_takeIf_le '=' k
  split <;> next heq => simpa only [heq] using h₁

theorem remaining_readDouble_le (start : Located ν) (kind : Kind) (k : Cursor ν) :
    (readDouble start kind k).2.remaining ≤ k.remaining := by
  simp only [readDouble]
  have h₁ := remaining_takeIf_le start.char k
  split <;> next heq => simpa only [heq] using h₁

omit [LineCount ν] in
theorem remaining_ite_le {p : Prop} [Decidable p] {a b : Lexeme ν × Cursor ν} {n : Nat}
    (ha : a.2.remaining ≤ n) (hb : b.2.remaining ≤ n) :
    (if p then a else b).2.remaining ≤ n := by
  split
  · exact ha
  · exact hb

theorem remaining_readFrom_le (c : Located ν) (k : Cursor ν) :
    (readFrom c k).2.remaining ≤ k.remaining := by
  rw [readFrom]
  split
  · exact Nat.le_refl _
  · refine remaining_ite_le (remaining_readEquality_le c _ _ _ k) ?_
    refine remaining_ite_le (remaining_readEquality_le c _ _ _ k) ?_
    refine remaining_ite_le (remaining_readOrEqual_le c _ _ k) ?_
    refine remaining_ite_le (remaining_readOrEqual_le c _ _ k) ?_
    refine remaining_ite_le (remaining_readDouble_le c _ k) ?_
    refine remaining_ite_le (remaining_readDouble_le c _ k) ?_
    refine remaining_ite_le ?_ ?_
    · have hstring := remaining_readString_le c.char k
      split
      next heq => simpa only [heq] using hstring
      next heq => simpa only [heq] using hstring
    · refine remaining_ite_le (remaining_readNumber_le k) ?_
      exact remaining_ite_le (remaining_takeWhile_le _ k) (Nat.le_refl _)

theorem remaining_skipGap_le (k : Cursor ν) : (skipGap k).2.remaining ≤ k.remaining := by
  fun_induction skipGap k with
  | case1 => exact Nat.le_refl _
  | case2 => omega
  | case3 => omega
  | case4 k c k' h _ _ _ ahead hp ha =>
    have h₁ := remaining_of_peek hp
    simp only
    omega
  | case5 => omega
  | case6 k c k' h _ _ _ ahead hp d inside ha after hs =>
    have h₁ := remaining_of_peek hp
    have h₂ := remaining_skipBlock_le inside
    have h₃ := remaining_of_advance ha
    simp only [hs] at h₂
    change after.remaining ≤ k.remaining
    omega
  | case7 k c k' h _ _ _ next? ahead _ _ hp =>
    have h₁ := remaining_of_peek hp
    have h₂ := remaining_of_advance h
    rw [remaining_putBack]
    omega
  | case8 k c k' h =>
    have h₂ := remaining_of_advance h
    rw [remaining_putBack]
    omega

theorem remaining_skipGap_lt {k : Cursor ν} (h : (skipGap k).1.isSome = true) :
    (skipGap k).2.remaining < k.remaining := by
  fun_induction skipGap k with
  | case1 => simp at h
  | case2 _ _ _ _ _ _ ih => have := ih h; omega
  | case3 _ _ _ _ _ _ _ _ _ _ ih => have := ih h; omega
  | case4 => simp at h
  | case5 _ _ _ _ _ _ _ _ _ _ _ _ _ _ _ ih => have := ih h; omega
  | case6 k c k' _ _ _ _ ahead hp d inside ha after hs =>
    have h₁ := remaining_of_peek hp
    have h₂ := remaining_skipBlock_le inside
    have h₃ := remaining_of_advance ha
    simp only [hs] at h₂
    change after.remaining < k.remaining
    omega
  | case7 => simp at h
  | case8 => simp at h

omit [LineCount ν] in
/-- The result is the end of the source. -/
def isFinish : Lexeme ν → Bool
  | .ok t => t.kind == .finish
  | .error _ => false

theorem remaining_nextLexeme_lt {k : Cursor ν} (h : isFinish (nextLexeme k).1 = false) :
    (nextLexeme k).2.remaining < k.remaining := by
  have hle := remaining_skipGap_le k
  have hlt := @remaining_skipGap_lt _ _ k
  simp only [nextLexeme] at h ⊢
  split
  next e k' hs =>
    simp only [hs] at hlt
    exact hlt rfl
  next k' hs =>
    simp only [hs, readToken] at h hle ⊢
    split
    next hn => simp [hn, isFinish, finish] at h
    next c k'' ha =>
      have h₁ := remaining_of_advance ha
      have h₂ := remaining_readFrom_le c k''
      omega

theorem remaining_lt_of_nextLexeme {k k' : Cursor ν} {lexeme : Lexeme ν}
    (h : nextLexeme k = (lexeme, k')) (hf : ¬isFinish lexeme = true) :
    k'.remaining < k.remaining := by
  have hlt := @remaining_nextLexeme_lt _ _ k
  simp only [h] at hlt
  exact hlt (by simpa using hf)

/-! ### Whole sources -/

/-- Every token and error from the cursor on, up to the end token. -/
def lexemesFrom (k : Cursor ν) : List (Lexeme ν) :=
  match h : nextLexeme k with
  | (lexeme, k') =>
    if hf : isFinish lexeme then [lexeme]
    else
      have := remaining_lt_of_nextLexeme h hf
      lexeme :: lexemesFrom k'
termination_by k.remaining

/-- Every token and error of a source, up to its end token. -/
def lexemes (source : String) : List (Lexeme ν) :=
  lexemesFrom (Cursor.ofString source)

/-- The results up to the first error. -/
def untilError : List (Lexeme ν) → List (Lexeme ν)
  | [] => []
  | .error e :: _ => [.error e]
  | .ok t :: rest => .ok t :: untilError rest

end Tracepoint.Lexer
