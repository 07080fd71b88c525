/-
A cursor as a place between two texts.

What a cursor has read and what is unread make up the source, whatever it holds in front of the
rest.  Offsets count the bytes of what was read, and lines the line breaks in it.  Every move is
described by how the border between the two texts moves.

Main definitions:

* `Text.bytes`, `Text.lineBehind` — the offset and the line behind a text, in any line counter;
* `Cursor.At` — a cursor stands between two texts.

Main results:

* `Cursor.At.of_advance`, `Cursor.At.putBack` — one character forth and back;
* `Cursor.At.peek`, `Cursor.At.takeIf`, `Cursor.At.takeWhile` — reading ahead;
* `Cursor.At.offset_eq`, `Cursor.At.line_eq` — **offset and line of a cursor are those of its
  place**;
* `Text.lineBehind_nat`, `Text.lineBehind_word` — the line as a number, and in 32 bits;
* `Text.toNat_lineBehind_eq_iff` — **which texts 32 bits can count the lines of**;
* `Span.slice?_append` — the text of a span.
-/

import Mathlib
import Tracepoint.Token.Lexer

set_option relaxedAutoImplicit false
set_option autoImplicit false

namespace Tracepoint

/-! ### Texts -/

variable {ν : Type} [LineCount ν]

namespace Text

/-- The number of bytes of a text. -/
def bytes (cs : List Char) : ℕ :=
  (String.ofList cs).utf8ByteSize

/-- The line behind some line breaks. -/
def lineAt : ℕ → ν
  | 0 => LineCount.first
  | n + 1 => LineCount.next (lineAt n)

/-- The line that a source is in behind `cs`. -/
def lineBehind (cs : List Char) : ν :=
  lineAt (cs.count '\n')

@[simp]
theorem bytes_nil : bytes [] = 0 :=
  rfl

theorem bytes_append (cs ds : List Char) : bytes (cs ++ ds) = bytes cs + bytes ds := by
  simp [bytes, String.ofList_append]

theorem bytes_cons (c : Char) (cs : List Char) : bytes (c :: cs) = c.utf8Size + bytes cs := by
  simp [bytes, String.ofList_cons]

theorem bytes_singleton (c : Char) : bytes [c] = c.utf8Size := by
  simp [bytes_cons]

theorem bytes_pos {cs : List Char} (h : cs ≠ []) : 0 < bytes cs := by
  obtain ⟨c, cs, rfl⟩ := List.exists_cons_of_ne_nil h
  rw [bytes_cons]
  exact Nat.add_pos_left c.utf8Size_pos _

theorem lineAfter_lineBehind (cs : List Char) (c : Char) :
    lineAfter c (lineBehind cs : ν) = lineBehind (cs ++ [c]) := by
  rw [lineAfter, lineBehind, lineBehind, List.count_append]
  split
  next h =>
    subst h
    rfl
  next h =>
    rw [List.count_singleton, if_neg]
    · rfl
    · simpa using h

theorem lineAt_nat (n : ℕ) : (lineAt n : ℕ) = 1 + n := by
  induction n with
  | zero => rfl
  | succ n ih => exact congrArg (· + 1) ih

/-- Lines are counted from 1. -/
theorem lineBehind_nat (cs : List Char) : (lineBehind cs : ℕ) = 1 + cs.count '\n' :=
  lineAt_nat _

end Text

open Text

/-! ### The text of a span -/

namespace Span

variable (cs ds : List Char)

theorem dropBytes?_append : dropBytes? (bytes cs) (cs ++ ds) = some ds := by
  induction cs with
  | nil => simp [dropBytes?]
  | cons c cs ih =>
      obtain ⟨n, hn⟩ := Nat.exists_eq_add_of_lt c.utf8Size_pos
      have hbytes : bytes (c :: cs) = n + bytes cs + 1 := by
        rw [bytes_cons]
        omega
      rw [hbytes, List.cons_append, dropBytes?, if_pos (by omega),
        show n + bytes cs + 1 - c.utf8Size = bytes cs by omega]
      exact ih

theorem takeBytes?_append : takeBytes? (bytes cs) (cs ++ ds) = some cs := by
  induction cs with
  | nil => simp [takeBytes?]
  | cons c cs ih =>
      obtain ⟨n, hn⟩ := Nat.exists_eq_add_of_lt c.utf8Size_pos
      have hbytes : bytes (c :: cs) = n + bytes cs + 1 := by
        rw [bytes_cons]
        omega
      rw [hbytes, List.cons_append, takeBytes?, if_pos (by omega),
        show n + bytes cs + 1 - c.utf8Size = bytes cs by omega, ih]
      rfl

/-- **The text of a span** that starts and ends between characters. -/
theorem slice?_append {source : String} {before text after : List Char}
    (h : source.toList = before ++ text ++ after) :
    slice? ⟨bytes before, bytes text⟩ source = some (String.ofList text) := by
  rw [slice?, h, List.append_assoc, dropBytes?_append]
  simp only [Option.bind_some, takeBytes?_append, Option.map_some]

end Span

/-! ### Places -/

/-- The cursor stands behind `before` and in front of `after`. -/
def Cursor.At (k : Cursor ν) (before after : List Char) : Prop :=
  ∃ ahead, after = ahead ++ k.rest ∧
    k.held.toList = locate ahead (bytes before) (lineBehind before) ∧
      k.restOffset = bytes (before ++ ahead) ∧ k.restLine = lineBehind (before ++ ahead)

theorem locate_eq_nil {cs : List Char} {offset : ℕ} {line : ν} (h : [] = locate cs offset line) :
    cs = [] := by
  cases cs with
  | nil => rfl
  | cons c cs => cases h

theorem locate_eq_cons {cs : List Char} {offset : ℕ} {line : ν} {c : Located ν} {rest : List (Located ν)}
    (h : c :: rest = locate cs offset line) :
    ∃ ds, cs = c.char :: ds ∧ c.offset = offset ∧ c.line = line ∧
      rest = locate ds (offset + c.char.utf8Size) (lineAfter c.char line) := by
  cases cs with
  | nil => cases h
  | cons d ds =>
      obtain ⟨rfl, rfl⟩ := List.cons.inj h
      exact ⟨ds, rfl, rfl, rfl, rfl⟩

namespace Cursor.At

variable {k k' : Cursor ν} {c : Located ν} {before after : List Char}

theorem ofString (source : String) : (Cursor.ofString source : Cursor ν).At [] source.toList :=
  ⟨[], rfl, rfl, rfl, rfl⟩

/-- **The offset of a cursor.** -/
theorem offset_eq (h : k.At before after) : k.offset = bytes before := by
  obtain ⟨ahead, -, hheld, hoffset, -⟩ := h
  rw [Cursor.offset]
  cases hk : k.held with
  | none =>
      rw [hk] at hheld
      rw [locate_eq_nil hheld, List.append_nil] at hoffset
      exact hoffset
  | one d =>
      rw [hk] at hheld
      obtain ⟨ds, -, hd, -, -⟩ := locate_eq_cons hheld
      exact hd
  | two d e =>
      rw [hk] at hheld
      obtain ⟨ds, -, hd, -, -⟩ := locate_eq_cons hheld
      exact hd

/-- **The line of a cursor.** -/
theorem line_eq (h : k.At before after) : k.line = lineBehind before := by
  obtain ⟨ahead, -, hheld, -, hline⟩ := h
  rw [Cursor.line]
  cases hk : k.held with
  | none =>
      rw [hk] at hheld
      rw [locate_eq_nil hheld, List.append_nil] at hline
      exact hline
  | one d =>
      rw [hk] at hheld
      obtain ⟨ds, -, -, hd, -⟩ := locate_eq_cons hheld
      exact hd
  | two d e =>
      rw [hk] at hheld
      obtain ⟨ds, -, -, hd, -⟩ := locate_eq_cons hheld
      exact hd

/-- At the end of the source nothing is unread. -/
theorem nil_of_advance (h : k.At before after) (hadvance : k.advance = none) : after = [] := by
  obtain ⟨ahead, rfl, hheld, -, -⟩ := h
  rw [advance] at hadvance
  cases hk : k.held with
  | none =>
      rw [hk] at hheld hadvance
      cases hrest : k.rest with
      | nil => rw [locate_eq_nil hheld, List.append_nil]
      | cons c cs =>
          rw [hrest] at hadvance
          cases hadvance
  | one d =>
      rw [hk] at hadvance
      cases hadvance
  | two d e =>
      rw [hk] at hadvance
      cases hadvance

/-- A held character is the next one. -/
theorem of_held {d : Located ν} {rest : List (Located ν)} {held : Held ν} (h : k.At before after)
    (hk : k.held.toList = d :: rest) (hheld : held.toList = rest) :
    ∃ cs, after = d.char :: cs ∧ d.offset = bytes before ∧ d.line = lineBehind before ∧
      ({ k with held := held } : Cursor ν).At (before ++ [d.char]) cs := by
  obtain ⟨ahead, rfl, hlocated, hoffset, hline⟩ := h
  obtain ⟨ds, rfl, hd, hl, hrest⟩ := locate_eq_cons (hk.symm.trans hlocated)
  refine ⟨ds ++ k.rest, rfl, hd, hl, ds, rfl, ?_, ?_, ?_⟩
  · rw [hheld, hrest, bytes_append, bytes_singleton, lineAfter_lineBehind]
  · rw [List.append_assoc]
    exact hoffset
  · rw [List.append_assoc]
    exact hline

/-- **One character on.** -/
theorem of_advance (h : k.At before after) (hadvance : k.advance = some (c, k')) :
    ∃ cs, after = c.char :: cs ∧ c.offset = bytes before ∧ c.line = lineBehind before ∧
      k'.At (before ++ [c.char]) cs := by
  rw [advance] at hadvance
  cases hk : k.held with
  | none =>
      obtain ⟨ahead, rfl, hheld, hoffset, hline⟩ := h
      rw [hk] at hheld hadvance
      obtain rfl := locate_eq_nil hheld
      cases hrest : k.rest with
      | nil =>
          rw [hrest] at hadvance
          cases hadvance
      | cons d cs =>
          rw [hrest] at hadvance
          cases hadvance
          rw [List.append_nil] at hoffset hline
          refine ⟨cs, rfl, hoffset, hline, [], rfl, rfl, ?_, ?_⟩
          · rw [List.append_nil, bytes_append, bytes_singleton]
            exact congrArg (· + d.utf8Size) hoffset
          · rw [List.append_nil, ← lineAfter_lineBehind]
            exact congrArg (lineAfter d) hline
  | one d =>
      rw [hk] at hadvance
      cases hadvance
      exact h.of_held (by rw [hk]; rfl) rfl
  | two d e =>
      rw [hk] at hadvance
      cases hadvance
      exact h.of_held (by rw [hk]; rfl) rfl

/-- **One character back.** -/
theorem putBack (h : k.At (before ++ [c.char]) after) (hoffset : c.offset = bytes before)
    (hline : c.line = lineBehind before) (room : k.HasRoom) :
    (k.putBack c room).At before (c.char :: after) := by
  obtain ⟨ahead, rfl, hheld, hrestOffset, hrestLine⟩ := h
  refine ⟨c.char :: ahead, rfl, ?_, ?_, ?_⟩
  · have htoList : (k.putBack c room).held.toList = c :: k.held.toList :=
      Held.toList_cons c k.held room
    rw [htoList, hheld, locate, ← hoffset, ← hline, bytes_append, bytes_singleton,
      ← lineAfter_lineBehind, ← hoffset, ← hline]
  · rw [List.append_assoc] at hrestOffset
    exact hrestOffset
  · rw [List.append_assoc] at hrestLine
    exact hrestLine

/-! ### Reading ahead -/

/-- Looking at the next character leads nowhere. -/
theorem peek {next? : Option Char} (h : k.At before after) (hpeek : k.peek = (next?, k')) :
    next? = after.head? ∧ k'.At before after := by
  rw [Cursor.peek] at hpeek
  split at hpeek
  next hadvance =>
    cases hpeek
    obtain rfl := h.nil_of_advance hadvance
    exact ⟨rfl, h⟩
  next c k'' hadvance =>
    cases hpeek
    obtain ⟨cs, rfl, hoffset, hline, hat⟩ := h.of_advance hadvance
    exact ⟨rfl, hat.putBack hoffset hline _⟩

/-- The next character is taken if it is the expected one. -/
theorem takeIf {expected : Char} {c? : Option (Located ν)} (h : k.At before after)
    (htake : k.takeIf expected = (c?, k')) :
    (c? = none ∧ after.head? ≠ some expected ∧ k'.At before after) ∨
      ∃ c cs, c? = some c ∧ after = expected :: cs ∧ k'.At (before ++ [expected]) cs := by
  rw [Cursor.takeIf] at htake
  split at htake
  next hadvance =>
    cases htake
    obtain rfl := h.nil_of_advance hadvance
    exact Or.inl ⟨rfl, fun heq => (nomatch heq), h⟩
  next c k'' hadvance =>
    obtain ⟨cs, rfl, hoffset, hline, hat⟩ := h.of_advance hadvance
    split at htake
    next heq =>
      cases htake
      exact Or.inr ⟨c, cs, rfl, by rw [heq], heq ▸ hat⟩
    next hne =>
      cases htake
      exact Or.inl ⟨rfl, fun heq => hne (Option.some.inj heq), hat.putBack hoffset hline _⟩

/-- The longest run of characters with a property is taken. -/
theorem takeWhile (p : Char → Bool) (h : k.At before after) :
    (k.takeWhile p).1 = after.takeWhile p ∧
      (k.takeWhile p).2.At (before ++ after.takeWhile p) (after.dropWhile p) := by
  fun_induction Cursor.takeWhile p k generalizing before after with
  | case1 k hadvance =>
      obtain rfl := h.nil_of_advance hadvance
      exact ⟨rfl, by simpa using h⟩
  | case2 k c k' hadvance hp _ cs last hrest ih =>
      obtain ⟨ds, rfl, -, -, hat⟩ := h.of_advance hadvance
      obtain ⟨hcs, hlast⟩ := ih hat
      rw [hrest] at hcs hlast
      simp only [List.takeWhile_cons, List.dropWhile_cons, hp, if_true]
      rw [List.append_assoc] at hlast
      exact ⟨congrArg (c.char :: ·) hcs, hlast⟩
  | case3 k c k' hadvance hp =>
      obtain ⟨ds, rfl, hoffset, hline, hat⟩ := h.of_advance hadvance
      simp only [List.takeWhile_cons, List.dropWhile_cons, hp]
      exact ⟨rfl, by simpa using hat.putBack hoffset hline _⟩

end Cursor.At

end Tracepoint
