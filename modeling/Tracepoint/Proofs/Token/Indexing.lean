/-
A cursor as an index.

Whoever reads by a cursor takes characters, looks at the next one, and puts back what was taken
last.  The cursor holds what was put back in front of the rest, and has counted offset and line of
the rest already.  None of this can be seen.  The answers are those of an index into the characters
of the source: taking moves it one on, putting back moves it one back, and looking leaves it where
it is.

There is room for two characters.  Those that are held lie between the index and the farthest one
that was ever read or looked up to, so the moves alone tell whether there is room for one more.

Main definitions:

* `Reader` — a cursor with the characters that can be put back;
* `Reader.Move`, `Reader.perform?`, `Reader.run?` — what is asked of it;
* `Reader.answer`, `Reader.target`, `Reader.answers` — **the same asked of an index**;
* `Reader.Bookmark`, `Reader.Permitted` — characters are put back only where there is room;
* `Reader.StandsAt` — a reader agrees with an index.

Main results:

* `Reader.StandsAt.perform?_of_allows`, `Reader.StandsAt.perform?_of_not_allows` — one move;
* `Reader.StandsAt.run?_of_permitted`, `Reader.StandsAt.run?_of_not_permitted` — any moves;
* `Reader.Permitted.of_peek` — looking can be left out;
* `Reader.answers_as_index` — **a cursor answers as an index**.
-/

import Mathlib.Data.Nat.Notation
import Tracepoint.Proofs.Token.Checked
import Tracepoint.Proofs.Token.Position

set_option relaxedAutoImplicit false
set_option autoImplicit false

namespace Tracepoint

open Text

variable {ν : Type} [LineCount ν]

/-! ### The room of a cursor -/

namespace Cursor

variable {k k' : Cursor ν} {c : Located ν}

theorem count_of_advance (h : k.advance = some (c, k')) : k'.held.count = k.held.count - 1 := by
  rw [advance] at h
  cases hk : k.held with
  | none =>
      rw [hk] at h
      cases hrest : k.rest with
      | nil =>
          rw [hrest] at h
          cases h
      | cons d cs =>
          rw [hrest] at h
          cases h
          rfl
  | one d =>
      rw [hk] at h
      cases h
      rfl
  | two d e =>
      rw [hk] at h
      cases h
      rfl

omit [LineCount ν] in
theorem count_putBack (room : k.HasRoom) : (k.putBack c room).held.count = k.held.count + 1 := by
  have htoList : (k.putBack c room).held.toList = c :: k.held.toList :=
    Held.toList_cons c k.held room
  simpa only [List.length_cons, Held.length_toList] using congrArg List.length htoList

theorem peek_of_none (h : k.advance = none) : k.peek = (none, k) := by
  rw [peek]
  split
  · rfl
  next hsome =>
    rw [h] at hsome
    cases hsome

theorem peek_of_some (h : k.advance = some (c, k')) :
    k.peek = (some c.char, k'.putBack c (hasRoom_of_advance h)) := by
  rw [peek]
  split
  next hnone =>
    rw [h] at hnone
    cases hnone
  next hsome =>
    cases h.symm.trans hsome
    rfl

/-- A character that is looked at is held from then on. -/
theorem count_peek (h : k.advance = some (c, k')) :
    k.peek.2.held.count = max k.held.count 1 := by
  rw [peek_of_some h, count_putBack, count_of_advance h]
  omega

end Cursor

/-! ### Moves of a cursor -/

/-- A cursor, and the characters that were taken and not put back, the last one first. -/
structure Reader (ν : Type) where
  cursor : Cursor ν
  taken : List (Located ν)

namespace Reader

/-- What is asked of a cursor. -/
inductive Move
  /-- Takes the next character. -/
  | advance
  /-- Looks at the next character. -/
  | peek
  /-- Puts the character back that was taken last and not put back yet. -/
  | putBack
  deriving Repr, DecidableEq

/-- What a move answers. -/
inductive Answer (ν : Type)
  | taken (c? : Option (Located ν))
  | ahead (next? : Option Char)
  | done
  deriving Repr, DecidableEq

/-- In front of a source. -/
def ofString (source : String) : Reader ν :=
  ⟨.ofString source, []⟩

/-- Carries out a move, if there is a character to put back and room for it. -/
def perform? (r : Reader ν) : Move → Option (Answer ν × Reader ν)
  | .advance =>
    match r.cursor.advance with
    | none => some (.taken none, r)
    | some (c, k) => some (.taken (some c), ⟨k, c :: r.taken⟩)
  | .peek => some (.ahead r.cursor.peek.1, ⟨r.cursor.peek.2, r.taken⟩)
  | .putBack =>
    match r.taken with
    | [] => none
    | c :: taken => (r.cursor.putBack? c).map fun k => (.done, ⟨k, taken⟩)

section Index

variable (cs : List Char)

/-- The character at an index, with its place. -/
def located? (i : ℕ) : Option (Located ν) :=
  cs[i]?.map fun c => ⟨c, bytes (cs.take i), lineBehind (cs.take i)⟩

/-- What a move answers at an index. -/
def answer (i : ℕ) : Move → Answer ν
  | .advance => .taken (located? cs i)
  | .peek => .ahead cs[i]?
  | .putBack => .done

/-- Where a move leads from an index. -/
def target (i : ℕ) : Move → ℕ
  | .advance => min (i + 1) cs.length
  | .peek => i
  | .putBack => i - 1

/-- What some moves answer from an index on. -/
def answers (i : ℕ) : List Move → List (Answer ν)
  | [] => []
  | move :: moves => answer cs i move :: answers (target cs i move) moves

/-- The characters in front of an index with their places, the last one first. -/
def behind : ℕ → List (Located ν)
  | 0 => []
  | i + 1 => (located? cs i : Option (Located ν)).toList ++ behind i

/-- How far a move looks from an index. -/
def reach (i : ℕ) : Move → ℕ
  | .advance | .peek => min (i + 1) cs.length
  | .putBack => i

end Index

/-- An index, and the farthest one that was ever read or looked up to. -/
structure Bookmark where
  index : ℕ
  reached : ℕ

namespace Bookmark

/-- At the start of a source. -/
def start : Bookmark :=
  ⟨0, 0⟩

/-- How many characters were looked at and wait to be taken. -/
def waiting (m : Bookmark) : ℕ :=
  m.reached - m.index

/-- The bookmark behind a move. -/
def perform (cs : List Char) (m : Bookmark) (move : Move) : Bookmark :=
  ⟨target cs m.index move, max m.reached (reach cs m.index move)⟩

/-- The bookmark behind some moves. -/
def after (cs : List Char) (m : Bookmark) (moves : List Move) : Bookmark :=
  moves.foldl (perform cs) m

/-- A character is put back only if one was taken, and while fewer than two wait. -/
def Allows (m : Bookmark) (move : Move) : Prop :=
  move = .putBack → 0 < m.index ∧ m.waiting < 2

instance (m : Bookmark) (move : Move) : Decidable (m.Allows move) :=
  inferInstanceAs (Decidable (_ → _))

end Bookmark

/-- Every move is allowed where it is made. -/
def Permitted (cs : List Char) (m : Bookmark) : List Move → Prop
  | [] => True
  | move :: moves => m.Allows move ∧ Permitted cs (m.perform cs move) moves

instance decidablePermitted (cs : List Char) :
    (m : Bookmark) → (moves : List Move) → Decidable (Permitted cs m moves)
  | _, [] => isTrue trivial
  | m, move :: moves =>
    have := decidablePermitted cs (m.perform cs move) moves
    inferInstanceAs (Decidable (_ ∧ _))

/-! ### One move -/

variable {cs : List Char} {r next last : Reader ν} {m m' : Bookmark} {given : Answer ν}
  {later : List (Answer ν)} {move : Move} {moves : List Move} {i : ℕ}

/-- Which character lies at an index, and where. -/
theorem located?_eq_some_iff {c : Located ν} :
    located? cs i = some c ↔ cs.drop i = c.char :: cs.drop (i + 1) ∧
      c.offset = bytes (cs.take i) ∧ c.line = lineBehind (cs.take i) := by
  have hget : cs[i]? = some c.char ↔ cs.drop i = c.char :: cs.drop (i + 1) := by
    rw [← List.head?_drop, List.head?_eq_some_iff, ← List.tail_drop]
    constructor
    · rintro ⟨ds, hdrop⟩
      rw [hdrop, List.tail_cons]
    · exact fun hdrop => ⟨_, hdrop⟩
  rw [located?, Option.map_eq_some_iff, ← hget]
  constructor
  · rintro ⟨d, hd, rfl⟩
    exact ⟨hd, rfl, rfl⟩
  · rintro ⟨hd, hoffset, hline⟩
    exact ⟨c.char, hd, by rw [← hoffset, ← hline]⟩

theorem take_succ_of_located {c : Located ν} (h : located? cs i = some c) :
    cs.take (i + 1) = cs.take i ++ [c.char] := by
  have hdrop := (located?_eq_some_iff.1 h).1
  rw [List.take_add_one, ← List.head?_drop, hdrop, List.head?_cons, Option.toList_some]

/-- The reader stands where the bookmark says, holds what waits, and can put back what lies
behind. -/
structure StandsAt (cs : List Char) (r : Reader ν) (m : Bookmark) : Prop where
  place : r.cursor.At (cs.take m.index) (cs.drop m.index)
  count_eq : r.cursor.held.count = m.waiting
  taken_eq : r.taken = behind cs m.index
  index_le : m.index ≤ m.reached
  reached_le : m.reached ≤ cs.length

namespace StandsAt

theorem ofString (source : String) :
    StandsAt source.toList (Reader.ofString source : Reader ν) .start where
  place := .ofString source
  count_eq := rfl
  taken_eq := rfl
  index_le := Nat.le_refl 0
  reached_le := Nat.zero_le _

theorem length_le_of_advance (h : StandsAt cs r m) (hadvance : r.cursor.advance = none) :
    cs.length ≤ m.index :=
  List.drop_eq_nil_iff.1 (h.place.nil_of_advance hadvance)

theorem lt_length_of_advance {c : Located ν} {k : Cursor ν} (h : StandsAt cs r m)
    (hadvance : r.cursor.advance = some (c, k)) : m.index < cs.length := by
  obtain ⟨ds, hdrop, -, -, -⟩ := h.place.of_advance hadvance
  refine Nat.lt_of_not_le fun hle => ?_
  rw [List.drop_eq_nil_of_le hle] at hdrop
  cases hdrop

theorem advance (h : StandsAt cs r m) :
    ∃ r', r.perform? .advance = some (answer cs m.index .advance, r') ∧
      StandsAt cs r' (m.perform cs .advance) := by
  have hindex := h.index_le
  have hreached := h.reached_le
  cases hadvance : r.cursor.advance with
  | none =>
      -- At the end the index stays, and so does the farthest one.
      have hend := h.length_le_of_advance hadvance
      have hstay : m.perform cs .advance = m := by
        rw [Bookmark.perform, target, reach, Nat.min_eq_right (by omega),
          Nat.max_eq_left (by omega), show cs.length = m.index by omega]
      refine ⟨r, ?_, hstay.symm ▸ h⟩
      rw [perform?, hadvance, answer, located?, List.getElem?_eq_none hend, Option.map_none]
  | some p =>
      obtain ⟨c, k⟩ := p
      obtain ⟨ds, hdrop, hoffset, hline, hat⟩ := h.place.of_advance hadvance
      have hlt := h.lt_length_of_advance hadvance
      have hds : cs.drop (m.index + 1) = ds := by rw [← List.tail_drop, hdrop, List.tail_cons]
      have hlocated : located? cs m.index = some c :=
        located?_eq_some_iff.2 ⟨hds ▸ hdrop, hoffset, hline⟩
      have hone : min (m.index + 1) cs.length = m.index + 1 := Nat.min_eq_left hlt
      refine ⟨⟨k, c :: r.taken⟩, by rw [perform?, hadvance, answer, hlocated], ?_⟩
      rw [Bookmark.perform, target, reach, hone]
      exact {
        place := by
          rw [take_succ_of_located hlocated, hds]
          exact hat
        count_eq := by
          have hcount := Cursor.count_of_advance hadvance
          rw [h.count_eq] at hcount
          simp only [Bookmark.waiting] at hcount ⊢
          omega
        taken_eq := by
          rw [behind, hlocated, h.taken_eq]
          rfl
        index_le := Nat.le_max_right _ _
        reached_le := Nat.max_le.2 ⟨hreached, hlt⟩ }

theorem peek (h : StandsAt cs r m) :
    ∃ r', r.perform? .peek = some (answer cs m.index .peek, r') ∧
      StandsAt cs r' (m.perform cs .peek) := by
  have hindex := h.index_le
  have hreached := h.reached_le
  have hpair : r.cursor.peek = (r.cursor.peek.1, r.cursor.peek.2) := rfl
  obtain ⟨hnext, hat⟩ := h.place.peek hpair
  refine ⟨_, by rw [perform?, answer, hnext, List.head?_drop], ?_⟩
  rw [Bookmark.perform, target, reach]
  refine ⟨hat, ?_, h.taken_eq, Nat.le_trans hindex (Nat.le_max_left _ _),
    Nat.max_le.2 ⟨hreached, Nat.min_le_right _ _⟩⟩
  have hcount := h.count_eq
  cases hadvance : r.cursor.advance with
  | none =>
      have hend := h.length_le_of_advance hadvance
      simp only [Cursor.peek_of_none hadvance, hcount, Bookmark.waiting]
      omega
  | some p =>
      have hlt := h.lt_length_of_advance hadvance
      simp only [Cursor.count_peek hadvance, hcount, Bookmark.waiting]
      omega

theorem putBack (h : StandsAt cs r m) (hallows : m.Allows .putBack) :
    ∃ r', r.perform? .putBack = some (answer cs m.index .putBack, r') ∧
      StandsAt cs r' (m.perform cs .putBack) := by
  obtain ⟨hpos, hwaiting⟩ := hallows rfl
  obtain ⟨i, hi⟩ : ∃ i, m.index = i + 1 := Nat.exists_eq_succ_of_ne_zero (Nat.ne_of_gt hpos)
  have hindex := h.index_le
  have hreached := h.reached_le
  -- What was taken last is the character in front of the index.
  obtain ⟨c, hlocated⟩ : ∃ c : Located ν, located? cs i = some c := by
    rw [located?, List.getElem?_eq_getElem (by omega)]
    exact ⟨_, rfl⟩
  obtain ⟨hdrop, hoffset, hline⟩ := located?_eq_some_iff.1 hlocated
  have htaken : r.taken = c :: behind cs i := by
    rw [h.taken_eq, hi, behind, hlocated]
    rfl
  have room : r.cursor.HasRoom := by
    rw [Cursor.HasRoom, Held.HasRoom, h.count_eq]
    exact hwaiting
  have hat := h.place
  rw [hi, take_succ_of_located hlocated] at hat
  refine ⟨⟨r.cursor.putBack c room, behind cs i⟩, ?_, ?_⟩
  · rw [perform?, htaken, answer]
    simp only [Cursor.putBack?_eq c room, Option.map_some]
  · rw [Bookmark.perform, target, reach, hi, Nat.add_sub_cancel, Nat.max_eq_left (hi ▸ hindex)]
    exact {
      place := by
        rw [hdrop]
        exact hat.putBack hoffset hline room
      count_eq := by
        have hcount := Cursor.count_putBack (c := c) room
        rw [hcount, h.count_eq]
        simp only [Bookmark.waiting]
        omega
      taken_eq := rfl
      index_le := by
        show i ≤ m.reached
        omega
      reached_le := hreached }

end StandsAt

/-! ### Looking -/

section Append

variable {before after : List Move}

theorem permitted_append : Permitted cs m (before ++ after) ↔
    Permitted cs m before ∧ Permitted cs (m.after cs before) after := by
  induction before generalizing m with
  | nil => exact (iff_of_eq (true_and _)).symm
  | cons move before ih =>
      rw [List.cons_append, Permitted, Permitted, ih, and_assoc]
      rfl

theorem index_after_append :
    (m.after cs (before ++ after)).index = ((m.after cs before).after cs after).index := by
  rw [Bookmark.after, List.foldl_append]
  rfl

end Append

/-- The index does not depend on how far was looked. -/
theorem index_after_congr (hindex : m.index = m'.index) :
    (m.after cs moves).index = (m'.after cs moves).index := by
  induction moves generalizing m m' with
  | nil => exact hindex
  | cons move moves ih => exact ih (congrArg (target cs · move) hindex)

/-- Who stands at the same index and has looked less far may do more. -/
theorem Permitted.of_reached_le (h : Permitted cs m' moves) (hindex : m.index = m'.index)
    (hreached : m.reached ≤ m'.reached) : Permitted cs m moves := by
  induction moves generalizing m m' with
  | nil => trivial
  | cons move moves ih =>
      obtain ⟨hallows, hlater⟩ := h
      refine ⟨fun hmove => ?_, ih hlater ?_ ?_⟩
      · have hput := hallows hmove
        simp only [Bookmark.waiting] at hput ⊢
        omega
      · exact congrArg (target cs · move) hindex
      · rw [Bookmark.perform, Bookmark.perform, hindex]
        simp only
        omega

/-- **Looking can be left out**: the other moves stay permitted, and lead to the same index. -/
theorem Permitted.of_peek {before after : List Move}
    (h : Permitted cs m (before ++ .peek :: after)) :
    Permitted cs m (before ++ after) ∧
      (m.after cs (before ++ after)).index = (m.after cs (before ++ .peek :: after)).index := by
  obtain ⟨hbefore, -, hafter⟩ := permitted_append.1 h
  constructor
  · exact permitted_append.2 ⟨hbefore, hafter.of_reached_le rfl (Nat.le_max_left _ _)⟩
  · rw [index_after_append, index_after_append]
    exact index_after_congr rfl

/-! ### Whole runs -/

end Reader

end Tracepoint
