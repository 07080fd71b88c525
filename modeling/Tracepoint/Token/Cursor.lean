/-
A cursor in a source.

A cursor gives the characters of a source one by one, each with its byte offset and its line.
Characters that were read ahead can be put back; there is room for two.  Putting back asks for
a proof that there is room, and reading always makes room, so a reader that puts back only what
it has read needs no check.

What lines are counted in is left open.  A counter of 32 bits starts again at 0 behind
`2 ^ 32 - 1` line breaks; natural numbers, which stand where nothing else is said, do not.

* `LineCount` — a first line, and the line behind a line break;
* `Located` — a character with its place;
* `Cursor` — what is unread: the characters held in front, then the rest of the source;
* `Cursor.advance`, `Cursor.putBack`, `Cursor.peek` — the moves;
* `Cursor.remaining` — how many characters are unread, the measure of every reading loop;
* `Cursor.unread` — the unread characters with their places, the view that the moves are
  described by: `advance_eq_none_iff`, `unread_of_advance`, `unread_putBack`, `unread_peek`.
-/

set_option relaxedAutoImplicit false
set_option autoImplicit false

namespace Tracepoint

/-- What lines are counted in. -/
class LineCount (ν : Type) where
  /-- The line that a source starts in. -/
  first : ν
  /-- The line behind the line break that ends a line. -/
  next : ν → ν

instance : LineCount Nat :=
  ⟨1, (· + 1)⟩

/-- A counter of 32 bits wraps around. -/
instance : LineCount UInt32 :=
  ⟨1, (· + 1)⟩

variable {ν : Type}

/-- A character together with where it sits in its source. -/
structure Located (ν : Type := Nat) where
  char : Char
  offset : Nat
  line : ν
  deriving Repr, DecidableEq

/-- The offset after the character. -/
def Located.stop (c : Located ν) : Nat :=
  c.offset + c.char.utf8Size

/-- The line that a character leads to. -/
def lineAfter [LineCount ν] (c : Char) (line : ν) : ν :=
  if c = '\n' then LineCount.next line else line

/-- The characters of `cs` with their places, when the first lies at `offset` in `line`. -/
def locate [LineCount ν] : List Char → Nat → ν → List (Located ν)
  | [], _, _ => []
  | c :: cs, offset, line => ⟨c, offset, line⟩ :: locate cs (offset + c.utf8Size) (lineAfter c line)

/-- Characters that were put back, the next one first. -/
inductive Held (ν : Type := Nat)
  | none
  | one (next : Located ν)
  | two (next after : Located ν)
  deriving Repr, DecidableEq

namespace Held

/-- The held characters in order. -/
def toList : Held ν → List (Located ν)
  | none => []
  | one c => [c]
  | two c d => [c, d]

/-- The number of held characters. -/
def count : Held ν → Nat
  | none => 0
  | one _ => 1
  | two _ _ => 2

/-- One more character can be held. -/
def HasRoom (h : Held ν) : Prop :=
  h.count < 2

/-- Holds one more character in front of the others. -/
def cons (c : Located ν) : (h : Held ν) → h.HasRoom → Held ν
  | none, _ => one c
  | one d, _ => two c d
  | two _ _, room => absurd room (by simp [HasRoom, count])

@[simp]
theorem toList_cons (c : Located ν) (h : Held ν) (room : h.HasRoom) :
    (h.cons c room).toList = c :: h.toList := by
  match h, room with
  | none, _ => rfl
  | one _, _ => rfl
  | two _ _, room => exact absurd room (by simp [HasRoom, count])

theorem length_toList (h : Held ν) : h.toList.length = h.count := by
  cases h <;> rfl

end Held

/-- What is unread of a source. -/
structure Cursor (ν : Type := Nat) where
  /-- The characters behind the held ones. -/
  rest : List Char
  /-- The byte offset of `rest`. -/
  restOffset : Nat
  /-- The line of `rest`. -/
  restLine : ν
  held : Held ν
  deriving Repr, DecidableEq

namespace Cursor

/-- There is room to put a character back. -/
def HasRoom (k : Cursor ν) : Prop :=
  k.held.HasRoom

/-- The byte offset of the next unread character. -/
def offset (k : Cursor ν) : Nat :=
  match k.held with
  | .none => k.restOffset
  | .one c | .two c _ => c.offset

/-- The line of the next unread character. -/
def line (k : Cursor ν) : ν :=
  match k.held with
  | .none => k.restLine
  | .one c | .two c _ => c.line

/-- Puts a character in front of the unread ones. -/
def putBack (k : Cursor ν) (c : Located ν) (room : k.HasRoom) : Cursor ν :=
  { k with held := k.held.cons c room }

/-- How many characters are unread. -/
def remaining (k : Cursor ν) : Nat :=
  k.held.count + k.rest.length

theorem remaining_putBack (k : Cursor ν) (c : Located ν) (room : k.HasRoom) :
    (k.putBack c room).remaining = k.remaining + 1 := by
  have h := Held.toList_cons c k.held room
  have := congrArg List.length h
  simp only [Held.length_toList, List.length_cons] at this
  simp only [putBack, remaining, this]
  omega

variable [LineCount ν]

/-- At the start of a source. -/
def ofString (source : String) : Cursor ν :=
  ⟨source.toList, 0, LineCount.first, .none⟩

/-- Takes the next character. -/
def advance (k : Cursor ν) : Option (Located ν × Cursor ν) :=
  match k.held with
  | .none =>
    match k.rest with
    | [] => none
    | c :: cs =>
      some (⟨c, k.restOffset, k.restLine⟩,
        ⟨cs, k.restOffset + c.utf8Size, lineAfter c k.restLine, .none⟩)
  | .one c => some (c, { k with held := .none })
  | .two c d => some (c, { k with held := .one d })

/-! ### The unread characters -/

/-- The unread characters with their places. -/
def unread (k : Cursor ν) : List (Located ν) :=
  k.held.toList ++ locate k.rest k.restOffset k.restLine

theorem hasRoom_of_advance {k k' : Cursor ν} {c : Located ν} (h : k.advance = some (c, k')) :
    k'.HasRoom := by
  simp only [advance] at h
  split at h
  · split at h
    · simp at h
    · simp only [Option.some.injEq, Prod.mk.injEq] at h
      obtain ⟨_, rfl⟩ := h
      simp [HasRoom, Held.HasRoom, Held.count]
  all_goals
    simp only [Option.some.injEq, Prod.mk.injEq] at h
    obtain ⟨_, rfl⟩ := h
    simp [HasRoom, Held.HasRoom, Held.count]

theorem remaining_of_advance {k k' : Cursor ν} {c : Located ν} (h : k.advance = some (c, k')) :
    k.remaining = k'.remaining + 1 := by
  simp only [advance] at h
  split at h
  next heq =>
    split at h
    · simp at h
    next hrest =>
      simp only [Option.some.injEq, Prod.mk.injEq] at h
      obtain ⟨_, rfl⟩ := h
      simp [remaining, heq, hrest, Held.count]
  all_goals
    next heq =>
      simp only [Option.some.injEq, Prod.mk.injEq] at h
      obtain ⟨_, rfl⟩ := h
      simp [remaining, heq, Held.count]
      try omega

theorem remaining_lt_of_advance {k k' : Cursor ν} {c : Located ν} (h : k.advance = some (c, k')) :
    k'.remaining < k.remaining := by
  rw [remaining_of_advance h]
  exact Nat.lt_succ_self _

theorem unread_of_advance {k k' : Cursor ν} {c : Located ν} (h : k.advance = some (c, k')) :
    k.unread = c :: k'.unread := by
  simp only [advance] at h
  split at h
  next heq =>
    split at h
    · simp at h
    next hrest =>
      simp only [Option.some.injEq, Prod.mk.injEq] at h
      obtain ⟨rfl, rfl⟩ := h
      simp [unread, heq, hrest, Held.toList, locate]
  all_goals
    next heq =>
      simp only [Option.some.injEq, Prod.mk.injEq] at h
      obtain ⟨rfl, rfl⟩ := h
      simp [unread, heq, Held.toList]

theorem advance_eq_none_iff (k : Cursor ν) : k.advance = none ↔ k.unread = [] := by
  cases h : k.advance with
  | none =>
    simp only [advance] at h
    split at h
    next heq =>
      split at h
      next hrest => simp [unread, heq, hrest, Held.toList, locate]
      · simp at h
    · simp at h
    · simp at h
  | some p =>
    have h' : k.advance = some (p.1, p.2) := h
    simp [unread_of_advance h']

theorem unread_putBack (k : Cursor ν) (c : Located ν) (room : k.HasRoom) :
    (k.putBack c room).unread = c :: k.unread := by
  have h : (k.held.cons c room).toList = c :: k.held.toList := Held.toList_cons c k.held room
  simp [putBack, unread, h]

/-! ### Reading ahead -/

/-- The next character, without taking it. -/
def peek (k : Cursor ν) : Option Char × Cursor ν :=
  match h : k.advance with
  | none => (none, k)
  | some (c, k') => (some c.char, k'.putBack c (hasRoom_of_advance h))

/-- Takes the next character if it is `expected`. -/
def takeIf (expected : Char) (k : Cursor ν) : Option (Located ν) × Cursor ν :=
  match h : k.advance with
  | none => (none, k)
  | some (c, k') =>
    if c.char = expected then (some c, k') else (none, k'.putBack c (hasRoom_of_advance h))

/-- Takes characters as long as they satisfy `p`. -/
def takeWhile (p : Char → Bool) (k : Cursor ν) : List Char × Cursor ν :=
  match h : k.advance with
  | none => ([], k)
  | some (c, k') =>
    if p c.char then
      have := remaining_lt_of_advance h
      let (cs, last) := k'.takeWhile p
      (c.char :: cs, last)
    else ([], k'.putBack c (hasRoom_of_advance h))
termination_by k.remaining

theorem unread_peek (k : Cursor ν) : k.peek.2.unread = k.unread := by
  simp only [peek]
  split
  · rfl
  next h => rw [unread_putBack, unread_of_advance h]

theorem remaining_peek (k : Cursor ν) : k.peek.2.remaining = k.remaining := by
  simp only [peek]
  split
  · rfl
  next h => rw [remaining_putBack, remaining_of_advance h]

theorem hasRoom_peek {k : Cursor ν} (room : k.HasRoom) : k.peek.2.HasRoom := by
  simp only [peek]
  split
  · exact room
  next c k' h =>
    cases hk : k.held with
    | none =>
      simp only [advance, hk] at h
      split at h
      · simp at h
      · simp only [Option.some.injEq, Prod.mk.injEq] at h
        obtain ⟨_, rfl⟩ := h
        simp [HasRoom, putBack, Held.cons, Held.HasRoom, Held.count]
    | one d =>
      simp only [advance, hk, Option.some.injEq, Prod.mk.injEq] at h
      obtain ⟨_, rfl⟩ := h
      simp [HasRoom, putBack, Held.cons, Held.HasRoom, Held.count]
    | two d e => simp [HasRoom, hk, Held.HasRoom, Held.count] at room

theorem hasRoom_of_peek {k k' : Cursor ν} {next? : Option Char} (room : k.HasRoom)
    (h : k.peek = (next?, k')) : k'.HasRoom := by
  have := hasRoom_peek room
  simpa only [h] using this

theorem remaining_of_peek {k k' : Cursor ν} {next? : Option Char} (h : k.peek = (next?, k')) :
    k'.remaining = k.remaining := by
  have := remaining_peek k
  simpa only [h] using this

theorem remaining_takeIf_le (expected : Char) (k : Cursor ν) :
    (k.takeIf expected).2.remaining ≤ k.remaining := by
  simp only [takeIf]
  split
  · exact Nat.le_refl _
  next h =>
    have := remaining_of_advance h
    split
    · simp only; omega
    · rw [remaining_putBack]; omega

theorem remaining_of_takeIf {expected : Char} {k k' : Cursor ν} {c? : Option (Located ν)}
    (h : k.takeIf expected = (c?, k')) : k'.remaining ≤ k.remaining := by
  have := remaining_takeIf_le expected k
  simpa only [h] using this

theorem remaining_takeWhile_le (p : Char → Bool) (k : Cursor ν) :
    (k.takeWhile p).2.remaining ≤ k.remaining := by
  fun_induction takeWhile p k with
  | case1 => exact Nat.le_refl _
  | case2 k c k' h _ _ cs last heq ih =>
    have := remaining_of_advance h
    simp only [heq] at ih
    simp only
    omega
  | case3 k c k' h =>
    have := remaining_of_advance h
    rw [remaining_putBack]
    omega

end Cursor

end Tracepoint
