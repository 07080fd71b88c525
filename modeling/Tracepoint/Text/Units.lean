/-
Texts as sequences of sixteen-bit units.

Scripts measure and index a string in UTF-16 units: a character beyond the basic plane counts
as two.  Indexing may therefore land on half of such a pair; a half on its own is no character
and reads as the replacement character.

* `units` — the units of a text;
* `unitCount` — how many there are;
* `unitAt?` — the text of the unit at a position, if there is one;
* `isSome_unitAt?_iff` — there is one at every position below `unitCount`, and nowhere else.
-/

set_option relaxedAutoImplicit false
set_option autoImplicit false

namespace Tracepoint.Text

/-- The UTF-16 units of one character. -/
def charUnits (c : Char) : List Nat :=
  if c.toNat < 0x10000 then [c.toNat]
  else
    let rest := c.toNat - 0x10000
    [0xD800 + rest / 0x400, 0xDC00 + rest % 0x400]

/-- The UTF-16 units of a text. -/
def units (text : String) : List Nat :=
  text.toList.flatMap charUnits

/-- The length of a text in UTF-16 units. -/
def unitCount (text : String) : Nat :=
  (units text).length

/-- Stands for half of a surrogate pair. -/
def replacement : Char := '\uFFFD'

/-- The character that a unit shows as when it is read on its own. -/
def unitChar (unit : Nat) : Char :=
  if 0xD800 ≤ unit ∧ unit ≤ 0xDFFF then replacement else Char.ofNat unit

/-- The text of the unit at `position`. -/
def unitAt? (text : String) (position : Nat) : Option String :=
  (units text)[position]?.map fun unit => String.singleton (unitChar unit)

theorem isSome_unitAt?_iff (text : String) (position : Nat) :
    (unitAt? text position).isSome = true ↔ position < unitCount text := by
  simp [unitAt?, unitCount]

end Tracepoint.Text
