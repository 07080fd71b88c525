/-
Values as they are shown to someone who debugs.

A shown value is a finite tree.  It has no references, so it stays as it is while the program it
was taken from goes on.

* `Shown` — the trees; a placeholder stands for what is not shown;
* `Shown.number` — how numbers are written;
* `Shown.text` — a tree on one line.
-/

import Tracepoint.Decimal.Style
import Tracepoint.Text.Quoted

set_option relaxedAutoImplicit false
set_option autoImplicit false

namespace Tracepoint

/-- Finite trees of plain values. -/
inductive Shown
  | undefined
  | null
  | bool (value : Bool)
  | number (value : Float)
  | string (text : String)
  | array (items : List Shown)
  /-- Keys with their values, in the order in which they are shown. -/
  | object (entries : List (String × Shown))
  /-- Stands for what is not shown. -/
  | placeholder (text : String)

instance : Inhabited Shown := ⟨.undefined⟩

/-- The largest whole numbers that doubles hold without gaps are below this one. -/
def wholeBound : Nat := Nat.pow 2 53

namespace Shown

/-- Whole numbers are written as integers as long as doubles hold all of them. There is never an
exponent. -/
def numberStyle : Decimal.Style :=
  { Decimal.plain with
    infinity := "Infinity"
    negativeInfinity := "-Infinity"
    integersBelow := wholeBound }

/-- Items between brackets. -/
def textOfItems (items : List String) : String :=
  "[" ++ ", ".intercalate items ++ "]"

/-- Entries between braces. -/
def textOfEntries (entries : List String) : String :=
  if entries.isEmpty then "\x7b\x7d" else "\x7b " ++ ", ".intercalate entries ++ " \x7d"

mutual

/-- A tree on one line. Strings are quoted, keys and placeholders stand as they are. -/
def text : Shown → String
  | undefined => "undefined"
  | null => "null"
  | bool b => toString b
  | number x => numberStyle.render x
  | string s => Text.visible.quote s
  | array items => textOfItems (itemTexts items)
  | object entries => textOfEntries (entryTexts entries)
  | placeholder s => s

/-- The texts of some items. -/
def itemTexts : List Shown → List String
  | [] => []
  | item :: rest => item.text :: itemTexts rest

/-- The texts of some entries. -/
def entryTexts : List (String × Shown) → List String
  | [] => []
  | (key, value) :: rest => (key ++ ": " ++ value.text) :: entryTexts rest

end

theorem itemTexts_eq_map (items : List Shown) : itemTexts items = items.map text := by
  induction items with
  | nil => rfl
  | cons item rest ih => simp [itemTexts, ih]

end Shown

end Tracepoint
