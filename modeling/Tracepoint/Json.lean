/-
JSON.

A document is written compactly, without any blanks, or with each part of a container on a line
of its own, two blanks deeper than the container.

* `Json` — documents; objects keep the order of their entries and may repeat a key;
* `Json.numberStyle`, `Json.quotation` — how numbers and texts are written;
* `Setting`, `compact`, `pretty` — what stands between the parts of a container;
* `Json.render` — the text of a document;
* `Shown.toJson` — a shown value as a document.
-/

import Tracepoint.Shown

set_option relaxedAutoImplicit false
set_option autoImplicit false

namespace Tracepoint

/-- Documents. -/
inductive Json
  | null
  | bool (value : Bool)
  | integer (value : Int)
  | number (value : Float)
  | string (text : String)
  | array (items : List Json)
  | object (entries : List (String × Json))

/-- What stands between the parts of a container. -/
structure Setting where
  /-- Stands between a key and its value. -/
  colon : String
  /-- Stands in front of a part that is so many containers deep. -/
  lineAt : Nat → String

/-- No blanks. -/
def compact : Setting :=
  ⟨":", fun _ => ""⟩

/-- Each part on a line of its own, two blanks deeper than its container. -/
def pretty : Setting :=
  ⟨": ", fun depth => "\n" ++ String.ofList (List.replicate (2 * depth) ' ')⟩

/-- A container with its parts, at a depth. -/
def Setting.enclose (s : Setting) (depth : Nat) (opening closing : String)
    (parts : List String) : String :=
  if parts.isEmpty then opening ++ closing
  else
    opening ++ ",".intercalate (parts.map (s.lineAt (depth + 1) ++ ·)) ++ s.lineAt depth ++ closing

namespace Json

/-- Whole numbers are written as integers as long as doubles hold all of them. Other numbers
have an exponent from `10 ^ 16` on and below `10 ^ -5`. What is no number is null. -/
def numberStyle : Decimal.Style :=
  { notANumber := "null"
    infinity := "null"
    negativeInfinity := "null"
    integersBelow := wholeBound
    tie := .toEven
    layout := { wholeEnd := ".0", scientific? := some { low := -5, high := 16, plus := "+" } } }

/-- Escapes the mark, the backslash and control characters. -/
def escape (c : Char) : List Char :=
  if c = '"' ∨ c = '\\' then ['\\', c]
  else if c = '\x08' then ['\\', 'b']
  else if c = '\x0C' then ['\\', 'f']
  else if c = '\n' then ['\\', 'n']
  else if c = '\r' then ['\\', 'r']
  else if c = '\t' then ['\\', 't']
  else if c.toNat < 0x20 then
    ['\\', 'u', '0', '0'] ++ (if c.toNat < 0x10 then ['0'] else []) ++ Text.hex c.toNat
  else [c]

/-- The quotation of texts and keys. -/
def quotation : Text.Quotation :=
  ⟨'"', escape⟩

mutual

/-- The text of a document that is `depth` containers deep. -/
def renderAt (s : Setting) (depth : Nat) : Json → String
  | null => "null"
  | bool b => toString b
  | integer n => toString n
  | number x => numberStyle.render x
  | string text => quotation.quote text
  | array items => s.enclose depth "[" "]" (renderItems s depth items)
  | object entries => s.enclose depth "\x7b" "\x7d" (renderEntries s depth entries)

/-- The texts of the items of a container that is `depth` containers deep. -/
def renderItems (s : Setting) (depth : Nat) : List Json → List String
  | [] => []
  | item :: rest => item.renderAt s (depth + 1) :: renderItems s depth rest

/-- The texts of the entries of a container that is `depth` containers deep. -/
def renderEntries (s : Setting) (depth : Nat) : List (String × Json) → List String
  | [] => []
  | (key, value) :: rest =>
    (quotation.quote key ++ s.colon ++ value.renderAt s (depth + 1)) ::
      renderEntries s depth rest

end

/-- The text of a document. -/
def render (s : Setting) (j : Json) : String :=
  j.renderAt s 0

theorem length_renderItems (s : Setting) (depth : Nat) (items : List Json) :
    (renderItems s depth items).length = items.length := by
  induction items with
  | nil => rfl
  | cons item rest ih => simp [renderItems, ih]

end Json

namespace Shown

mutual

/-- A shown value as a document. Placeholders are texts. -/
def toJson : Shown → Json
  | undefined | null => .null
  | bool b => .bool b
  | number x => .number x
  | string text | placeholder text => .string text
  | array items => .array (itemsToJson items)
  | object entries => .object (entriesToJson entries)

/-- Some items as documents. -/
def itemsToJson : List Shown → List Json
  | [] => []
  | item :: rest => item.toJson :: itemsToJson rest

/-- Some entries with documents for values. -/
def entriesToJson : List (String × Shown) → List (String × Json)
  | [] => []
  | (key, value) :: rest => (key, value.toJson) :: entriesToJson rest

end

end Shown

end Tracepoint
