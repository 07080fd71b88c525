/-
Values as text.

A value has two texts.  In concatenations it is written plainly: an array as its items between
commas, an object as a fixed text.  On the console it is inspected: strings are quoted, arrays
and objects are written out to a depth of three, and what contains itself is marked.

* `consoleNumber` — how numbers are written in both;
* `Value.text` — the plain text; an array inside itself adds nothing to it;
* `Value.inspect` — the inspected text;
* `consoleLine` — the arguments of a call that writes to the console as one line;
* `Value.describe` — a value in messages about calls.
-/

import Tracepoint.Decimal.Style
import Tracepoint.Text.Quoted
import Tracepoint.Value.Basic

set_option relaxedAutoImplicit false
set_option autoImplicit false

namespace Tracepoint

/-- Whole numbers below `10 ^ 15` are written as integers. Larger ones end in `.0`, and from
`10 ^ 16` on and below `10 ^ -5` numbers have an exponent. -/
def consoleNumber : Decimal.Style :=
  { notANumber := "NaN"
    infinity := "Infinity"
    negativeInfinity := "-Infinity"
    integersBelow := Nat.pow 10 15
    tie := .toEven
    layout := { wholeEnd := ".0", scientific? := some { low := -5, high := 16, plus := "" } } }

namespace Value

/-! ### In concatenations -/

/-- The plain text of a value inside the arrays `outer`, at most `levels` arrays deep. -/
def textWithin (heap : Heap Value) : (levels : Nat) → (outer : List Ref) → Value → String
  | _, _, undefined => "undefined"
  | _, _, null => "null"
  | _, _, bool b => toString b
  | _, _, number x => consoleNumber.render x
  | _, _, string text => text
  | _, _, object _ => "[object Object]"
  | 0, _, array _ => ""
  | levels + 1, outer, array r =>
    if outer.contains r then ""
    else
      let items := ((heap.items? r).getD #[]).toList
      ",".intercalate (items.map fun item =>
        if item.isNullish then "" else textWithin heap levels (r :: outer) item)
  | _, _, v@(function _) | _, _, v@(native _) => v.functionLabel?.getD ""

/-- The plain text of a value. Arrays that are inside each other without repetition are at most
as many as there are cells. -/
def text (heap : Heap Value) (v : Value) : String :=
  textWithin heap heap.size [] v

/-! ### On the console -/

/-- The text is a name of the script language, keywords included. -/
def isName (text : String) : Bool :=
  match text.toList with
  | [] => false
  | c :: cs =>
    (c.isAlpha || c == '_' || c == '$') && cs.all fun c => c.isAlphanum || c == '_' || c == '$'

/-- A key in front of its value. Names stand as they are. -/
def inspectKey (key : String) : String :=
  if isName key then key else Text.single.quote key

/-- The inspected text of a cell inside the containers `outer`. What it holds is written by
`inside?`, or not at all if there is none. -/
def inspectCell (heap : Heap Value) (outer : List Ref) (r : Ref)
    (inside? : Option (Value → String)) : String :=
  if outer.contains r then "[Circular]"
  else
    match heap.get? r with
    | none => "[Dangling]"
    | some (.array items) =>
      if items.isEmpty then "[]"
      else
        match inside? with
        | none => "[Array]"
        | some inside => "[ " ++ ", ".intercalate (items.toList.map inside) ++ " ]"
    | some (.object entries) =>
      if entries.isEmpty then "\x7b\x7d"
      else
        match inside? with
        | none => "[Object]"
        | some inside =>
          let parts := entries.map fun (key, item) => inspectKey key ++ ": " ++ inside item
          "\x7b " ++ ", ".intercalate parts ++ " \x7d"

/-- The inspected text of a value inside the containers `outer`, with containers written out at
most `levels` deep. -/
def inspectWithin (heap : Heap Value) : (levels : Nat) → (outer : List Ref) → Value → String
  | _, _, string text => Text.single.quote text
  | 0, outer, array r | 0, outer, object r => inspectCell heap outer r none
  | levels + 1, outer, array r | levels + 1, outer, object r =>
    inspectCell heap outer r (some (inspectWithin heap levels (r :: outer)))
  | _, _, v => v.functionLabel?.getD (v.text heap)

/-- Containers are written out three deep. -/
def inspectLevels : Nat := 3

/-- The inspected text of a value. -/
def inspect (heap : Heap Value) (v : Value) : String :=
  inspectWithin heap inspectLevels [] v

/-- A value as an argument of a call that writes to the console. Strings stand as they are. -/
def consoleText (heap : Heap Value) : Value → String
  | string text => text
  | v => v.inspect heap

/-- A value in messages about calls. -/
def describe : Value → String
  | string text => "\"" ++ text ++ "\""
  | number x => consoleNumber.render x
  | bool b => toString b
  | v => v.typeName

end Value

/-- The line that a call writes to the console. -/
def consoleLine (heap : Heap Value) (arguments : List Value) : String :=
  " ".intercalate (arguments.map (Value.consoleText heap))

end Tracepoint
