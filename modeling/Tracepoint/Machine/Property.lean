/-
Properties and items.

An object has the properties that were written to it.  An array has its items, its length and a
function that adds items; a string has its length and its units.  A number that is whole and not
negative is a position; every other index is a key, the plain text of its value.

* `Key`, `Value.key` — what an index stands for;
* `getProperty`, `getIndex` — reading;
* `setProperty`, `setIndex` — writing;
* `key_of_not_number` — only numbers are positions.
-/

import Tracepoint.Decimal.Reader
import Tracepoint.Machine.Store
import Tracepoint.Text.Units

set_option relaxedAutoImplicit false
set_option autoImplicit false

namespace Tracepoint

/-- What an index stands for. -/
inductive Key
  | position (n : Nat)
  | name (text : String)
  deriving Repr, DecidableEq

/-- The key as the name of a property. -/
def Key.text : Key → String
  | position n => toString n
  | name text => text

/-- One more than the largest position. -/
def positionBound : Nat := Nat.pow 2 64

/-- The position of a whole number that is not negative. Numbers too large count as the largest
position. -/
def positionOf? (x : Float) : Option Nat :=
  match Decimal.whole? x with
  | some n => if 0 ≤ n then some (min n.toNat (positionBound - 1)) else none
  | none => none

/-- What an index stands for. -/
def Value.key (heap : Heap Value) : Value → Key
  | v@(.number x) =>
    match positionOf? x with
    | some n => .position n
    | none => .name (v.text heap)
  | v => .name (v.text heap)

theorem key_of_not_number (heap : Heap Value) {v : Value} (h : ∀ x, v ≠ .number x) :
    v.key heap = .name (v.text heap) := by
  cases v <;> simp_all [Value.key]

/-- The position that a name of a property spells. -/
def positionNamed? (name : String) : Option Nat :=
  Decimal.natural? positionBound name

/-- Arrays do not grow by this many items or more before the one that is written. -/
def growthLimit : Nat := Nat.pow 2 20

namespace Act

/-! ### Reading -/

/-- The item of an array, or the undefined value behind its end. -/
def itemAt (r : Ref) (position : Nat) : Act Value := do
  let s ← get
  return ((s.heap.items? r).bind fun items => items[position]?).getD .undefined

/-- The value of a property. -/
def getProperty (v : Value) (name : String) : Act Value := do
  match v with
  | .undefined | .null => throw (.propertyOfNothing v.typeName name)
  | .object r =>
    let s ← get
    return (s.heap.property? r name).getD .undefined
  | .array r =>
    if name = "length" then
      let s ← get
      return .number (Float.ofNat ((s.heap.length? r).getD 0))
    else if name = "push" then
      let identity ← newIdentity
      return .native (.push identity r)
    else
      match positionNamed? name with
      | some position => itemAt r position
      | none => return .undefined
  | .string text =>
    return if name = "length" then .number (Float.ofNat (Text.unitCount text)) else .undefined
  | _ => return .undefined

/-- The value at an index. -/
def getIndex (v index : Value) : Act Value := do
  let s ← get
  match v, index.key s.heap with
  | .array r, .position n => itemAt r n
  | .string text, .position n =>
    match Text.unitAt? text n with
    | some unit => return .string unit
    | none => return .undefined
  | v, key => getProperty v key.text

/-! ### Writing -/

/-- Writes an item of an array. -/
def setItem (r : Ref) (position : Nat) (value : Value) : Act Unit := do
  let s ← get
  match s.heap.length? r with
  | none => defect .notAnArray
  | some size =>
    if size + growthLimit ≤ position then throw (.invalidIndex (toString position))
    else onHeap fun heap => ((), heap.setItem r .undefined position value)

/-- Writes a property. -/
def setProperty (v : Value) (name : String) (value : Value) : Act Unit := do
  match v with
  | .undefined | .null => throw (.setPropertyOfNothing v.typeName name)
  | .object r => onHeap fun heap => ((), heap.setProperty r name value)
  | .array r =>
    match positionNamed? name with
    | some position => setItem r position value
    | none => throw (.setPropertyOfPrimitive v.typeName name)
  | _ => throw (.setPropertyOfPrimitive v.typeName name)

/-- Writes at an index. -/
def setIndex (v index value : Value) : Act Unit := do
  let s ← get
  match v, index.key s.heap with
  | .array r, .position n => setItem r n value
  | .array _, .name key => throw (.invalidIndex key)
  | v, key => setProperty v key.text value

end Act

end Tracepoint
