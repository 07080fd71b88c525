/-
The heap.

Arrays and objects live in cells of a heap and are shared by reference, so they may contain
themselves.  Cells are never removed, and a cell stays an array or an object.

Positions are numbers without a bound here and stand for words of 32 bits: a heap is meant to hold
at most `2 ^ 32` cells, since a reference to one more would be a word that names the first.

* `Heap`, `Heap.newArray`, `Heap.newObject` — cells in the order of their creation;
* `Heap.items?`, `Heap.length?`, `Heap.entries?`, `Heap.property?` — reading;
* `Heap.setItem`, `Heap.pushItems`, `Heap.setProperty` — writing;
* `Heap.get?_newArray`, `Heap.get?_modify_of_ne` — what is read after an allocation or a write.
-/

set_option relaxedAutoImplicit false
set_option autoImplicit false

namespace Tracepoint

/-- A cell, by its position in the heap. -/
structure Ref where
  index : Nat
  deriving Repr, DecidableEq, Inhabited

/-- What a cell holds. -/
inductive Cell (α : Type)
  | array (items : Array α)
  /-- Keys with their values in the order of their first writing. -/
  | object (entries : List (String × α))
  deriving Repr

/-- The cells in the order of their creation. -/
structure Heap (α : Type) where
  cells : Array (Cell α)
  deriving Repr

/-- The entries with a value for a key: in its place if the key is there, at the end if not. -/
def setEntry {α : Type} (key : String) (value : α) : List (String × α) → List (String × α)
  | [] => [(key, value)]
  | (k, v) :: rest => if k = key then (k, value) :: rest else (k, v) :: setEntry key value rest

/-- The items with a value at a position, and `fill` at every position that this creates. -/
def setItemAt {α : Type} (fill : α) (items : Array α) (position : Nat) (value : α) : Array α :=
  if position < items.size then items.setIfInBounds position value
  else (items ++ Array.replicate (position - items.size) fill).push value

namespace Heap

variable {α : Type}

/-- No cells. -/
def empty : Heap α := ⟨#[]⟩

/-- The number of cells. -/
def size (h : Heap α) : Nat :=
  h.cells.size

/-- One more cell. -/
def allocate (h : Heap α) (cell : Cell α) : Ref × Heap α :=
  match h with
  | ⟨cells⟩ => (⟨cells.size⟩, ⟨cells.push cell⟩)

/-- A new array. -/
def newArray (h : Heap α) (items : Array α) : Ref × Heap α :=
  h.allocate (.array items)

/-- A new object. -/
def newObject (h : Heap α) (entries : List (String × α)) : Ref × Heap α :=
  h.allocate (.object entries)

/-- What a reference leads to. -/
def get? (h : Heap α) (r : Ref) : Option (Cell α) :=
  h.cells[r.index]?

/-- The items of an array. -/
def items? (h : Heap α) (r : Ref) : Option (Array α) :=
  match h.get? r with
  | some (.array items) => some items
  | _ => none

/-- The number of items of an array. -/
def length? (h : Heap α) (r : Ref) : Option Nat :=
  (h.items? r).map Array.size

/-- The entries of an object. -/
def entries? (h : Heap α) (r : Ref) : Option (List (String × α)) :=
  match h.get? r with
  | some (.object entries) => some entries
  | _ => none

/-- The value of a key in some entries. -/
def valueOf? (name : String) (entries : List (String × α)) : Option α :=
  (entries.find? fun (key, _) => key == name).map (·.2)

/-- The value of a property of an object. -/
def property? (h : Heap α) (r : Ref) (name : String) : Option α :=
  (h.entries? r).bind (valueOf? name)

/-- Changes one cell. -/
def modify (h : Heap α) (r : Ref) (f : Cell α → Cell α) : Heap α :=
  match h with
  | ⟨cells⟩ => ⟨cells.modify r.index f⟩

/-- Writes a property of an object. -/
def setProperty (h : Heap α) (r : Ref) (name : String) (value : α) : Heap α :=
  h.modify r fun
    | .object entries => .object (setEntry name value entries)
    | cell => cell

/-- Writes an item of an array, which grows as far as needed. -/
def setItem (h : Heap α) (r : Ref) (fill : α) (position : Nat) (value : α) : Heap α :=
  h.modify r fun
    | .array items => .array (setItemAt fill items position value)
    | cell => cell

/-- Adds items at the end of an array. -/
def pushItems (h : Heap α) (r : Ref) (values : List α) : Heap α :=
  h.modify r fun
    | .array items => .array (values.foldl Array.push items)
    | cell => cell

theorem get?_allocate (h : Heap α) (cell : Cell α) :
    (h.allocate cell).2.get? (h.allocate cell).1 = some cell := by
  simp [allocate, get?]

theorem get?_newArray (h : Heap α) (items : Array α) :
    (h.newArray items).2.get? (h.newArray items).1 = some (.array items) :=
  h.get?_allocate _

theorem get?_modify_of_ne (h : Heap α) {r other : Ref} (hne : other ≠ r) (f : Cell α → Cell α) :
    (h.modify r f).get? other = h.get? other := by
  have hi : r.index ≠ other.index := by
    intro he
    apply hne
    cases r
    cases other
    simp_all
  simp [modify, get?, Array.getElem?_modify, hi]

theorem size_modify (h : Heap α) (r : Ref) (f : Cell α → Cell α) :
    (h.modify r f).size = h.size := by
  simp [modify, size]

end Heap

end Tracepoint
