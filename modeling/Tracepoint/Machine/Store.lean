/-
What a program works on.

All scopes of a run, its heap and the names that are known without being declared make up its
store.  Actions read and change a store and may end in a fault; they know nothing of code, of
operands or of calls that have not returned.

* `Store`, `Store.start` — the state, and how a program finds it;
* `Store.lookup?` — the value of a name;
* `Act` — actions, which keep the store that they reached when they end in a fault;
* `Act.onScopes`, `Act.onHeap`, `Act.newIdentity` — the changes that all actions are made of.
-/

import Tracepoint.Value.Operators

set_option relaxedAutoImplicit false
set_option autoImplicit false

namespace Tracepoint

/-- The state that a program works on. -/
structure Store where
  scopes : Arena Value
  heap : Heap Value
  /-- The names that are known without being declared. -/
  intrinsics : List (String × Value)
  /-- The identity of the next function that is made. -/
  fresh : Nat

/-- The functions that write to the console. -/
def consoleMethods : List String :=
  ["log", "info", "warn", "error", "debug"]

namespace Store

/-- What a program finds. -/
def start : Store :=
  let methods := consoleMethods.map fun name => (name, Value.native (.console name))
  let (console, heap) := Heap.empty.newObject methods
  { scopes := Arena.initial
    heap
    intrinsics := [("console", .object console)]
    fresh := 0 }

/-- The value of a name: declared in a scope, or known without. -/
def lookup? (s : Store) (scope : ScopeId) (name : String) : Option Value :=
  match s.scopes.access scope name with
  | some v => some v
  | none => Heap.valueOf? name s.intrinsics

end Store

/-- What is done to a store. -/
abbrev Act := EStateM Fault Store

namespace Act

/-- Ends in a defect. -/
def defect {α : Type} (d : Defect) : Act α :=
  throw (.internal d)

/-- Gives a value or ends in a fault. -/
def orFault {α : Type} : Except Fault α → Act α
  | .ok a => pure a
  | .error e => throw e

/-! The parts that only grow are taken out of the store while they change. -/

/-- Changes the scopes. -/
def onScopes {β : Type} (f : Arena Value → β × Arena Value) : Act β :=
  modifyGet fun
    | ⟨scopes, heap, intrinsics, fresh⟩ =>
      let (b, scopes) := f scopes
      (b, ⟨scopes, heap, intrinsics, fresh⟩)

/-- Changes the heap. -/
def onHeap {β : Type} (f : Heap Value → β × Heap Value) : Act β :=
  modifyGet fun
    | ⟨scopes, heap, intrinsics, fresh⟩ =>
      let (b, heap) := f heap
      (b, ⟨scopes, heap, intrinsics, fresh⟩)

/-- The identity of a function that is being made. -/
def newIdentity : Act Nat :=
  modifyGet fun s => (s.fresh, { s with fresh := s.fresh + 1 })

end Act

end Tracepoint
