/-
What instructions do to the store.

* `Act.declare`, `Act.assign`, `Act.openScope`, `Act.openCall` — scopes;
* `Act.newArray`, `Act.newObject`, `Act.newFunction` — values that are made;
* `Act.operate`, `Act.negate` — operators;
* `Act.callNative` — functions of the machine.
-/

import Tracepoint.Machine.Property

set_option relaxedAutoImplicit false
set_option autoImplicit false

namespace Tracepoint

namespace Act

/-! ### Scopes -/

/-- The value of a name. -/
def read (scope : ScopeId) (name : String) : Act Value := do
  let s ← get
  match s.lookup? scope name with
  | some v => return v
  | none => throw (.undeclared name)

/-- Binds a name in a scope. -/
def declare (scope : ScopeId) (name : String) (v : Value) (kind : BindingKind) : Act Unit := do
  let result ← onScopes fun scopes => scopes.declare scope name v kind
  match result with
  | .ok _ => return ()
  | .error _ => throw (.redeclaration name)

/-- Gives a name a new value. -/
def assign (scope : ScopeId) (name : String) (v : Value) : Act Unit := do
  let result ← onScopes fun scopes => scopes.assign scope name v
  match result with
  | .ok _ => return ()
  | .error .assignToConstant => throw (.assignToConstant name)
  | .error _ => throw (.undeclared name)

/-- Opens a scope inside another one. -/
def openScope (scope : ScopeId) : Act ScopeId :=
  onScopes fun scopes => scopes.newScope scope

/-- Binds arguments to parameters. Missing arguments are undefined. -/
def bindParameters (a : Arena Value) (scope : ScopeId) : List String → List Value → Arena Value
  | [], _ => a
  | name :: names, [] => bindParameters (a.declare scope name .undefined .parameter).2 scope names []
  | name :: names, v :: values =>
    bindParameters (a.declare scope name v .parameter).2 scope names values

/-- Opens the scope of a call inside `scope`, with the parameters bound. -/
def openCall (scope : ScopeId) (parameters : List String) (arguments : List Value) :
    Act ScopeId :=
  onScopes fun scopes =>
    let (inner, scopes) := scopes.newScope scope
    (inner, bindParameters scopes inner parameters arguments)

/-! ### Values that are made -/

/-- A new array. -/
def newArray (items : List Value) : Act Value := do
  let r ← onHeap fun heap => heap.newArray items.toArray
  return .array r

/-- Keys and values, which alternate. Keys are plain texts; a later value of a key replaces an
earlier one. -/
def collectEntries (heap : Heap Value) (entries : List (String × Value)) :
    List Value → List (String × Value)
  | key :: value :: rest => collectEntries heap (setEntry (key.text heap) value entries) rest
  | _ => entries

/-- A new object of keys and values, which alternate. -/
def newObject (values : List Value) : Act Value := do
  let r ← onHeap fun heap =>
    let entries := collectEntries heap [] values
    heap.newObject entries
  return .object r

/-- A new function that sees a scope. -/
def newFunction (proto : Proto) (scope : ScopeId) : Act Value := do
  let identity ← newIdentity
  return .function { identity, proto, scope }

/-! ### Operators -/

/-- The result of an operation. -/
def operate (op : Operation) (left right : Value) : Act Value := do
  let s ← get
  orFault (op.apply s.heap left right)

/-- The number with the other sign. -/
def negate (v : Value) : Act Value :=
  orFault v.negate

/-! ### Calls -/

/-- Calls a function of the machine. Gives its result and the lines it writes. -/
def callNative (f : Native) (arguments : List Value) : Act (Value × List String) := do
  match f with
  | .console _ =>
    let s ← get
    return (.undefined, [consoleLine s.heap arguments])
  | .push _ target =>
    onHeap fun heap => ((), heap.pushItems target arguments)
    let s ← get
    match s.heap.length? target with
    | none => defect (.pushToNoArray target.index)
    | some length => return (.number (Float.ofNat length), [])

end Act

end Tracepoint
