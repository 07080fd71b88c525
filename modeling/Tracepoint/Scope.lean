/-
Scopes.

All scopes of a run live in one arena and are named by their position in it.  A scope holds
bindings in the order of their declaration and may have a parent.  A name means the binding in
the nearest scope, going from a scope to its parents, that holds one of that name.

Positions are numbers without a bound here and stand for words of 32 bits: an arena is meant to hold
at most `2 ^ 32` scopes, since the position of one more would be a word that names the first.

* `Arena`, `Arena.newScope`, `Arena.parent?`, `Arena.bindings` — the scopes;
* `Arena.chain` — a scope with its parents, nearest first;
* `Arena.access`, `Arena.assign`, `Arena.declare` — reading, writing and adding a binding;
* `Arena.bindings_modify_of_ne` — changing one scope leaves the others alone.
-/

import Tracepoint.Binding

set_option relaxedAutoImplicit false
set_option autoImplicit false

namespace Tracepoint

/-- A scope, by its position in the arena. -/
structure ScopeId where
  index : Nat
  deriving Repr, DecidableEq, Inhabited

/-- A name with its value. -/
structure Binding (α : Type) where
  name : String
  value : α
  kind : BindingKind
  deriving Repr

/-- Bindings in the order of their declaration. -/
structure Scope (α : Type) where
  bindings : List (Binding α)
  parent : Option ScopeId
  deriving Repr

/-- Why a scope refuses. -/
inductive ScopeError
  | undeclared
  | assignToConstant
  | alreadyDeclared
  deriving Repr, DecidableEq

/-- All scopes of a run. -/
structure Arena (α : Type) where
  scopes : Array (Scope α)
  deriving Repr

/-- The bindings with a new value for the first one of a name. -/
def Binding.overwrite {α : Type} (name : String) (value : α) : List (Binding α) → List (Binding α)
  | [] => []
  | b :: rest =>
    if b.name = name then { b with value } :: rest else b :: Binding.overwrite name value rest

namespace Scope

variable {α : Type}

/-- The binding of a name. -/
def find? (s : Scope α) (name : String) : Option (Binding α) :=
  s.bindings.find? fun b => b.name == name

/-- A new value for a name. -/
def overwrite (s : Scope α) (name : String) (value : α) : Scope α :=
  { s with bindings := Binding.overwrite name value s.bindings }

/-- One more binding. -/
def add (s : Scope α) (b : Binding α) : Scope α :=
  { s with bindings := s.bindings ++ [b] }

end Scope

namespace Arena

variable {α : Type}

/-- The outermost scope, which every arena has. -/
def global : ScopeId := ⟨0⟩

/-- Only the global scope. -/
def initial : Arena α := ⟨#[⟨[], none⟩]⟩

/-- The number of scopes. -/
def size (a : Arena α) : Nat :=
  a.scopes.size

/-- The scope of a position. -/
def scope? (a : Arena α) (id : ScopeId) : Option (Scope α) :=
  a.scopes[id.index]?

/-- Opens a scope inside another one. -/
def newScope (a : Arena α) (parent : ScopeId) : ScopeId × Arena α :=
  match a with
  | ⟨scopes⟩ => (⟨scopes.size⟩, ⟨scopes.push ⟨[], some parent⟩⟩)

/-- The scope around another one. -/
def parent? (a : Arena α) (id : ScopeId) : Option ScopeId :=
  (a.scope? id).bind Scope.parent

/-- The bindings of a scope in the order of their declaration. -/
def bindings (a : Arena α) (id : ScopeId) : List (Binding α) :=
  match a.scope? id with
  | some s => s.bindings
  | none => []

/-- Changes one scope. -/
def modify (a : Arena α) (id : ScopeId) (f : Scope α → Scope α) : Arena α :=
  match a with
  | ⟨scopes⟩ => ⟨scopes.modify id.index f⟩

/-- A scope with its parents, nearest first, at most `fuel` of them. -/
def chainFrom (a : Arena α) : Nat → ScopeId → List ScopeId
  | 0, _ => []
  | fuel + 1, id =>
    match a.scope? id with
    | none => []
    | some s =>
      match s.parent with
      | none => [id]
      | some parent => id :: a.chainFrom fuel parent

/-- A scope with its parents, nearest first. No chain is longer than the arena. -/
def chain (a : Arena α) (id : ScopeId) : List ScopeId :=
  a.chainFrom a.size id

/-- The nearest scope of a chain that holds a name, with the binding there. -/
def resolve? (a : Arena α) (id : ScopeId) (name : String) : Option (ScopeId × Binding α) :=
  (a.chain id).findSome? fun holder =>
    ((a.scope? holder).bind fun s => s.find? name).map (holder, ·)

/-- The value that a name has in a scope. -/
def access (a : Arena α) (id : ScopeId) (name : String) : Option α :=
  (a.resolve? id name).map fun (_, b) => b.value

/-- Gives a name a new value. When that is refused, nothing changes. -/
def assign (a : Arena α) (id : ScopeId) (name : String) (value : α) :
    Except ScopeError Unit × Arena α :=
  match a.resolve? id name with
  | none => (.error .undeclared, a)
  | some (holder, b) =>
    if b.kind = .const_ then (.error .assignToConstant, a)
    else (.ok (), a.modify holder fun s => s.overwrite name value)

/-- Binds a name in a scope. When that is refused, nothing changes. A name that is bound there
already keeps its place and its kind. -/
def declare (a : Arena α) (id : ScopeId) (name : String) (value : α) (kind : BindingKind) :
    Except ScopeError Unit × Arena α :=
  match a.scope? id with
  | none => (.error .undeclared, a)
  | some s =>
    match s.find? name with
    | none => (.ok (), a.modify id fun s => s.add ⟨name, value, kind⟩)
    | some b =>
      if b.kind.isRedeclarable && kind.isRedeclarable then
        (.ok (), a.modify id fun s => s.overwrite name value)
      else (.error .alreadyDeclared, a)

theorem scope?_modify_of_ne (a : Arena α) {id other : ScopeId} (h : other ≠ id)
    (f : Scope α → Scope α) : (a.modify id f).scope? other = a.scope? other := by
  have hi : id.index ≠ other.index := by
    intro he
    apply h
    cases id
    cases other
    simp_all
  simp [modify, scope?, Array.getElem?_modify, hi]

theorem bindings_modify_of_ne (a : Arena α) {id other : ScopeId} (h : other ≠ id)
    (f : Scope α → Scope α) : (a.modify id f).bindings other = a.bindings other := by
  simp [bindings, scope?_modify_of_ne a h f]

theorem size_modify (a : Arena α) (id : ScopeId) (f : Scope α → Scope α) :
    (a.modify id f).size = a.size := by
  simp [modify, size]

end Arena

end Tracepoint
