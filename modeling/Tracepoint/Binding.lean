/-
Kinds of bindings.

A name is bound by one of the declaring keywords, as a parameter or as a function.  A constant is
never written again.  Variables, parameters and functions may be declared again in the same scope.

* `BindingKind` with its name, its byte and `ofByte?`;
* `ofByte?_toByte` — the byte of a kind determines it.
-/

set_option relaxedAutoImplicit false
set_option autoImplicit false

namespace Tracepoint

/-- How a name is bound. -/
inductive BindingKind
  | let_
  | const_
  | var_
  | parameter
  | function
  deriving Repr, DecidableEq

namespace BindingKind

/-- The byte that stands for the kind in code. -/
def toByte : BindingKind → UInt8
  | let_ => 0
  | const_ => 1
  | var_ => 2
  | parameter => 3
  | function => 4

/-- The kind that a byte stands for. -/
def ofByte? (b : UInt8) : Option BindingKind :=
  if b = 0 then some let_
  else if b = 1 then some const_
  else if b = 2 then some var_
  else if b = 3 then some parameter
  else if b = 4 then some function
  else none

theorem ofByte?_toByte (k : BindingKind) : ofByte? k.toByte = some k := by
  cases k <;> rfl

/-- How listings name the kind. -/
def name : BindingKind → String
  | let_ => "let"
  | const_ => "const"
  | var_ => "var"
  | parameter => "param"
  | function => "function"

/-- A binding of this kind may be declared again in its scope by another such kind. -/
def isRedeclarable : BindingKind → Bool
  | var_ | parameter | function => true
  | let_ | const_ => false

end BindingKind

end Tracepoint
