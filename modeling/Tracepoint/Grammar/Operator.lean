/-
Binding strengths of operators.

An operator takes the operands next to it that bind at least as strongly as its strength on that
side.  From weak to strong: assignment, `||`, `&&`, equality, comparison, sums, products, the
operators in front of an operand, and calls, member access and indexing behind one.  A binary
operator is stronger on its right side and so groups to the left; assignment is weaker there and
groups to the right.

* `UnaryOp.ofKind?`, `BinaryOp.ofKind?`, `LogicalOp.ofKind?`, `Suffix.ofKind?` — the operator that
  a token stands for;
* `Strength` — how strongly an operator binds on its left and on its right;
* `Continuation` — everything that can follow an operand.
-/

import Tracepoint.Tree

set_option relaxedAutoImplicit false
set_option autoImplicit false

namespace Tracepoint

/-- How strongly an operator binds to its left and to its right. -/
structure Strength where
  left : Nat
  right : Nat
  deriving Repr, DecidableEq

namespace UnaryOp

/-- The operator that a token in front of an operand stands for. -/
def ofKind? : Kind → Option UnaryOp
  | .bang => some not
  | .minus => some negate
  | _ => none

/-- How strongly the operators in front bind their operand. -/
def strength : Nat := 15

end UnaryOp

namespace BinaryOp

/-- The operator that a token between operands stands for. -/
def ofKind? : Kind → Option BinaryOp
  | .star => some multiply
  | .slash => some divide
  | .percent => some modulo
  | .plus => some add
  | .minus => some subtract
  | .less => some less
  | .lessEqual => some lessEqual
  | .greater => some greater
  | .greaterEqual => some greaterEqual
  | .equalEqual => some equal
  | .bangEqual => some notEqual
  | .equalEqualEqual => some strictEqual
  | .bangEqualEqual => some strictNotEqual
  | _ => none

/-- Products bind stronger than sums, sums than comparisons, and those than equality. -/
def strength : BinaryOp → Strength
  | multiply | divide | modulo => ⟨13, 14⟩
  | add | subtract => ⟨11, 12⟩
  | less | lessEqual | greater | greaterEqual => ⟨9, 10⟩
  | equal | notEqual | strictEqual | strictNotEqual => ⟨7, 8⟩

end BinaryOp

namespace LogicalOp

/-- The operator that a token between operands stands for. -/
def ofKind? : Kind → Option LogicalOp
  | .andAnd => some and
  | .orOr => some or
  | _ => none

/-- Conjunction binds stronger than disjunction. -/
def strength : LogicalOp → Strength
  | and => ⟨5, 6⟩
  | or => ⟨3, 4⟩

end LogicalOp

/-- Assignment binds weakest, and weaker on its right. -/
def assignmentStrength : Strength := ⟨2, 1⟩

/-- What can follow an operand and take it as a whole. -/
inductive Suffix
  | call
  | property
  | index
  deriving Repr, DecidableEq

namespace Suffix

/-- The suffix that a token opens. -/
def ofKind? : Kind → Option Suffix
  | .leftParen => some call
  | .dot => some property
  | .leftBracket => some index
  | _ => none

/-- How strongly a suffix binds the operand in front of it. -/
def strength : Nat := 17

end Suffix

/-- What a token behind an operand goes on with. -/
inductive Continuation
  | suffix (s : Suffix)
  | binary (op : BinaryOp)
  | logical (op : LogicalOp)
  | assignment
  deriving Repr, DecidableEq

namespace Continuation

/-- The continuation that a token starts, if it starts one. -/
def ofKind? (k : Kind) : Option Continuation :=
  match Suffix.ofKind? k, BinaryOp.ofKind? k, LogicalOp.ofKind? k with
  | some s, _, _ => some (.suffix s)
  | none, some op, _ => some (.binary op)
  | none, none, some op => some (.logical op)
  | none, none, none => if k = .equal then some .assignment else none

/-- How strongly a continuation binds the operand in front of it. -/
def strength : Continuation → Nat
  | suffix _ => Suffix.strength
  | binary op => op.strength.left
  | logical op => op.strength.left
  | assignment => assignmentStrength.left

end Continuation

end Tracepoint
