/-
Interpreters, as a debugger sees them.

An interpreter loads a source and then carries out one unit of work after the other.  Between two
units it can be asked for the line that comes next and for the variables in sight.  Nothing else
is known of its states and its values.

* `Interpreter` — the operations;
* `Outcome` — how a unit of work ended;
* `Marshalled` — what a value is made of;
* `Interpreter.iterate` — a number of units after another.
-/

import Tracepoint.Shown

set_option relaxedAutoImplicit false
set_option autoImplicit false

namespace Tracepoint

/-- How a unit of work ended. -/
inductive Outcome
  /-- There is more to do. -/
  | more
  /-- The program has ended. -/
  | done
  /-- The program cannot go on. -/
  | fault (message : String) (line : Option Nat)
  deriving Repr, DecidableEq

/-- What a value is made of. Two containers of one identity are the same container. -/
inductive Marshalled (υ : Type)
  | plain (value : Shown)
  | list (identity : Nat) (items : List υ)
  | record (identity : Nat) (entries : List (String × υ))

/-- An interpreter with errors of loading `ε`, states `σ` and values `υ`. -/
structure Interpreter (ε σ υ : Type) where
  /-- The state before the first unit of work on a source. -/
  load : String → Except ε σ
  /-- One unit of work: the state after it, the lines it wrote, and how it ended. -/
  step : σ → σ × List String × Outcome
  /-- The line of the next unit. -/
  currentLine : σ → Option Nat
  /-- The variables in sight, scope by scope, the innermost scope first. -/
  scopes : σ → List (List (String × υ))
  /-- What a value is made of. -/
  marshal : σ → υ → Marshalled υ

namespace Interpreter

variable {ε σ υ : Type}

/-- The state after some units of work. -/
def iterate (I : Interpreter ε σ υ) : Nat → σ → σ
  | 0, s => s
  | n + 1, s => iterate I n (I.step s).1

/-- The lines that some units of work write. -/
def printed (I : Interpreter ε σ υ) : Nat → σ → List String
  | 0, _ => []
  | n + 1, s => (I.step s).2.1 ++ printed I n (I.step s).1

theorem iterate_add (I : Interpreter ε σ υ) (m n : Nat) (s : σ) :
    I.iterate (m + n) s = I.iterate n (I.iterate m s) := by
  induction m generalizing s with
  | zero => simp [iterate]
  | succ m ih => simp [Nat.succ_add, iterate, ih]

theorem printed_add (I : Interpreter ε σ υ) (m n : Nat) (s : σ) :
    I.printed (m + n) s = I.printed m s ++ I.printed n (I.iterate m s) := by
  induction m generalizing s with
  | zero => simp [iterate, printed]
  | succ m ih => simp [Nat.succ_add, iterate, printed, ih]

end Interpreter

end Tracepoint
