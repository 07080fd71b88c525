/-
Scripts under the debugger.

* `Script.interpreter` — loads a script into a machine, whose steps are the units of work;
* `Machine.scopeBindings`, `Machine.marshal` — what can be seen of a machine.
-/

import Tracepoint.Compile
import Tracepoint.Grammar.Parser
import Tracepoint.Machine.Step
import Tracepoint.Session.Interpreter

set_option relaxedAutoImplicit false
set_option autoImplicit false

namespace Tracepoint

namespace Machine

/-- The variables in sight, scope by scope, the innermost scope first. -/
def scopeBindings (m : Machine) : List (List (String × Value)) :=
  (m.scopes.chain m.currentScope).map fun id =>
    (m.scopes.bindings id).map fun b => (b.name, b.value)

/-- What a value is made of. Functions are shown by their label. -/
def marshal (m : Machine) : Value → Marshalled Value
  | .undefined => .plain .undefined
  | .null => .plain .null
  | .bool b => .plain (.bool b)
  | .number x => .plain (.number x)
  | .string text => .plain (.string text)
  | .array r => .list r.index ((m.heap.items? r).getD #[]).toList
  | .object r => .record r.index ((m.heap.entries? r).getD [])
  | v@(.function _) | v@(.native _) => .plain (.placeholder (v.functionLabel?.getD ""))

end Machine

/-- How a step ended, as a debugger sees it. -/
def Status.outcome : Status → Outcome
  | more => .more
  | done => .done
  | fault e => .fault e.fault.message e.line

namespace Script

/-- A machine about to run a script. -/
def load (source : String) : Except SyntaxError Machine :=
  match parse source with
  | .ok program => .ok (.start (compileProgram program))
  | .error e => .error e

/-- Loads a script into a machine, whose steps are the units of work. -/
def interpreter : Interpreter SyntaxError Machine Value :=
  { load
    step := fun m =>
      let (m, printed, status) := m.step
      (m, printed, status.outcome)
    currentLine := Machine.currentLine
    scopes := Machine.scopeBindings
    marshal := Machine.marshal }

end Script

end Tracepoint
