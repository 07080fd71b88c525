/-
What a session shows on a terminal.

Whenever a session comes to rest, the lines it wrote since the last rest are shown, and then
where it rests and the variables in sight.  As a document all of it is shown each time.

* `Output`, `Exit` — what is written, and how a command ends;
* `Viewer`, `Viewer.report` — a debugger with the number of lines shown already;
* `Request.open_` — the viewer of a request whose script has come to its first rest.
-/

import Tracepoint.Command.Request
import Tracepoint.Diagnostic
import Tracepoint.Script

set_option relaxedAutoImplicit false
set_option autoImplicit false

namespace Tracepoint

/-- A piece of what a command writes. -/
inductive Output
  | out (text : String)
  | err (text : String)
  deriving Repr, DecidableEq

/-- A whole line of what a command writes. -/
def Output.outLine (text : String) : Output :=
  .out (text ++ "\n")

/-- A whole line of complaints. -/
def Output.errLine (text : String) : Output :=
  .err (text ++ "\n")

/-- How a command ends. -/
inductive Exit
  | success
  /-- The script is no program. -/
  | badSyntax
  /-- The script ended with a fault. -/
  | faulted
  /-- A breakpoint was asked for where none can be. -/
  | refused
  deriving Repr, DecidableEq, Inhabited

/-- The number that stands for an end. -/
def Exit.code : Exit → Nat
  | success => 0
  | badSyntax => 65
  | faulted => 70
  | refused => 101

/-- A debugger, and how many of its lines are shown already. -/
structure Viewer where
  debugger : Debugger Machine
  shown : Nat

/-- Where a session rests, and the variables in sight. -/
def Observation.status (o : Observation) : List Output :=
  if o.finished then [.outLine "Execution finished."]
  else if o.paused then
    let place := match o.activeLine with
      | none => "-- paused at end of program"
      | some line => "-- paused at line " ++ toString line
    .outLine place :: (o.scope.map fun scope => .outLine (scope.toJson.render pretty)).toList
  else []

namespace Viewer

/-- How the command ends with this debugger. -/
def exit (v : Viewer) : Exit :=
  if v.debugger.fault?.isSome then .faulted else .success

/-- Shows what is new. -/
def report (json : Bool) (v : Viewer) : List Output × Viewer :=
  let o := v.debugger.observe
  let output :=
    if json then [.outLine (o.toJson.render pretty)]
    else (o.console.drop v.shown).map Output.outLine ++ o.status
  (output, { v with shown := o.console.length })

end Viewer

/-- The text of a syntax error. -/
def Request.describe (r : Request) (source : String) (e : SyntaxError) : String :=
  match r.options.format with
  | .basic => e.text
  | .pretty => e.report r.path source

/-- A debugger with some more breakpoints. -/
def setBreakpoints {σ : Type} : List Nat → Debugger σ → Except Refusal (Debugger σ)
  | [], d => .ok d
  | line :: rest, d =>
    if d.breakpoints.contains line then setBreakpoints rest d
    else
      match d.toggle line with
      | (.ok _, d) => setBreakpoints rest d
      | (.error r, _) => .error r

/-- Starts the script of a request. If that fails, gives what to write and how to end. -/
def Request.open_ (r : Request) (source : String) : Except (Output × Exit) Viewer :=
  match setBreakpoints r.options.breakpoints (.new r.options.config) with
  | .error refusal => .error (.errLine refusal.message, .refused)
  | .ok d =>
    match d.start Script.interpreter source with
    | (.error e, _) => .error (.errLine (r.describe source e), .badSyntax)
    | (.ok (), d) => .ok { debugger := d, shown := 0 }

end Tracepoint
