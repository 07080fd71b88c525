/-
Requests on the command line.

A request names an activity and a script, followed by options in any order.

* `Activity`, `Options`, `Request` — what is asked for;
* `Options.read` — the options after the name of the script;
* `Request.ofArguments?` — the request that the words of a command line make.
-/

import Tracepoint.Debugger
import Tracepoint.Decimal.Reader

set_option relaxedAutoImplicit false
set_option autoImplicit false

namespace Tracepoint

/-- What to do with a script. -/
inductive Activity
  | run
  | debug
  | disassemble
  deriving Repr, DecidableEq

/-- How syntax errors are written. -/
inductive ErrorFormat
  | basic
  | pretty
  deriving Repr, DecidableEq

/-- The options of a request. -/
structure Options where
  /-- Lines at which the script pauses. -/
  breakpoints : List Nat := []
  format : ErrorFormat := .pretty
  /-- Whether each rest is shown as a document. -/
  json : Bool := false
  config : Config := {}
  deriving Repr, DecidableEq

/-- An activity with its script. -/
structure Request where
  activity : Activity
  /-- Names the file of the script. -/
  path : String
  options : Options
  deriving Repr, DecidableEq

/-- The name of an activity. -/
def Activity.ofName? (name : String) : Option Activity :=
  if name = "run" then some .run
  else if name = "debug" then some .debug
  else if name = "disassemble" then some .disassemble
  else none

/-- The name of a format. -/
def ErrorFormat.ofName? (name : String) : Option ErrorFormat :=
  if name = "basic" then some .basic
  else if name = "pretty" then some .pretty
  else none

namespace Options

/-- Lines are below this number. -/
def lineBound : Nat := Nat.pow 2 32

/-- Limits are below this number. -/
def limitBound : Nat := Nat.pow 2 64

/-- The options with one more that has a value. -/
def withValue (o : Options) (name value : String) : Option Options :=
  if name = "--break" ∨ name = "-b" then
    (Decimal.natural? lineBound value).map fun line =>
      { o with breakpoints := o.breakpoints ++ [line] }
  else if name = "--format" then
    (ErrorFormat.ofName? value).map fun format => { o with format }
  else if name = "--step-limit" then
    (Decimal.natural? limitBound value).map fun limit =>
      { o with config.stepLimit := limit }
  else if name = "--max-depth" then
    (Decimal.natural? limitBound value).map fun depth =>
      { o with config.limits.depth := depth }
  else none

/-- The options that some words make, after the ones read already. -/
def read (o : Options) : List String → Option Options
  | [] => some o
  | "--json" :: rest => { o with json := true }.read rest
  | [_] => none
  | name :: value :: rest => (o.withValue name value).bind fun o => o.read rest

end Options

/-- The activity asks for nothing that it does not use. -/
def Request.isSensible (r : Request) : Bool :=
  r.activity != .disassemble || r.options == { format := r.options.format }

/-- The request that the words of a command line make. -/
def Request.ofArguments? : List String → Option Request
  | activity :: path :: rest => do
    let activity ← Activity.ofName? activity
    let options ← Options.read {} rest
    let request : Request := { activity, path, options }
    if request.isSensible then some request else none
  | _ => none

end Tracepoint
