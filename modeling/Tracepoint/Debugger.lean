/-
The debugger.

A debugger holds breakpoints, a source and at most one session on it.  It runs programs from one
rest to the next, on request: until a breakpoint is entered, or until any line is entered.  What
is asked for at the wrong time is refused, and a refusal changes nothing.

* `Config`, `Debugger`, `Debugger.new` — the state;
* `Phase`, `Refusal` — what the debugger is doing, and why it refuses;
* `Debugger.toggle`, `Debugger.setSource` — preparing;
* `Debugger.start`, `Debugger.restart`, `Debugger.stop` — opening and closing sessions;
* `Debugger.advance` — going on, `Gait` says how far;
* `Observation`, `Debugger.observe` — what can be seen from outside, also as a document.
-/

import Tracepoint.Breakpoints
import Tracepoint.Json
import Tracepoint.Session.Run

set_option relaxedAutoImplicit false
set_option autoImplicit false

namespace Tracepoint

/-- The bounds of a debugger. -/
structure Config where
  /-- The units of work that a session may do before it is ended. -/
  stepLimit : Nat := 50000
  limits : Limits := {}
  deriving Repr, DecidableEq

/-- The state of a debugger. -/
structure Debugger (σ : Type) where
  config : Config
  breakpoints : Breakpoints
  /-- What is run next. -/
  source : Option String
  session : Option (Session σ)

/-- What a debugger is doing. -/
inductive Phase
  | idle
  /-- A source is being loaded. -/
  | initializing
  | running
  | paused
  /-- A session has ended, cannot go on or has reached its limit. -/
  | finished
  deriving Repr, DecidableEq

/-- The name of a phase. -/
def Phase.name : Phase → String
  | idle => "idle"
  | initializing => "initializing"
  | running => "running"
  | paused => "paused"
  | finished => "finished"

/-- How far to go on. -/
inductive Gait
  /-- Until a breakpoint is entered. -/
  | continue_
  /-- Until any line is entered. -/
  | step
  deriving Repr, DecidableEq

/-- The name of a gait. -/
def Gait.name : Gait → String
  | continue_ => "continue"
  | step => "step"

/-- Why a debugger refuses. -/
inductive Refusal
  /-- The wrong time for a request. -/
  | untimely (request : String) (phase : Phase)
  | noSuchLine (line : Nat)
  deriving Repr, DecidableEq

namespace Refusal

/-- A short name of the refusal for programs. -/
def code : Refusal → String
  | untimely _ _ => "DB001"
  | noSuchLine _ => "DB002"

/-- The wording of the refusal. -/
def message : Refusal → String
  | untimely request phase =>
    "cannot " ++ request ++ " while the debugger is " ++ phase.name
  | noSuchLine line =>
    "line " ++ toString line ++ " cannot hold a breakpoint, lines start at 1"

end Refusal

/-- The lines at which a session pauses. -/
def Gait.pauses (b : Breakpoints) : Gait → Option Nat → Bool
  | continue_, line => line.any b.contains
  | step, _ => true

namespace Debugger

variable {ε σ υ : Type}

/-- A debugger without source. -/
def new (config : Config) : Debugger σ :=
  { config, breakpoints := .empty, source := none, session := none }

/-- What the debugger is doing between two requests. -/
def phase (d : Debugger σ) : Phase :=
  match d.session with
  | none => .idle
  | some s => if s.rest.isFinal then .finished else .paused

/-- The fault that the session ended with. -/
def fault? (d : Debugger σ) : Option String :=
  d.session.bind fun s => s.rest.fault?

/-! ### Preparing -/

/-- Sets a breakpoint, or clears it if it is set. -/
def toggle (d : Debugger σ) (line : Nat) : Except Refusal Bool × Debugger σ :=
  match d with
  | ⟨config, breakpoints, source, session⟩ =>
    if line = 0 then (.error (.noSuchLine line), ⟨config, breakpoints, source, session⟩)
    else
      let breakpoints := breakpoints.toggle line
      (.ok (breakpoints.contains line), ⟨config, breakpoints, source, session⟩)

/-- Gives the source that the next restart runs. -/
def setSource (d : Debugger σ) (source : String) : Debugger σ :=
  { d with source := some source }

/-! ### Opening and closing sessions -/

/-- Closes the session. -/
def stop (d : Debugger σ) : Debugger σ :=
  { d with session := none }

/-- Runs a program until a session on it comes to rest. A session that is open is closed, also
when the source cannot be loaded. -/
def start (I : Interpreter ε σ υ) (d : Debugger σ) (source : String) :
    Except ε Unit × Debugger σ :=
  let d := d.stop.setSource source
  match I.load source with
  | .error e => (.error e, d)
  | .ok s =>
    let pauses := Gait.continue_.pauses d.breakpoints
    let session := resume I d.config.limits d.config.stepLimit pauses (.start s)
    (.ok (), { d with session := some session })

/-- Why a program cannot be started again. -/
inductive RestartError (ε : Type)
  | load (e : ε)
  | refused (r : Refusal)

/-- Starts the source again. -/
def restart (I : Interpreter ε σ υ) (d : Debugger σ) :
    Except (RestartError ε) Unit × Debugger σ :=
  match d.source with
  | none => (.error (.refused (.untimely "restart" d.phase)), d)
  | some source =>
    match d.start I source with
    | (.ok (), d) => (.ok (), d)
    | (.error e, d) => (.error (.load e), d)

/-! ### Going on -/

/-- Runs a paused session until it comes to rest again. -/
def advance (I : Interpreter ε σ υ) (gait : Gait) (d : Debugger σ) :
    Except Refusal Unit × Debugger σ :=
  match d with
  | ⟨config, breakpoints, source, some ⟨p, .paused _, _⟩⟩ =>
    let session := resume I config.limits config.stepLimit (gait.pauses breakpoints) p
    (.ok (), ⟨config, breakpoints, source, some session⟩)
  | d => (.error (.untimely gait.name d.phase), d)

theorem advance_error {I : Interpreter ε σ υ} {gait : Gait} {d : Debugger σ} {r : Refusal}
    (h : (d.advance I gait).1 = .error r) : (d.advance I gait).2 = d := by
  unfold advance at h ⊢
  split
  · simp at h
  · rfl

end Debugger

/-! ### What can be seen -/

/-- What can be seen of a debugger from outside. -/
structure Observation where
  paused : Bool
  finished : Bool
  activeLine : Option Nat
  scope : Option Snapshot
  console : List String

/-- What can be seen of a debugger. A session that has finished also counts as paused. -/
def Debugger.observe {σ : Type} (d : Debugger σ) : Observation :=
  match d.session with
  | none => ⟨false, false, none, none, []⟩
  | some s => ⟨true, s.rest.isFinal, s.rest.line, some s.scope, s.console⟩

/-- A snapshot as a document. -/
def Snapshot.toJson (s : Snapshot) : Json :=
  .object (Shown.entriesToJson s)

/-- An observation as a document. No line is line minus one. -/
def Observation.toJson (o : Observation) : Json :=
  .object
    [("isPaused", .bool o.paused),
     ("isFinished", .bool o.finished),
     ("activeLine", .integer (o.activeLine.elim (-1) Int.ofNat)),
     ("scope", o.scope.elim .null Snapshot.toJson),
     ("consoleOutput", .array (o.console.map .string))]

end Tracepoint
