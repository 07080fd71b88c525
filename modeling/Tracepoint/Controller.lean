/-
A debugger that writes down what it does.

A debugger is told by its session alone: its phase, what can be seen of it and which requests it
accepts.  A controller keeps all of this in fields of its own, the phase beside the session and the
session with flags and the variables in sight, and writes them wherever they change: when a run
begins, at each of its four ends, when a source is loaded or cannot be, when a session is dropped.
It reads nothing but these fields.

* `Sitting` — a session with what is written down of it; `Sitting.pause`, `Sitting.finish`;
* `Controller` — the fields; `Controller.observe` — what can be seen;
* `Controller.turn`, `Controller.loop`, `Controller.run` — units of work up to an end of the run;
* `Controller.start`, `Controller.restart`, `Controller.stop`, `Controller.advance`,
  `Controller.setSource`, `Controller.toggle` — the requests.
-/

import Tracepoint.Debugger

set_option relaxedAutoImplicit false
set_option autoImplicit false

namespace Tracepoint

variable {ε σ υ : Type}

/-! ### Sessions -/

/-- An open session, with what is written down of it. -/
structure Sitting (σ : Type) where
  program : σ
  console : List String
  /-- The units of work done. -/
  total : Nat
  /-- The lines entered. -/
  transitions : Nat
  /-- The line entered last. -/
  lastLine : Option Nat
  /-- The line at which the session rests. -/
  activeLine : Option Nat
  /-- The variables in sight where it rests. -/
  scope : Option Snapshot
  /-- The fault that it ended with. -/
  fault : Option String
  paused : Bool
  finished : Bool

namespace Sitting

/-- A session on a program about to run. -/
def new (program : σ) : Sitting σ :=
  { program, console := [], total := 0, transitions := 0, lastLine := none, activeLine := none,
    scope := none, fault := none, paused := false, finished := false }

/-- Writes to the console. -/
def push (entry : String) (s : Sitting σ) : Sitting σ :=
  { s with console := s.console ++ [entry] }

/-- Writes down that the session rests at a line. -/
def pause (I : Interpreter ε σ υ) (limits : Limits) (line : Option Nat) (s : Sitting σ) :
    Sitting σ :=
  { s with paused := true, activeLine := line, scope := some (snapshot I limits s.program) }

/-- Writes down that the session has come to its last rest. -/
def finish (I : Interpreter ε σ υ) (limits : Limits) (line : Option Nat) (s : Sitting σ) :
    Sitting σ :=
  pause I limits line { s with finished := true }

/-- Writes down that the next unit belongs to a line, if it is another one. Only lines count as
entered. -/
def arrive (line : Option Nat) (s : Sitting σ) : Sitting σ :=
  if line != s.lastLine then
    { s with
      lastLine := line
      transitions := if line.isSome then s.transitions + 1 else s.transitions }
  else s

@[simp]
theorem total_arrive (line : Option Nat) (s : Sitting σ) : (s.arrive line).total = s.total := by
  rw [arrive]
  split <;> rfl

/-- One unit of work, with the lines that it writes. -/
def work (I : Interpreter ε σ υ) (s : Sitting σ) : Outcome × Sitting σ :=
  let (program, lines, outcome) := I.step s.program
  (outcome, { s with program, console := s.console ++ lines, total := s.total + 1 })

/-- What can be seen of the session. -/
def observe (s : Sitting σ) : Observation :=
  ⟨s.paused, s.finished, s.activeLine, s.scope, s.console⟩

end Sitting

/-- A debugger that writes down what it does. -/
structure Controller (σ : Type) where
  config : Config
  breakpoints : Breakpoints
  /-- What is run next. -/
  source : Option String
  session : Option (Sitting σ)
  phase : Phase

namespace Controller

/-- A controller without source. -/
def new (config : Config) : Controller σ :=
  { config, breakpoints := .empty, source := none, session := none, phase := .idle }

/-- What can be seen of a controller. -/
def observe (c : Controller σ) : Observation :=
  match c.session with
  | none => ⟨false, false, none, none, []⟩
  | some s => s.observe

/-! ### Runs -/

section Run

variable (I : Interpreter ε σ υ) (config : Config) (breakpoints : Breakpoints) (gait : Gait)

/-- One turn of a run, with the phase and the session that it writes to. It tells whether there is
another turn. -/
def turn : Phase × Sitting σ → Bool × Phase × Sitting σ
  | (phase, s) =>
    let before := I.currentLine s.program <|> s.lastLine
    let (outcome, s) := s.work I
    match outcome with
    | .fault message line =>
      let s := { s.push ("ERROR: " ++ message) with fault := some message }
      (false, .finished, s.finish I config.limits (line <|> before))
    | .done => (false, .finished, s.finish I config.limits none)
    | .more =>
      let line := I.currentLine s.program
      if line != s.lastLine && gait.pauses breakpoints line then
        (false, .paused, (s.arrive line).pause I config.limits line)
      else if config.stepLimit < s.total then
        let s := (s.arrive line).push ("WARNING: execution halted after " ++
          toString config.stepLimit ++ " steps (possible infinite loop)")
        (false, .finished, s.finish I config.limits (line <|> before))
      else (true, phase, s.arrive line)

theorem total_of_turn {r r' : Phase × Sitting σ}
    (h : turn I config breakpoints gait r = (true, r')) :
    r'.2.total = r.2.total + 1 ∧ r'.2.total ≤ config.stepLimit := by
  obtain ⟨phase, s⟩ := r
  simp only [turn] at h
  split at h
  · cases h
  · cases h
  · split at h
    · cases h
    · split at h
      · cases h
      next hlimit =>
        cases h
        rw [Sitting.total_arrive]
        exact ⟨rfl, Nat.le_of_not_lt hlimit⟩

/-- Turns up to the end of the run. -/
def loop (r : Phase × Sitting σ) : Phase × Sitting σ :=
  match h : turn I config breakpoints gait r with
  | (false, r') => r'
  | (true, r') =>
    have := total_of_turn I config breakpoints gait h
    loop r'
termination_by config.stepLimit + 1 - r.2.total

end Run

/-- Runs the session until it comes to rest. -/
def run (I : Interpreter ε σ υ) (gait : Gait) (c : Controller σ) : Controller σ :=
  match c.session with
  | none => c
  | some s =>
    let (phase, s) := loop I c.config c.breakpoints gait (.running, { s with paused := false })
    { c with session := some s, phase }

/-! ### Requests -/

/-- Closes the session. -/
def dropSession (c : Controller σ) : Controller σ :=
  { c with session := none, phase := .idle }

/-- Closes the session, if there is one, and shows nothing. -/
def stop (c : Controller σ) : Observation × Controller σ :=
  (⟨false, false, none, none, []⟩, c.dropSession)

/-- Gives the source that the next restart runs. -/
def setSource (c : Controller σ) (source : String) : Controller σ :=
  { c with source := some source }

/-- Closes the session and runs a program until a new session on it comes to rest. -/
def start (I : Interpreter ε σ υ) (c : Controller σ) (source : String) :
    Except ε Observation × Controller σ :=
  let c := { c.dropSession.setSource source with phase := .initializing }
  match I.load source with
  | .error e => (.error e, { c with phase := .idle })
  | .ok program =>
    let c := { c with session := some (.new program) }.run I .continue_
    (.ok c.observe, c)

/-- Starts the source again. -/
def restart (I : Interpreter ε σ υ) (c : Controller σ) :
    Except (Debugger.RestartError ε) Observation × Controller σ :=
  match c.source with
  | none => (.error (.refused (.untimely "restart" c.phase)), c)
  | some source =>
    match c.stop.2.start I source with
    | (.ok seen, c) => (.ok seen, c)
    | (.error e, c) => (.error (.load e), c)

/-- There is a session that can go on. -/
def resumable (c : Controller σ) : Bool :=
  c.session.any fun s => s.paused && !s.finished

/-- Runs a paused session until it comes to rest again. -/
def advance (I : Interpreter ε σ υ) (gait : Gait) (c : Controller σ) :
    Except Refusal Observation × Controller σ :=
  if c.phase ≠ .paused ∨ c.resumable = false then (.error (.untimely gait.name c.phase), c)
  else
    let c := c.run I gait
    (.ok c.observe, c)

/-- Sets a breakpoint, or clears it if it is set. -/
def toggle (c : Controller σ) (line : Nat) : Except Refusal Bool × Controller σ :=
  if line = 0 then (.error (.noSuchLine line), c)
  else
    let breakpoints := c.breakpoints.toggle line
    (.ok (breakpoints.contains line), { c with breakpoints })

end Controller

end Tracepoint
