/-
Sessions.

A session is a run of a program that comes to rest now and then.  It runs one unit of work after
the other until it enters a line at which it pauses, the program ends or cannot go on, or the
session has done more units than its limit allows.  A line is entered when the next unit belongs
to another line than the next unit did before.

* `Progress`, `Progress.start` — how far a program has come;
* `Progress.unit` — one unit of work;
* `Rest`, `Rest.notice` — why a session came to rest, and what it says about that;
* `run` — units of work until the session comes to rest;
* `Session`, `resume` — a session at rest, and from one rest to the next.
-/

import Tracepoint.Session.Snapshot

set_option relaxedAutoImplicit false
set_option autoImplicit false

namespace Tracepoint

/-- How far a program has come. -/
structure Progress (σ : Type) where
  state : σ
  /-- The lines that the program wrote. -/
  printed : Array String
  /-- The units of work done. -/
  total : Nat
  /-- The lines entered. -/
  transitions : Nat
  /-- The line entered last. -/
  lastLine : Option Nat

/-- Why a session came to rest. -/
inductive Rest
  /-- It pauses. -/
  | paused (line : Option Nat)
  /-- The program has ended. -/
  | ended
  /-- The program cannot go on. -/
  | faulted (message : String) (line : Option Nat)
  /-- It has done more units of work than the limit allows. -/
  | exhausted (limit : Nat) (line : Option Nat)
  deriving Repr, DecidableEq

namespace Rest

/-- The session never goes on. -/
def isFinal : Rest → Bool
  | paused _ => false
  | _ => true

/-- The line at which the session rests. -/
def line : Rest → Option Nat
  | paused line | faulted _ line | exhausted _ line => line
  | ended => none

/-- The fault that the session ended with. -/
def fault? : Rest → Option String
  | faulted message _ => some message
  | _ => none

/-- What the session itself writes when it comes to rest. -/
def notice : Rest → List String
  | paused _ | ended => []
  | faulted message _ => ["ERROR: " ++ message]
  | exhausted limit _ =>
    ["WARNING: execution halted after " ++ toString limit ++ " steps (possible infinite loop)"]

end Rest

namespace Progress

variable {ε σ υ : Type}

/-- A program about to run. -/
def start (s : σ) : Progress σ :=
  { state := s, printed := #[], total := 0, transitions := 0, lastLine := none }

/-- One unit of work: the line it belonged to, how it ended, and the progress after it. A unit
without a line of its own belongs to the line entered last. -/
def unit (I : Interpreter ε σ υ) : Progress σ → Option Nat × Outcome × Progress σ
  | ⟨s, printed, total, transitions, lastLine⟩ =>
    let line := I.currentLine s <|> lastLine
    let (s, lines, outcome) := I.step s
    (line, outcome, ⟨s, lines.foldl Array.push printed, total + 1, transitions, lastLine⟩)

/-- Enters a line. Only lines count as such. -/
def enter (line : Option Nat) : Progress σ → Progress σ
  | ⟨s, printed, total, transitions, _⟩ =>
    ⟨s, printed, total, if line.isSome then transitions + 1 else transitions, line⟩

end Progress

section

variable {ε σ υ : Type}

/-- Units of work until the session comes to rest: at the latest when `left` units and one more
are done. The session pauses when it enters a line that `pauses` holds of. -/
def run (I : Interpreter ε σ υ) (limit : Nat) (pauses : Option Nat → Bool) :
    (left : Nat) → Progress σ → Progress σ × Rest
  | left, p =>
    let (before, outcome, p) := p.unit I
    match outcome with
    | .fault message line => (p, .faulted message (line <|> before))
    | .done => (p, .ended)
    | .more =>
      let line := I.currentLine p.state
      let entered := line != p.lastLine
      let p := if entered then p.enter line else p
      if entered && pauses line then (p, .paused line)
      else
        match left with
        | 0 => (p, .exhausted limit (line <|> before))
        | left + 1 => run I limit pauses left p

/-- A session at rest. -/
structure Session (σ : Type) where
  progress : Progress σ
  rest : Rest
  /-- The variables in sight when the session came to rest. -/
  scope : Snapshot

/-- From one rest of a session to the next. -/
def resume (I : Interpreter ε σ υ) (limits : Limits) (limit : Nat) (pauses : Option Nat → Bool)
    (p : Progress σ) : Session σ :=
  let left := limit - p.total
  let (p, rest) := run I limit pauses left p
  let scope := snapshot I limits p.state
  ⟨p, rest, scope⟩

/-- What the program wrote, and what the session wrote about its end. -/
def Session.console (s : Session σ) : List String :=
  s.progress.printed.toList ++ s.rest.notice

end

end Tracepoint
