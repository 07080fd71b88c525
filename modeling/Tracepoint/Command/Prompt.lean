/-
The prompt of the debugger.

A line that is typed at the prompt is an order, by its first word.  The other words of the line
count only where the order needs one.

* `Order`, `Order.ofLine?` — the orders, and how they are typed;
* `Prompt`, `Prompt.answer` — a dialogue, and what it says to one line;
* `Prompt.dialogue` — all that is said to some lines.
-/

import Tracepoint.Command.Report

set_option relaxedAutoImplicit false
set_option autoImplicit false

namespace Tracepoint

/-- What someone who debugs may ask for. -/
inductive Order
  | advance (gait : Gait)
  | restart
  | print
  /-- Sets or clears a breakpoint. There is no line if what was typed is no line number. -/
  | toggle (line : Option Nat)
  | list
  | quit
  | help
  deriving Repr, DecidableEq

/-- The order whose name is the first of some words. -/
def Order.ofWords? : List String → Option Order
  | [] => none
  | name :: rest =>
    some <|
      if name = "c" ∨ name = "continue" then .advance .continue_
      else if name = "s" ∨ name = "step" then .advance .step
      else if name = "r" ∨ name = "restart" then .restart
      else if name = "p" ∨ name = "print" then .print
      else if name = "b" ∨ name = "break" then
        .toggle (rest.head?.bind (Decimal.natural? Options.lineBound))
      else if name = "l" ∨ name = "list" then .list
      else if name = "q" ∨ name = "quit" then .quit
      else .help

/-- The order that a line gives. Blank lines give none. -/
def Order.ofLine? (line : String) : Option Order :=
  Order.ofWords? (Text.words line)

/-- The orders in words. -/
def helpText : String :=
  "commands:\n" ++
  "  c, continue      run to the next breakpoint\n" ++
  "  s, step          run to the next line\n" ++
  "  b, break <line>  toggle a breakpoint\n" ++
  "  l, list          list breakpoints\n" ++
  "  p, print         show the current state\n" ++
  "  r, restart       start over, keeping breakpoints\n" ++
  "  q, quit          stop and exit"

/-- Asks for a line. -/
def promptText : String := "(stepwise) "

/-- A dialogue about the script of a request. -/
structure Prompt where
  request : Request
  source : String
  viewer : Viewer

namespace Prompt

/-- Shows what is new. -/
def report (p : Prompt) : List Output × Prompt :=
  let (output, viewer) := p.viewer.report p.request.options.json
  (output, { p with viewer })

/-- Goes on. -/
def advance (gait : Gait) : Prompt → List Output × Prompt
  | ⟨request, source, ⟨debugger, shown⟩⟩ =>
    match debugger.advance Script.interpreter gait with
    | (.ok (), debugger) => report ⟨request, source, ⟨debugger, shown⟩⟩
    | (.error r, debugger) => ([.errLine r.message], ⟨request, source, ⟨debugger, shown⟩⟩)

/-- Starts over. -/
def restart : Prompt → List Output × Prompt
  | ⟨request, source, ⟨debugger, _⟩⟩ =>
    match debugger.restart Script.interpreter with
    | (.ok (), debugger) => report ⟨request, source, ⟨debugger, 0⟩⟩
    | (.error (.load e), debugger) =>
      ([.errLine (request.describe source e)], ⟨request, source, ⟨debugger, 0⟩⟩)
    | (.error (.refused r), debugger) => ([.errLine r.message], ⟨request, source, ⟨debugger, 0⟩⟩)

/-- Sets or clears a breakpoint. -/
def toggle (line : Nat) : Prompt → List Output × Prompt
  | ⟨request, source, ⟨debugger, shown⟩⟩ =>
    match debugger.toggle line with
    | (.ok isSet, debugger) =>
      let change := if isSet then "set" else "cleared"
      ([.outLine ("breakpoint " ++ change ++ " at line " ++ toString line)],
        ⟨request, source, ⟨debugger, shown⟩⟩)
    | (.error r, debugger) => ([.errLine r.message], ⟨request, source, ⟨debugger, shown⟩⟩)

/-- The breakpoints on one line. -/
def breakpointList (p : Prompt) : String :=
  let lines := p.viewer.debugger.breakpoints.lines.map toString
  "breakpoints: [" ++ ", ".intercalate lines ++ "]"

/-- What the dialogue says to an order. -/
def obey (p : Prompt) : Order → List Output × Prompt
  | .advance gait => p.advance gait
  | .restart => p.restart
  | .print => p.report
  | .toggle (some line) => p.toggle line
  | .toggle none => ([.errLine "usage: break <line>"], p)
  | .list => ([.outLine p.breakpointList], p)
  | .help => ([.outLine helpText], p)
  | .quit => ([], p)

/-- What the dialogue says to a line, and how it goes on: with another line, or with an end. -/
def answer (p : Prompt) (line : String) : List Output × (Exit ⊕ Prompt) :=
  match Order.ofLine? line with
  | none => ([], .inr p)
  | some .quit => ([], .inl p.viewer.exit)
  | some order =>
    let (output, p) := p.obey order
    (output, .inr p)

/-- All that is said to some lines after what was said before. -/
def dialogue : List String → Prompt → Array Output → Array Output × Exit
  | [], p, said => (said.push (.out promptText), p.viewer.exit)
  | line :: rest, p, said =>
    match p.answer line with
    | (output, .inl exit) => (said.push (.out promptText) ++ output, exit)
    | (output, .inr p) => dialogue rest p (said.push (.out promptText) ++ output)

end Prompt

end Tracepoint
