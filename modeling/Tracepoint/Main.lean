/-
The program.

Reads the script that the command line names, and writes what the command has to say as soon as
it is said.

* `write` — one piece of output;
* `runLoop`, `promptLoop` — a script that is run, and a dialogue;
* `main` — the command line.
-/

import Tracepoint.Command

set_option relaxedAutoImplicit false
set_option autoImplicit false

namespace Tracepoint

/-- Writes a piece of output. -/
def write : Output → IO Unit
  | .out text => do
    let stream ← IO.getStdout
    stream.putStr text
    stream.flush
  | .err text => do
    let stream ← IO.getStderr
    stream.putStr text
    stream.flush

/-- Runs a script from one rest to the next. -/
partial def runLoop (json : Bool) (v : Viewer) : IO Exit := do
  let (output, next) := v.next json
  output.forM write
  match next with
  | .inl exit => return exit
  | .inr v => runLoop json v

/-- Answers one line after the other. -/
partial def promptLoop (p : Prompt) : IO Exit := do
  write (.out promptText)
  let stream ← IO.getStdin
  let line ← stream.getLine
  if line.isEmpty then return p.viewer.exit
  let (output, next) := p.answer line
  output.forM write
  match next with
  | .inl exit => return exit
  | .inr p => promptLoop p

/-- Carries out a request. -/
def carryOut (r : Request) : IO Exit := do
  write r.announcement
  let source ← IO.FS.readFile r.path
  match r.activity with
  | .disassemble =>
    let (output, exit) := r.disassemble source
    write output
    return exit
  | .run =>
    match r.open_ source with
    | .error (output, exit) =>
      write output
      return exit
    | .ok viewer => runLoop r.options.json viewer
  | .debug =>
    match r.open_ source with
    | .error (output, exit) =>
      write output
      return exit
    | .ok viewer =>
      let (output, prompt) := Prompt.report ⟨r, source, viewer⟩
      output.forM write
      promptLoop prompt

/-- How the program is called. -/
def usage : String :=
  "usage: run|debug|disassemble PATH [--break N | -b N]... [--format basic|pretty] [--json] " ++
    "[--step-limit N] [--max-depth N]"

end Tracepoint

def main (arguments : List String) : IO UInt32 := do
  match Tracepoint.Request.ofArguments? arguments with
  | some request =>
    let exit ← Tracepoint.carryOut request
    return UInt32.ofNat exit.code
  | none =>
    Tracepoint.write (.errLine Tracepoint.usage)
    return 2
