/-
The commands.

A command says what it is about to do, reads its script and does it.

* `Request.announcement` — what is said first;
* `Viewer.next`, `Viewer.round`, `runOut` — a script that is run from one rest to the next;
* `Request.perform` — a whole command, with all that is typed at it.
-/

import Tracepoint.Code.Listing
import Tracepoint.Command.Prompt

set_option relaxedAutoImplicit false
set_option autoImplicit false

namespace Tracepoint

/-- What is said before the script is read. -/
def Request.announcement (r : Request) : Output :=
  let verb := match r.activity with
    | .run => "Running "
    | .debug => "Debugging "
    | .disassemble => "Disassembling "
  .errLine (verb ++ Text.visible.quote r.path ++ "...")

/-- Shows what is new, and ends or goes on to the next rest. -/
def Viewer.next (json : Bool) (v : Viewer) : List Output × (Exit ⊕ Viewer) :=
  match v.report json with
  | (output, ⟨debugger, shown⟩) =>
    if debugger.phase = .finished then (output, .inl (Viewer.exit ⟨debugger, shown⟩))
    else
      let (_, debugger) := debugger.advance Script.interpreter .continue_
      (output, .inr ⟨debugger, shown⟩)

/-- A run from one rest to the next, with all that was shown before. -/
def Viewer.round (json : Bool) :
    Viewer × Array Output → (Viewer × Array Output) ⊕ (Array Output × Exit)
  | (v, shown) =>
    match v.next json with
    | (output, .inl exit) => .inr (shown ++ output, exit)
    | (output, .inr v) => .inl (v, shown ++ output)

/-- All that is shown from here on, after what was shown before. Nothing bounds the rounds: a script
that pauses for ever comes to no end. -/
def runOut (json : Bool) (v : Viewer) (shown : Array Output) : Array Output × Exit :=
  repeatM (m := Id) (Viewer.round json) (v, shown)

/-- A run, round by round. -/
theorem runOut_eq (json : Bool) (v : Viewer) (shown : Array Output) :
    runOut json v shown =
      match v.next json with
      | (output, .inl exit) => (shown ++ output, exit)
      | (output, .inr v) => runOut json v (shown ++ output) := by
  have hround : runOut json v shown = repeatM.body (m := Id) (Viewer.round json)
      (repeatM (m := Id) (Viewer.round json)) (v, shown) := repeatM_eq_of_monadTail (v, shown)
  rw [hround, repeatM.body, Viewer.round]
  rcases v.next json with ⟨output, exit | v⟩
  · rfl
  · rfl

/-- Lists the code of a script. -/
def Request.disassemble (r : Request) (source : String) : Output × Exit :=
  match parse source with
  | .ok program => (.out (compileProgram program).listing, .success)
  | .error e => (.errLine (r.describe source e), .badSyntax)

/-- The lines of what is typed. -/
def inputLines (input : String) : List String :=
  let pieces := input.splitOn "\n"
  if pieces.getLast? = some "" then pieces.dropLast else pieces

/-- All that a command writes about a script, and how it ends. -/
def Request.perform (r : Request) (source input : String) : Array Output × Exit :=
  let said := #[r.announcement]
  match r.activity with
  | .disassemble =>
    let (output, exit) := r.disassemble source
    (said.push output, exit)
  | .run =>
    match r.open_ source with
    | .error (output, exit) => (said.push output, exit)
    | .ok viewer => runOut r.options.json viewer said
  | .debug =>
    match r.open_ source with
    | .error (output, exit) => (said.push output, exit)
    | .ok viewer =>
      let (output, prompt) := Prompt.report ⟨r, source, viewer⟩
      prompt.dialogue (inputLines input) (said ++ output)

end Tracepoint
