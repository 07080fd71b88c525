/-
Reports of syntax errors for a terminal.

A report shows the line with the error in a frame, marks what is wrong, and writes the wording
of the error below the mark.  Colours are set by escape sequences.

* `Ink`, `paint` — coloured text;
* `Diagnostic` — what a report shows;
* `Diagnostic.render` — the report;
* `SyntaxError.report` — the report of an error in a source.
-/

import Tracepoint.Grammar.Error
import Tracepoint.Text.Blank
import Tracepoint.Text.Lines

set_option relaxedAutoImplicit false
set_option autoImplicit false

namespace Tracepoint

/-- The colours of a report. -/
inductive Ink
  | heading
  | frame
  | gutter
  | source
  | marked
  deriving Repr, DecidableEq

/-- The number of a colour on a terminal. -/
def Ink.code : Ink → String
  | heading => "31"
  | frame => "38;5;246"
  | gutter => "38;5;240"
  | source => "38;5;249"
  | marked => "91"

/-- Text in a colour. -/
def paint (ink : Ink) (text : String) : String :=
  "\x1b[" ++ ink.code ++ "m" ++ text ++ "\x1b[0m"

/-- What a report shows. -/
structure Diagnostic where
  code : String
  title : String
  detail : String
  /-- Names the source. -/
  path : String
  place : Text.Place
  /-- The number of characters to mark, none at the end of the source. -/
  length : Nat
  deriving Repr, DecidableEq

namespace Diagnostic

/-- Some blanks. -/
def blanks (n : Nat) : String :=
  String.ofList (List.replicate n ' ')

/-- The number of digits of the line number. -/
def width (d : Diagnostic) : Nat :=
  (toString d.place.line).length

/-- The left border of a line that shows no source. -/
def margin (d : Diagnostic) : String :=
  " " ++ paint .gutter (blanks d.width ++ " │") ++ " "

/-- The line of the source. -/
def sourceLine (d : Diagnostic) : String :=
  let cells := (Text.trimEnd d.place.content).mapIdx fun column c =>
    let inside := d.place.column ≤ column && column < d.place.column + d.length
    paint (if inside then .marked else .source) (String.singleton c)
  " " ++ paint .frame (toString d.place.line ++ " │") ++ " " ++ String.join cells ++ "\n"

/-- Where the line from the mark to the wording starts. -/
def middle (d : Diagnostic) : Nat :=
  d.length / 2

/-- The marks below the source. -/
def markLine (d : Diagnostic) : String :=
  let cells := (List.range d.length).map fun i =>
    paint .marked (if i = d.middle then "┬" else "─")
  d.margin ++ blanks d.place.column ++ String.join cells ++ "  \n"

/-- The wording below the marks. -/
def detailLine (d : Diagnostic) : String :=
  let line := List.replicate (d.length - d.middle + 1) (paint .marked "─")
  d.margin ++ blanks (d.place.column + d.middle) ++ paint .marked "╰" ++ String.join line ++ " " ++
    d.detail ++ "\n"

/-- The lines between the borders of the frame. -/
def body (d : Diagnostic) : String :=
  if d.length = 0 then d.margin ++ "\n" else d.sourceLine ++ d.markLine ++ d.detailLine

/-- The report. -/
def render (d : Diagnostic) : String :=
  let location := d.path ++ ":" ++ toString d.place.line ++ ":" ++ toString (d.place.column + 1)
  let bottom := String.ofList (List.replicate (d.width + 2) '─') ++ "╯"
  paint .heading ("[" ++ d.code ++ "] Error:") ++ " " ++ d.title ++ "\n" ++
    blanks (d.width + 2) ++ paint .frame "╭" ++ paint .frame "─" ++ paint .frame "[" ++ " " ++
    location ++ " " ++ paint .frame "]" ++ "\n" ++
    blanks (d.width + 2) ++ paint .frame "│" ++ "\n" ++
    d.body ++
    paint .frame bottom ++ "\n"

end Diagnostic

/-- The report of an error in a source. -/
def SyntaxError.report (e : SyntaxError) (path source : String) : String :=
  Diagnostic.render
    { code := e.fault.code
      title := SyntaxError.title
      detail := e.fault.detail
      path
      place := Text.place source e.span.start
      length := e.span.length }

end Tracepoint
