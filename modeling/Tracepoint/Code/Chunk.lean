/-
Code with what belongs to it.

A chunk is a row of bytes.  The byte at which an instruction starts may carry a mark, the line of
the source that the instruction belongs to.  A function prototype is a chunk with the functions
that are made inside it.

* `Chunk`, `Chunk.lineAt` — bytes, marks and constants;
* `Chunk.instructions` — the instructions from the start of a chunk, as far as it can be decoded;
* `Chunk.lineTable` — the marked offsets with their lines, in ascending order;
* `Proto` — functions before they are given a scope.
-/

import Tracepoint.Code.Instr
import Tracepoint.Code.Pool

set_option relaxedAutoImplicit false
set_option autoImplicit false

namespace Tracepoint

/-- Bytes, marks and constants. -/
structure Chunk where
  name : String
  code : Array UInt8
  /-- For each byte the line of the instruction that starts there, if one does. -/
  marks : Array (Option Nat)
  pool : Pool

namespace Chunk

/-- The instruction at an offset and the offset behind it. -/
def decodeAt (c : Chunk) (offset : Nat) : Except DecodeError (Option (Instr × Nat)) :=
  Instr.decodeAt c.code offset

/-- The line of the instruction that starts at an offset. -/
def lineAt (c : Chunk) (offset : Nat) : Option Nat :=
  c.marks[offset]?.join

/-- The marked offsets with their lines. -/
def lineTable (c : Chunk) : List (Nat × Nat) :=
  (List.range c.marks.size).filterMap fun offset => (c.lineAt offset).map (offset, ·)

/-- The instructions from `offset` on, as far as they can be decoded. -/
def instructionsFrom (c : Chunk) (offset : Nat) : List (Nat × Instr) :=
  match h : c.decodeAt offset with
  | .ok (some (i, next)) =>
    have : c.code.size - next < c.code.size - offset := by
      have h₁ := Instr.lt_of_decodeAt h
      have h₂ := Instr.lt_size_of_decodeAt h
      omega
    (offset, i) :: instructionsFrom c next
  | _ => []
termination_by c.code.size - offset

/-- The instructions from the start of the chunk. -/
def instructions (c : Chunk) : List (Nat × Instr) :=
  c.instructionsFrom 0

end Chunk

/-- A function before it is given a scope, or a whole program. -/
structure Proto where
  name : Option String
  parameters : List String
  line : Nat
  chunk : Chunk
  /-- The functions that the code makes, by position. -/
  functions : List Proto

/-- How listings and messages name a function. -/
def displayName (name : Option String) : String :=
  name.getD "anonymous"

/-- How listings name the function. -/
def Proto.displayName (p : Proto) : String :=
  Tracepoint.displayName p.name

end Tracepoint
