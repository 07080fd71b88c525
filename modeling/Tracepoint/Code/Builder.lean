/-
Building code.

A builder grows at its end.  Emitting an instruction marks its first byte with a line; bytes and
words can also be added raw, without a mark.  A jump forward is emitted before its target is
known and patched later, when the target is the end of what is built.

* `Builder`, `Builder.empty`, `Builder.proto` — from nothing to a prototype;
* `emitByte`, `emitWord`, `emit`, `emitAll` — growing;
* `emitLoop` — a jump back to a known offset;
* `patchJump` — gives a jump the end of what is built as its target;
* `pushFunction`, `pushConstant` — functions and constants that the code refers to.
-/

import Tracepoint.Code.Chunk

set_option relaxedAutoImplicit false
set_option autoImplicit false

namespace Tracepoint

/-- Code that is being built. -/
structure Builder where
  code : Array UInt8
  marks : Array (Option Nat)
  pool : Pool
  functions : Array Proto

namespace Builder

/-- Nothing yet. -/
def empty : Builder :=
  ⟨#[], #[], .empty, #[]⟩

/-- The number of bytes. -/
def size (b : Builder) : Nat :=
  b.code.size

/-- Adds a byte without a mark. -/
def emitByte (b : Builder) (byte : UInt8) : Builder :=
  { b with code := b.code.push byte, marks := b.marks.push none }

/-- Adds bytes without marks. -/
def emitBytes (b : Builder) (bytes : List UInt8) : Builder :=
  bytes.foldl emitByte b

/-- Adds a word without a mark. -/
def emitWord (b : Builder) (w : UInt32) : Builder :=
  b.emitBytes (Word.toBytes w)

/-- Adds an instruction that belongs to `line`. -/
def emit (b : Builder) (i : Instr) (line : Nat) : Builder :=
  { b with code := b.code.push i.opcode, marks := b.marks.push (some line) }.emitBytes i.operand

/-- Adds instructions with their lines. -/
def emitAll (b : Builder) (code : List (Instr × Nat)) : Builder :=
  code.foldl (fun b (i, line) => b.emit i line) b

/-- The distance of a jump of which the end lies at `stop`. -/
def distance (stop target : Nat) : Int32 :=
  Int32.ofInt ((target : Int) - stop)

/-- Adds a jump back to `target`. -/
def emitLoop (b : Builder) (target line : Nat) : Builder :=
  b.emit (.jump .always (distance (b.size + Instr.wideSize) target)) line

/-- Overwrites bytes from `offset` on. -/
def overwrite (code : Array UInt8) : Nat → List UInt8 → Array UInt8
  | _, [] => code
  | offset, byte :: rest => overwrite (code.setIfInBounds offset byte) (offset + 1) rest

/-- Gives the jump at `start` the end of what is built as its target. -/
def patchJump (b : Builder) (start : Nat) : Builder :=
  let w := (distance (start + Instr.wideSize) b.size).toUInt32
  { b with code := overwrite b.code (start + 1) (Word.toBytes w) }

/-- Adds a function and gives its position. -/
def pushFunction (b : Builder) (p : Proto) : Nat × Builder :=
  (b.functions.size, { b with functions := b.functions.push p })

/-- Adds a constant and gives its position. -/
def pushConstant (b : Builder) (c : Constant) : Nat × Builder :=
  let (position, pool) := b.pool.push c
  (position, { b with pool })

/-- The chunk that was built. -/
def chunk (b : Builder) (name : String) : Chunk :=
  ⟨name, b.code, b.marks, b.pool⟩

/-- The function that was built. -/
def proto (b : Builder) (chunkName : String) (name : Option String) (parameters : List String)
    (line : Nat) : Proto :=
  ⟨name, parameters, line, b.chunk chunkName, b.functions.toList⟩

end Builder

end Tracepoint
