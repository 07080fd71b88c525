/-
Code as text.

A listing shows one instruction per line: its offset, the line of the source it belongs to if
that differs from the line before, and its mnemonic with its operand.  The functions that the
code makes follow behind it.

* `Instr.mnemonic`, `Instr.render` — one instruction;
* `Proto.listing` — a function with the functions inside it.
-/

import Tracepoint.Code.Chunk

set_option relaxedAutoImplicit false
set_option autoImplicit false

namespace Tracepoint

/-- `text` behind enough copies of `fill` to be `width` characters long. -/
def padStart (width : Nat) (fill : Char) (text : String) : String :=
  String.ofList (List.replicate (width - text.length) fill) ++ text

/-- The mnemonic of an operation. -/
def Operation.mnemonic : Operation → String
  | add => "add"
  | subtract => "sub"
  | multiply => "mul"
  | divide => "div"
  | modulo => "mod"
  | equals => "eq"
  | strictEquals => "seq"
  | less => "lt"
  | lessEqual => "le"
  | greater => "gt"
  | greaterEqual => "ge"

/-- The mnemonic of a jump. -/
def JumpKind.mnemonic : JumpKind → String
  | always => "jpa"
  | ifFalse => "jif"
  | ifFalseOrPop => "jfp"
  | ifTrueOrPop => "jtp"

namespace Instr

/-- The mnemonic of an instruction. -/
def mnemonic : Instr → String
  | enter => "enter"
  | halt => "halt"
  | constant _ => "ldc"
  | pop => "pop"
  | declare _ _ => "dcl"
  | get _ => "get"
  | set _ => "set"
  | getProperty _ => "gpr"
  | setProperty _ => "spr"
  | getIndex => "gix"
  | setIndex => "six"
  | makeArray _ => "arr"
  | makeObject _ => "obj"
  | closure _ => "fun"
  | call _ => "call"
  | ret => "ret"
  | operate op => op.mnemonic
  | negate => "neg"
  | not => "not"
  | jump kind _ => kind.mnemonic
  | pushScope => "psc"
  | popScope => "ppc"

/-- A distance with its sign. -/
def renderDistance (distance : Int32) : String :=
  let d := distance.toInt
  (if 0 ≤ d then "+" else "") ++ toString d

/-- A position in the pool with the constant there. -/
def renderConstant (pool : Pool) (position : UInt32) : String :=
  "$" ++ toString position.toNat ++ " = " ++ pool.render position.toNat

/-- The operand as text, if the instruction has one. -/
def renderOperand (p : Proto) : Instr → Option String
  | constant w | get w | set w | getProperty w | setProperty w => some (renderConstant p.chunk.pool w)
  | declare w kind => some (renderConstant p.chunk.pool w ++ " (" ++ kind.name ++ ")")
  | makeArray w | makeObject w | call w => some ("#" ++ toString w.toNat)
  | closure w =>
    let name := (p.functions[w.toNat]?.map Proto.displayName).getD "INVALID_FUNCTION_HANDLE"
    some ("@" ++ toString w.toNat ++ " = <" ++ name ++ ">")
  | jump _ distance => some (renderDistance distance)
  | _ => none

/-- The instruction as text. -/
def render (p : Proto) (i : Instr) : String :=
  match i.renderOperand p with
  | some operand => i.mnemonic ++ "     " ++ operand
  | none => i.mnemonic

end Instr

/-- The width of the column that ends in the letter before a line number: four, or the number of
digits of the largest line. -/
def Chunk.lineWidth (c : Chunk) : Nat :=
  let lines := c.marks.toList.filterMap id
  max 4 (toString (lines.foldl max (if lines.isEmpty then 1 else 0))).length

namespace Proto

/-- The instructions as lines of text, when the one before belongs to the line `previous`. -/
def instructionLines (p : Proto) (width : Nat) : Option Nat → List (Nat × Instr) → String
  | _, [] => ""
  | previous, (offset, i) :: rest =>
    let line := (p.chunk.lineAt offset).getD 0
    let place :=
      if previous = some line then padStart width ' ' " " ++ "| "
      else padStart width ' ' "L" ++ toString line ++ " "
    "  " ++ padStart 4 '0' (String.ofList (Text.hex offset)) ++ ":" ++ place ++ i.render p ++ "\n"
      ++ p.instructionLines width (some line) rest

/-- The code of one function as text, with an empty line behind it. -/
def ownListing (p : Proto) : String :=
  "Chunk <" ++ p.chunk.name ++ ">:\n"
    ++ p.instructionLines p.chunk.lineWidth none p.chunk.instructions ++ "\n"

mutual

/-- The code of a function and of the functions inside it as text. -/
def listing : Proto → String
  | p@⟨_, _, _, _, functions⟩ => p.ownListing ++ listings functions

/-- The code of several functions as text. -/
def listings : List Proto → String
  | [] => ""
  | p :: rest => p.listing ++ listings rest

end

end Proto

end Tracepoint
