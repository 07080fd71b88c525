/-
Instructions of the stack machine, and their bytes.

An instruction is one byte that names it, then its operand: none, a word of four bytes with the
lowest byte first, or a word and the byte of a binding kind.  Jumps carry a signed distance that
is measured from their own end.

* `Operation`, `JumpKind`, `Instr` — the instructions;
* `Instr.encode`, `Instr.size` — their bytes and how many there are;
* `Instr.decodeAt` — the instruction at an offset of some bytes, with the offset behind it;
* `length_encode` — `size` counts the bytes of `encode`;
* `lt_of_decodeAt` — decoding moves forward.
-/

import Tracepoint.Binding

set_option relaxedAutoImplicit false
set_option autoImplicit false

namespace Tracepoint

/-- What is done with the two values on top of the stack. -/
inductive Operation
  | add | subtract | multiply | divide | modulo
  | equals | strictEquals
  | less | lessEqual | greater | greaterEqual
  deriving Repr, DecidableEq

/-- When a jump is taken. -/
inductive JumpKind
  | always
  /-- If the value on top, which is taken off, counts as false. -/
  | ifFalse
  /-- If the value on top counts as false; otherwise that value is taken off. -/
  | ifFalseOrPop
  /-- If the value on top counts as true; otherwise that value is taken off. -/
  | ifTrueOrPop
  deriving Repr, DecidableEq

/-- Instructions. Names and constants are positions in the constant pool. -/
inductive Instr
  /-- Marks the entry of a program. -/
  | enter
  | halt
  | constant (position : UInt32)
  | pop
  | declare (name : UInt32) (kind : BindingKind)
  | get (name : UInt32)
  | set (name : UInt32)
  | getProperty (name : UInt32)
  | setProperty (name : UInt32)
  | getIndex
  | setIndex
  | makeArray (count : UInt32)
  | makeObject (count : UInt32)
  | closure (function : UInt32)
  | call (count : UInt32)
  | ret
  | operate (op : Operation)
  | negate
  | not
  | jump (kind : JumpKind) (distance : Int32)
  | pushScope
  | popScope
  deriving Repr, DecidableEq

/-- Why bytes are no instruction. -/
inductive DecodeError
  | invalidOpcode (value : UInt8)
  | incompleteOperand (opcode : UInt8)
  deriving Repr, DecidableEq

/-- The wording of the error. -/
def DecodeError.message : DecodeError → String
  | invalidOpcode value => "Encountered invalid opcode " ++ toString value.toNat ++ "."
  | incompleteOperand opcode => "Incomplete operand for opcode " ++ toString opcode.toNat ++ "."

/-! ### Words -/

namespace Word

/-- The bytes of a word, the lowest first. -/
def toBytes (w : UInt32) : List UInt8 :=
  let n := w.toNat
  [UInt8.ofNat (n % 256), UInt8.ofNat (n / 256 % 256), UInt8.ofNat (n / 65536 % 256),
   UInt8.ofNat (n / 16777216 % 256)]

/-- The word of four bytes, the lowest first. -/
def ofBytes (a b c d : UInt8) : UInt32 :=
  UInt32.ofNat (a.toNat + 256 * b.toNat + 65536 * c.toNat + 16777216 * d.toNat)

/-- The word in `code` at `offset`. -/
def at? (code : Array UInt8) (offset : Nat) : Option UInt32 :=
  match code[offset]?, code[offset + 1]?, code[offset + 2]?, code[offset + 3]? with
  | some a, some b, some c, some d => some (ofBytes a b c d)
  | _, _, _, _ => none

end Word

/-! ### Bytes -/

/-- The byte that names an operation. -/
def Operation.opcode : Operation → UInt8
  | add => 0x11
  | subtract => 0x12
  | multiply => 0x13
  | divide => 0x14
  | modulo => 0x15
  | equals => 0x18
  | strictEquals => 0x19
  | less => 0x1A
  | lessEqual => 0x1B
  | greater => 0x1C
  | greaterEqual => 0x1D

/-- The byte that names a jump. -/
def JumpKind.opcode : JumpKind → UInt8
  | always => 0x1E
  | ifFalse => 0x1F
  | ifFalseOrPop => 0x20
  | ifTrueOrPop => 0x21

namespace Instr

/-- The byte that names an instruction. -/
def opcode : Instr → UInt8
  | enter => 0x01
  | halt => 0x02
  | constant _ => 0x03
  | pop => 0x04
  | declare _ _ => 0x05
  | get _ => 0x06
  | set _ => 0x07
  | getProperty _ => 0x08
  | setProperty _ => 0x09
  | getIndex => 0x0A
  | setIndex => 0x0B
  | makeArray _ => 0x0C
  | makeObject _ => 0x0D
  | closure _ => 0x0E
  | call _ => 0x0F
  | ret => 0x10
  | operate op => op.opcode
  | negate => 0x16
  | not => 0x17
  | jump kind _ => kind.opcode
  | pushScope => 0x22
  | popScope => 0x23

/-- The bytes of the operand. -/
def operand : Instr → List UInt8
  | constant w | get w | set w | getProperty w | setProperty w | makeArray w | makeObject w
  | closure w | call w => Word.toBytes w
  | jump _ distance => Word.toBytes distance.toUInt32
  | declare name kind => Word.toBytes name ++ [kind.toByte]
  | _ => []

/-- The bytes of an instruction. -/
def encode (i : Instr) : List UInt8 :=
  i.opcode :: i.operand

/-- The number of bytes of an instruction with a word. -/
def wideSize : Nat := 5

/-- The number of bytes of an instruction. -/
def size : Instr → Nat
  | constant _ | get _ | set _ | getProperty _ | setProperty _ | makeArray _ | makeObject _
  | closure _ | call _ | jump _ _ => wideSize
  | declare _ _ => wideSize + 1
  | _ => 1

theorem length_encode (i : Instr) : i.encode.length = i.size := by
  cases i <;> rfl

theorem size_pos (i : Instr) : 0 < i.size := by
  cases i <;> simp [size, wideSize]

/-! ### Decoding -/

/-- The instruction with a word that a byte names. -/
def wide? (opcode : UInt8) : Option (UInt32 → Instr) :=
  match opcode with
  | 0x03 => some constant
  | 0x06 => some get
  | 0x07 => some set
  | 0x08 => some getProperty
  | 0x09 => some setProperty
  | 0x0C => some makeArray
  | 0x0D => some makeObject
  | 0x0E => some closure
  | 0x0F => some call
  | 0x1E => some fun w => jump .always w.toInt32
  | 0x1F => some fun w => jump .ifFalse w.toInt32
  | 0x20 => some fun w => jump .ifFalseOrPop w.toInt32
  | 0x21 => some fun w => jump .ifTrueOrPop w.toInt32
  | _ => none

/-- The instruction without operand that a byte names. -/
def narrow? (opcode : UInt8) : Option Instr :=
  match opcode with
  | 0x01 => some enter
  | 0x02 => some halt
  | 0x04 => some pop
  | 0x0A => some getIndex
  | 0x0B => some setIndex
  | 0x10 => some ret
  | 0x11 => some (operate .add)
  | 0x12 => some (operate .subtract)
  | 0x13 => some (operate .multiply)
  | 0x14 => some (operate .divide)
  | 0x15 => some (operate .modulo)
  | 0x16 => some negate
  | 0x17 => some not
  | 0x18 => some (operate .equals)
  | 0x19 => some (operate .strictEquals)
  | 0x1A => some (operate .less)
  | 0x1B => some (operate .lessEqual)
  | 0x1C => some (operate .greater)
  | 0x1D => some (operate .greaterEqual)
  | 0x22 => some pushScope
  | 0x23 => some popScope
  | _ => none

/-- The instruction in `code` at `offset` and the offset behind it. At and behind the end of the
code there is none. -/
def decodeAt (code : Array UInt8) (offset : Nat) : Except DecodeError (Option (Instr × Nat)) :=
  match code[offset]? with
  | none => .ok none
  | some first =>
    match narrow? first, wide? first with
    | some i, _ => .ok (some (i, offset + 1))
    | none, some make =>
      match Word.at? code (offset + 1) with
      | some w => .ok (some (make w, offset + wideSize))
      | none => .error (.incompleteOperand first)
    | none, none =>
      if first = 0x05 then
        match Word.at? code (offset + 1), code[offset + wideSize]?.bind BindingKind.ofByte? with
        | some name, some kind => .ok (some (declare name kind, offset + wideSize + 1))
        | _, _ => .error (.incompleteOperand first)
      else .error (.invalidOpcode first)

theorem lt_of_decodeAt {code : Array UInt8} {offset next : Nat} {i : Instr}
    (h : decodeAt code offset = .ok (some (i, next))) : offset < next := by
  simp only [decodeAt] at h
  repeat' split at h
  all_goals simp only [Except.ok.injEq, Option.some.injEq, Prod.mk.injEq, reduceCtorEq] at h
  all_goals
    obtain ⟨_, rfl⟩ := h
    simp [wideSize]
    try omega

theorem lt_size_of_decodeAt {code : Array UInt8} {offset next : Nat} {i : Instr}
    (h : decodeAt code offset = .ok (some (i, next))) : offset < code.size := by
  simp only [decodeAt] at h
  split at h
  · simp at h
  next heq => exact (Array.getElem?_eq_some_iff.1 heq).1

end Instr

end Tracepoint
