/-
Running code.

A step decodes the next instruction of the running frame, moves the frame behind it and carries
it out.  A fault leaves the machine as the instruction reached it: the operands it took are gone,
everything else is as before.  A machine that halted stays as it is.

* `Exec.call` — calls of functions;
* `execute` — one instruction;
* `Status`, `Machine.step` — one step, with the lines it wrote to the console;
* `step_of_halted` — nothing happens to a machine that halted.
-/

import Tracepoint.Machine.Basic

set_option relaxedAutoImplicit false
set_option autoImplicit false

namespace Tracepoint

/-- The number of calls that may be open at a time. -/
def callLimit : Nat := 256

namespace Exec

/-! ### Calls -/

/-- Opens a frame for a function of the script. -/
def enter (f : Closure) (arguments : List Value) : Exec Unit := do
  let m ← get
  if callLimit < m.frames.length then throw .stackOverflow
  let scope ← Act.openCall f.scope f.proto.parameters arguments
  modify fun m =>
    let frame : Frame := { proto := f.proto, offset := 0, scope, base := m.stack.length }
    { m with frames := frame :: m.frames }

/-- Calls the operand below `count` arguments. -/
def call (count : Nat) : Exec (List String) := do
  let arguments ← popMany count
  let callee ← pop
  match callee with
  | .function f =>
    enter f arguments
    return []
  | .native f =>
    let (v, lines) ← Act.callNative f arguments
    push v
    return lines
  | v => throw (.notCallable v.describe)

/-- Returns to the caller with the operand pushed last. -/
def ret : Exec Unit := do
  let v ← pop
  let m ← get
  match m.frames with
  | [] => defect .returnWithoutFrame
  | frame :: callers =>
    set { m with
      frames := callers
      stack := v :: m.stack.drop (m.stack.length - frame.base)
      halted := m.halted || callers.isEmpty }

/-! ### Jumps -/

/-- Moves the running frame. A jump to before the start of the code leads to its end. -/
def jump (distance : Int32) : Exec Unit :=
  onFrame fun frame =>
    let target := (frame.offset : Int) + distance.toInt
    { frame with offset := if target < 0 then frame.proto.chunk.code.size else target.toNat }

/-- Jumps if the condition holds, and otherwise takes off the operand pushed last. -/
def jumpOrPop (condition : Bool) (distance : Int32) : Exec Unit := do
  if condition then jump distance
  else
    let _ ← pop
    return ()

/-- Carries out a jump. -/
def jumpWhen (kind : JumpKind) (distance : Int32) : Exec Unit := do
  match kind with
  | .always => jump distance
  | .ifFalse =>
    let v ← pop
    if !v.isTruthy then jump distance
  | .ifFalseOrPop =>
    let v ← top
    jumpOrPop (!v.isTruthy) distance
  | .ifTrueOrPop =>
    let v ← top
    jumpOrPop v.isTruthy distance

end Exec

open Exec

/-- Carries out an instruction of a function. Gives the lines it writes to the console. -/
def execute (proto : Proto) : Instr → Exec (List String)
  | .enter => return []
  | .halt => do
    modify fun m => { m with frames := [], stack := [], halted := true }
    return []
  | .constant position => do
    match proto.chunk.pool.get? position.toNat with
    | some c => push c.toValue
    | none => defect (.badConstant position.toNat)
    return []
  | .pop => do
    let _ ← pop
    return []
  | .declare name kind => do
    let name ← nameAt proto name
    let v ← pop
    let scope ← currentScope
    Act.declare scope name v kind
    return []
  | .get name => do
    let name ← nameAt proto name
    let scope ← currentScope
    let v ← Act.read scope name
    push v
    return []
  | .set name => do
    let name ← nameAt proto name
    let v ← top
    let scope ← currentScope
    Act.assign scope name v
    return []
  | .getProperty name => do
    let name ← nameAt proto name
    let object ← pop
    let v ← Act.getProperty object name
    push v
    return []
  | .setProperty name => do
    let name ← nameAt proto name
    let v ← pop
    let object ← pop
    Act.setProperty object name v
    push v
    return []
  | .getIndex => do
    let index ← pop
    let object ← pop
    let v ← Act.getIndex object index
    push v
    return []
  | .setIndex => do
    let v ← pop
    let index ← pop
    let object ← pop
    Act.setIndex object index v
    push v
    return []
  | .makeArray count => do
    let items ← popMany count.toNat
    let v ← Act.newArray items
    push v
    return []
  | .makeObject count => do
    let values ← popMany (2 * count.toNat)
    let v ← Act.newObject values
    push v
    return []
  | .closure function => do
    match proto.functions[function.toNat]? with
    | some inner =>
      let scope ← currentScope
      let v ← Act.newFunction inner scope
      push v
    | none => defect (.badFunction function.toNat)
    return []
  | .call count => call count.toNat
  | .ret => do
    ret
    return []
  | .operate op => do
    let right ← pop
    let left ← pop
    let v ← Act.operate op left right
    push v
    return []
  | .negate => do
    let v ← pop
    let w ← Act.negate v
    push w
    return []
  | .not => do
    let v ← pop
    push (.bool !v.isTruthy)
    return []
  | .jump kind distance => do
    jumpWhen kind distance
    return []
  | .pushScope => do
    let scope ← currentScope
    let inner ← Act.openScope scope
    onFrame fun frame => { frame with scope := inner }
    return []
  | .popScope => do
    let m ← get
    match m.scopes.parent? m.currentScope with
    | some outer => onFrame fun frame => { frame with scope := outer }
    | none => defect .globalScopePopped
    return []

/-! ### Steps -/

/-- How a step ended. -/
inductive Status
  /-- There is more to do. -/
  | more
  /-- The program has ended. -/
  | done
  | fault (e : RuntimeError)
  deriving Repr, DecidableEq

namespace Machine

/-- One step: the machine after it, the lines it wrote to the console, and how it ended. -/
def step (m : Machine) : Machine × List String × Status :=
  if m.halted then (m, [], .done)
  else
    match m.frames with
    | [] => ({ m with halted := true }, [], .done)
    | frame :: callers =>
      match frame.proto.chunk.decodeAt frame.offset with
      | .ok none => ({ m with halted := true }, [], .done)
      | .error e => (m, [], .fault ⟨.internal (.undecodable e), frame.line⟩)
      | .ok (some (i, next)) =>
        let ahead := { m with frames := { frame with offset := next } :: callers }
        match execute frame.proto i ahead with
        | .ok printed m' => (m', printed, if m'.halted then .done else .more)
        | .error e m' => (m', [], .fault ⟨e, frame.line⟩)

theorem step_of_halted {m : Machine} (h : m.halted = true) : m.step = (m, [], .done) := by
  simp [step, h]

end Machine

end Tracepoint
