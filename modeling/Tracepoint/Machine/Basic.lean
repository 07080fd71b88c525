/-
The stack machine.

A machine works on a store.  It holds one frame for the program and one for each call that has not
returned, and a stack of operands that the frames share.

* `Frame`, `Machine` — the state;
* `Machine.start` — a program about to run;
* `Machine.currentScope`, `Machine.currentLine`, `Machine.nextInstr?` — what comes next;
* `Machine.stackListing` — the operands as text;
* `Exec` — steps of a machine that may end in a fault; they keep the machine they reached.
-/

import Tracepoint.Machine.Effect

set_option relaxedAutoImplicit false
set_option autoImplicit false

namespace Tracepoint

/-- A function that has been called and has not returned. -/
structure Frame where
  proto : Proto
  /-- The offset of the next instruction. -/
  offset : Nat
  scope : ScopeId
  /-- The height of the operand stack when the function was called. -/
  base : Nat

/-- The line of the next instruction of a frame, unless it belongs to none. -/
def Frame.line (f : Frame) : Option Nat :=
  (f.proto.chunk.lineAt f.offset).filter (0 < ·)

/-- The state of a run. -/
structure Machine extends Store where
  /-- The frames, the one that runs first. -/
  frames : List Frame
  /-- The operands, the last one pushed first. -/
  stack : List Value
  halted : Bool

namespace Machine

/-- A program about to run. -/
def start (program : Proto) : Machine :=
  { Store.start with
    frames := [{ proto := program, offset := 0, scope := Arena.global, base := 0 }]
    stack := []
    halted := false }

/-- The scope of the running frame, or the global one when none runs. -/
def currentScope (m : Machine) : ScopeId :=
  match m.frames with
  | [] => Arena.global
  | frame :: _ => frame.scope

/-- The line of the next instruction. -/
def currentLine (m : Machine) : Option Nat :=
  if m.halted then none
  else
    match m.frames with
    | [] => none
    | frame :: _ => frame.line

/-- The instruction that the next step carries out. -/
def nextInstr? (m : Machine) : Option Instr :=
  if m.halted then none
  else
    match m.frames with
    | [] => none
    | frame :: _ =>
      match frame.proto.chunk.decodeAt frame.offset with
      | .ok (some (i, _)) => some i
      | _ => none

/-- The operands as text, the last one pushed first, each with its position from the bottom. -/
def stackListing (m : Machine) : String :=
  let count := m.stack.length
  String.join (m.stack.mapIdx fun depth v =>
    let position := toString (count - 1 - depth)
    "  " ++ (if position.length < 2 then "0" else "") ++ position ++ ": " ++ v.text m.heap ++ "\n")

end Machine

/-! ### Steps -/

/-- Steps of a machine. -/
abbrev Exec := EStateM Fault Machine

/-- An action on the store leaves the rest of the machine alone. -/
instance : MonadLift Act Exec where
  monadLift act := fun
    | ⟨store, frames, stack, halted⟩ =>
      match act store with
      | .ok a store => .ok a ⟨store, frames, stack, halted⟩
      | .error e store => .error e ⟨store, frames, stack, halted⟩

namespace Exec

/-- Ends in a defect. -/
def defect {α : Type} (d : Defect) : Exec α :=
  throw (.internal d)

/-- Pushes an operand. -/
def push (v : Value) : Exec Unit :=
  modify fun m => { m with stack := v :: m.stack }

/-- Takes the operand pushed last. -/
def pop : Exec Value := fun m =>
  match m.stack with
  | [] => .error (.internal .stackUnderflow) m
  | v :: rest => .ok v { m with stack := rest }

/-- The operand pushed last. -/
def top : Exec Value := fun m =>
  match m.stack with
  | [] => .error (.internal .stackUnderflow) m
  | v :: _ => .ok v m

/-- Takes the `count` operands pushed last, in the order in which they were pushed. -/
def popMany (count : Nat) : Exec (List Value) := fun m =>
  if m.stack.length < count then .error (.internal .stackUnderflow) m
  else .ok (m.stack.take count).reverse { m with stack := m.stack.drop count }

/-- The scope of the running frame. -/
def currentScope : Exec ScopeId := fun m =>
  .ok m.currentScope m

/-- Changes the running frame. -/
def onFrame (f : Frame → Frame) : Exec Unit := fun m =>
  match m.frames with
  | [] => .error (.internal .noFrame) m
  | frame :: callers => .ok () { m with frames := f frame :: callers }

/-- The text at a position of the pool, for use as a name. -/
def nameAt (proto : Proto) (position : UInt32) : Exec String :=
  match proto.chunk.pool.text? position.toNat with
  | some name => pure name
  | none => defect (.badName position.toNat)

end Exec

end Tracepoint
