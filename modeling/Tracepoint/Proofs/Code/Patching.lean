/-
Patched jumps lie in what was emitted.

The compiler that patches stops where it is to patch a jump whose five bytes have not been emitted.
It never comes to that: it patches jumps at offsets that it noted when it emitted them.  In a loop
such jumps wait until their target is reached, and are then patched all at once.

Main definitions:

* `Assembly.take` — an assembly with more code, and what was gathered meanwhile;
* `OpenCode.settle` — code in which some of the waiting jumps have got their targets;
* `OpenCode.offsets` — the offsets of the waiting jumps.

Main results:

* `Assemble.patch_take` — **a jump that has been emitted can be patched**, and then leads to the end
  of the code behind it;
* `Assemble.patchAll_offsets` — **so can all jumps that wait for the same place**.
-/

import Tracepoint.Proofs.Code.Assembly
import Tracepoint.Proofs.Code.Growth
import Tracepoint.Proofs.Code.Table

set_option relaxedAutoImplicit false
set_option autoImplicit false

namespace Tracepoint

/-! ### Bytes that are overwritten -/

namespace Builder

theorem toList_overwrite (before between after bytes : List UInt8) (code : Array UInt8)
    (hcode : code.toList = before ++ between ++ after) (hlength : between.length = bytes.length) :
    (overwrite code before.length bytes).toList = before ++ bytes ++ after := by
  induction bytes generalizing before between code with
  | nil =>
      obtain rfl := List.length_eq_zero_iff.1 hlength
      exact hcode
  | cons byte rest ih =>
      cases between with
      | nil => cases hlength
      | cons old between =>
          have hset : (code.setIfInBounds before.length byte).toList =
              before ++ [byte] ++ between ++ after := by
            rw [Array.toList_setIfInBounds, hcode, List.append_assoc,
              List.set_append_right _ _ (Nat.le_refl _), Nat.sub_self]
            simp only [List.cons_append, List.set_cons_zero, List.append_assoc, List.nil_append]
          have hrest := ih (before ++ [byte]) between _ hset (Nat.succ.inj hlength)
          rw [List.length_append] at hrest
          rw [overwrite]
          refine hrest.trans ?_
          simp only [List.append_assoc, List.cons_append, List.nil_append]

theorem emitAll_append (b : Builder) (first second : Code) :
    b.emitAll (first ++ second) = (b.emitAll first).emitAll second :=
  List.foldl_append

theorem size_emitAll (b : Builder) (code : Code) :
    (b.emitAll code).size = b.size + code.size := by
  have hcode := congrArg List.length (b.emitAll_code code)
  rw [List.length_append, Code.length_bytes] at hcode
  exact hcode

/-- Two builders are equal if what they have is. -/
theorem eq_of_toList {b c : Builder} (hcode : b.code.toList = c.code.toList)
    (hmarks : b.marks.toList = c.marks.toList) (hpool : b.pool = c.pool)
    (hfunctions : b.functions = c.functions) : b = c := by
  cases b
  cases c
  obtain rfl := Array.toList_inj.1 hcode
  obtain rfl := Array.toList_inj.1 hmarks
  obtain rfl : _ = _ := hpool
  obtain rfl : _ = _ := hfunctions
  rfl

@[simp]
theorem pool_patchJump (b : Builder) (start : ℕ) : (b.patchJump start).pool = b.pool := by
  rw [patchJump]

@[simp]
theorem functions_patchJump (b : Builder) (start : ℕ) :
    (b.patchJump start).functions = b.functions := by
  rw [patchJump]

@[simp]
theorem marks_patchJump (b : Builder) (start : ℕ) : (b.patchJump start).marks = b.marks := by
  rw [patchJump]

theorem code_patchJump (b : Builder) (start : ℕ) :
    (b.patchJump start).code = overwrite b.code (start + 1)
      (Word.toBytes (distance (start + Instr.wideSize) b.size).toUInt32) := by
  rw [patchJump]

/-- The bytes of a jump among others. -/
theorem bytes_jump (before after : Code) (kind : JumpKind) (d : Int32) (line : ℕ) :
    Code.bytes (before ++ (.jump kind d, line) :: after) =
      (before.bytes ++ [kind.opcode]) ++ Word.toBytes d.toUInt32 ++ after.bytes := by
  rw [Code.bytes_append, Code.bytes, Instr.encode, List.append_assoc, List.append_assoc]
  rfl

/-- **A jump that has been emitted can be patched**, and then leads to the end of the code behind
it. -/
theorem patchJump_emitAll (b : Builder) (before after : Code) (kind : JumpKind) (d : Int32)
    (line : ℕ) :
    (b.emitAll (before ++ (.jump kind d, line) :: after)).patchJump (b.size + before.size) =
      b.emitAll (before ++ (.jump kind (Int32.ofInt after.size), line) :: after) := by
  have hkeeps := b.emitAll_keeps (before ++ (.jump kind d, line) :: after)
  have hkeeps' := b.emitAll_keeps (before ++ (.jump kind (Int32.ofInt after.size), line) :: after)
  refine eq_of_toList ?_ ?_ ?_ ?_
  · have hdistance : distance (b.size + before.size + Instr.wideSize)
        (b.emitAll (before ++ (.jump kind d, line) :: after)).size = Int32.ofInt after.size := by
      rw [distance, size_emitAll, Code.size_append, Code.size]
      have hjump : (Instr.jump kind d).size = Instr.wideSize := rfl
      congr 1
      omega
    have hcode := b.emitAll_code (before ++ (.jump kind d, line) :: after)
    rw [bytes_jump, ← List.append_assoc, ← List.append_assoc] at hcode
    have hpatched := toList_overwrite _ _ _
      (Word.toBytes (Int32.ofInt after.size).toUInt32) _ hcode rfl
    rw [List.length_append, List.length_append, List.length_singleton, Code.length_bytes]
      at hpatched
    rw [code_patchJump, hdistance, emitAll_code, bytes_jump]
    rw [Array.length_toList] at hpatched
    refine hpatched.trans ?_
    simp only [List.append_assoc]
  · rw [marks_patchJump, emitAll_marks, emitAll_marks, Code.marks_append, Code.marks_append]
    rfl
  · rw [pool_patchJump, hkeeps.1, hkeeps'.1]
  · rw [functions_patchJump, hkeeps.2, hkeeps'.2]

theorem patchJump_with (b : Builder) (pool : Pool) (functions : Array Proto) (start : ℕ) :
    ({ b with pool, functions } : Builder).patchJump start =
      { b.patchJump start with pool, functions } := by
  simp only [patchJump, size]

theorem emitAll_with (b : Builder) (pool : Pool) (functions : Array Proto) (code : Code) :
    ({ b with pool, functions } : Builder).emitAll code =
      { b.emitAll code with pool, functions } := by
  have hkeeps := ({ b with pool, functions } : Builder).emitAll_keeps code
  refine eq_of_toList ?_ ?_ hkeeps.1 hkeeps.2
  · rw [emitAll_code]
    exact (b.emitAll_code code).symm
  · rw [emitAll_marks]
    exact (b.emitAll_marks code).symm

end Builder

/-! ### What was emitted and gathered -/

namespace Assembly

/-- What has been gathered, and the line. -/
def draft (s : Assembly) : Draft :=
  ⟨s.builder.pool, s.builder.functions, s.line⟩

/-- With more code, and what was gathered meanwhile. -/
def take (s : Assembly) (code : Code) (d : Draft) : Assembly :=
  { s with
    builder := { s.builder.emitAll code with pool := d.pool, functions := d.functions }
    line := d.line }

variable (s : Assembly) (code code' : Code) (d d' : Draft)

@[simp]
theorem draft_take : (s.take code d).draft = d :=
  rfl

@[simp]
theorem line_take : (s.take code d).line = d.line :=
  rfl

@[simp]
theorem scopes_take : (s.take code d).scopes = s.scopes :=
  rfl

@[simp]
theorem loops_take : (s.take code d).loops = s.loops :=
  rfl

@[simp]
theorem size_take : (s.take code d).builder.size = s.builder.size + code.size :=
  s.builder.size_emitAll code

@[simp]
theorem take_take : (s.take code d).take code' d' = s.take (code ++ code') d' := by
  simp only [take, Builder.emitAll_with, Builder.emitAll_append]

end Assembly

namespace Assemble

open Assembly

variable {α β : Type} (s : Assembly)

theorem bind_apply (x : Assemble α) (f : α → Assemble β) :
    (x >>= f) s = (x s).bind fun r => f r.1 r.2 :=
  rfl

theorem pure_apply (a : α) : (pure a : Assemble α) s = some (a, s) :=
  rfl

theorem emit_apply (i : Instr) :
    emit i s = some (s.builder.size, s.take [(i, s.line)] s.draft) := by
  obtain ⟨hpool, hfunctions⟩ := s.builder.emitAll_keeps [(i, s.line)]
  simp only [take, draft, ← hpool, ← hfunctions]
  rfl

theorem emitAll_apply (is : List Instr) :
    emitAll is s = some ((), s.take (is.map (·, s.line)) s.draft) := by
  induction is generalizing s with
  | nil => rfl
  | cons i rest ih =>
      rw [emitAll, bind_apply, emit_apply, Option.bind_some, ih, take_take]
      rfl

theorem atLine_apply (line : ℕ) : atLine line s = some ((), s.take [] (s.draft.onLine line)) :=
  rfl

theorem constantPosition_apply (c : Constant) :
    constantPosition c s = some ((Tracepoint.constantPosition c s.draft).1,
      s.take [] (Tracepoint.constantPosition c s.draft).2) :=
  rfl

theorem namePosition_apply (name : String) :
    namePosition name s = some ((Tracepoint.namePosition name s.draft).1,
      s.take [] (Tracepoint.namePosition name s.draft).2) :=
  rfl

theorem functionPosition_apply (p : Proto) :
    functionPosition (some p) s = some ((Tracepoint.functionPosition p s.draft).1,
      s.take [] (Tracepoint.functionPosition p s.draft).2) :=
  rfl

/-- **A jump that has been emitted can be patched.** -/
theorem patch_take (before after : Code) (kind : JumpKind) (distance : Int32) (line : ℕ)
    (d : Draft) :
    patch (s.builder.size + before.size)
        (s.take (before ++ (.jump kind distance, line) :: after) d) =
      some ((), s.take (before ++ (.jump kind (Int32.ofInt after.size), line) :: after) d) := by
  have hlies : s.builder.size + before.size + Instr.wideSize ≤
      (s.take (before ++ (.jump kind distance, line) :: after) d).builder.size := by
    have hjump : (Instr.jump kind distance).size = Instr.wideSize := rfl
    rw [size_take, Code.size_append, Code.size]
    omega
  rw [patch, if_pos hlies]
  simp only [take, ← s.builder.patchJump_emitAll before after kind distance line,
    Builder.patchJump_with]

end Assemble

/-! ### Waiting jumps -/

/-- A jump that waits leads to its target, if it has one by now. -/
def Instr.pending (target : Option ℕ) (stop : ℕ) : Instr :=
  match target with
  | some target => .goto ((target : Int) - stop)
  | none => .jump .always 0

theorem Instr.size_pending (target : Option ℕ) (stop : ℕ) :
    (Instr.pending target stop).size = Instr.wideSize := by
  cases target <;> rfl

/-- The instruction that ends at an offset, where some waiting jumps have targets. -/
def Op.settle (targets : Op → Option ℕ) (stop : ℕ) : Op → Instr
  | instr i => i
  | breakLoop => .pending (targets breakLoop) stop
  | continueLoop => .pending (targets continueLoop) stop

theorem Op.size_settle (targets : Op → Option ℕ) (stop : ℕ) (op : Op) :
    (op.settle targets stop).size = op.size := by
  cases op with
  | instr i => rfl
  | breakLoop => exact Instr.size_pending _ _
  | continueLoop => exact Instr.size_pending _ _

theorem Op.settle_waiting {op : Op} (targets : Op → Option ℕ) (stop : ℕ) (h : op.instr? = none) :
    op.settle targets stop = .pending (targets op) stop := by
  cases op with
  | instr i => cases h
  | breakLoop => rfl
  | continueLoop => rfl

theorem Op.size_waiting {op : Op} (h : op.instr? = none) : op.size = Instr.wideSize := by
  cases op with
  | instr i => cases h
  | breakLoop => rfl
  | continueLoop => rfl

namespace OpenCode

/-- Code that starts at an offset, where some waiting jumps have targets. -/
def settle (targets : Op → Option ℕ) : ℕ → OpenCode → Code
  | _, [] => []
  | position, (op, line) :: rest =>
    (op.settle targets (position + op.size), line) :: settle targets (position + op.size) rest

/-- The offsets of the jumps that wait for the same. -/
def offsets (waiting : Op) : ℕ → OpenCode → List ℕ
  | _, [] => []
  | position, (op, _) :: rest =>
    let others := offsets waiting (position + op.size) rest
    if op = waiting then position :: others else others

variable (targets : Op → Option ℕ) (waiting : Op) (position : ℕ) (first second : OpenCode)

theorem settle_append :
    settle targets position (first ++ second) =
      settle targets position first ++ settle targets (position + first.size) second := by
  induction first generalizing position with
  | nil => rfl
  | cons entry rest ih =>
      obtain ⟨op, line⟩ := entry
      rw [List.cons_append, settle, settle, ih, size, Nat.add_assoc]
      rfl

theorem size_settle (code : OpenCode) : (settle targets position code).size = code.size := by
  induction code generalizing position with
  | nil => rfl
  | cons entry rest ih =>
      obtain ⟨op, line⟩ := entry
      rw [settle, Code.size, ih, size, Op.size_settle]

theorem offsets_append :
    offsets waiting position (first ++ second) =
      offsets waiting position first ++ offsets waiting (position + first.size) second := by
  induction first generalizing position with
  | nil => rfl
  | cons entry rest ih =>
      obtain ⟨op, line⟩ := entry
      rw [List.cons_append, offsets, offsets, ih, size, Nat.add_assoc]
      split <;> rfl

theorem settle_ofCode (code : Code) : settle targets position (ofCode code) = code := by
  induction code generalizing position with
  | nil => rfl
  | cons entry rest ih =>
      rw [ofCode, List.map_cons, settle]
      exact congrArg (entry :: ·) (ih _)

/-- The code of an instruction behind some code. -/
theorem ofCode_concat (code : Code) (i : Instr) (line : ℕ) (rest : OpenCode) :
    ofCode (code ++ [(i, line)]) ++ rest = ofCode code ++ (.instr i, line) :: rest := by
  rw [ofCode, List.map_append, List.append_assoc]
  rfl

theorem offsets_ofCode (code : Code) (hwaiting : waiting.instr? = none) :
    offsets waiting position (ofCode code) = [] := by
  induction code generalizing position with
  | nil => rfl
  | cons entry rest ih =>
      have hne : Op.instr entry.1 ≠ waiting := by
        rintro rfl
        cases hwaiting
      rw [ofCode, List.map_cons, offsets, if_neg hne]
      exact ih _

/-- Code in which every waiting jump has got its target is closed code. -/
theorem settle_eq_close {breakTo continueTo : Int} {base : ℕ} {code : OpenCode}
    (hbreak : ∃ t, targets .breakLoop = some t ∧ (t : Int) = base + breakTo)
    (hcontinue : ∃ t, targets .continueLoop = some t ∧ (t : Int) = base + continueTo) :
    settle targets (base + position) code = close breakTo continueTo position code := by
  obtain ⟨b, hb, hbreak⟩ := hbreak
  obtain ⟨c, hc, hcontinue⟩ := hcontinue
  induction code generalizing position with
  | nil => rfl
  | cons entry rest ih =>
      obtain ⟨op, line⟩ := entry
      have hrest := ih (position + op.size)
      rw [← Nat.add_assoc] at hrest
      simp only [settle, close, hrest]
      congr 2
      cases op with
      | instr i => rfl
      | breakLoop =>
          simp only [Op.settle, hb, Instr.pending, hbreak]
          congr 1
          omega
      | continueLoop =>
          simp only [Op.settle, hc, Instr.pending, hcontinue]
          congr 1
          omega

end OpenCode

namespace Assemble

open Assembly OpenCode

/-- **The jumps that wait for a place are patched when it is reached.** -/
theorem patchAll_offsets (s : Assembly) (d : Draft) (targets : Op → Option ℕ) {waiting : Op}
    (hwaiting : waiting.instr? = none) (before after : Code) (code : OpenCode) {position : ℕ}
    (hposition : position = s.builder.size + before.size) :
    patchAll (offsets waiting position code)
        (s.take (before ++ settle targets position code ++ after) d) =
      some ((), s.take (before ++ settle (fun op => if op = waiting then
        some (position + code.size + after.size) else targets op) position code ++ after) d) := by
  induction code generalizing before position with
  | nil => rfl
  | cons entry rest ih =>
      obtain ⟨op, line⟩ := entry
      have hstep : ∀ i : Instr, i.size = op.size →
          position + op.size = s.builder.size + (before ++ [(i, line)]).size := by
        intro i hi
        rw [Code.size_append, Code.size, Code.size, hi, hposition]
        omega
      have htotal : position + op.size + size rest + after.size =
          position + size ((op, line) :: rest) + after.size := by
        rw [size]
        omega
      have hsplit : ∀ (i : Instr) (middle : Code), before ++ (i, line) :: middle ++ after =
          before ++ [(i, line)] ++ middle ++ after := by
        intro i middle
        rw [List.append_assoc before [_], List.singleton_append]
      by_cases hop : op = waiting
      · subst hop
        have hend : (settle targets (position + op.size) rest ++ after).size =
            size rest + after.size := by
          rw [Code.size_append, size_settle]
        obtain ⟨distance, hdistance⟩ : ∃ distance,
            op.settle targets (position + op.size) = .jump .always distance := by
          rw [Op.settle_waiting _ _ hwaiting]
          cases targets op <;> exact ⟨_, rfl⟩
        have hrest := ih
          (before ++ [(.jump .always (Int32.ofInt (size rest + after.size : ℕ)), line)])
          (hstep (.jump .always _) (Op.size_waiting hwaiting).symm)
        have hpatch := patch_take s before (settle targets (position + op.size) rest ++ after)
          .always distance line d
        rw [← hposition, hend, ← List.cons_append, ← List.cons_append, ← List.append_assoc,
          ← List.append_assoc] at hpatch
        rw [offsets, if_pos rfl, patchAll, settle, bind_apply, hdistance, hpatch, Option.bind_some,
          hsplit, hrest, settle, hsplit, Op.settle_waiting _ _ hwaiting, htotal]
        have hgoto : Instr.pending (some (position + size ((op, line) :: rest) + after.size))
            (position + op.size) = .jump .always (Int32.ofInt (size rest + after.size : ℕ)) := by
          simp only [Instr.pending, Instr.goto, size]
          congr 2
          omega
        rw [if_pos rfl, hgoto]
      · have hrest := ih (before ++ [(op.settle targets (position + op.size), line)])
          (hstep _ (op.size_settle targets _))
        have hsame : ∀ t : ℕ, op.settle (fun o => if o = waiting then some t else targets o)
            (position + op.size) = op.settle targets (position + op.size) := by
          intro t
          cases op with
          | instr i => rfl
          | breakLoop => simp only [Op.settle, if_neg hop]
          | continueLoop => simp only [Op.settle, if_neg hop]
        rw [offsets, if_neg hop, settle, hsplit, hrest, settle, hsame, hsplit, htotal]

end Assemble

end Tracepoint
