/-
Patching loops.

What has been emitted for a statement inside of a loop is the code of that statement, where the jumps
out of the loop lead nowhere yet, except to a next round that has begun already; and the loop has
the offsets of these jumps.  When the loop ends, they are patched in order, and each of them lies in
what was emitted.

Main definitions:

* `Assembly.run` — an assembly behind a statement;
* `Assembly.Inside` — the place of a statement in the innermost loop;
* `Assemble.loopCode` — the code of a loop.

Main results:

* `Assemble.patch_run` — **a jump can be patched behind a statement**;
* `Assemble.breakLoop_apply`, `Assemble.continueLoop_apply` — the jumps out of a loop are kept;
* `Assemble.patchContinues_apply`, `Assemble.leaveLoop_apply` — **the jumps out of a loop are
  patched**, and lead where they should;
* `Assemble.endLoop_apply` — the end of a loop makes its code complete.
-/

import Tracepoint.Proofs.Code.Patching

set_option relaxedAutoImplicit false
set_option autoImplicit false

namespace Tracepoint

/-! ### Behind a statement -/

/-- Of the jumps that wait, only those to a next round may have a target. -/
def Op.known (again : Option ℕ) : Op → Option ℕ
  | continueLoop => again
  | _ => none

namespace Loop

/-- The loop with the jumps of some code that lies in it. -/
def register (loop : Loop) (position : ℕ) (code : OpenCode) : Loop :=
  { loop with
    continues := loop.continues ++
      if loop.again.isNone then code.offsets .continueLoop position else []
    breaks := loop.breaks ++ code.offsets .breakLoop position }

variable (loop : Loop) (position : ℕ)

@[simp]
theorem register_ofCode (code : Code) : loop.register position (.ofCode code) = loop := by
  simp only [register, OpenCode.offsets_ofCode .breakLoop position code rfl,
    OpenCode.offsets_ofCode .continueLoop position code rfl, ite_self, List.append_nil]

theorem register_register (first second : OpenCode) :
    (loop.register position first).register (position + first.size) second =
      loop.register position (first ++ second) := by
  by_cases h : loop.again.isNone
  · simp only [register, OpenCode.offsets_append, h, if_true, List.append_assoc]
  · simp only [register, OpenCode.offsets_append, h, Bool.false_eq_true, if_false, List.append_nil,
      List.append_assoc]

end Loop

namespace Assembly

/-- Where the next round of the innermost loop starts, if that is known already. -/
def again (s : Assembly) : Option ℕ :=
  s.loops.head?.bind Loop.again

/-- Behind a statement that has some code, with what was gathered meanwhile. -/
def run (s : Assembly) (code : OpenCode) (d : Draft) : Assembly :=
  { s.take (code.settle (Op.known s.again) s.builder.size) d with
    loops := s.loops.modifyHead fun loop => loop.register s.builder.size code }

variable (s : Assembly) (code : Code) (first second : OpenCode) (d d' : Draft)

@[simp]
theorem draft_run : (s.run first d).draft = d :=
  rfl

@[simp]
theorem line_run : (s.run first d).line = d.line :=
  rfl

@[simp]
theorem size_run : (s.run first d).builder.size = s.builder.size + first.size := by
  rw [← OpenCode.size_settle (Op.known s.again) s.builder.size first]
  exact size_take _ _ d

@[simp]
theorem again_run : (s.run first d).again = s.again := by
  rw [again, again, run]
  cases s.loops <;> rfl

theorem run_ofCode : s.run (.ofCode code) d = s.take code d := by
  have hloops : s.loops.modifyHead (fun loop => loop.register s.builder.size (.ofCode code)) =
      s.loops := by
    cases hs : s.loops with
    | nil => rfl
    | cons loop rest => rw [List.modifyHead_cons, Loop.register_ofCode]
  rw [run, hloops, OpenCode.settle_ofCode]
  rfl

theorem run_run : (s.run first d).run second d' = s.run (first ++ second) d' := by
  have hloops : (s.run first d).loops.modifyHead
      (fun loop => loop.register (s.builder.size + first.size) second) =
        s.loops.modifyHead fun loop => loop.register s.builder.size (first ++ second) := by
    rw [run]
    cases s.loops with
    | nil => rfl
    | cons loop rest =>
        simp only [List.modifyHead_cons, Loop.register_register]
  rw [run, again_run, size_run, hloops, run, run, OpenCode.settle_append, ← take_take s _ _ d d']
  rfl

theorem run_take : (s.run first d).take code d' = s.run (first ++ .ofCode code) d' := by
  rw [← run_ofCode, run_run]

theorem take_run : (s.take code d).run second d' = s.run (.ofCode code ++ second) d' := by
  rw [← run_ofCode, run_run]

end Assembly

/-! ### The place of a statement -/

namespace Assembly

/-- With another number of scopes around this place. -/
def atDepth (s : Assembly) (scopes : ℕ) : Assembly :=
  { s with scopes }

/-- With other loops around this place. -/
def inLoops (s : Assembly) (loops : List Loop) : Assembly :=
  { s with loops }

/-- If `depth` is a number, as many scopes have been opened inside of the innermost loop. -/
def Inside (s : Assembly) (depth : Option ℕ) : Prop :=
  ∀ n ∈ depth, ∃ loop rest, s.loops = loop :: rest ∧ s.scopes = loop.scopes + n

variable (s : Assembly) (code : Code) (statements : OpenCode) (d : Draft) (n : ℕ)
  (loops : List Loop) (depth : Option ℕ)

@[simp]
theorem draft_atDepth : (s.atDepth n).draft = s.draft :=
  rfl

@[simp]
theorem line_atDepth : (s.atDepth n).line = s.line :=
  rfl

@[simp]
theorem take_atDepth : (s.atDepth n).take code d = (s.take code d).atDepth n :=
  rfl

@[simp]
theorem run_atDepth : (s.atDepth n).run statements d = (s.run statements d).atDepth n :=
  rfl

@[simp]
theorem draft_inLoops : (s.inLoops loops).draft = s.draft :=
  rfl

@[simp]
theorem line_inLoops : (s.inLoops loops).line = s.line :=
  rfl

@[simp]
theorem builder_inLoops : (s.inLoops loops).builder = s.builder :=
  rfl

@[simp]
theorem take_inLoops : (s.inLoops loops).take code d = (s.take code d).inLoops loops :=
  rfl

theorem inside_none : s.Inside none := by
  intro n hn
  cases hn

theorem inside_take : (s.take code d).Inside depth ↔ s.Inside depth :=
  Iff.rfl

/-- The body of a loop starts inside of it. -/
theorem inside_inLoops (loop : Loop) (hscopes : s.scopes = loop.scopes) :
    (s.inLoops (loop :: loops)).Inside (some 0) := by
  intro n hn
  cases hn
  exact ⟨loop, loops, rfl, hscopes⟩

theorem inside_take_atDepth :
    ((s.take code d).atDepth n).Inside depth ↔ (s.atDepth n).Inside depth :=
  Iff.rfl

/-- A block opens one scope more. -/
theorem inside_deeper :
    (s.atDepth (s.scopes + 1)).Inside (depth.map (· + 1)) ↔ s.Inside depth := by
  have hstep : ∀ (loop : Loop) (n : ℕ), (s.scopes + 1 = loop.scopes + (n + 1)) =
      (s.scopes = loop.scopes + n) := by
    intro loop n
    rw [← Nat.add_assoc, Nat.add_right_cancel_iff]
  cases depth with
  | none => exact iff_of_true (inside_none _) (inside_none _)
  | some n =>
      simp only [Inside, Option.map_some, Option.mem_some_iff, forall_eq', atDepth, hstep]

theorem Inside.run {s : Assembly} {depth : Option ℕ} (h : s.Inside depth) (statements : OpenCode)
    (d : Draft) : (s.run statements d).Inside depth := by
  intro n hn
  obtain ⟨loop, rest, hloops, hscopes⟩ := h n hn
  refine ⟨loop.register s.builder.size statements, rest, ?_, hscopes⟩
  exact congrArg (List.modifyHead _) hloops

end Assembly

namespace Assemble

open Assembly OpenCode

variable (s : Assembly)

theorem openScope_apply :
    openScope s = some ((), (s.take [(.pushScope, s.line)] s.draft).atDepth (s.scopes + 1)) := by
  rw [openScope, bind_apply, emit_apply]
  rfl

theorem closeScope_apply :
    closeScope s = some ((), (s.take [(.popScope, s.line)] s.draft).atDepth (s.scopes - 1)) := by
  rw [closeScope, bind_apply, emit_apply]
  rfl

theorem here_apply : here s = some (s.builder.size, s) :=
  rfl

theorem enterLoop_apply (again : Option ℕ) :
    enterLoop again s = some ((), s.inLoops (⟨s.scopes, again, [], []⟩ :: s.loops)) :=
  rfl

theorem emitLoop_apply (target : ℕ) :
    emitLoop target s = some ((),
      s.take [(.pending (some target) (s.builder.size + Instr.wideSize), s.line)] s.draft) := by
  obtain ⟨hpool, hfunctions⟩ := s.builder.emitAll_keeps
    [(.pending (some target) (s.builder.size + Instr.wideSize), s.line)]
  simp only [take, draft, ← hpool, ← hfunctions]
  rfl

/-! ### Patching among loops -/

theorem patch_inLoops {s t : Assembly} {start : ℕ} (h : patch start s = some ((), t))
    (loops : List Loop) : patch start (s.inLoops loops) = some ((), t.inLoops loops) := by
  rw [patch] at h ⊢
  split at h
  next hlies =>
    cases h
    exact if_pos hlies
  next => cases h

theorem patchAll_inLoops {s t : Assembly} {starts : List ℕ} (h : patchAll starts s = some ((), t))
    (loops : List Loop) : patchAll starts (s.inLoops loops) = some ((), t.inLoops loops) := by
  induction starts generalizing s with
  | nil =>
      cases h
      rfl
  | cons start rest ih =>
      rw [patchAll, bind_apply] at h ⊢
      obtain ⟨⟨_, u⟩, hpatch, hrest⟩ := Option.bind_eq_some_iff.1 h
      rw [patch_inLoops hpatch, Option.bind_some]
      exact ih hrest

/-- **A jump can be patched behind a statement.** -/
theorem patch_run (before after : OpenCode) (kind : JumpKind) (distance : Int32) (line : ℕ)
    (d : Draft) :
    patch (s.builder.size + before.size)
        (s.run (before ++ (.instr (.jump kind distance), line) :: after) d) =
      some ((), s.run (before ++
        (.instr (.jump kind (Int32.ofInt after.size)), line) :: after) d) := by
  have hpatch := patch_take s (before.settle (Op.known s.again) s.builder.size)
    (after.settle (Op.known s.again) (s.builder.size + before.size + Instr.wideSize)) kind distance
    line d
  rw [size_settle, size_settle] at hpatch
  have hsettle : ∀ distance : Int32, OpenCode.settle (Op.known s.again) s.builder.size
      (before ++ (.instr (.jump kind distance), line) :: after) =
        before.settle (Op.known s.again) s.builder.size ++ (.jump kind distance, line) ::
          after.settle (Op.known s.again) (s.builder.size + before.size + Instr.wideSize) :=
    fun distance => settle_append _ _ before _
  have hregister : ∀ (loop : Loop) (distance : Int32), loop.register s.builder.size
      (before ++ (.instr (.jump kind distance), line) :: after) = loop.register s.builder.size
        (before ++ (.instr (.jump kind (Int32.ofInt after.size)), line) :: after) := by
    intro loop distance
    rw [← Loop.register_register, ← Loop.register_register]
    rfl
  simp only [Assembly.run, hsettle, hregister _ distance]
  exact patch_inLoops hpatch _

/-! ### The jumps out of a loop -/

theorem leaveScopes_apply (depth : ℕ) :
    leaveScopes depth s = some ((),
      s.take (List.replicate (s.scopes - depth) (.popScope, s.line)) s.draft) := by
  rw [← List.map_replicate (f := (·, s.line)), ← emitAll_apply]
  rfl

/-- The code of a jump out of a loop. -/
def leaving (n : ℕ) (op : Op) (line : ℕ) : OpenCode :=
  .ofCode (List.replicate n (.popScope, line)) ++ [(op, line)]

theorem run_leaving {n : ℕ} {op : Op} (line : ℕ) (d : Draft) (hop : op.instr? = none)
    {loop : Loop} {rest : List Loop} (hloops : s.loops = loop :: rest) :
    s.run (leaving n op line) d =
      (s.take (List.replicate n (.popScope, line) ++ [(.pending (Op.known loop.again op)
        (s.builder.size + Code.size (List.replicate n (.popScope, line)) + Instr.wideSize), line)])
          d).inLoops (loop.register (s.builder.size +
            Code.size (List.replicate n (.popScope, line))) [(op, line)] :: rest) := by
  have hagain : s.again = loop.again := by
    rw [again, hloops]
    rfl
  rw [Assembly.run, hloops, List.modifyHead_cons, leaving, ← Loop.register_register,
    Loop.register_ofCode, size_ofCode, settle_append, settle_ofCode, size_ofCode, settle,
    Op.settle_waiting _ _ hop, Op.size_waiting hop, hagain]
  rfl

theorem innermost_apply {loop : Loop} {rest : List Loop} (hloops : s.loops = loop :: rest) :
    innermost s = some (some loop, s) :=
  congrArg (fun loops : List Loop => some (loops.head?, s)) hloops

theorem modifyInnermost_apply (f : Loop → Loop) {loop : Loop} {rest : List Loop}
    (hloops : s.loops = loop :: rest) :
    modifyInnermost f s = some ((), s.inLoops (f loop :: rest)) :=
  congrArg (fun loops : List Loop => some ((), s.inLoops (loops.modifyHead f))) hloops

/-- The jump behind a loop is kept. -/
theorem breakLoop_apply {n : ℕ} (h : s.Inside (some n)) :
    breakLoop s = some ((), s.run (leaving n .breakLoop s.line) s.draft) := by
  obtain ⟨loop, rest, hloops, hscopes⟩ := h n rfl
  have hn : s.scopes - loop.scopes = n := by
    rw [hscopes, Nat.add_sub_cancel_left]
  rw [breakLoop, bind_apply, innermost_apply s hloops, Option.bind_some]
  simp only [bind_apply, leaveScopes_apply, emit_apply, Option.bind_some, draft_take, line_take,
    size_take, take_take, hn]
  rw [modifyInnermost_apply (s.take _ _) _ hloops, run_leaving s _ _ rfl hloops]
  simp only [Loop.register, offsets, if_pos, if_neg, reduceCtorEq, not_false_eq_true, ite_self,
    List.append_nil]
  rfl

/-- The jump to the next round is kept, or made if that has begun already. -/
theorem continueLoop_apply {n : ℕ} (h : s.Inside (some n)) :
    continueLoop s = some ((), s.run (leaving n .continueLoop s.line) s.draft) := by
  obtain ⟨loop, rest, hloops, hscopes⟩ := h n rfl
  have hn : s.scopes - loop.scopes = n := by
    rw [hscopes, Nat.add_sub_cancel_left]
  rw [continueLoop, bind_apply, innermost_apply s hloops, Option.bind_some,
    run_leaving s _ _ rfl hloops]
  obtain ⟨scopes, again, continues, breaks⟩ := loop
  cases again with
  | some target =>
    simp only [bind_apply, leaveScopes_apply, emitLoop_apply, Option.bind_some, draft_take,
      line_take, size_take, take_take, hn]
    simp only [Loop.register, offsets, if_neg, reduceCtorEq, not_false_eq_true, List.append_nil,
      Option.isNone_some, Bool.false_eq_true, ← hloops]
    rfl
  | none =>
    simp only [bind_apply, leaveScopes_apply, emit_apply, Option.bind_some, draft_take, line_take,
      size_take, take_take, hn]
    rw [modifyInnermost_apply (s.take _ _) _ hloops]
    simp only [Loop.register, offsets, if_pos, if_neg, reduceCtorEq, not_false_eq_true,
      List.append_nil, Option.isNone_none]
    rfl

/-! ### The end of a round -/

section

variable (before after : Code) (round : OpenCode) (d d' : Draft)

/-- Behind the body of a loop, the loop has the jumps out of it. -/
theorem run_inLoops (loop : Loop) :
    ((s.take before d).inLoops (loop :: s.loops)).run round d' =
      (s.take (before ++ round.settle (Op.known loop.again) (s.builder.size + before.size))
        d').inLoops (loop.register (s.builder.size + before.size) round :: s.loops) := by
  rw [← size_take s before d, ← take_take]
  rfl

variable {position : ℕ} (targets : Op → Option ℕ) {loop : Loop}
  (hposition : position = s.builder.size + before.size)
include hposition

/-- **The jumps to the next round are patched where that begins.** -/
theorem patchContinues_apply (hloop : loop.continues = round.offsets .continueLoop position) :
    patchContinues ((s.take (before ++ round.settle targets position) d).inLoops
        (loop :: s.loops)) =
      some ((), (s.take (before ++ round.settle (fun op => if op = .continueLoop then
        some (position + round.size) else targets op) position) d).inLoops
          ({ loop with continues := [] } :: s.loops)) := by
  have hpatched := patchAll_offsets s d targets (show Op.instr? .continueLoop = none from rfl)
    before [] round hposition
  rw [List.append_nil, List.append_nil, ← hloop] at hpatched
  exact patchAll_inLoops hpatched _

/-- **The jumps behind a loop are patched at its end**, and then its code is complete. -/
theorem leaveLoop_apply (continueTo : Int)
    (hloop : loop.breaks = round.offsets .breakLoop position)
    (hcontinue : ∃ t, targets .continueLoop = some t ∧ (t : Int) = position + continueTo) :
    leaveLoop ((s.take (before ++ round.settle targets position ++ after) d).inLoops
        (loop :: s.loops)) =
      some ((), s.take (before ++ close (round.size + after.size : ℕ) continueTo 0 round ++ after)
        d) := by
  have hpatched := patchAll_offsets s d targets (show Op.instr? .breakLoop = none from rfl)
    before after round hposition
  have hclose : round.settle (fun op => if op = .breakLoop then
      some (position + round.size + after.size) else targets op) position =
        close (round.size + after.size : ℕ) continueTo 0 round := by
    refine settle_eq_close _ 0 ⟨_, if_pos rfl, ?_⟩ ?_
    · omega
    · rw [if_neg Op.noConfusion]
      exact hcontinue
  rw [← hloop, hclose] at hpatched
  exact hpatched

end

/-! ### Whole loops -/

section

/-- The jump that leaves a loop at its start, if the loop is tested there. -/
def exit (tested : Bool) (distance : Int32) (line : ℕ) : Code :=
  (if tested then [Instr.jump .ifFalse distance] else []).map (·, line)

theorem size_exit (tested : Bool) (distance : Int32) (line : ℕ) :
    (exit tested distance line).size = (exit tested 0 line).size := by
  cases tested <;> rfl

/-- The jump that leaves a loop is patched at its end. -/
theorem patchAll_exit (tested : Bool) (test after : Code) (line : ℕ) (d : Draft)
    (loops : List Loop) :
    patchAll (if tested then [s.builder.size + test.size] else [])
        ((s.take (test ++ exit tested 0 line ++ after) d).inLoops loops) =
      some ((), (s.take (test ++ exit tested (Int32.ofInt after.size) line ++ after) d).inLoops
        loops) := by
  cases tested with
  | false => rfl
  | true =>
      refine patchAll_inLoops ?_ loops
      have hsplit : ∀ distance : Int32, test ++ exit true distance line ++ after =
          test ++ (.jump .ifFalse distance, line) :: after :=
        fun distance => List.append_assoc test [_] after
      rw [if_pos rfl, patchAll, bind_apply, hsplit, hsplit, patch_take]
      rfl

/-- The code of a loop. A next round starts at `continueTo` from its body, and the last jump of the
loop belongs to `last`. -/
def loopCode (tested : Bool) (test : Code) (continueTo : Int) (round : OpenCode) (next : Code)
    (line last : ℕ) : Code :=
  let length := round.size + next.size + Instr.wideSize
  let leaving := exit tested (Int32.ofInt length) line
  let head := test.size + leaving.size
  test ++ leaving ++ close length continueTo 0 round ++ next ++ [(.goto (-(head + length)), last)]

variable (tested : Bool) (test next : Code) (round : OpenCode) (line : ℕ) (d : Draft)
  {position : ℕ} (targets : Op → Option ℕ) (loop : Loop)

/-- **The end of a loop makes its code complete.** -/
theorem endLoop_apply (continueTo : Int)
    (hposition : position = s.builder.size + (test.size + (exit tested 0 line).size))
    (hloop : loop.breaks = round.offsets .breakLoop position)
    (hcontinue : ∃ t, targets .continueLoop = some t ∧ (t : Int) = position + continueTo) :
    endLoop s.builder.size (if tested then [s.builder.size + test.size] else [])
        ((s.take (test ++ exit tested 0 line ++ round.settle targets position ++ next) d).inLoops
          (loop :: s.loops)) =
      some ((), s.take (loopCode tested test continueTo round next line d.line) d) := by
  obtain ⟨length, hlength⟩ : ∃ length, length = round.size + next.size + Instr.wideSize :=
    ⟨_, rfl⟩
  have hhead := size_exit tested (Int32.ofInt length) line
  obtain ⟨back, hback⟩ : ∃ back : Instr, back = .goto (-((test.size +
      (exit tested (Int32.ofInt length) line).size : ℕ) + length)) := ⟨_, rfl⟩
  have hpending : Instr.pending (some s.builder.size) (s.builder.size +
      (test.size + (exit tested 0 line).size + round.size + next.size) + Instr.wideSize) = back := by
    rw [hback, Instr.pending]
    congr 1
    omega
  have hsize : Code.size (round.settle targets position ++ next ++ [(back, d.line)]) = length := by
    rw [Code.size_append, Code.size_append, size_settle, hlength, hback]
    rfl
  have hend : position = s.builder.size +
      Code.size (test ++ exit tested (Int32.ofInt length) line) := by
    rw [Code.size_append, hhead, hposition]
  have hrest : round.size + Code.size (next ++ [(back, d.line)]) = length := by
    rw [Code.size_append, hlength, hback]
    exact (Nat.add_assoc _ _ _).symm
  -- First the jump back is emitted, then the jump at the start is patched, then those in the body.
  rw [endLoop, bind_apply, emitLoop_apply, Option.bind_some]
  simp only [take_inLoops, draft_inLoops, line_inLoops, builder_inLoops, take_take, draft_take,
    line_take, size_take, Code.size_append, size_settle, hpending]
  rw [List.append_assoc, List.append_assoc (test ++ exit tested 0 line), bind_apply,
    ← List.append_assoc (round.settle targets position), patchAll_exit, Option.bind_some, hsize]
  have hleaves := leaveLoop_apply s _ (next ++ [(back, d.line)]) round d targets hend continueTo
    hloop hcontinue
  rw [hrest] at hleaves
  simp only [loopCode, ← hlength, ← hback, List.append_assoc] at hleaves ⊢
  exact hleaves

end

end Assemble

end Tracepoint
