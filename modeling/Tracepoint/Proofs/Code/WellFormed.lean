/-
Well-formed code.

Whatever the machine meets in the code of a program, it can go on with: bytes decode as the
instructions that were emitted, jumps lead to instructions, and operands lead to constants, names
and functions.  The same holds in every function that the code makes, and in the functions inside
those.

Main definitions:

* `Proto.CodeWellFormed` — the code of one function or program;
* `Proto.WellFormed` — and of all functions inside it;
* `Proto.Emitted` — what is known of code from how it was emitted.

Main results:

* `Routine.emitted`, `Routine.exists_builtBy` — the code of functions and programs was emitted in
  this way, and built by steps;
* `Routine.obeyed_of_mem`, `Routine.mem_of_shaped` — the instructions are those of the plan;
* `compiled_wellFormed` — **compiled code is well formed**.
-/

import Mathlib
import Tracepoint.Proofs.Code.Buildup
import Tracepoint.Proofs.Code.Emission
import Tracepoint.Proofs.Code.Routine
import Tracepoint.Proofs.Code.Table

set_option relaxedAutoImplicit false
set_option autoImplicit false

namespace Tracepoint

/-! ### Well-formed code -/

/-- The code of a function, or of a program, is well formed. -/
structure Proto.CodeWellFormed (inFunction : Bool) (p : Proto) : Prop where
  /-- Decoding visits instruction after instruction, up to the end of the code. -/
  visits : p.chunk.Visits p.chunk.instructions 0
  /-- The line table has the offset of every instruction, and no others. -/
  marked : p.chunk.lineTable.map Prod.fst = p.chunk.instructions.map Prod.fst
  ascending : p.chunk.lineTable.Pairwise fun e e' => e.1 < e'.1
  built : ∃ steps, p.BuiltBy steps
  /-- By whatever steps the code was built, a table that got an entry with every instruction, in the
  order in which they were added, ascends, and it is the line table. -/
  tabled : ∀ steps, p.BuiltBy steps → (Tabled.built steps).lines.Ascending ∧
    (Tabled.built steps).lines.toList.map (fun entry => (entry.1.toNat, entry.2)) =
      p.chunk.lineTable
  /-- Only the end of a program belongs to no line. -/
  numbered : ∀ offset, (offset, 0) ∈ p.chunk.lineTable ↔ (offset, .halt) ∈ p.chunk.instructions
  /-- Jumps lead to instructions. -/
  jumps : ∀ offset kind distance, (offset, .jump kind distance) ∈ p.chunk.instructions →
    ∃ target i, (target, i) ∈ p.chunk.instructions ∧
      (target : Int) = offset + Instr.wideSize + distance.toInt
  /-- Operands lead to constants, names and functions. -/
  finds : ∀ x ∈ p.chunk.instructions, x.2.Finds p
  /-- Functions end by returning and programs end; programs do not return, and no code ends a
  program before it comes to its own end. -/
  ends : ∃ before offset,
    p.chunk.instructions = before ++ [(offset, if inFunction then .ret else .halt)] ∧
      ∀ x ∈ before, x.2 ≠ .halt ∧ (inFunction = false → x.2 ≠ .ret)

/-- The code of a function, or of a program, and the code of all functions inside it are well
formed. -/
inductive Proto.WellFormed : (inFunction : Bool) → Proto → Prop
  | mk {inFunction : Bool} {p : Proto} (code : p.CodeWellFormed inFunction)
      (functions : ∀ q ∈ p.functions, q.WellFormed true) : p.WellFormed inFunction

/-! ### Emitted code -/

/-- The code of a function or a program was emitted, and ends with `last`. -/
structure Proto.Emitted (L : ℕ → Prop) (last : Instr) (code : Code) (p : Proto) : Prop where
  visits : p.chunk.Visits p.chunk.instructions 0
  instructions : p.chunk.instructions = (code.entries 0).map fun e => (e.1, e.2.1)
  lineTable : p.chunk.lineTable = (code.entries 0).map fun e => (e.1, e.2.2)
  ends : code.Ends L last
  functions : ∀ q ∈ p.functions, ∃ decl : FunctionDecl, decl.Placed ∧ decl.Lined L ∧
    q = compileFunction decl

theorem emitted_protoOf {L : ℕ → Prop} {last : Instr} {body : Emit Code} {line : ℕ}
    (chunkName : String) (name : Option String) (parameters : List String)
    (hbody : Emit.Keeps L body (Code.Ends L last)) (hline : L line) :
    (protoOf chunkName name parameters line body).Emitted L last (body ⟨.empty, #[], line⟩).1 := by
  have hstart : Draft.Lined L ⟨.empty, #[], line⟩ := ⟨hline, fun _ hq => nomatch hq⟩
  obtain ⟨hdraft, hends⟩ := hbody _ hstart
  refine ⟨protoOf_visits .., protoOf_instructions .., protoOf_lineTable .., hends, fun q hq => ?_⟩
  rw [protoOf_functions] at hq
  exact hdraft.functions q (Array.mem_toList_iff.1 hq)

theorem Code.entries_append (start : ℕ) (first second : Code) :
    entries start (first ++ second) =
      first.entries start ++ second.entries (start + first.size) := by
  induction first generalizing start with
  | nil => rfl
  | cons entry rest ih =>
      rw [List.cons_append, entries, ih, entries, size, Nat.add_assoc]
      rfl

theorem Code.mem_of_mem_entries {start : ℕ} {code : Code} {e : ℕ × Instr × ℕ}
    (h : e ∈ code.entries start) : e.2 ∈ code :=
  code.map_entries start ▸ List.mem_map_of_mem h

namespace Proto.Emitted

variable {L : ℕ → Prop} {last : Instr} {code : Code} {p : Proto}

/-- The instructions in front of the last one do not end a program. -/
theorem exists_before (h : p.Emitted L last code) :
    ∃ before offset, p.chunk.instructions = before ++ [(offset, last)] ∧
      ∀ x ∈ before, x.2 ≠ .halt := by
  obtain ⟨before, line, hcode, hlined, -⟩ := h.ends
  refine ⟨(before.entries 0).map fun e => (e.1, e.2.1), 0 + before.size, ?_, fun x hx => ?_⟩
  · rw [h.instructions, hcode, Code.entries_append, List.map_append]
    rfl
  · obtain ⟨e, he, rfl⟩ := List.mem_map.1 hx
    exact (hlined e.2 (Code.mem_of_mem_entries he)).2

/-- Only the end of a program belongs to no line. -/
theorem line_eq_zero_iff (h : p.Emitted (1 ≤ ·) last code) {e : ℕ × Instr × ℕ}
    (he : e ∈ code.entries 0) : e.2.2 = 0 ↔ e.2.1 = .halt := by
  obtain ⟨before, line, rfl, hlined, hlast⟩ := h.ends
  rcases List.mem_append.1 (Code.mem_of_mem_entries he) with hmem | hmem
  · obtain ⟨hline, hi⟩ := hlined e.2 hmem
    exact iff_of_false (Nat.ne_of_gt hline) hi
  · rw [List.mem_singleton.1 hmem]
    split at hlast
    next hhalt => exact iff_of_true hlast hhalt
    next hhalt => exact iff_of_false (Nat.ne_of_gt hlast) hhalt

theorem numbered (h : p.Emitted (1 ≤ ·) last code) (offset : ℕ) :
    (offset, 0) ∈ p.chunk.lineTable ↔ (offset, .halt) ∈ p.chunk.instructions := by
  rw [h.lineTable, h.instructions, List.mem_map, List.mem_map]
  constructor
  · rintro ⟨e, he, heq⟩
    obtain ⟨rfl, hline⟩ := Prod.mk.inj heq
    exact ⟨e, he, Prod.ext rfl ((h.line_eq_zero_iff he).1 hline)⟩
  · rintro ⟨e, he, heq⟩
    obtain ⟨rfl, hi⟩ := Prod.mk.inj heq
    exact ⟨e, he, Prod.ext rfl ((h.line_eq_zero_iff he).2 hi)⟩

theorem marked (h : p.Emitted L last code) :
    p.chunk.lineTable.map Prod.fst = p.chunk.instructions.map Prod.fst := by
  rw [h.lineTable, h.instructions, List.map_map, List.map_map]
  rfl

end Proto.Emitted

/-! ### Functions and programs -/

namespace Instr

/-- A jump leads to its target, among others. -/
theorem target_mem_successors (kind : JumpKind) (distance : Int32) (next : ℕ) (σ : Shape) :
    ∃ σ', (target next distance, σ') ∈ (jump kind distance).successors next σ := by
  cases kind with
  | always => exact ⟨_, List.mem_cons_self⟩
  | ifFalse => exact ⟨_, List.mem_cons_of_mem _ List.mem_cons_self⟩
  | ifFalseOrPop => exact ⟨_, List.mem_cons_of_mem _ List.mem_cons_self⟩
  | ifTrueOrPop => exact ⟨_, List.mem_cons_of_mem _ List.mem_cons_self⟩

end Instr

/-- Where a plan is obeyed up to the end of the code, its slots are where the instructions are. -/
theorem Plan.Obeyed.offsets {p : Proto} {inFunction : Bool} {S : ℕ → Shape → Prop} {start : ℕ}
    {plan : Plan} (h : plan.Obeyed p inFunction S start)
    (hsize : start + plan.size = p.chunk.code.size) :
    (p.chunk.instructionsFrom start).map Prod.fst = (plan.spots start).map Prod.fst := by
  induction plan generalizing start with
  | nil =>
      obtain rfl : start = p.chunk.code.size := hsize
      rw [p.chunk.instructionsFrom_size]
      rfl
  | cons slot rest ih =>
      obtain ⟨i, hi⟩ := h (start, slot) List.mem_cons_self
      rw [Chunk.instructionsFrom_of_at hi.lies, List.map_cons,
        ih (fun x hx => h x (List.mem_cons_of_mem _ hx))
          (by rw [← hsize, size_cons, Nat.add_assoc])]
      rfl

namespace Routine

/-- Jumps out of loops and out of functions stand where they may. -/
def Placed : Routine → Prop
  | program statements => stmtsPlaced false false statements
  | function decl => decl.Placed

/-- `L` holds of all lines. -/
def Lined (L : ℕ → Prop) : Routine → Prop
  | program statements => L 1 ∧ stmtsLined L statements
  | function decl => decl.Lined L

/-- The last instruction. -/
def last (r : Routine) : Instr :=
  if r.inFunction then .ret else .halt

theorem liesTo_of_fits {r : Routine} (hfits : r.proto.Fits) (hplaced : r.Placed) :
    r.LiesTo r.proto.chunk.code.size := by
  cases r with
  | program statements => exact fills_compileProgram hfits hplaced
  | function decl => exact fills_compileFunction decl hfits hplaced

/-- The code of functions and programs was emitted. -/
theorem emitted {L : ℕ → Prop} {r : Routine} (hplaced : r.Placed) (hlined : r.Lined L) :
    ∃ code, r.proto.Emitted L r.last code := by
  cases r with
  | program statements =>
      have hbody := lined_emitProgram hplaced hlined.2
      exact ⟨_, emitted_protoOf "PROGRAM" none [] hbody hlined.1⟩
  | function decl =>
      cases decl with
      | mk name parameters body line =>
          have hbody := lined_emitFunction hplaced hlined.2
          have hproto := emitted_protoOf (displayName name) name parameters hbody hlined.1
          rw [← compileFunction_mk] at hproto
          exact ⟨_, hproto⟩

/-- The code of functions and programs was built by steps. -/
theorem exists_builtBy {r : Routine} (hplaced : r.Placed) : ∃ steps, r.proto.BuiltBy steps := by
  cases r with
  | program statements => exact built_program hplaced
  | function decl => exact built_function hplaced

section

variable {r : Routine} {offset : ℕ} {i : Instr}

/-- Every instruction obeys the plan. -/
theorem obeyed_of_mem (h : r.LiesTo r.proto.chunk.code.size)
    (hi : (offset, i) ∈ r.proto.chunk.instructions) :
    ∃ slot, r.proto.Obeys r.inFunction r.plan.Shaped offset slot i := by
  have hleads := leads_plan h
  have hobeyed := hleads.obeyed r.plan.Shaped r.plan.within_shaped trivial
  have hmem : offset ∈ (r.plan.spots 0).map Prod.fst := by
    rw [← hobeyed.offsets hleads.size.symm]
    exact List.mem_map_of_mem hi
  obtain ⟨⟨_, slot⟩, hslot, rfl⟩ := List.mem_map.1 hmem
  obtain ⟨i', hi'⟩ := hobeyed _ hslot
  obtain ⟨next, hat⟩ := Chunk.at_of_mem_instructionsFrom hi
  obtain ⟨rfl, -⟩ := hi'.lies.unique hat
  exact ⟨slot, hi'⟩

/-- Where the plan gives a shape, there is an instruction. -/
theorem mem_of_shaped (h : r.LiesTo r.proto.chunk.code.size) {σ : Shape}
    (hσ : r.plan.Shaped offset σ) : ∃ i, (offset, i) ∈ r.proto.chunk.instructions := by
  have hleads := leads_plan h
  have hobeyed := hleads.obeyed r.plan.Shaped r.plan.within_shaped trivial
  obtain ⟨slot, hslot, -⟩ := hσ
  have hmem : offset ∈ r.proto.chunk.instructions.map Prod.fst := by
    rw [Chunk.instructions, hobeyed.offsets hleads.size.symm]
    exact List.mem_map_of_mem hslot
  obtain ⟨⟨_, i⟩, hi, rfl⟩ := List.mem_map.1 hmem
  exact ⟨i, hi⟩

/-- Jumps lead to instructions. -/
theorem mem_of_jump (h : r.LiesTo r.proto.chunk.code.size) {kind : JumpKind} {distance : Int32}
    (hjump : (offset, .jump kind distance) ∈ r.proto.chunk.instructions) :
    ∃ target i, (target, i) ∈ r.proto.chunk.instructions ∧
      (target : Int) = offset + Instr.wideSize + distance.toInt := by
  obtain ⟨slot, hobeys⟩ := obeyed_of_mem h hjump
  have hnext : offset + slot.size = offset + Instr.wideSize := hobeys.lies.stop_eq
  obtain ⟨σ, hσ⟩ := Instr.target_mem_successors kind distance (offset + slot.size) slot.shape
  obtain ⟨i, hi⟩ := mem_of_shaped h (hobeys.leads _ hσ)
  refine ⟨_, i, hi, ?_⟩
  have hforward : 0 ≤ ((offset + slot.size : ℕ) : Int) + distance.toInt := hobeys.suits
  rw [Instr.target, Int.toNat_of_nonneg hforward, hnext]
  rfl

end

/-- **The code of functions and programs is well formed.** -/
theorem codeWellFormed {r : Routine} (hfits : r.proto.Fits) (hplaced : r.Placed)
    (hlined : r.Lined (1 ≤ ·)) : r.proto.CodeWellFormed r.inFunction := by
  have hlies := liesTo_of_fits hfits hplaced
  obtain ⟨code, hemitted⟩ := emitted hplaced hlined
  have hwords : r.proto.chunk.code.size ≤ UInt32.size :=
    Nat.le_of_lt (Nat.lt_of_lt_of_le hfits.code (by decide))
  refine ⟨hemitted.visits, hemitted.marked, Chunk.ascending_lineTable _, exists_builtBy hplaced,
    fun steps hbuilt => hbuilt.tabled hwords, hemitted.numbered,
    fun offset kind distance => mem_of_jump hlies, fun x hx => ?_, ?_⟩
  · obtain ⟨slot, hobeys⟩ := obeyed_of_mem hlies hx
    exact hobeys.finds
  · obtain ⟨before, offset, heq, hbefore⟩ := hemitted.exists_before
    refine ⟨before, offset, heq, fun x hx => ⟨hbefore x hx, fun hprogram hret => ?_⟩⟩
    obtain ⟨slot, hobeys⟩ := obeyed_of_mem hlies (heq ▸ List.mem_append_left _ hx)
    have hsuits := hobeys.suits
    rw [hret] at hsuits
    exact Bool.false_ne_true (hprogram.symm.trans hsuits.1)

end Routine

/-- The code of the functions inside is that of other functions. -/
theorem Routine.wellFormed {p : Proto} (hfits : p.Fits) : ∀ r : Routine, r.proto = p → r.Placed →
    r.Lined (1 ≤ ·) → p.WellFormed r.inFunction := by
  induction hfits with
  | @mk p code functions ih =>
      rintro r rfl hplaced hlined
      refine .mk (codeWellFormed (.mk code functions) hplaced hlined) fun q hq => ?_
      obtain ⟨_, hemitted⟩ := emitted hplaced hlined
      obtain ⟨decl, hdecl, hlines, rfl⟩ := hemitted.functions q hq
      exact ih _ hq (.function decl) rfl hdecl hlines

/-- **Compiled code is well formed.** -/
theorem compiled_wellFormed {source : String} {program : Program}
    (hparse : parse source = .ok program) (hfits : (compileProgram program).Fits) :
    (compileProgram program).WellFormed false :=
  Routine.wellFormed hfits (.program program) rfl (placed_of_parse hparse)
    ⟨Nat.le_refl 1, numbered_of_parse hparse⟩

/-- A function with a loop in it. -/
def waiting : FunctionDecl :=
  .mk (some "f") [] [.whileLoop (.atom (.name "x") ⟨22, 1⟩ 1) (.returnValue none 1) 1] 1

theorem compiled_wellFormed_function :
    ∃ program, parse "function f() \x7b while (x) return; \x7d" = .ok program ∧
      (compileProgram program).Fits ∧ (compileProgram program).WellFormed false := by
  have hparse : parse "function f() \x7b while (x) return; \x7d" = .ok [.function waiting] := by cbv
  have hfits : (compileProgram [.function waiting]).Fits := by
    refine .mk (by decide) fun q hq => ?_
    obtain rfl := List.mem_singleton.1 hq
    exact .mk (by decide) fun q hq => by cases hq
  exact ⟨_, hparse, hfits, compiled_wellFormed hparse hfits⟩

end Tracepoint
