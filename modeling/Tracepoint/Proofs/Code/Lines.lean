/-
The lines that code belongs to.

All code of a function belongs to lines of its tree.  So does the code of a program but for its
first instruction, which belongs to the first line whatever stands there, and for its last one,
which belongs to no line.  For the code of a list of statements does not depend on the line in
front of it: whatever is emitted first goes to its own line.

The first instruction of a program comes once.  It leads to the one behind it, and no other
instruction leads back to it.

Main definitions:

* `Proto.Drawn` — a function that is compiled from a tree with certain lines.

Main results:

* `hoist_onLine`, `compileStmts_onLine` — **the line in front does not matter**;
* `Proto.Drawn.lineAt`, `lineAt_compileProgram` — the lines that bytes are marked with;
* `Proto.Gives.pos_of_successor` — **nothing in a program leads to its first instruction**.
-/

import Tracepoint.Proofs.Code.WellFormed

set_option relaxedAutoImplicit false
set_option autoImplicit false

namespace Tracepoint

/-! ### The line in front -/

theorem bindFunction_onLine (decl : FunctionDecl) (p : Proto) (d : Draft) (line : ℕ) :
    ∃ line', bindFunction decl p (d.onLine line) =
      ((bindFunction decl p d).1, (bindFunction decl p d).2.onLine line') := by
  cases hname : decl.name with
  | none =>
      refine ⟨line, ?_⟩
      simp only [bindFunction, hname]
      rfl
  | some name =>
      refine ⟨decl.line, ?_⟩
      simp only [bindFunction, hname]
      rfl

/-- **The functions that are bound first** are bound alike, whatever the line in front of them. -/
theorem hoist_onLine (body : List Stmt) (d : Draft) (line : ℕ) :
    ∃ line', hoist body (d.onLine line) = ((hoist body d).1, (hoist body d).2.onLine line') := by
  induction body generalizing d line with
  | nil =>
      rw [hoist]
      exact ⟨line, rfl⟩
  | cons s rest ih =>
      cases s with
      | function decl =>
          obtain ⟨line₁, hfirst⟩ := bindFunction_onLine decl (compileFunction decl) d line
          obtain ⟨line₂, hrest⟩ := ih (bindFunction decl (compileFunction decl) d).2 line₁
          refine ⟨line₂, ?_⟩
          simp only [hoist, Emit.bind_apply, Emit.pure_apply, hfirst, hrest]
      | _ =>
          rw [hoist]
          · exact ih d line
          · exact fun _ => Stmt.noConfusion

/-- A statement goes to its own line first. -/
theorem compileStmt_onLine (depth : Option ℕ) (s : Stmt) (d : Draft) (line : ℕ) :
    compileStmt true depth s (d.onLine line) = compileStmt true depth s d := by
  cases s with
  | conditional condition success failure _ =>
      cases failure with
      | none =>
          rw [compileStmt]
          rfl
      | some failure =>
          rw [compileStmt]
          rfl
  | breakLoop _ => cases depth <;> rfl
  | continueLoop _ => cases depth <;> rfl
  | _ =>
      rw [compileStmt]
      rfl

/-- **The line in front of statements does not matter.** -/
theorem compileStmts_onLine (depth : Option ℕ) (body : List Stmt) (d : Draft) (line : ℕ) :
    ∃ line', compileStmts depth body (d.onLine line) =
      ((compileStmts depth body d).1, (compileStmts depth body d).2.onLine line') := by
  cases body with
  | nil =>
      rw [compileStmts]
      exact ⟨line, rfl⟩
  | cons s rest =>
      refine ⟨(compileStmts depth (s :: rest) d).2.line, ?_⟩
      simp only [compileStmts, Emit.bind_apply, compileStmt_onLine]
      rfl

/-! ### Functions -/

/-- `L` holds of the line that a statement starts in. -/
theorem Stmt.Lined.line {L : ℕ → Prop} {s : Stmt} (h : s.Lined L) : L s.line := by
  cases s with
  | function decl =>
      cases decl
      exact h.1
  | breakLoop _ => exact h
  | continueLoop _ => exact h
  | empty _ => exact h
  | _ => exact h.1

section

variable {L : ℕ → Prop} {p q : Proto} {offset line : ℕ}

/-- A function that is compiled from a tree. `L` holds of all lines of the tree. -/
def Proto.Drawn (L : ℕ → Prop) (p : Proto) : Prop :=
  ∃ decl : FunctionDecl, decl.Placed ∧ decl.Lined L ∧ p = compileFunction decl

namespace Proto

theorem Drawn.emitted (h : p.Drawn L) : ∃ code, p.Emitted L .ret code := by
  obtain ⟨decl, hplaced, hlined, rfl⟩ := h
  exact Routine.emitted (r := .function decl) hplaced hlined

/-- The functions inside of a function are compiled from parts of its tree. -/
theorem Drawn.inner (h : p.Drawn L) : ∀ q ∈ p.functions, q.Drawn L := by
  obtain ⟨code, hemitted⟩ := h.emitted
  exact hemitted.functions

/-- The code of a function belongs to lines of its tree. -/
theorem Drawn.lineAt (h : p.Drawn L) (hline : p.chunk.lineAt offset = some line) : L line := by
  obtain ⟨code, hemitted⟩ := h.emitted
  have hmem := Chunk.mem_lineTable.2 hline
  rw [hemitted.lineTable] at hmem
  obtain ⟨e, he, heq⟩ := List.mem_map.1 hmem
  obtain ⟨before, last, rfl, hbefore, hlast⟩ := hemitted.ends
  obtain ⟨-, rfl⟩ := Prod.mk.inj heq
  rcases List.mem_append.1 (Code.mem_of_mem_entries he) with hmem | hmem
  · exact (hbefore _ hmem).1
  · rw [List.mem_singleton.1 hmem]
    rwa [if_neg Instr.noConfusion] at hlast

end Proto

/-! ### Programs -/

variable {program : Program}

/-- What a program emits behind its first instruction belongs to lines of its tree. -/
theorem lined_statements {d : Draft} (hplaced : stmtsPlaced false false program)
    (hlined : stmtsLined L program) (hd : ∀ q ∈ d.functions, q.Drawn L) :
    (hoist program d).1.Lined L ∧
      (compileStmts none program (hoist program d).2).1.Lined L ∧
      ∀ q ∈ (compileStmts none program (hoist program d).2).2.functions, q.Drawn L := by
  cases program with
  | nil =>
      simp only [hoist, compileStmts, Emit.pure_apply]
      exact ⟨.nil, .nil, hd⟩
  | cons s rest =>
      have hline : L s.line := hlined.1.line
      -- The same as if the line of the first statement came in front.
      obtain ⟨line₁, hhoist⟩ := hoist_onLine (s :: rest) d s.line
      obtain ⟨line₂, hstmts⟩ := compileStmts_onLine none (s :: rest) (hoist (s :: rest) d).2 line₁
      obtain ⟨hdraft, hbindings⟩ := lined_hoist hplaced hlined (d.onLine s.line) ⟨hline, hd⟩
      rw [hhoist] at hdraft hbindings
      obtain ⟨hdraft', hcode⟩ :=
        lined_compileStmts none (s :: rest) false false hplaced hlined _ hdraft
      rw [hstmts] at hdraft' hcode
      exact ⟨hbindings, hcode, hdraft'.functions⟩

/-- The code of a program, of which `middle` belongs to lines of its tree, and the functions that are
compiled from parts of it. -/
theorem emitted_compileProgram (hplaced : stmtsPlaced false false program)
    (hlined : stmtsLined L program) :
    ∃ middle : Code, middle.Lined L ∧
      (compileProgram program).chunk.lineTable =
        (((.enter, 1) :: middle ++ [(.halt, 0)] : Code).entries 0).map (fun e => (e.1, e.2.2)) ∧
      ∀ q ∈ (compileProgram program).functions, q.Drawn L := by
  have hstart : ∀ q ∈ (⟨.empty, #[], 1⟩ : Draft).functions, q.Drawn L := by
    intro q hq
    cases Array.not_mem_empty q hq
  obtain ⟨hbindings, hcode, hfunctions⟩ := lined_statements hplaced hlined hstart
  refine ⟨_, hbindings.append hcode.toCode, ?_, fun q hq => ?_⟩
  · rw [compileProgram_eq, protoOf_lineTable]
    simp only [emitProgram, Emit.bind_apply, Emit.pure_apply, Emit.emit_apply]
    rfl
  · rw [compileProgram_eq, protoOf_functions] at hq
    exact hfunctions q (Array.mem_toList_iff.1 hq)

/-- **The lines that the code of a program belongs to.** Apart from its first instruction and its
last one it belongs to lines of its tree. -/
theorem lineAt_compileProgram (hplaced : stmtsPlaced false false program)
    (hlined : stmtsLined L program)
    (hline : (compileProgram program).chunk.lineAt offset = some line) :
    (offset = 0 ∧ line = 1) ∨ L line ∨ line = 0 := by
  obtain ⟨middle, hmiddle, htable, -⟩ := emitted_compileProgram hplaced hlined
  have hmem := Chunk.mem_lineTable.2 hline
  rw [htable] at hmem
  obtain ⟨e, he, heq⟩ := List.mem_map.1 hmem
  obtain ⟨rfl, rfl⟩ := Prod.mk.inj heq
  rcases List.mem_cons.1 he with rfl | he
  · exact .inl ⟨rfl, rfl⟩
  · rcases List.mem_append.1 (Code.mem_of_mem_entries he) with hmem | hmem
    · exact .inr (.inl (hmiddle _ hmem).1)
    · rw [List.mem_singleton.1 hmem]
      exact .inr (.inr rfl)

end

/-! ### The first instruction -/

/-- **Nothing in a program leads to its first instruction.** -/
theorem Proto.Gives.pos_of_successor {program : Program} (hlies : programLies program)
    {offset next : ℕ} {σ : Shape} {i : Instr} (h : (compileProgram program).Gives offset σ)
    (hat : (compileProgram program).chunk.At offset i next) {g : ℕ × Shape}
    (hg : g ∈ i.successors next σ) : 0 < g.1 := by
  obtain ⟨stop, hstop⟩ := Routine.Lies.exists_liesTo (r := .program program) hlies
  obtain ⟨slot, hslot, rfl⟩ := h.shaped (.program program) hlies rfl
  rw [Routine.plan, Routine.inner, List.append_assoc, Plan.spots_append] at hslot
  rcases List.mem_append.1 hslot with hfirst | hbehind
  · obtain ⟨rfl, rfl⟩ := Prod.mk.inj (List.mem_singleton.1 hfirst)
    obtain ⟨a, -, -, henter, -⟩ := hstop
    obtain ⟨rfl, rfl⟩ := henter.unique hat
    obtain rfl := List.mem_singleton.1 hg
    exact henter.stop_eq ▸ Nat.one_pos
  · have hwithin : Plan.Within (fun o _ => 0 < o) 1
        ((hoistPlan 0 program ++ stmtsPlan none 0 program) ++ [.narrow 0 0]) := by
      intro x hx
      exact (Plan.bounds_of_mem hx).1
    obtain ⟨i', hobeys⟩ :=
      (Routine.leads_behind hstop).obeyed (fun o _ => 0 < o) hwithin trivial _ hbehind
    obtain ⟨rfl, rfl⟩ := hobeys.lies.unique hat
    exact hobeys.leads g hg

end Tracepoint
