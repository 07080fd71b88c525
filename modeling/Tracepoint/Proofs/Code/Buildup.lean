/-
Code is built step by step.

The compiler that patches does nothing to its code but what a builder does: it adds an instruction or
a jump back at the end, gives a jump the end as its target, or puts a function or a constant aside.
So the code of every function and program is what these steps build from nothing, in the order in
which the compiler takes them, and a table that gets an entry with every instruction can be kept
beside it.

Main definitions:

* `Assemble.Builds` — a step of the compiler takes steps of a builder;
* `Proto.BuiltBy` — the code of a function was built by some steps.

Main results:

* `Assemble.builds_expr`, `Assemble.builds_stmt` and their companions — expressions and statements;
* `built_program`, `built_function` — **compiled code was built by steps**;
* `Proto.BuiltBy.tabled` — **a table in the order of the steps ascends, and is the line table**.
-/

import Tracepoint.Proofs.Code.Assembled
import Tracepoint.Proofs.Code.LineSearch

set_option relaxedAutoImplicit false
set_option autoImplicit false

namespace Tracepoint

open Builder (Step)

namespace Assemble

/-! ### Steps of the compiler -/

/-- If the compiler does not stop, it takes steps of a builder. -/
def Builds {α : Type} (x : Assemble α) : Prop :=
  ∀ s a s', x s = some (a, s') → ∃ steps : List Step, s'.builder = steps.foldl .perform s.builder

variable {α β : Type}

theorem builds_none {x : Assemble α} (h : ∀ s, x s = none) : Builds x := by
  intro s a s' hrun
  rw [h] at hrun
  cases hrun

/-- The code stays as it is. -/
theorem builds_of_keeps {x : Assemble α} (h : ∀ s a s', x s = some (a, s') →
    s'.builder = s.builder) : Builds x :=
  fun s a s' hrun => ⟨[], h s a s' hrun⟩

theorem builds_of_perform {x : Assemble α} (h : ∀ s a s', x s = some (a, s') →
    ∃ step : Step, s'.builder = s.builder.perform step) : Builds x := by
  intro s a s' hrun
  obtain ⟨step, hstep⟩ := h s a s' hrun
  exact ⟨[step], hstep⟩

theorem Builds.bind {x : Assemble α} {f : α → Assemble β} (hx : Builds x) (hf : ∀ a, Builds (f a)) :
    Builds (x >>= f) := by
  intro s b s' hrun
  obtain ⟨⟨a, middle⟩, hfirst, hsecond⟩ := Option.bind_eq_some_iff.1 hrun
  obtain ⟨before, hbefore⟩ := hx s a middle hfirst
  obtain ⟨later, hlater⟩ := hf a middle b s' hsecond
  exact ⟨before ++ later, by rw [hlater, hbefore, List.foldl_append]⟩

theorem builds_pure (a : α) : Builds (pure a : Assemble α) :=
  builds_of_keeps fun s b s' hrun => by cases hrun; rfl

theorem builds_modify {f : Assembly → Assembly} (h : ∀ s, (f s).builder = s.builder) :
    Builds (modify f : Assemble PUnit) :=
  builds_of_keeps fun s a s' hrun => by cases hrun; exact h s

theorem builds_get : Builds (get : Assemble Assembly) :=
  builds_of_keeps fun s a s' hrun => by cases hrun; rfl

theorem builds_atLine (line : ℕ) : Builds (atLine line) :=
  builds_modify fun _ => rfl

theorem builds_here : Builds here :=
  builds_get.bind fun _ => builds_pure _

theorem builds_emit (i : Instr) : Builds (emit i) :=
  builds_of_perform fun s a s' hrun => by cases hrun; exact ⟨.emit i s.line, rfl⟩

/-- An instruction whose place is not asked for. -/
theorem builds_emitted (i : Instr) : Builds (do let _ ← emit i; pure () : Assemble Unit) :=
  (builds_emit i).bind fun _ => builds_pure _

theorem builds_emitAll (is : List Instr) : Builds (emitAll is) := by
  induction is with
  | nil => exact builds_pure _
  | cons i rest ih => exact (builds_emit i).bind fun _ => ih

theorem builds_emitLoop (target : ℕ) : Builds (emitLoop target) :=
  builds_of_perform fun s a s' hrun => by cases hrun; exact ⟨.loop target s.line, rfl⟩

theorem builds_patch (start : ℕ) : Builds (patch start) := by
  refine builds_of_perform fun s a s' hrun => ⟨.patch start, ?_⟩
  rw [patch] at hrun
  split at hrun
  · cases hrun
    rfl
  · cases hrun

theorem builds_patchAll (starts : List ℕ) : Builds (patchAll starts) := by
  induction starts with
  | nil => exact builds_pure _
  | cons start rest ih => exact (builds_patch start).bind fun _ => ih

theorem builds_constantPosition (c : Constant) : Builds (constantPosition c) :=
  builds_of_perform fun s a s' hrun => by cases hrun; exact ⟨.constant c, rfl⟩

theorem builds_namePosition (name : String) : Builds (namePosition name) :=
  builds_constantPosition _

theorem builds_emitConstant (c : Constant) : Builds (emitConstant c) :=
  (builds_constantPosition c).bind fun _ => builds_emitted _

theorem builds_functionPosition (p? : Option Proto) : Builds (functionPosition p?) := by
  cases p? with
  | none => exact builds_none fun _ => rfl
  | some p =>
      exact builds_of_perform fun s a s' hrun => by cases hrun; exact ⟨.function p, rfl⟩

/-! ### Scopes and loops -/

theorem builds_openScope : Builds openScope :=
  (builds_emit _).bind fun _ => builds_modify fun _ => rfl

theorem builds_closeScope : Builds closeScope :=
  (builds_emit _).bind fun _ => builds_modify fun _ => rfl

theorem builds_leaveScopes (depth : ℕ) : Builds (leaveScopes depth) :=
  builds_get.bind fun _ => builds_emitAll _

theorem builds_enterLoop (again : Option ℕ) : Builds (enterLoop again) :=
  builds_modify fun _ => rfl

theorem builds_innermost : Builds innermost :=
  builds_get.bind fun _ => builds_pure _

theorem builds_modifyInnermost (f : Loop → Loop) : Builds (modifyInnermost f) :=
  builds_modify fun _ => rfl

theorem builds_patchContinues : Builds patchContinues :=
  builds_innermost.bind fun _ => (builds_modifyInnermost _).bind fun _ => builds_patchAll _

theorem builds_leaveLoop : Builds leaveLoop := by
  refine builds_innermost.bind fun _ => Builds.bind ?_ fun _ => builds_patchAll _
  exact builds_modify fun _ => rfl

theorem builds_endLoop (head : ℕ) (exits : List ℕ) : Builds (endLoop head exits) :=
  (builds_emitLoop head).bind fun _ => (builds_patchAll exits).bind fun _ => builds_leaveLoop

theorem builds_rounds (line : ℕ) {test : Assemble (List ℕ)} {body increment : Assemble Unit}
    (htest : Builds test) (hbody : Builds body) (hincrement : Builds increment) :
    Builds (rounds line test body increment) :=
  builds_here.bind fun _ => htest.bind fun _ => (builds_enterLoop _).bind fun _ =>
    hbody.bind fun _ => (builds_atLine line).bind fun _ => builds_patchContinues.bind fun _ =>
      hincrement.bind fun _ => builds_endLoop _ _

theorem builds_breakLoop : Builds breakLoop := by
  refine builds_innermost.bind fun loop? => ?_
  cases loop? with
  | none => exact builds_pure _
  | some loop =>
      exact (builds_leaveScopes _).bind fun _ => (builds_emit _).bind fun _ =>
        builds_modifyInnermost _

theorem builds_continueLoop : Builds continueLoop := by
  refine builds_innermost.bind fun loop? => ?_
  cases loop? with
  | none => exact builds_pure _
  | some loop =>
      refine (builds_leaveScopes _).bind fun _ => ?_
      split
      · exact builds_emitLoop _
      · exact (builds_emit _).bind fun _ => builds_modifyInnermost _

/-! ### Trees -/

theorem builds_atom (a : Atom) : Builds (atom a) := by
  cases a with
  | name text => exact (builds_namePosition text).bind fun _ => builds_emitted _
  | number _ | bool _ | null | undefined | string _ => exact builds_emitConstant _

theorem builds_binding (decl : FunctionDecl) (compiled : Option Proto) :
    Builds (binding decl compiled) := by
  rw [binding]
  split
  · exact builds_pure _
  · exact (builds_atLine _).bind fun _ => (builds_functionPosition _).bind fun _ =>
      (builds_emit _).bind fun _ => (builds_namePosition _).bind fun _ =>
        builds_emitted _

mutual

theorem builds_expr : ∀ e : Expr, Builds (expr e)
  | .atom a _ _ => by
      rw [expr]
      exact builds_atom a
  | .group inner => by
      rw [expr]
      exact builds_expr inner
  | .unary _ operand => by
      rw [expr]
      exact (builds_expr operand).bind fun _ => builds_emitted _
  | .binary _ left right => by
      rw [expr]
      exact (builds_expr left).bind fun _ => (builds_expr right).bind fun _ => builds_emitAll _
  | .logical _ left right => by
      rw [expr]
      exact (builds_expr left).bind fun _ => (builds_emit _).bind fun _ =>
        (builds_expr right).bind fun _ => builds_patch _
  | .assignName _ value => by
      rw [expr]
      exact (builds_expr value).bind fun _ => (builds_namePosition _).bind fun _ =>
        builds_emitted _
  | .assignProperty object _ value => by
      rw [expr]
      exact (builds_expr object).bind fun _ => (builds_expr value).bind fun _ =>
        (builds_namePosition _).bind fun _ => builds_emitted _
  | .assignIndex object index value => by
      rw [expr]
      exact (builds_expr object).bind fun _ => (builds_expr index).bind fun _ =>
        (builds_expr value).bind fun _ => builds_emitted _
  | .call callee arguments => by
      rw [expr]
      exact (builds_expr callee).bind fun _ => (builds_exprs arguments).bind fun _ =>
        builds_emitted _
  | .property object _ => by
      rw [expr]
      exact (builds_expr object).bind fun _ => (builds_namePosition _).bind fun _ =>
        builds_emitted _
  | .index object index => by
      rw [expr]
      exact (builds_expr object).bind fun _ => (builds_expr index).bind fun _ =>
        builds_emitted _
  | .array elements => by
      rw [expr]
      exact (builds_exprs elements).bind fun _ => builds_emitted _
  | .object es => by
      rw [expr]
      exact (builds_entries es).bind fun _ => builds_emitted _
  | .function _ => by
      rw [expr]
      exact (builds_functionPosition _).bind fun _ => builds_emitted _

theorem builds_exprs : ∀ es : List Expr, Builds (exprs es)
  | [] => by
      rw [exprs]
      exact builds_pure _
  | e :: rest => by
      rw [exprs]
      exact (builds_expr e).bind fun _ => builds_exprs rest

theorem builds_entries : ∀ es : List (String × Expr), Builds (entries es)
  | [] => by
      rw [entries]
      exact builds_pure _
  | (_, e) :: rest => by
      rw [entries]
      exact (builds_emitConstant _).bind fun _ => (builds_expr e).bind fun _ => builds_entries rest

end

theorem builds_value (value? : Option Expr) : Builds (value value?) := by
  cases value? with
  | none =>
      rw [value]
      exact builds_emitConstant _
  | some e =>
      rw [value]
      exact builds_expr e

theorem builds_test (condition : Option Expr) : Builds (test condition) := by
  cases condition with
  | none =>
      rw [test]
      exact builds_pure _
  | some e =>
      rw [test]
      exact (builds_expr e).bind fun _ => (builds_emit _).bind fun _ => builds_pure _

theorem builds_increment (next : Option Expr) : Builds (increment next) := by
  cases next with
  | none =>
      rw [increment]
      exact builds_pure _
  | some e =>
      rw [increment]
      exact (builds_expr e).bind fun _ => builds_emitted _

theorem builds_hoist (body : List Stmt) : Builds (hoist body) := by
  induction body with
  | nil =>
      rw [hoist]
      exact builds_pure _
  | cons first rest ih =>
      cases first with
      | function decl =>
          rw [hoist]
          exact (builds_binding _ _).bind fun _ => ih
      | _ =>
          rw [hoist]
          · exact ih
          all_goals exact fun decl hdecl => by cases hdecl

mutual

theorem builds_stmts : ∀ body : List Stmt, Builds (stmts body)
  | [] => by
      rw [stmts]
      exact builds_pure _
  | first :: rest => by
      rw [stmts]
      exact (builds_stmt true first).bind fun _ => builds_stmts rest

theorem builds_stmt : ∀ (hoisted : Bool) (statement : Stmt), Builds (stmt hoisted statement)
  | _, .declare _ _ initial line => by
      rw [stmt]
      exact (builds_atLine line).bind fun _ => (builds_value initial).bind fun _ =>
        (builds_namePosition _).bind fun _ => builds_emitted _
  | hoisted, .function decl => by
      rw [stmt]
      split
      · exact builds_atLine _
      · exact builds_binding _ _
  | _, .expression e line => by
      rw [stmt]
      exact (builds_atLine line).bind fun _ => (builds_expr e).bind fun _ =>
        builds_emitted _
  | _, .block body line => by
      rw [stmt]
      exact (builds_atLine line).bind fun _ => builds_openScope.bind fun _ =>
        (builds_hoist body).bind fun _ => (builds_stmts body).bind fun _ => builds_closeScope
  | _, .conditional condition success none line => by
      rw [stmt]
      exact (builds_atLine line).bind fun _ => (builds_expr condition).bind fun _ =>
        (builds_emit _).bind fun _ => (builds_stmt false success).bind fun _ => builds_patch _
  | _, .conditional condition success (some failure) line => by
      rw [stmt]
      exact (builds_atLine line).bind fun _ => (builds_expr condition).bind fun _ =>
        (builds_emit _).bind fun _ => (builds_stmt false success).bind fun _ =>
          (builds_emit _).bind fun _ => (builds_patch _).bind fun _ =>
            (builds_stmt false failure).bind fun _ => builds_patch _
  | _, .whileLoop condition body line => by
      rw [stmt]
      exact (builds_atLine line).bind fun _ => builds_here.bind fun _ =>
        (builds_expr condition).bind fun _ => (builds_emit _).bind fun _ =>
          (builds_enterLoop _).bind fun _ => (builds_stmt false body).bind fun _ =>
            (builds_atLine line).bind fun _ => builds_endLoop _ _
  | _, .forLoop first condition next body line => by
      rw [stmt]
      exact (builds_atLine line).bind fun _ => builds_openScope.bind fun _ =>
        (builds_start first).bind fun _ => (builds_atLine line).bind fun _ =>
          (builds_rounds line (builds_test condition) (builds_stmt false body)
            (builds_increment next)).bind fun _ => builds_closeScope
  | _, .returnValue result line => by
      rw [stmt]
      exact (builds_atLine line).bind fun _ => (builds_value result).bind fun _ =>
        builds_emitted _
  | _, .breakLoop line => by
      rw [stmt]
      exact (builds_atLine line).bind fun _ => builds_breakLoop
  | _, .continueLoop line => by
      rw [stmt]
      exact (builds_atLine line).bind fun _ => builds_continueLoop
  | _, .empty line => by
      rw [stmt]
      exact builds_atLine line

theorem builds_start : ∀ first : Option Stmt, Builds (start first)
  | some s => by
      rw [start]
      exact builds_stmt true s
  | none => by
      rw [start]
      exact builds_pure _

end

end Assemble

/-! ### Functions and programs -/

/-- Steps that build the code of a function. -/
def Proto.BuiltBy (p : Proto) (steps : List Step) : Prop :=
  p.chunk = (Builder.built steps).chunk p.chunk.name

/-- **A table that gets an entry with every instruction**, in the order in which the steps add them,
ascends, and is the line table, as long as there are words for all bytes. -/
theorem Proto.BuiltBy.tabled {p : Proto} {steps : List Step} (h : p.BuiltBy steps)
    (hsize : p.chunk.code.size ≤ UInt32.size) :
    (Tabled.built steps).lines.Ascending ∧
      (Tabled.built steps).lines.toList.map (fun entry => (entry.1.toNat, entry.2)) =
        p.chunk.lineTable := by
  rw [h] at hsize
  exact ⟨Tabled.ascending_lines hsize,
    (Tabled.map_lines hsize p.chunk.name).trans (congrArg Chunk.lineTable h).symm⟩

/-- What a compiler that starts with nothing makes was built by steps. -/
theorem Assemble.Builds.exists_steps {x : Assemble Unit} (hx : Builds x) {line : ℕ}
    {chunkName : String} {name : Option String} {parameters : List String} {first : ℕ} {p : Proto}
    (hrun : (do
      let (_, s) ← x.run (.start line)
      return s.builder.proto chunkName name parameters first) = some p) :
    ∃ steps, p.BuiltBy steps := by
  obtain ⟨⟨a, s⟩, hx', hp⟩ := Option.bind_eq_some_iff.1 hrun
  obtain ⟨steps, hsteps⟩ := hx _ a s hx'
  cases hp
  exact ⟨steps, congrArg (Builder.chunk · chunkName) hsteps⟩

/-- **The code of a function was built by steps.** -/
theorem built_function {decl : FunctionDecl} (h : decl.Placed) :
    ∃ steps, (compileFunction decl).BuiltBy steps := by
  have hrun := Assemble.function_eq decl h
  cases decl with
  | mk name parameters body line =>
      rw [Assemble.function] at hrun
      refine Assemble.Builds.exists_steps ?_ hrun
      exact (Assemble.builds_hoist body).bind fun _ => (Assemble.builds_stmts body).bind fun _ =>
        (Assemble.builds_emitConstant _).bind fun _ => (Assemble.builds_emit _).bind fun _ =>
          Assemble.builds_pure _

/-- **The code of a program was built by steps.** -/
theorem built_program {program : Program} (h : stmtsPlaced false false program) :
    ∃ steps, (compileProgram program).BuiltBy steps := by
  have hrun := Assemble.program_eq h
  rw [Assemble.program] at hrun
  refine Assemble.Builds.exists_steps ?_ hrun
  exact (Assemble.builds_emit _).bind fun _ => (Assemble.builds_hoist program).bind fun _ =>
    (Assemble.builds_stmts program).bind fun _ => (Assemble.builds_atLine 0).bind fun _ =>
      (Assemble.builds_emit _).bind fun _ => Assemble.builds_pure _

end Tracepoint
