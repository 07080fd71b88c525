/-
Both compilers agree.

The compiler that patches never stops, and it makes the functions that the other compiler makes.
Statement by statement both do the same; the trees have to be placed, because a jump out of a loop
would need a loop to be kept in.

Main definitions:

* `Assemble.Emits`, `Assemble.Runs` — a step of one compiler does what a step of the other does.

Main results:

* `Assemble.emits_expr`, `Assemble.runs_stmt` and their companions — expressions and statements;
* `Assemble.program_eq` — **the compiler that patches compiles every placed program**, and makes the
  same of it.
-/

import Tracepoint.Proofs.Code.Rounds
import Tracepoint.Proofs.Grammar.Placement

set_option relaxedAutoImplicit false
set_option autoImplicit false

namespace Tracepoint

/-! ### Expressions -/

mutual

/-- An expression does not change the line. -/
theorem line_compileExpr : ∀ (e : Expr) (d : Draft), (compileExpr e d).2.line = d.line
  | .atom a _ _, d => by
      cases a <;> rfl
  | .group inner, d => by
      rw [compileExpr]
      exact line_compileExpr inner d
  | .unary _ operand, d => by
      rw [compileExpr]
      exact line_compileExpr operand d
  | .binary _ left right, d | .logical _ left right, d => by
      rw [compileExpr]
      exact (line_compileExpr right _).trans (line_compileExpr left d)
  | .assignName _ value, d => by
      rw [compileExpr]
      exact line_compileExpr value d
  | .assignProperty object _ value, d => by
      rw [compileExpr]
      exact (line_compileExpr value _).trans (line_compileExpr object d)
  | .assignIndex object index value, d => by
      rw [compileExpr]
      refine (line_compileExpr value _).trans ?_
      exact (line_compileExpr index _).trans (line_compileExpr object d)
  | .call callee arguments, d => by
      rw [compileExpr]
      exact (line_compileExprs arguments _).trans (line_compileExpr callee d)
  | .property object _, d => by
      rw [compileExpr]
      exact line_compileExpr object d
  | .index object index, d => by
      rw [compileExpr]
      exact (line_compileExpr index _).trans (line_compileExpr object d)
  | .array elements, d => by
      rw [compileExpr]
      exact line_compileExprs elements d
  | .object entries, d => by
      rw [compileExpr]
      exact line_compileEntries entries d
  | .function decl, d => by
      rw [compileExpr]
      rfl

theorem line_compileExprs : ∀ (es : List Expr) (d : Draft), (compileExprs es d).2.line = d.line
  | [], d => by
      rw [compileExprs]
      rfl
  | e :: rest, d => by
      rw [compileExprs]
      exact (line_compileExprs rest _).trans (line_compileExpr e d)

theorem line_compileEntries : ∀ (entries : List (String × Expr)) (d : Draft),
    (compileEntries entries d).2.line = d.line
  | [], d => by
      rw [compileEntries]
      rfl
  | (_, e) :: rest, d => by
      rw [compileEntries]
      exact (line_compileEntries rest _).trans (line_compileExpr e _)

end

theorem line_compileIncrement (next : Option Expr) (d : Draft) :
    (compileIncrement next d).2.line = d.line := by
  cases next with
  | none => rfl
  | some e =>
      rw [compileIncrement]
      exact line_compileExpr e d

namespace Assemble

open Assembly

/-- The step emits the code that `x` yields, and gathers the same. -/
abbrev Emits (y : Assemble Unit) (x : Emit Code) : Prop :=
  ∀ s, y s = some ((), s.take (x s.draft).1 (x s.draft).2)

theorem emits_constant (c : Constant) : Emits (emitConstant c) (Tracepoint.emitConstant c) := by
  intro s
  rw [emitConstant, bind_apply, constantPosition_apply, Option.bind_some, bind_apply, emit_apply,
    Option.bind_some, take_take]
  rfl

theorem emits_atom (a : Atom) : Emits (atom a) (compileAtom a) := by
  cases a with
  | name text =>
      intro s
      rw [atom, bind_apply, namePosition_apply, Option.bind_some, bind_apply, emit_apply,
        Option.bind_some, take_take]
      rfl
  | number _ | bool _ | null | undefined | string _ => exact emits_constant _

theorem emits_binding {decl : FunctionDecl} {p : Proto} :
    Emits (binding decl (some p)) (bindFunction decl p) := by
  intro s
  rw [binding, bindFunction]
  cases decl.name with
  | none => rfl
  | some name =>
      simp only [bind_apply, atLine_apply, functionPosition_apply, namePosition_apply, emit_apply,
        Option.bind_some, take_take, draft_take, line_take]
      rfl

end Assemble

/-! ### Both compilers -/

namespace Assemble

open Assembly

/-- The step does what `x` does, in a place like that of a statement in the other compiler, with
`depth` scopes opened inside of the innermost loop. -/
abbrev Runs (depth : Option ℕ) (y : Assemble Unit) (x : Emit OpenCode) : Prop :=
  ∀ s : Assembly, s.Inside depth → y s = some ((), s.run (x s.draft).1 (x s.draft).2)

/-- The step tests a condition if there is one, and gives the jump that leaves the loop. -/
abbrev Tests (tested : Bool) (y : Assemble (List ℕ)) (x : Emit Code) : Prop :=
  ∀ s : Assembly, y s = some
    (if tested then [s.builder.size + (x s.draft).1.size] else [],
      s.take ((x s.draft).1 ++ exit tested 0 s.line) (x s.draft).2)

/-- The body of a loop, behind some code. -/
theorem Runs.round {y : Assemble Unit} {x : Emit OpenCode} (h : Runs (some 0) y x) (s : Assembly)
    (before : Code) (d : Draft) (again : Option ℕ) :
    y ((s.take before d).inLoops (⟨s.scopes, again, [], []⟩ :: s.loops)) = some ((),
      (s.take (before ++ (x d).1.settle (Op.known again) (s.builder.size + before.size))
        (x d).2).inLoops ((Loop.mk s.scopes again [] []).register
          (s.builder.size + before.size) (x d).1 :: s.loops)) := by
  rw [h _ (inside_inLoops _ _ _ rfl), draft_inLoops, draft_take, run_inLoops]

theorem rounds_apply {tested : Bool} {y : Assemble (List ℕ)} {body increment : Assemble Unit}
    {test : Emit Code} {round : Emit OpenCode} {next : Emit Code} (htest : Tests tested y test)
    (hround : Runs (some 0) body round) (hnext : Emits increment next) {s : Assembly} {line : ℕ}
    (hline : s.line = line) {t n : Code × Draft} {r : OpenCode × Draft} (ht : test s.draft = t)
    (hr : round t.2 = r) (hn : next (r.2.onLine line) = n) :
    rounds line y body increment s =
      some ((), s.take (loopCode tested t.1 r.1.size r.1 n.1 line n.2.line) n.2) := by
  have hposition : s.builder.size + Code.size (t.1 ++ exit tested 0 line) =
      s.builder.size + (t.1.size + (exit tested 0 line).size) := by
    rw [Code.size_append]
  rw [rounds]
  simp only [bind_apply, here_apply, htest _, enterLoop_apply, Option.bind_some, scopes_take,
    loops_take, ht, hline]
  rw [hround.round, Option.bind_some, atLine_apply, Option.bind_some, take_inLoops, take_take,
    draft_inLoops, draft_take, hr, List.append_nil]
  rw [patchContinues_apply s _ _ _ _ rfl rfl, Option.bind_some, hnext, Option.bind_some,
    take_inLoops, take_take, draft_inLoops, draft_take, hn, hposition]
  refine endLoop_apply s tested t.1 n.1 r.1 line n.2 _ _ _ rfl rfl ⟨_, if_pos rfl, ?_⟩
  exact Int.natCast_add _ _

/-- Outside of loops no jump waits. -/
theorem emits_stmts {body : List Stmt} (h : Runs none (stmts body) (compileStmts none body))
    (s : Assembly) :
    stmts body s = some ((), s.take (OpenCode.toCode (compileStmts none body s.draft).1)
      (compileStmts none body s.draft).2) := by
  rw [h s (inside_none s), ← run_ofCode, OpenCode.ofCode_toCode (closed_compileStmts body s.draft)]

/-- What has been emitted from the start on is the code of a function. -/
theorem proto_take (chunkName : String) (name : Option String) (parameters : List String)
    (line : ℕ) (body : Emit Code) :
    ((Assembly.start line).take (body ⟨.empty, #[], line⟩).1
        (body ⟨.empty, #[], line⟩).2).builder.proto chunkName name parameters line =
      protoOf chunkName name parameters line body :=
  congrArg (Builder.proto · chunkName name parameters line)
    (Builder.empty.emitAll_with _ _ _).symm

/-! ### Statements with parts

Each lemma takes what holds of the parts. -/

section

variable {depth : Option ℕ} {condition : Expr} {body : List Stmt} {success failure round : Stmt}

theorem runs_block (hoisted : Bool) (line : ℕ) (hhoist : Emits (hoist body) (Tracepoint.hoist body))
    (hbody : Runs (depth.map (· + 1)) (stmts body) (compileStmts (depth.map (· + 1)) body)) :
    Runs depth (stmt hoisted (.block body line)) (compileStmt hoisted depth (.block body line)) := by
  intro s hs
  rw [stmt, compileStmt]
  simp only [bind_apply, atLine_apply, openScope_apply, hhoist _, Option.bind_some, take_take,
    take_atDepth, draft_atDepth, draft_take, line_take, scopes_take, hbody, inside_take_atDepth,
    inside_deeper, hs]
  simp only [closeScope_apply, run_atDepth, take_atDepth, draft_atDepth, line_atDepth, draft_run,
    line_run, take_run, run_take]
  rfl

theorem runs_conditional_none (hoisted : Bool) (line : ℕ)
    (hcondition : Emits (expr condition) (compileExpr condition))
    (hsuccess : Runs depth (stmt false success) (compileStmt false depth success)) :
    Runs depth (stmt hoisted (.conditional condition success none line))
      (compileStmt hoisted depth (.conditional condition success none line)) := by
  intro s hs
  have hline := line_compileExpr condition (s.draft.onLine line)
  rw [stmt, compileStmt]
  simp only [bind_apply, atLine_apply, hcondition _, emit_apply, Option.bind_some, take_take,
    draft_take, line_take, size_take, hsuccess, inside_take, hs, take_run, List.nil_append, hline,
    Code.size, Nat.add_zero, OpenCode.ofCode_concat]
  rw [← OpenCode.size_ofCode, patch_run]
  simp only [← OpenCode.ofCode_concat]
  rfl

theorem runs_conditional_some (hoisted : Bool) (line : ℕ)
    (hcondition : Emits (expr condition) (compileExpr condition))
    (hsuccess : Runs depth (stmt false success) (compileStmt false depth success))
    (hfailure : Runs depth (stmt false failure) (compileStmt false depth failure)) :
    Runs depth (stmt hoisted (.conditional condition success (some failure) line))
      (compileStmt hoisted depth (.conditional condition success (some failure) line)) := by
  intro s hs
  have hline := line_compileExpr condition (s.draft.onLine line)
  rw [stmt, compileStmt]
  simp only [bind_apply, atLine_apply, hcondition _, emit_apply, Option.bind_some, take_take,
    draft_take, line_take, size_take, hsuccess, inside_take, hs, take_run, List.nil_append, hline,
    Code.size, Nat.add_zero, OpenCode.ofCode_concat, line_run, draft_run, size_run, run_take]
  -- The first jump leads over the second one, which is patched when both branches are there.
  have hskip : ∀ (yes : OpenCode) (pass : Instr × ℕ), pass.1.size = Instr.wideSize →
      ((yes ++ OpenCode.ofCode [pass]).size : Int) = yes.size + Instr.wideSize := by
    intro yes pass hpass
    rw [OpenCode.size_append, OpenCode.size_ofCode, Code.size, hpass]
    exact Int.natCast_add _ _
  have hsize : ∀ (test : OpenCode) (x y : Int32) (mark : ℕ) (yes : OpenCode),
      (test ++ (.instr (.jump .ifFalse x), mark) :: yes).size =
        OpenCode.size (test ++ (.instr (.jump .ifFalse y), mark) :: yes) := by
    intro test x y mark yes
    rw [OpenCode.size_append, OpenCode.size_append]
    rfl
  have hsplit : ∀ (test : OpenCode) (skip : Op × ℕ) (yes : OpenCode) (pass : Instr × ℕ)
      (no : OpenCode), test ++ skip :: (yes ++ OpenCode.ofCode [pass]) ++ no =
        (test ++ skip :: yes) ++ (.instr pass.1, pass.2) :: no := by
    intro test skip yes pass no
    simp only [List.append_assoc, List.cons_append]
    rfl
  rw [List.append_assoc, List.cons_append, ← OpenCode.size_ofCode, patch_run, Option.bind_some,
    hfailure _ (hs.run _ _), Option.bind_some, run_run, hsplit, hsize, patch_run, hskip _ _ rfl]
  simp only [List.append_assoc, List.cons_append]
  rfl

theorem runs_whileLoop (hoisted : Bool) (line : ℕ)
    (hcondition : Emits (expr condition) (compileExpr condition))
    (hround : Runs (some 0) (stmt false round) (compileStmt false (some 0) round)) :
    Runs depth (stmt hoisted (.whileLoop condition round line))
      (compileStmt hoisted depth (.whileLoop condition round line)) := by
  intro s hs
  have hline := line_compileExpr condition (s.draft.onLine line)
  rw [stmt, compileStmt]
  simp only [bind_apply, atLine_apply, here_apply, hcondition _, emit_apply, enterLoop_apply,
    Option.bind_some, take_take, draft_take, line_take, scopes_take, loops_take, size_take,
    List.nil_append, hline, Code.size, Nat.add_zero]
  rw [hround.round, Option.bind_some, take_inLoops, take_take, draft_inLoops, draft_take,
    Code.size_append]
  simp only [Emit.bind_apply, Emit.pure_apply, Emit.emit_apply, Emit.atLine_apply]
  generalize compileExpr condition (s.draft.onLine line) = test
  generalize compileStmt false (some 0) round test.2 = round
  have hcontinue : (s.builder.size : Int) = (s.builder.size + (test.1.size + Instr.wideSize) : ℕ)
      + -(test.1.size + Instr.wideSize : ℕ) := by
    omega
  have hends := endLoop_apply s true test.1 [] round.1 line (round.2.onLine line)
    (Op.known (some s.builder.size)) ((Loop.mk s.scopes (some s.builder.size) [] []).register
      (s.builder.size + (test.1.size + Instr.wideSize)) round.1)
    (-(test.1.size + Instr.wideSize : ℕ)) rfl rfl ⟨_, rfl, hcontinue⟩
  refine hends.trans ?_
  simp only [loopCode, List.append_nil, run_ofCode]
  rfl

theorem runs_forLoop (hoisted : Bool) (line : ℕ) {first : Option Stmt}
    {condition next : Option Expr}
    (hfirst : Runs none (start first) (compileStart first))
    (hcondition : Tests condition.isSome (test condition) (compileTest condition))
    (hround : Runs (some 0) (stmt false round) (compileStmt false (some 0) round))
    (hnext : Emits (increment next) (compileIncrement next)) :
    Runs depth (stmt hoisted (.forLoop first condition next round line))
      (compileStmt hoisted depth (.forLoop first condition next round line)) := by
  intro s hs
  rw [stmt, compileStmt]
  simp only [bind_apply, atLine_apply, openScope_apply, hfirst _ (inside_none _), Option.bind_some,
    draft_atDepth, draft_take, draft_run, line_take, run_atDepth, take_run, run_take, scopes_take]
  rw [rounds_apply hcondition hround hnext (show Assembly.line (atDepth _ _) = line from rfl) rfl
    rfl rfl, Option.bind_some, closeScope_apply]
  simp only [take_atDepth, draft_atDepth, line_atDepth, draft_run, line_run, run_take,
    Emit.bind_apply, Emit.pure_apply, Emit.emit_apply, Emit.atLine_apply]
  generalize compileStart first (s.draft.onLine line) = f
  generalize compileTest condition (f.2.onLine line) = t
  generalize compileStmt false (some 0) round t.2 = r
  have hline : (compileIncrement next (r.2.onLine line)).2.line = line :=
    line_compileIncrement next _
  generalize compileIncrement next (r.2.onLine line) = n at hline ⊢
  have hwhole : ∀ opening rounds closing : Code,
      OpenCode.ofCode [] ++ (OpenCode.ofCode opening ++ (f.1 ++ OpenCode.ofCode [])) ++
        OpenCode.ofCode rounds ++ OpenCode.ofCode closing =
          OpenCode.ofCode opening ++ f.1 ++ OpenCode.ofCode (rounds ++ closing) := by
    intro opening rounds closing
    simp only [OpenCode.ofCode, List.map_append, List.map_nil, List.append_nil, List.nil_append,
      List.append_assoc]
  simp only [hline, hwhole]
  rfl

end

mutual

theorem emits_expr : ∀ e : Expr, e.Placed → Emits (expr e) (compileExpr e)
  | .atom a _ _, _ => by
      rw [expr, compileExpr]
      exact emits_atom a
  | .group inner, h => by
      rw [expr, compileExpr]
      exact emits_expr inner h
  | .unary op operand, h => by
      intro s
      rw [expr, compileExpr]
      simp only [bind_apply, emits_expr operand h, emit_apply, Option.bind_some, take_take,
        draft_take, line_take]
      rfl
  | .binary op left right, h => by
      intro s
      rw [expr, compileExpr]
      simp only [bind_apply, emits_expr left h.1, emits_expr right h.2, emitAll_apply,
        Option.bind_some, take_take, draft_take, line_take, ← List.append_assoc]
      rfl
  | .logical op left right, h => by
      intro s
      rw [expr, compileExpr]
      simp only [bind_apply, emits_expr left h.1, emits_expr right h.2, emit_apply,
        Option.bind_some, take_take, draft_take, line_take, size_take]
      rw [List.singleton_append, patch_take, ← line_compileExpr right]
      simp only [Emit.bind_apply, Emit.pure_apply, Emit.emit_apply, List.append_assoc]
      rfl
  | .assignName name value, h => by
      intro s
      rw [expr, compileExpr]
      simp only [bind_apply, emits_expr value h, namePosition_apply, emit_apply, Option.bind_some,
        take_take, draft_take, line_take]
      rfl
  | .assignProperty object name value, h => by
      intro s
      rw [expr, compileExpr]
      simp only [bind_apply, emits_expr object h.1, emits_expr value h.2, namePosition_apply,
        emit_apply, Option.bind_some, take_take, draft_take, line_take, List.append_nil,
        ← List.append_assoc]
      rfl
  | .assignIndex object index value, h => by
      intro s
      rw [expr, compileExpr]
      simp only [bind_apply, emits_expr object h.1, emits_expr index h.2.1,
        emits_expr value h.2.2, emit_apply, Option.bind_some, take_take, draft_take, line_take,
        ← List.append_assoc]
      rfl
  | .call callee arguments, h => by
      intro s
      rw [expr, compileExpr]
      simp only [bind_apply, emits_expr callee h.1, emits_exprs arguments h.2, emit_apply,
        Option.bind_some, take_take, draft_take, line_take, ← List.append_assoc]
      rfl
  | .property object name, h => by
      intro s
      rw [expr, compileExpr]
      simp only [bind_apply, emits_expr object h, namePosition_apply, emit_apply,
        Option.bind_some, take_take, draft_take, line_take]
      rfl
  | .index object index, h => by
      intro s
      rw [expr, compileExpr]
      simp only [bind_apply, emits_expr object h.1, emits_expr index h.2, emit_apply,
        Option.bind_some, take_take, draft_take, line_take, ← List.append_assoc]
      rfl
  | .array elements, h => by
      intro s
      rw [expr, compileExpr]
      simp only [bind_apply, emits_exprs elements h, emit_apply, Option.bind_some, take_take,
        draft_take, line_take]
      rfl
  | .object es, h => by
      intro s
      rw [expr, compileExpr]
      simp only [bind_apply, emits_entries es h, emit_apply, Option.bind_some, take_take,
        draft_take, line_take]
      rfl
  | .function decl, h => by
      intro s
      rw [expr, compileExpr, function_eq decl h]
      simp only [bind_apply, functionPosition_apply, emit_apply, Option.bind_some, take_take,
        draft_take, line_take]
      rfl

theorem emits_exprs : ∀ es : List Expr, exprsPlaced es → Emits (exprs es) (compileExprs es)
  | [], _ => by
      intro s
      rw [exprs, compileExprs]
      rfl
  | e :: rest, h => by
      intro s
      rw [exprs, compileExprs]
      simp only [bind_apply, emits_expr e h.1, emits_exprs rest h.2, Option.bind_some, take_take,
        draft_take]
      rfl

theorem emits_entries : ∀ es : List (String × Expr), entriesPlaced es →
    Emits (entries es) (compileEntries es)
  | [], _ => by
      intro s
      rw [entries, compileEntries]
      rfl
  | (key, e) :: rest, h => by
      intro s
      rw [entries, compileEntries]
      simp only [bind_apply, emits_constant, emits_expr e h.1, emits_entries rest h.2,
        Option.bind_some, take_take, draft_take, ← List.append_assoc]
      rfl

theorem emits_value : ∀ e : Option Expr, valuePlaced e → Emits (value e) (compileValue e)
  | some e, h => by
      rw [value, compileValue]
      exact emits_expr e h
  | none, _ => by
      rw [value, compileValue]
      exact emits_constant _

theorem function_eq : ∀ decl : FunctionDecl, decl.Placed →
    function decl = some (compileFunction decl)
  | .mk name parameters body line, h => by
      have hbody : Emits (do
          hoist body
          stmts body
          emitConstant .undefined
          let _ ← emit .ret) (emitFunction body) := by
        intro s
        simp only [bind_apply, emits_hoist body h _, emits_stmts (runs_stmts body none h),
          emits_constant _ _, emit_apply, Option.bind_some, take_take, draft_take, line_take,
          ← List.append_assoc]
        rfl
      have hstart := hbody (Assembly.start line)
      rw [compileFunction_mk, ← proto_take, function]
      exact congrArg (Option.bind · fun r =>
        some (r.2.builder.proto (displayName name) name parameters line)) hstart

theorem emits_hoist : ∀ (body : List Stmt) {inLoop inFunction : Bool},
    stmtsPlaced inLoop inFunction body → Emits (hoist body) (Tracepoint.hoist body)
  | [], _, _, _ => by
      intro s
      rw [hoist, Tracepoint.hoist]
      rfl
  | first :: rest, _, _, h => by
      intro s
      have hrest := emits_hoist rest h.2
      cases first with
      | function decl =>
          rw [hoist, Tracepoint.hoist, function_eq decl h.1]
          simp only [bind_apply, emits_binding, hrest, Option.bind_some, take_take, draft_take]
          rfl
      | _ =>
          rw [hoist, Tracepoint.hoist]
          · exact hrest s
          all_goals exact fun decl hdecl => nomatch hdecl

theorem runs_stmts : ∀ (body : List Stmt) (depth : Option ℕ) {inFunction : Bool},
    stmtsPlaced depth.isSome inFunction body → Runs depth (stmts body) (compileStmts depth body)
  | [], depth, _, _ => by
      intro s _
      rw [stmts, compileStmts]
      exact congrArg (fun t => some ((), t)) (run_ofCode s [] s.draft).symm
  | first :: rest, depth, _, h => by
      intro s hs
      rw [stmts, compileStmts, bind_apply, runs_stmt true first depth h.1 s hs, Option.bind_some,
        runs_stmts rest depth h.2 _ (hs.run _ _), run_run]
      rfl

theorem runs_stmt : ∀ (hoisted : Bool) (statement : Stmt) (depth : Option ℕ) {inFunction : Bool},
    statement.Placed depth.isSome inFunction →
      Runs depth (stmt hoisted statement) (compileStmt hoisted depth statement)
  | hoisted, .declare kind name initial line, depth, _, h => by
      intro s _
      rw [stmt, compileStmt]
      simp only [bind_apply, atLine_apply, emits_value initial h, namePosition_apply, emit_apply,
        Option.bind_some, take_take, draft_take, line_take]
      rw [← run_ofCode]
      rfl
  | hoisted, .function decl, depth, _, h => by
      intro s _
      rw [stmt, compileStmt]
      cases hoisted with
      | true =>
          rw [if_pos rfl, if_pos rfl, atLine_apply, ← run_ofCode]
          rfl
      | false =>
          rw [if_neg Bool.false_ne_true, if_neg Bool.false_ne_true, function_eq decl h,
            emits_binding, ← run_ofCode]
          rfl
  | hoisted, .expression e line, depth, _, h => by
      intro s _
      rw [stmt, compileStmt]
      simp only [bind_apply, atLine_apply, emits_expr e h, emit_apply, Option.bind_some, take_take,
        draft_take, line_take]
      rw [← run_ofCode]
      rfl
  | hoisted, .block body line, depth, inFunction, h => by
      have hbody : stmtsPlaced (depth.map (· + 1)).isSome inFunction body := by
        rw [Option.isSome_map]
        exact h
      exact runs_block hoisted line (emits_hoist body h) (runs_stmts body _ hbody)
  | hoisted, .conditional condition success none line, depth, _, h =>
      runs_conditional_none hoisted line (emits_expr condition h.1)
        (runs_stmt false success depth h.2.1)
  | hoisted, .conditional condition success (some failure) line, depth, _, h =>
      runs_conditional_some hoisted line (emits_expr condition h.1)
        (runs_stmt false success depth h.2.1) (runs_stmt false failure depth h.2.2)
  | hoisted, .whileLoop condition body line, depth, _, h =>
      runs_whileLoop hoisted line (emits_expr condition h.1) (runs_stmt false body (some 0) h.2)
  | hoisted, .forLoop first condition next body line, depth, _, h =>
      runs_forLoop hoisted line (runs_start first h.1) (tests_condition condition h.2.1)
        (runs_stmt false body (some 0) h.2.2.2) (emits_increment next h.2.2.1)
  | hoisted, .returnValue result line, depth, _, h => by
      intro s _
      rw [stmt, compileStmt]
      simp only [bind_apply, atLine_apply, emits_value result h.2, emit_apply, Option.bind_some,
        take_take, draft_take, line_take]
      rw [← run_ofCode]
      rfl
  | hoisted, .breakLoop line, some n, _, _ => by
      intro s hs
      have hleaves := breakLoop_apply (s.take [] (s.draft.onLine line)) hs
      rw [stmt, compileStmt, bind_apply, atLine_apply, Option.bind_some, hleaves,
        ← run_ofCode, run_run]
      rfl
  | hoisted, .continueLoop line, some n, _, _ => by
      intro s hs
      have hleaves := continueLoop_apply (s.take [] (s.draft.onLine line)) hs
      rw [stmt, compileStmt, bind_apply, atLine_apply, Option.bind_some, hleaves,
        ← run_ofCode, run_run]
      rfl
  | hoisted, .empty line, depth, _, _ => by
      intro s _
      rw [stmt, compileStmt, atLine_apply, ← run_ofCode]
      rfl

theorem runs_start : ∀ (first : Option Stmt) {inFunction : Bool},
    optionalPlaced false inFunction first → Runs none (start first) (compileStart first)
  | some first, _, h => by
      rw [start, compileStart]
      exact runs_stmt true first none h
  | none, _, _ => by
      intro s _
      rw [start, compileStart]
      exact congrArg (fun t => some ((), t)) (run_ofCode s [] s.draft).symm

theorem tests_condition : ∀ condition : Option Expr, valuePlaced condition →
    Tests condition.isSome (test condition) (compileTest condition)
  | some e, h => by
      intro s
      rw [test, compileTest]
      simp only [bind_apply, emits_expr e h, emit_apply, Option.bind_some, take_take, draft_take,
        line_take, line_compileExpr, size_take]
      rfl
  | none, _ => by
      intro s
      rw [test, compileTest]
      rfl

theorem emits_increment : ∀ next : Option Expr, valuePlaced next →
    Emits (increment next) (compileIncrement next)
  | some e, h => by
      intro s
      rw [increment, compileIncrement]
      simp only [bind_apply, emits_expr e h, emit_apply, Option.bind_some, take_take, draft_take,
        line_take]
      rfl
  | none, _ => by
      intro s
      rw [increment, compileIncrement]
      rfl

end

/-- **The compiler that patches compiles every placed program**, and makes the same function. -/
theorem program_eq {p : Program} (h : stmtsPlaced false false p) :
    program p = some (compileProgram p) := by
  have hprogram : ∀ s, (do
      let _ ← emit .enter
      hoist p
      stmts p
      atLine 0
      let _ ← emit .halt : Assemble Unit) s = some ((), s.take (emitProgram p s.draft).1
        ((emitProgram p s.draft).2.onLine 0)) := by
    intro s
    simp only [bind_apply, emits_hoist p h _, emits_stmts (runs_stmts p none h), emit_apply,
      atLine_apply, Option.bind_some, take_take, draft_take, line_take, List.append_nil,
      ← List.append_assoc]
    rfl
  have hstart := hprogram (Assembly.start 1)
  rw [compileProgram_eq, ← proto_take, program]
  exact congrArg (Option.bind · fun r => some (r.2.builder.proto "PROGRAM" none [] 1)) hstart

end Assemble

end Tracepoint
