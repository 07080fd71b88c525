/-
What compiling gathers.

Constants and functions are only ever added, so a position that was given stays good until the
function is finished.  Each of them is put to use by an instruction that is longer than one byte;
so there are no more of them than bytes of code.

Main definitions:

* `Draft.Grows` — one draft comes after another, with the bytes emitted in between;
* `Proto.Extends` — what a draft has gathered is part of a function;
* `Proto.Compact` — every position in a function fits a word.

Main results:

* `grows_compileExpr`, `grows_compileStmt` and their companions;
* `grows_emitFunction`, `grows_emitProgram` — whole functions and programs;
* `compact_protoOf`, `extends_protoOf` — what is known of the function that is made of a draft.
-/

import Tracepoint.Proofs.Code.Layout

set_option relaxedAutoImplicit false
set_option autoImplicit false

namespace Tracepoint

/-! ### Steps of compiling -/

/-- The draft at another line. -/
def Draft.onLine (d : Draft) (line : ℕ) : Draft :=
  ⟨d.pool, d.functions, line⟩

namespace Emit

variable {α β : Type}

theorem bind_apply (x : Emit α) (f : α → Emit β) (d : Draft) :
    (x >>= f) d = f (x d).1 (x d).2 :=
  rfl

theorem pure_apply (a : α) (d : Draft) : (pure a : Emit α) d = (a, d) :=
  rfl

theorem get_apply (d : Draft) : (get : Emit Draft) d = (d, d) :=
  rfl

theorem emit_apply (is : List Instr) (d : Draft) : emit is d = (is.map (·, d.line), d) :=
  rfl

theorem atLine_apply (line : ℕ) (d : Draft) : atLine line d = ((), d.onLine line) :=
  rfl

end Emit

/-! ### Growing -/

/-- Constants and functions were added, no more of them than bytes of code were emitted. -/
structure Draft.Grows (d : Draft) (emitted : ℕ) (d' : Draft) : Prop where
  pool : d.pool.constants.toList <+: d'.pool.constants.toList
  functions : d.functions.toList <+: d'.functions.toList
  bound : d'.pool.constants.size + d'.functions.size ≤
    d.pool.constants.size + d.functions.size + emitted

namespace Draft.Grows

variable {d d₁ d₂ d₃ : Draft} {m n : ℕ}

theorem refl (d : Draft) : d.Grows 0 d :=
  ⟨List.prefix_rfl, List.prefix_rfl, Nat.le_refl _⟩

theorem trans (h : d₁.Grows m d₂) (h' : d₂.Grows n d₃) : d₁.Grows (m + n) d₃ := by
  refine ⟨h.pool.trans h'.pool, h.functions.trans h'.functions, ?_⟩
  have hbound := h.bound
  have hbound' := h'.bound
  omega

theorem mono (h : d₁.Grows m d₂) (hle : m ≤ n) : d₁.Grows n d₂ :=
  ⟨h.pool, h.functions, Nat.le_trans h.bound (Nat.add_le_add_left hle _)⟩

theorem atLine (d : Draft) (line : ℕ) : d.Grows 0 (d.onLine line) :=
  ⟨List.prefix_rfl, List.prefix_rfl, Nat.le_refl _⟩

theorem constantPosition (d : Draft) (c : Constant) : d.Grows 1 (constantPosition c d).2 := by
  have hpush : ∀ p : Pool, p.constants.toList <+: (p.push c).2.constants.toList ∧
      (p.push c).2.constants.size ≤ p.constants.size + 1 := by
    intro p
    have happend : p.constants.toList <+: (p.append c).2.constants.toList ∧
        (p.append c).2.constants.size ≤ p.constants.size + 1 := by
      simp [Pool.append]
    cases c with
    | string text =>
        simp only [Pool.push, Pool.intern]
        split
        · exact ⟨List.prefix_rfl, Nat.le_succ _⟩
        · exact happend
    | number _ => exact happend
    | bool _ => exact happend
    | null => exact happend
    | undefined => exact happend
  obtain ⟨hpool, hsize⟩ := hpush d.pool
  refine ⟨hpool, List.prefix_rfl, ?_⟩
  simp only [Tracepoint.constantPosition, modifyGet, MonadStateOf.modifyGet, StateT.modifyGet, pure]
  omega

theorem functionPosition (d : Draft) (p : Proto) : d.Grows 1 (functionPosition p d).2 := by
  refine ⟨List.prefix_rfl, ?_, ?_⟩
  · simp [Tracepoint.functionPosition, modifyGet, MonadStateOf.modifyGet, StateT.modifyGet, pure]
  · simp [Tracepoint.functionPosition, modifyGet, MonadStateOf.modifyGet, StateT.modifyGet, pure,
      Nat.add_assoc]

theorem namePosition (d : Draft) (name : String) : d.Grows 1 (namePosition name d).2 :=
  constantPosition d _

theorem emitConstant (d : Draft) (c : Constant) :
    d.Grows (Code.size (emitConstant c d).1) (emitConstant c d).2 :=
  (constantPosition d c).mono (Nat.le_add_left 1 4)

end Draft.Grows

theorem grows_compileAtom (a : Atom) (d : Draft) :
    d.Grows (Code.size (compileAtom a d).1) (compileAtom a d).2 := by
  cases a with
  | name text => exact (Draft.Grows.namePosition d text).mono (Nat.le_add_left 1 4)
  | number _ => exact .emitConstant d _
  | bool _ => exact .emitConstant d _
  | null => exact .emitConstant d _
  | undefined => exact .emitConstant d _
  | string _ => exact .emitConstant d _

theorem grows_bindFunction (decl : FunctionDecl) (compiled : Proto) (d : Draft) :
    d.Grows (Code.size (bindFunction decl compiled d).1) (bindFunction decl compiled d).2 := by
  cases hname : decl.name with
  | none =>
      simp only [bindFunction, hname]
      exact .refl d
  | some name =>
      simp only [bindFunction, hname]
      exact (((Draft.Grows.atLine d decl.line).trans (.functionPosition _ compiled)).trans
        (.namePosition _ name)).mono (Nat.le_add_left 2 9)

mutual

theorem grows_compileExpr : ∀ (e : Expr) (d : Draft),
    d.Grows (Code.size (compileExpr e d).1) (compileExpr e d).2
  | .atom a _ _, d => by
      rw [compileExpr]
      exact grows_compileAtom a d
  | .group inner, d => by
      rw [compileExpr]
      exact grows_compileExpr inner d
  | .unary op operand, d => by
      have hoperand := grows_compileExpr operand d
      simp only [compileExpr, Emit.bind_apply, Emit.pure_apply, Emit.emit_apply, Code.size_append]
      exact hoperand.mono (Nat.le_add_right _ _)
  | .binary op left right, d => by
      have hleft := grows_compileExpr left d
      have hright := grows_compileExpr right (compileExpr left d).2
      simp only [compileExpr, Emit.bind_apply, Emit.pure_apply, Emit.emit_apply, Code.size_append]
      exact (hleft.trans hright).mono (by omega)
  | .logical op left right, d => by
      have hleft := grows_compileExpr left d
      have hright := grows_compileExpr right (compileExpr left d).2
      simp only [compileExpr, Emit.bind_apply, Emit.pure_apply, Emit.emit_apply, Code.size_append]
      exact (hleft.trans hright).mono (by omega)
  | .assignName name value, d => by
      have hvalue := grows_compileExpr value d
      have hname := Draft.Grows.namePosition (compileExpr value d).2 name
      simp only [compileExpr, Emit.bind_apply, Emit.pure_apply, Emit.emit_apply, Code.size_append,
        List.map_cons, List.map_nil, Code.size, Instr.size, Instr.wideSize]
      exact (hvalue.trans hname).mono (by omega)
  | .assignProperty object name value, d => by
      have hobject := grows_compileExpr object d
      have hvalue := grows_compileExpr value (compileExpr object d).2
      have hname := Draft.Grows.namePosition (compileExpr value (compileExpr object d).2).2 name
      simp only [compileExpr, Emit.bind_apply, Emit.pure_apply, Emit.emit_apply, Code.size_append,
        List.map_cons, List.map_nil, Code.size, Instr.size, Instr.wideSize]
      exact ((hobject.trans hvalue).trans hname).mono (by omega)
  | .assignIndex object index value, d => by
      have hobject := grows_compileExpr object d
      have hindex := grows_compileExpr index (compileExpr object d).2
      have hvalue := grows_compileExpr value (compileExpr index (compileExpr object d).2).2
      simp only [compileExpr, Emit.bind_apply, Emit.pure_apply, Emit.emit_apply, Code.size_append]
      exact ((hobject.trans hindex).trans hvalue).mono (by omega)
  | .call callee arguments, d => by
      have hcallee := grows_compileExpr callee d
      have harguments := grows_compileExprs arguments (compileExpr callee d).2
      simp only [compileExpr, Emit.bind_apply, Emit.pure_apply, Emit.emit_apply, Code.size_append]
      exact (hcallee.trans harguments).mono (by omega)
  | .property object name, d => by
      have hobject := grows_compileExpr object d
      have hname := Draft.Grows.namePosition (compileExpr object d).2 name
      simp only [compileExpr, Emit.bind_apply, Emit.pure_apply, Emit.emit_apply, Code.size_append,
        List.map_cons, List.map_nil, Code.size, Instr.size, Instr.wideSize]
      exact (hobject.trans hname).mono (by omega)
  | .index object index, d => by
      have hobject := grows_compileExpr object d
      have hindex := grows_compileExpr index (compileExpr object d).2
      simp only [compileExpr, Emit.bind_apply, Emit.pure_apply, Emit.emit_apply, Code.size_append]
      exact (hobject.trans hindex).mono (by omega)
  | .array elements, d => by
      have helements := grows_compileExprs elements d
      simp only [compileExpr, Emit.bind_apply, Emit.pure_apply, Emit.emit_apply, Code.size_append]
      exact helements.mono (Nat.le_add_right _ _)
  | .object entries, d => by
      have hentries := grows_compileEntries entries d
      simp only [compileExpr, Emit.bind_apply, Emit.pure_apply, Emit.emit_apply, Code.size_append]
      exact hentries.mono (Nat.le_add_right _ _)
  | .function decl, d => by
      simp only [compileExpr, Emit.bind_apply, Emit.emit_apply]
      exact (Draft.Grows.functionPosition d _).mono (Nat.le_add_left 1 4)

theorem grows_compileExprs : ∀ (es : List Expr) (d : Draft),
    d.Grows (Code.size (compileExprs es d).1) (compileExprs es d).2
  | [], d => by
      rw [compileExprs]
      exact .refl d
  | e :: rest, d => by
      have he := grows_compileExpr e d
      have hrest := grows_compileExprs rest (compileExpr e d).2
      simp only [compileExprs, Emit.bind_apply, Emit.pure_apply, Code.size_append]
      exact he.trans hrest

theorem grows_compileEntries : ∀ (entries : List (String × Expr)) (d : Draft),
    d.Grows (Code.size (compileEntries entries d).1) (compileEntries entries d).2
  | [], d => by
      rw [compileEntries]
      exact .refl d
  | (key, e) :: rest, d => by
      have hkey := Draft.Grows.emitConstant d (.string key)
      have he := grows_compileExpr e (emitConstant (.string key) d).2
      have hrest := grows_compileEntries rest (compileExpr e (emitConstant (.string key) d).2).2
      simp only [compileEntries, Emit.bind_apply, Emit.pure_apply, Code.size_append]
      exact (hkey.trans he).trans hrest

end

theorem grows_compileValue (value : Option Expr) (d : Draft) :
    d.Grows (Code.size (compileValue value d).1) (compileValue value d).2 := by
  cases value with
  | none =>
      rw [compileValue]
      exact .emitConstant d _
  | some e =>
      rw [compileValue]
      exact grows_compileExpr e d

theorem grows_compileTest (condition : Option Expr) (d : Draft) :
    d.Grows (Code.size (compileTest condition d).1) (compileTest condition d).2 := by
  cases condition with
  | none =>
      rw [compileTest]
      exact .refl d
  | some e =>
      rw [compileTest]
      exact grows_compileExpr e d

theorem grows_compileIncrement (increment : Option Expr) (d : Draft) :
    d.Grows (Code.size (compileIncrement increment d).1) (compileIncrement increment d).2 := by
  cases increment with
  | none =>
      rw [compileIncrement]
      exact .refl d
  | some e =>
      have he := grows_compileExpr e d
      simp only [compileIncrement, Emit.bind_apply, Emit.pure_apply, Emit.emit_apply,
        Code.size_append]
      exact he.mono (Nat.le_add_right _ _)

theorem grows_hoist (body : List Stmt) (d : Draft) :
    d.Grows (Code.size (hoist body d).1) (hoist body d).2 := by
  induction body generalizing d with
  | nil =>
      rw [hoist]
      exact .refl d
  | cons s rest ih =>
      cases s with
      | function decl =>
          have hdecl := grows_bindFunction decl (compileFunction decl) d
          have hrest := ih (bindFunction decl (compileFunction decl) d).2
          simp only [hoist, Emit.bind_apply, Emit.pure_apply, Code.size_append]
          exact hdecl.trans hrest
      | _ =>
          simp only [hoist]
          exact ih d

mutual

theorem grows_compileStmts : ∀ (depth : Option ℕ) (body : List Stmt) (d : Draft),
    d.Grows (OpenCode.size (compileStmts depth body d).1) (compileStmts depth body d).2
  | _, [], d => by
      rw [compileStmts]
      exact .refl d
  | depth, s :: rest, d => by
      have hs := grows_compileStmt true depth s d
      have hrest := grows_compileStmts depth rest (compileStmt true depth s d).2
      simp only [compileStmts, Emit.bind_apply, Emit.pure_apply, OpenCode.size_append]
      exact hs.trans hrest

theorem grows_compileStmt : ∀ (hoisted : Bool) (depth : Option ℕ) (s : Stmt) (d : Draft),
    d.Grows (OpenCode.size (compileStmt hoisted depth s d).1) (compileStmt hoisted depth s d).2
  | _, _, .declare kind name initial line, d => by
      have hvalue := grows_compileValue initial (d.onLine line)
      have hname := Draft.Grows.namePosition (compileValue initial (d.onLine line)).2 name
      simp only [compileStmt, Emit.bind_apply, Emit.pure_apply, Emit.emit_apply,
        Emit.atLine_apply, OpenCode.size_ofCode, Code.size_append, List.map_cons, List.map_nil,
        Code.size, Instr.size, Instr.wideSize]
      exact (((Draft.Grows.atLine d line).trans hvalue).trans hname).mono (by omega)
  | true, _, .function decl, d => by
      simp only [compileStmt, Emit.bind_apply, Emit.pure_apply, Emit.atLine_apply, if_true]
      exact .atLine d _
  | false, _, .function decl, d => by
      have hdecl := grows_bindFunction decl (compileFunction decl) d
      simp only [compileStmt, Emit.bind_apply, Emit.pure_apply, Bool.false_eq_true, if_false,
        OpenCode.size_ofCode]
      exact hdecl
  | _, _, .expression e line, d => by
      have he := grows_compileExpr e (d.onLine line)
      simp only [compileStmt, Emit.bind_apply, Emit.pure_apply, Emit.emit_apply,
        Emit.atLine_apply, OpenCode.size_ofCode, Code.size_append]
      exact ((Draft.Grows.atLine d line).trans he).mono (by omega)
  | _, depth, .block body line, d => by
      have hbindings := grows_hoist body (d.onLine line)
      have hbody := grows_compileStmts (depth.map (· + 1)) body (hoist body (d.onLine line)).2
      simp only [compileStmt, Emit.bind_apply, Emit.pure_apply, Emit.emit_apply,
        Emit.atLine_apply, OpenCode.size_append, OpenCode.size_ofCode, Code.size_append]
      exact (((Draft.Grows.atLine d line).trans hbindings).trans hbody).mono (by omega)
  | _, depth, .conditional condition success none line, d => by
      have htest := grows_compileExpr condition (d.onLine line)
      have hyes := grows_compileStmt false depth success (compileExpr condition (d.onLine line)).2
      simp only [compileStmt, Emit.bind_apply, Emit.pure_apply, Emit.atLine_apply,
        OpenCode.size_append, OpenCode.size_ofCode, Code.size_append]
      exact (((Draft.Grows.atLine d line).trans htest).trans hyes).mono (by omega)
  | _, depth, .conditional condition success (some failure) line, d => by
      have htest := grows_compileExpr condition (d.onLine line)
      have hyes := grows_compileStmt false depth success (compileExpr condition (d.onLine line)).2
      have hno := grows_compileStmt false depth failure
        (compileStmt false depth success (compileExpr condition (d.onLine line)).2).2
      simp only [compileStmt, Emit.bind_apply, Emit.pure_apply, Emit.atLine_apply,
        Emit.get_apply, OpenCode.size_append, OpenCode.size_ofCode, Code.size_append]
      exact ((((Draft.Grows.atLine d line).trans htest).trans hyes).trans hno).mono (by omega)
  | _, _, .whileLoop condition body line, d => by
      have htest := grows_compileExpr condition (d.onLine line)
      have hround := grows_compileStmt false (some 0) body (compileExpr condition (d.onLine line)).2
      simp only [compileStmt, Emit.bind_apply, Emit.pure_apply, Emit.emit_apply,
        Emit.atLine_apply, OpenCode.size_ofCode, Code.size_append, OpenCode.size_close]
      exact ((((Draft.Grows.atLine d line).trans htest).trans hround).trans (.atLine _ line)).mono
        (by omega)
  | _, _, .forLoop start condition increment body line, d => by
      have hstart := grows_compileStart start (d.onLine line)
      have htest := grows_compileTest condition ((compileStart start (d.onLine line)).2.onLine line)
      have hround := grows_compileStmt false (some 0) body
        (compileTest condition ((compileStart start (d.onLine line)).2.onLine line)).2
      have hnext := grows_compileIncrement increment
        ((compileStmt false (some 0) body (compileTest condition
          ((compileStart start (d.onLine line)).2.onLine line)).2).2.onLine line)
      simp only [compileStmt, Emit.bind_apply, Emit.pure_apply, Emit.emit_apply,
        Emit.atLine_apply, OpenCode.size_append, OpenCode.size_ofCode, Code.size_append,
        OpenCode.size_close]
      exact (((((((Draft.Grows.atLine d line).trans hstart).trans (.atLine _ line)).trans
        htest).trans hround).trans (.atLine _ line)).trans hnext).mono (by omega)
  | _, _, .returnValue value line, d => by
      have hvalue := grows_compileValue value (d.onLine line)
      simp only [compileStmt, Emit.bind_apply, Emit.pure_apply, Emit.emit_apply,
        Emit.atLine_apply, OpenCode.size_ofCode, Code.size_append]
      exact ((Draft.Grows.atLine d line).trans hvalue).mono (by omega)
  | _, none, .breakLoop line, d => by
      rw [compileStmt]
      exact .atLine d line
  | _, some n, .breakLoop line, d => by
      rw [compileStmt]
      exact (Draft.Grows.atLine d line).mono (Nat.zero_le _)
  | _, none, .continueLoop line, d => by
      rw [compileStmt]
      exact .atLine d line
  | _, some n, .continueLoop line, d => by
      rw [compileStmt]
      exact (Draft.Grows.atLine d line).mono (Nat.zero_le _)
  | _, _, .empty line, d => by
      rw [compileStmt]
      exact .atLine d line

theorem grows_compileStart : ∀ (start : Option Stmt) (d : Draft),
    d.Grows (OpenCode.size (compileStart start d).1) (compileStart start d).2
  | none, d => by
      rw [compileStart]
      exact .refl d
  | some s, d => by
      rw [compileStart]
      exact grows_compileStmt true none s d

end

/-! ### Outside loops -/

mutual

/-- Outside loops nothing waits. -/
theorem closed_compileStmts : ∀ (body : List Stmt) (d : Draft),
    (compileStmts none body d).1.Closed
  | [], d => by
      rw [compileStmts]
      exact OpenCode.closed_ofCode []
  | s :: rest, d => by
      simp only [compileStmts, Emit.bind_apply, Emit.pure_apply]
      exact (closed_compileStmt true s d).append (closed_compileStmts rest _)

theorem closed_compileStmt : ∀ (hoisted : Bool) (s : Stmt) (d : Draft),
    (compileStmt hoisted none s d).1.Closed
  | _, .block body line, d => by
      simp only [compileStmt, Emit.bind_apply, Emit.pure_apply, Option.map_none]
      exact ((OpenCode.closed_ofCode _).append (closed_compileStmts body _)).append
        (OpenCode.closed_ofCode _)
  | _, .conditional condition success none line, d => by
      simp only [compileStmt, Emit.bind_apply, Emit.pure_apply]
      exact (OpenCode.closed_ofCode _).append (closed_compileStmt false success _)
  | _, .conditional condition success (some failure) line, d => by
      simp only [compileStmt, Emit.bind_apply, Emit.pure_apply]
      exact (((OpenCode.closed_ofCode _).append (closed_compileStmt false success _)).append
        (OpenCode.closed_ofCode _)).append (closed_compileStmt false failure _)
  | _, .forLoop start condition increment body line, d => by
      simp only [compileStmt, Emit.bind_apply, Emit.pure_apply]
      exact ((OpenCode.closed_ofCode _).append (closed_compileStart start _)).append
        (OpenCode.closed_ofCode _)
  | true, .function _, d => by
      simp only [compileStmt, Emit.bind_apply, Emit.pure_apply, if_true]
      exact OpenCode.closed_ofCode []
  | false, .function _, d => by
      simp only [compileStmt, Emit.bind_apply, Emit.pure_apply, Bool.false_eq_true, if_false]
      exact OpenCode.closed_ofCode _
  | _, .breakLoop _, d | _, .continueLoop _, d | _, .empty _, d => by
      rw [compileStmt]
      exact OpenCode.closed_ofCode []
  | _, .declare _ _ _ _, d | _, .expression _ _, d | _, .whileLoop _ _ _, d
  | _, .returnValue _ _, d => by
      simp only [compileStmt, Emit.bind_apply, Emit.pure_apply]
      exact OpenCode.closed_ofCode _

theorem closed_compileStart : ∀ (start : Option Stmt) (d : Draft),
    (compileStart start d).1.Closed
  | none, d => by
      rw [compileStart]
      exact OpenCode.closed_ofCode []
  | some s, d => by
      rw [compileStart]
      exact closed_compileStmt true s d

end

/-! ### Code that is not empty -/

theorem size_emit_pos (i : Instr) (is : List Instr) (line : ℕ) :
    0 < Code.size ((i :: is).map (·, line)) :=
  Nat.add_pos_left i.size_pos _

/-- Every expression needs code. -/
theorem size_compileExpr_pos : ∀ (e : Expr) (d : Draft), 0 < Code.size (compileExpr e d).1
  | .atom a _ _, d => by
      rw [compileExpr]
      cases a <;> exact size_emit_pos _ [] d.line
  | .group inner, d => by
      rw [compileExpr]
      exact size_compileExpr_pos inner d
  | .binary op _ _, d => by
      simp only [compileExpr, Emit.bind_apply, Emit.pure_apply, Emit.emit_apply, Code.size_append]
      cases op <;> exact Nat.add_pos_right _ (size_emit_pos _ _ _)
  | .logical _ _ _, d => by
      simp only [compileExpr, Emit.bind_apply, Emit.pure_apply, Emit.emit_apply, Code.size_append]
      exact Nat.add_pos_left (Nat.add_pos_right _ (size_emit_pos _ [] _)) _
  | .function decl, d => by
      simp only [compileExpr, Emit.bind_apply, Emit.emit_apply]
      exact size_emit_pos _ [] _
  | .unary _ _, d | .assignName _ _, d | .assignProperty _ _ _, d | .assignIndex _ _ _, d
  | .call _ _, d | .property _ _, d | .index _ _, d | .array _, d | .object _, d => by
      simp only [compileExpr, Emit.bind_apply, Emit.pure_apply, Emit.emit_apply, Code.size_append]
      exact Nat.add_pos_right _ (size_emit_pos _ [] _)

theorem length_le_size_compileExprs (es : List Expr) (d : Draft) :
    es.length ≤ Code.size (compileExprs es d).1 := by
  induction es generalizing d with
  | nil => exact Nat.zero_le _
  | cons e rest ih =>
      have he := size_compileExpr_pos e d
      have hrest := ih (compileExpr e d).2
      simp only [compileExprs, Emit.bind_apply, Emit.pure_apply, Code.size_append,
        List.length_cons]
      omega

theorem length_le_size_compileEntries (entries : List (String × Expr)) (d : Draft) :
    entries.length ≤ Code.size (compileEntries entries d).1 := by
  induction entries generalizing d with
  | nil => exact Nat.zero_le _
  | cons entry rest ih =>
      have he := size_compileExpr_pos entry.2 (emitConstant (.string entry.1) d).2
      have hrest := ih (compileExpr entry.2 (emitConstant (.string entry.1) d).2).2
      simp only [compileEntries, Emit.bind_apply, Emit.pure_apply, Code.size_append,
        List.length_cons]
      omega

/-! ### Finished functions -/

/-- What a draft has gathered is part of a function. -/
structure Proto.Extends (p : Proto) (d : Draft) : Prop where
  pool : d.pool.constants.toList <+: p.chunk.pool.constants.toList
  functions : d.functions.toList <+: p.functions

/-- The code of a function and of all functions inside it is small enough for its jumps. -/
inductive Proto.Fits : Proto → Prop
  | mk {p : Proto} (code : p.chunk.code.size < Chunk.sizeLimit)
      (functions : ∀ q ∈ p.functions, q.Fits) : p.Fits

namespace Proto.Fits

theorem code {p : Proto} (h : p.Fits) : p.chunk.code.size < Chunk.sizeLimit := by
  cases h with
  | mk hcode _ => exact hcode

theorem function {p q : Proto} (h : p.Fits) (hq : q ∈ p.functions) : q.Fits := by
  cases h with
  | mk _ hfunctions => exact hfunctions q hq

end Proto.Fits

/-- No position in a function needs more than a word. -/
structure Proto.Compact (p : Proto) : Prop where
  fits : p.Fits
  positions : p.chunk.pool.constants.size + p.functions.length ≤ p.chunk.code.size

namespace Proto.Extends

variable {p : Proto} {d d' : Draft} {n : ℕ}

theorem of_grows (hgrows : d.Grows n d') (h : p.Extends d') : p.Extends d :=
  ⟨hgrows.pool.trans h.pool, hgrows.functions.trans h.functions⟩

/-- The position of a constant leads to it. -/
theorem constant {c : Constant} (hp : p.Compact) (h : p.Extends (constantPosition c d).2) :
    p.chunk.pool.get? (constantPosition c d).1.toNat = some c := by
  have hget := d.pool.get?_push c
  have hfound : p.chunk.pool.get? (d.pool.push c).1 = some c := by
    rw [Pool.get?, ← Array.getElem?_toList] at hget ⊢
    obtain ⟨hlt, hc⟩ := List.getElem?_eq_some_iff.1 hget
    rw [List.prefix_iff_getElem?.1 h.pool _ hlt]
    exact congrArg some hc
  have hlt : (d.pool.push c).1 < p.chunk.pool.constants.size :=
    (Array.getElem?_eq_some_iff.1 hfound).1
  have hcode := hp.fits.code
  have hpositions := hp.positions
  have hposition : (constantPosition c d).1.toNat = (d.pool.push c).1 := by
    apply UInt32.toNat_ofNat_of_lt'
    exact Nat.lt_trans (show (d.pool.push c).1 < Chunk.sizeLimit by omega) (by decide)
  rw [hposition]
  exact hfound

/-- The position of a name leads to it. -/
theorem name {name : String} (hp : p.Compact) (h : p.Extends (namePosition name d).2) :
    p.chunk.pool.text? (namePosition name d).1.toNat = some name := by
  have hget : p.chunk.pool.get? (namePosition name d).1.toNat = some (.string name) :=
    h.constant hp
  rw [Pool.text?, hget]

/-- The position of a function leads to it. -/
theorem function {q : Proto} (hp : p.Compact) (h : p.Extends (functionPosition q d).2) :
    p.functions[(functionPosition q d).1.toNat]? = some q := by
  have hfound : p.functions[d.functions.size]? = some q := by
    have hpush : (d.functions.push q).toList[d.functions.size]? = some q := by
      rw [Array.getElem?_toList, Array.getElem?_push_size]
    obtain ⟨hlt, hq⟩ := List.getElem?_eq_some_iff.1 hpush
    exact (List.prefix_iff_getElem?.1 h.functions _ hlt).trans (congrArg some hq)
  have hlt : d.functions.size < p.functions.length := (List.getElem?_eq_some_iff.1 hfound).1
  have hcode := hp.fits.code
  have hpositions := hp.positions
  have hposition : (functionPosition q d).1.toNat = d.functions.size := by
    apply UInt32.toNat_ofNat_of_lt'
    exact Nat.lt_trans (show d.functions.size < Chunk.sizeLimit by omega) (by decide)
  rw [hposition]
  exact hfound

end Proto.Extends

/-- What compiling the body of a function emits. -/
def emitFunction (body : List Stmt) : Emit Code := do
  let bindings ← hoist body
  let code ← compileStmts none body
  let value ← emitConstant .undefined
  let last ← emit [.ret]
  return bindings ++ OpenCode.toCode code ++ value ++ last

/-- What compiling a program emits. -/
def emitProgram (program : Program) : Emit Code := do
  let enter ← emit [.enter]
  let bindings ← hoist program
  let code ← compileStmts none program
  return enter ++ bindings ++ OpenCode.toCode code ++ [(.halt, 0)]

theorem grows_emitFunction (body : List Stmt) (d : Draft) :
    d.Grows (Code.size (emitFunction body d).1) (emitFunction body d).2 := by
  have hbindings := grows_hoist body d
  have hcode := grows_compileStmts none body (hoist body d).2
  have hvalue := Draft.Grows.emitConstant (compileStmts none body (hoist body d).2).2 .undefined
  have hclosed := closed_compileStmts body (hoist body d).2
  simp only [emitFunction, Emit.bind_apply, Emit.pure_apply, Emit.emit_apply, Code.size_append,
    OpenCode.size_toCode hclosed]
  exact ((hbindings.trans hcode).trans hvalue).mono (Nat.le_add_right _ _)

theorem grows_emitProgram (program : Program) (d : Draft) :
    d.Grows (Code.size (emitProgram program d).1) (emitProgram program d).2 := by
  have hbindings := grows_hoist program d
  have hcode := grows_compileStmts none program (hoist program d).2
  have hclosed := closed_compileStmts program (hoist program d).2
  simp only [emitProgram, Emit.bind_apply, Emit.pure_apply, Emit.emit_apply, Code.size_append,
    OpenCode.size_toCode hclosed]
  exact (hbindings.trans hcode).mono (by omega)

theorem compileFunction_mk (name : Option String) (parameters : List String) (body : List Stmt)
    (line : ℕ) :
    compileFunction (.mk name parameters body line) =
      protoOf (displayName name) name parameters line (emitFunction body) := by
  rw [compileFunction]
  rfl

theorem compileProgram_eq (program : Program) :
    compileProgram program = protoOf "PROGRAM" none [] 1 (emitProgram program) :=
  rfl

theorem parameters_compileFunction (decl : FunctionDecl) :
    (compileFunction decl).parameters = decl.parameters := by
  cases decl with
  | mk name parameters body line =>
      rw [compileFunction_mk]
      rfl

section

variable (chunkName : String) (name : Option String) (parameters : List String) (line : ℕ)
  (body : Emit Code)

theorem compact_protoOf
    (hgrows : Draft.Grows ⟨.empty, #[], line⟩ (Code.size (body ⟨.empty, #[], line⟩).1)
      (body ⟨.empty, #[], line⟩).2)
    (hfits : (protoOf chunkName name parameters line body).Fits) :
    (protoOf chunkName name parameters line body).Compact := by
  refine ⟨hfits, ?_⟩
  have hbound : _ ≤ 0 + 0 + _ := hgrows.bound
  have hstop := (Code.lies_protoOf chunkName name parameters line body).bounds.1
  rw [protoOf_pool, protoOf_functions, Array.length_toList]
  omega

theorem extends_protoOf :
    (protoOf chunkName name parameters line body).Extends (body ⟨.empty, #[], line⟩).2 := by
  have hpool := protoOf_pool chunkName name parameters line body
  have hfunctions := protoOf_functions chunkName name parameters line body
  constructor
  · exact hpool ▸ List.prefix_rfl
  · exact hfunctions ▸ List.prefix_rfl

end

end Tracepoint
