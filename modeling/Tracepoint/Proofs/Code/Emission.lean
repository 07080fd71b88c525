/-
What is emitted.

Every instruction belongs to the line of a statement or of a function, whatever code it is part
of; only the end of a program belongs to no line.  And the functions that are gathered on the way
are those of the tree.

Main definitions:

* `Code.Lined`, `OpenCode.Lined` — instructions that belong to lines and do not end a program;
* `Code.Ends` — such instructions with the last one of a function or a program;
* `Draft.Lined` — a draft at such a line, with functions of such trees;
* `Emit.Keeps` — a step of compiling keeps to such lines.

Main results:

* `lined_compileExpr`, `lined_compileStmt` and their companions;
* `lined_emitFunction`, `lined_emitProgram` — **whole functions and programs**.
-/

import Tracepoint.Proofs.Code.Growth
import Tracepoint.Proofs.Grammar.Lines
import Tracepoint.Proofs.Grammar.Placement

set_option relaxedAutoImplicit false
set_option autoImplicit false

namespace Tracepoint

/-! ### Code that belongs to lines -/

/-- The instructions belong to lines that `L` holds of, and none of them ends a program. -/
def Code.Lined (L : ℕ → Prop) (code : Code) : Prop :=
  ∀ x ∈ code, L x.2 ∧ x.1 ≠ .halt

/-- The same of code in which jumps may wait. -/
def OpenCode.Lined (L : ℕ → Prop) (code : OpenCode) : Prop :=
  ∀ x ∈ code, L x.2 ∧ x.1 ≠ .instr .halt

section

variable {L : ℕ → Prop}

theorem Code.Lined.nil : Code.Lined L [] :=
  fun _ hx => nomatch hx

theorem Code.Lined.append {first second : Code} (h : first.Lined L) (h' : second.Lined L) :
    Code.Lined L (first ++ second) :=
  List.forall_mem_append.2 ⟨h, h'⟩

theorem Code.Lined.single {i : Instr} {line : ℕ} (hline : L line) (hi : i ≠ .halt) :
    Code.Lined L [(i, line)] :=
  List.forall_mem_singleton.2 ⟨hline, hi⟩

theorem OpenCode.Lined.nil : OpenCode.Lined L [] :=
  fun _ hx => nomatch hx

theorem OpenCode.Lined.append {first second : OpenCode} (h : first.Lined L) (h' : second.Lined L) :
    OpenCode.Lined L (first ++ second) :=
  List.forall_mem_append.2 ⟨h, h'⟩

theorem OpenCode.Lined.single {op : Op} {line : ℕ} (hline : L line) (hop : op ≠ .instr .halt) :
    OpenCode.Lined L [(op, line)] :=
  List.forall_mem_singleton.2 ⟨hline, hop⟩

theorem Code.Lined.ofCode {code : Code} (h : code.Lined L) : (OpenCode.ofCode code).Lined L := by
  intro x hx
  obtain ⟨⟨i, line⟩, hmem, rfl⟩ := List.mem_map.1 hx
  exact ⟨(h _ hmem).1, fun heq => (h _ hmem).2 (Op.instr.inj heq)⟩

theorem OpenCode.Lined.toCode {code : OpenCode} (h : code.Lined L) : code.toCode.Lined L := by
  intro x hx
  obtain ⟨⟨op, line⟩, hmem, heq⟩ := List.mem_filterMap.1 hx
  cases op with
  | instr i =>
      cases heq
      exact ⟨(h _ hmem).1, fun heq => (h _ hmem).2 (congrArg Op.instr heq)⟩
  | breakLoop => cases heq
  | continueLoop => cases heq

/-- Waiting jumps become jumps. -/
theorem OpenCode.Lined.close {code : OpenCode} (h : code.Lined L) (breakTo continueTo : Int)
    (position : ℕ) : (close breakTo continueTo position code).Lined L := by
  induction code generalizing position with
  | nil => exact .nil
  | cons entry rest ih =>
      obtain ⟨op, line⟩ := entry
      obtain ⟨⟨hline, hop⟩, hrest⟩ := List.forall_mem_cons.1 h
      refine List.forall_mem_cons.2 ⟨⟨hline, ?_⟩, ih hrest _⟩
      cases op with
      | instr i => exact fun heq => hop (congrArg Op.instr heq)
      | breakLoop => exact Instr.noConfusion
      | continueLoop => exact Instr.noConfusion

end

/-! ### Steps of compiling -/

/-- The draft is at a line that `L` holds of, and has gathered functions of placed trees with such
lines. -/
structure Draft.Lined (L : ℕ → Prop) (d : Draft) : Prop where
  line : L d.line
  functions : ∀ q ∈ d.functions, ∃ decl : FunctionDecl, decl.Placed ∧ decl.Lined L ∧
    q = compileFunction decl

/-- A step of compiling keeps to lines that `L` holds of, and yields only what `P` holds of. -/
def Emit.Keeps {α : Type} (L : ℕ → Prop) (x : Emit α) (P : α → Prop) : Prop :=
  ∀ d : Draft, d.Lined L → (x d).2.Lined L ∧ P (x d).1

namespace Emit.Keeps

variable {α β : Type} {L : ℕ → Prop} {x : Emit α} {P : α → Prop} {Q : β → Prop}

theorem bind {f : α → Emit β} (hx : Emit.Keeps L x P) (hf : ∀ a, P a → Emit.Keeps L (f a) Q) :
    Emit.Keeps L (x >>= f) Q := by
  intro d hd
  obtain ⟨hd', ha⟩ := hx d hd
  exact hf _ ha _ hd'

theorem pure {a : α} (h : P a) : Emit.Keeps L (pure a : Emit α) P :=
  fun _ hd => ⟨hd, h⟩

theorem get : Emit.Keeps L (get : Emit Draft) (Draft.Lined L) :=
  fun _ hd => ⟨hd, hd⟩

theorem atLine {line : ℕ} (hline : L line) : Emit.Keeps L (atLine line) fun _ => True :=
  fun _ hd => ⟨⟨hline, hd.functions⟩, trivial⟩

theorem constantPosition (c : Constant) : Emit.Keeps L (constantPosition c) fun _ => True :=
  fun _ hd => ⟨⟨hd.line, hd.functions⟩, trivial⟩

theorem namePosition (name : String) : Emit.Keeps L (namePosition name) fun _ => True :=
  constantPosition _

theorem functionPosition {decl : FunctionDecl} (hplaced : decl.Placed) (hlined : decl.Lined L) :
    Emit.Keeps L (functionPosition (compileFunction decl)) fun _ => True := by
  refine fun d hd => ⟨⟨hd.line, fun q hq => ?_⟩, trivial⟩
  rcases Array.mem_push.1 hq with hq | rfl
  · exact hd.functions q hq
  · exact ⟨decl, hplaced, hlined, rfl⟩

theorem emit {is : List Instr} (his : .halt ∉ is) : Emit.Keeps L (emit is) (Code.Lined L) := by
  intro d hd
  refine ⟨hd, fun x hx => ?_⟩
  obtain ⟨i, hi, rfl⟩ := List.mem_map.1 hx
  exact ⟨hd.line, fun heq => his (heq ▸ hi)⟩

/-- A single instruction. -/
theorem emitOne {i : Instr} (hi : i ≠ .halt) : Emit.Keeps L (Tracepoint.emit [i]) (Code.Lined L) :=
  emit fun h => hi (List.mem_singleton.1 h).symm

/-- Code with a single instruction behind it. -/
theorem last {i : Instr} {code : Code} (hcode : code.Lined L) (hi : i ≠ .halt) :
    Emit.Keeps L (Tracepoint.emit [i] >>= fun last => Pure.pure (code ++ last)) (Code.Lined L) :=
  (emitOne hi).bind fun _ hlast => .pure (hcode.append hlast)

/-- The same of code in which no jumps wait. -/
theorem lastOpen {i : Instr} {code : Code} (hcode : code.Lined L) (hi : i ≠ .halt) :
    Emit.Keeps L (Tracepoint.emit [i] >>= fun last => Pure.pure (OpenCode.ofCode (code ++ last)))
      (OpenCode.Lined L) :=
  (emitOne hi).bind fun _ hlast => .pure (hcode.append hlast).ofCode

theorem emitConstant (c : Constant) : Emit.Keeps L (emitConstant c) (Code.Lined L) :=
  (constantPosition c).bind fun _ _ => emitOne Instr.noConfusion

end Emit.Keeps

section

variable {L : ℕ → Prop}

theorem lined_compileAtom (a : Atom) : Emit.Keeps L (compileAtom a) (Code.Lined L) := by
  cases a with
  | name text => exact (Emit.Keeps.namePosition text).bind fun _ _ => .emitOne Instr.noConfusion
  | number _ => exact .emitConstant _
  | bool _ => exact .emitConstant _
  | null => exact .emitConstant _
  | undefined => exact .emitConstant _
  | string _ => exact .emitConstant _

theorem lined_bindFunction {decl : FunctionDecl} (hplaced : decl.Placed) (hlined : decl.Lined L) :
    Emit.Keeps L (bindFunction decl (compileFunction decl)) (Code.Lined L) := by
  have hline : L decl.line := by
    cases decl
    exact hlined.1
  rw [bindFunction]
  split
  · exact .pure .nil
  next name _ =>
    refine (Emit.Keeps.atLine hline).bind fun _ _ => ?_
    refine (Emit.Keeps.functionPosition hplaced hlined).bind fun position _ => ?_
    refine (Emit.Keeps.emitOne Instr.noConfusion).bind fun closure hclosure => ?_
    refine (Emit.Keeps.namePosition name).bind fun name _ => ?_
    exact .last hclosure Instr.noConfusion

/-! ### Expressions -/

mutual

theorem lined_compileExpr : ∀ e : Expr, e.Placed → e.Lined L →
    Emit.Keeps L (compileExpr e) (Code.Lined L)
  | .atom a _ _, _, _ => by
      rw [compileExpr]
      exact lined_compileAtom a
  | .group inner, hplaced, hlined => by
      rw [compileExpr]
      exact lined_compileExpr inner hplaced hlined
  | .unary op operand, hplaced, hlined => by
      rw [compileExpr]
      refine (lined_compileExpr operand hplaced hlined).bind fun value hvalue => .last hvalue ?_
      cases op <;> exact Instr.noConfusion
  | .binary op left right, hplaced, hlined => by
      rw [compileExpr]
      refine (lined_compileExpr left hplaced.1 hlined.1).bind fun first hfirst => ?_
      refine (lined_compileExpr right hplaced.2 hlined.2).bind fun second hsecond => ?_
      refine (Emit.Keeps.emit ?_).bind fun last hlast =>
        .pure ((hfirst.append hsecond).append hlast)
      cases op <;> decide
  | .logical op left right, hplaced, hlined => by
      rw [compileExpr]
      refine (lined_compileExpr left hplaced.1 hlined.1).bind fun first hfirst => ?_
      refine (lined_compileExpr right hplaced.2 hlined.2).bind fun second hsecond => ?_
      exact (Emit.Keeps.emitOne Instr.noConfusion).bind fun jump hjump =>
        .pure ((hfirst.append hjump).append hsecond)
  | .assignName name value, hplaced, hlined => by
      rw [compileExpr]
      refine (lined_compileExpr value hplaced hlined).bind fun value hvalue => ?_
      refine (Emit.Keeps.namePosition name).bind fun name _ => ?_
      exact .last hvalue Instr.noConfusion
  | .assignProperty object name value, hplaced, hlined => by
      rw [compileExpr]
      refine (lined_compileExpr object hplaced.1 hlined.1).bind fun object hobject => ?_
      refine (lined_compileExpr value hplaced.2 hlined.2).bind fun value hvalue => ?_
      refine (Emit.Keeps.namePosition name).bind fun name _ => ?_
      exact .last (hobject.append hvalue) Instr.noConfusion
  | .assignIndex object index value, hplaced, hlined => by
      rw [compileExpr]
      refine (lined_compileExpr object hplaced.1 hlined.1).bind fun object hobject => ?_
      refine (lined_compileExpr index hplaced.2.1 hlined.2.1).bind fun index hindex => ?_
      refine (lined_compileExpr value hplaced.2.2 hlined.2.2).bind fun value hvalue => ?_
      exact .last ((hobject.append hindex).append hvalue) Instr.noConfusion
  | .call callee arguments, hplaced, hlined => by
      rw [compileExpr]
      refine (lined_compileExpr callee hplaced.1 hlined.1).bind fun callee hcallee => ?_
      refine (lined_compileExprs arguments hplaced.2 hlined.2).bind fun values hvalues => ?_
      exact .last (hcallee.append hvalues) Instr.noConfusion
  | .property object name, hplaced, hlined => by
      rw [compileExpr]
      refine (lined_compileExpr object hplaced hlined).bind fun object hobject => ?_
      refine (Emit.Keeps.namePosition name).bind fun name _ => ?_
      exact .last hobject Instr.noConfusion
  | .index object index, hplaced, hlined => by
      rw [compileExpr]
      refine (lined_compileExpr object hplaced.1 hlined.1).bind fun object hobject => ?_
      refine (lined_compileExpr index hplaced.2 hlined.2).bind fun index hindex => ?_
      exact .last (hobject.append hindex) Instr.noConfusion
  | .array elements, hplaced, hlined => by
      rw [compileExpr]
      refine (lined_compileExprs elements hplaced hlined).bind fun values hvalues => ?_
      exact .last hvalues Instr.noConfusion
  | .object entries, hplaced, hlined => by
      rw [compileExpr]
      refine (lined_compileEntries entries hplaced hlined).bind fun values hvalues => ?_
      exact .last hvalues Instr.noConfusion
  | .function decl, hplaced, hlined => by
      rw [compileExpr]
      exact (Emit.Keeps.functionPosition hplaced hlined).bind fun _ _ =>
        .emitOne Instr.noConfusion

theorem lined_compileExprs : ∀ es : List Expr, exprsPlaced es → exprsLined L es →
    Emit.Keeps L (compileExprs es) (Code.Lined L)
  | [], _, _ => by
      rw [compileExprs]
      exact .pure .nil
  | e :: rest, hplaced, hlined => by
      rw [compileExprs]
      refine (lined_compileExpr e hplaced.1 hlined.1).bind fun first hfirst => ?_
      exact (lined_compileExprs rest hplaced.2 hlined.2).bind fun others hothers =>
        .pure (hfirst.append hothers)

theorem lined_compileEntries : ∀ entries : List (String × Expr), entriesPlaced entries →
    entriesLined L entries → Emit.Keeps L (compileEntries entries) (Code.Lined L)
  | [], _, _ => by
      rw [compileEntries]
      exact .pure .nil
  | (key, e) :: rest, hplaced, hlined => by
      rw [compileEntries]
      refine (Emit.Keeps.emitConstant _).bind fun key hkey => ?_
      refine (lined_compileExpr e hplaced.1 hlined.1).bind fun value hvalue => ?_
      exact (lined_compileEntries rest hplaced.2 hlined.2).bind fun others hothers =>
        .pure ((hkey.append hvalue).append hothers)

end

theorem lined_compileValue {value : Option Expr} (hplaced : valuePlaced value)
    (hlined : valueLined L value) : Emit.Keeps L (compileValue value) (Code.Lined L) := by
  cases value with
  | none =>
      rw [compileValue]
      exact .emitConstant _
  | some e =>
      rw [compileValue]
      exact lined_compileExpr e hplaced hlined

theorem lined_compileTest {condition : Option Expr} (hplaced : valuePlaced condition)
    (hlined : valueLined L condition) : Emit.Keeps L (compileTest condition) (Code.Lined L) := by
  cases condition with
  | none =>
      rw [compileTest]
      exact .pure .nil
  | some e =>
      rw [compileTest]
      exact lined_compileExpr e hplaced hlined

theorem lined_compileIncrement {increment : Option Expr} (hplaced : valuePlaced increment)
    (hlined : valueLined L increment) :
    Emit.Keeps L (compileIncrement increment) (Code.Lined L) := by
  cases increment with
  | none =>
      rw [compileIncrement]
      exact .pure .nil
  | some e =>
      rw [compileIncrement]
      refine (lined_compileExpr e hplaced hlined).bind fun value hvalue => ?_
      exact .last hvalue Instr.noConfusion

/-! ### Statements -/

theorem lined_hoist {inLoop inFunction : Bool} {body : List Stmt}
    (hplaced : stmtsPlaced inLoop inFunction body) (hlined : stmtsLined L body) :
    Emit.Keeps L (hoist body) (Code.Lined L) := by
  induction body with
  | nil =>
      rw [hoist]
      exact .pure .nil
  | cons s rest ih =>
      cases s with
      | function decl =>
          rw [hoist]
          refine (lined_bindFunction hplaced.1 hlined.1).bind fun first hfirst => ?_
          exact (ih hplaced.2 hlined.2).bind fun others hothers => .pure (hfirst.append hothers)
      | _ =>
          rw [hoist]
          · exact ih hplaced.2 hlined.2
          · exact fun _ => Stmt.noConfusion

/-- Leaving a loop, and the scopes inside it. -/
theorem lined_leave {count line : ℕ} {op : Op} (hline : L line) (hop : op ≠ .instr .halt) :
    OpenCode.Lined L
      (OpenCode.ofCode (List.replicate count (.popScope, line)) ++ [(op, line)]) := by
  refine .append (Code.Lined.ofCode fun x hx => ?_) (.single hline hop)
  rw [List.eq_of_mem_replicate hx]
  exact ⟨hline, Instr.noConfusion⟩

mutual

theorem lined_compileStmts : ∀ (depth : Option ℕ) (body : List Stmt) (inLoop inFunction : Bool),
    stmtsPlaced inLoop inFunction body → stmtsLined L body →
    Emit.Keeps L (compileStmts depth body) (OpenCode.Lined L)
  | _, [], _, _, _, _ => by
      rw [compileStmts]
      exact .pure .nil
  | depth, s :: rest, inLoop, inFunction, hplaced, hlined => by
      rw [compileStmts]
      refine (lined_compileStmt true depth s inLoop inFunction hplaced.1 hlined.1).bind
        fun first hfirst => ?_
      exact (lined_compileStmts depth rest inLoop inFunction hplaced.2 hlined.2).bind
        fun others hothers => .pure (hfirst.append hothers)

theorem lined_compileStmt : ∀ (hoisted : Bool) (depth : Option ℕ) (s : Stmt)
    (inLoop inFunction : Bool), s.Placed inLoop inFunction → s.Lined L →
    Emit.Keeps L (compileStmt hoisted depth s) (OpenCode.Lined L)
  | _, _, .declare kind name initial line, _, _, hplaced, hlined => by
      rw [compileStmt]
      refine (Emit.Keeps.atLine hlined.1).bind fun _ _ => ?_
      refine (lined_compileValue hplaced hlined.2).bind fun value hvalue => ?_
      refine (Emit.Keeps.namePosition name).bind fun name _ => ?_
      exact .lastOpen hvalue Instr.noConfusion
  | true, _, .function decl, _, _, hplaced, hlined => by
      have hline : L decl.line := by
        cases decl
        exact hlined.1
      rw [compileStmt]
      exact (Emit.Keeps.atLine hline).bind fun _ _ => .pure .nil
  | false, _, .function decl, _, _, hplaced, hlined => by
      rw [compileStmt]
      exact (lined_bindFunction hplaced hlined).bind fun code hcode => .pure hcode.ofCode
  | _, _, .expression e line, _, _, hplaced, hlined => by
      rw [compileStmt]
      refine (Emit.Keeps.atLine hlined.1).bind fun _ _ => ?_
      refine (lined_compileExpr e hplaced hlined.2).bind fun value hvalue => ?_
      exact .lastOpen hvalue Instr.noConfusion
  | _, depth, .block body line, inLoop, inFunction, hplaced, hlined => by
      rw [compileStmt]
      refine (Emit.Keeps.atLine hlined.1).bind fun _ _ => ?_
      refine (Emit.Keeps.emitOne Instr.noConfusion).bind fun start hstart => ?_
      refine (lined_hoist hplaced hlined.2).bind fun bindings hbindings => ?_
      refine (lined_compileStmts _ body inLoop inFunction hplaced hlined.2).bind
        fun code hcode => ?_
      exact (Emit.Keeps.emitOne Instr.noConfusion).bind fun last hlast =>
        .pure (((hstart.append hbindings).ofCode.append hcode).append hlast.ofCode)
  | _, depth, .conditional condition success none line, inLoop, inFunction, hplaced, hlined => by
      obtain ⟨hline, hcondition, hsuccess, -⟩ := hlined
      rw [compileStmt]
      refine (Emit.Keeps.atLine hline).bind fun _ _ => ?_
      refine (lined_compileExpr condition hplaced.1 hcondition).bind fun test htest => ?_
      refine (lined_compileStmt false depth success inLoop inFunction hplaced.2.1 hsuccess).bind
        fun yes hyes => ?_
      exact .pure ((htest.append (.single hline Instr.noConfusion)).ofCode.append hyes)
  | _, depth, .conditional condition success (some failure) line, inLoop, inFunction, hplaced,
      hlined => by
      obtain ⟨hline, hcondition, hsuccess, hfailure⟩ := hlined
      rw [compileStmt]
      refine (Emit.Keeps.atLine hline).bind fun _ _ => ?_
      refine (lined_compileExpr condition hplaced.1 hcondition).bind fun test htest => ?_
      refine (lined_compileStmt false depth success inLoop inFunction hplaced.2.1 hsuccess).bind
        fun yes hyes => ?_
      refine Emit.Keeps.get.bind fun d hd => ?_
      refine (lined_compileStmt false depth failure inLoop inFunction hplaced.2.2 hfailure).bind
        fun no hno => ?_
      exact .pure ((((htest.append (.single hline Instr.noConfusion)).ofCode.append hyes).append
        (Code.Lined.ofCode (.single hd.line Instr.noConfusion))).append hno)
  | _, _, .whileLoop condition body line, inLoop, inFunction, hplaced, hlined => by
      obtain ⟨hline, hcondition, hbody⟩ := hlined
      rw [compileStmt]
      refine (Emit.Keeps.atLine hline).bind fun _ _ => ?_
      refine (lined_compileExpr condition hplaced.1 hcondition).bind fun test htest => ?_
      refine (lined_compileStmt false _ body true inFunction hplaced.2 hbody).bind
        fun round hround => ?_
      refine (Emit.Keeps.atLine hline).bind fun _ _ => ?_
      refine (Emit.Keeps.emitOne Instr.noConfusion).bind fun skip hskip => ?_
      refine (Emit.Keeps.emitOne Instr.noConfusion).bind fun back hback => ?_
      exact .pure (((htest.append hskip).append (hround.close _ _ _)).append hback).ofCode
  | _, _, .forLoop start condition increment body line, inLoop, inFunction, hplaced, hlined => by
      obtain ⟨hline, hstart, hcondition, hincrement, hbody⟩ := hlined
      obtain ⟨hstartPlaced, hconditionPlaced, hincrementPlaced, hbodyPlaced⟩ := hplaced
      rw [compileStmt]
      refine (Emit.Keeps.atLine hline).bind fun _ _ => ?_
      refine (Emit.Keeps.emitOne Instr.noConfusion).bind fun opening hopening => ?_
      refine (lined_compileStart start inFunction hstartPlaced hstart).bind fun first hfirst => ?_
      refine (Emit.Keeps.atLine hline).bind fun _ _ => ?_
      refine (lined_compileTest hconditionPlaced hcondition).bind fun test htest => ?_
      refine (lined_compileStmt false _ body true inFunction hbodyPlaced hbody).bind
        fun round hround => ?_
      refine (Emit.Keeps.atLine hline).bind fun _ _ => ?_
      refine (lined_compileIncrement hincrementPlaced hincrement).bind fun next hnext => ?_
      refine (Emit.Keeps.emit (by split <;> simp)).bind fun skip hskip => ?_
      refine (Emit.Keeps.emitOne Instr.noConfusion).bind fun back hback => ?_
      refine (Emit.Keeps.emitOne Instr.noConfusion).bind fun closing hclosing => ?_
      exact .pure ((hopening.ofCode.append hfirst).append (((((htest.append hskip).append
        (hround.close _ _ _)).append hnext).append hback).append hclosing).ofCode)
  | _, _, .returnValue value line, _, _, hplaced, hlined => by
      rw [compileStmt]
      refine (Emit.Keeps.atLine hlined.1).bind fun _ _ => ?_
      refine (lined_compileValue hplaced.2 hlined.2).bind fun value hvalue => ?_
      exact .lastOpen hvalue Instr.noConfusion
  | _, none, .breakLoop line, _, _, _, hlined => by
      rw [compileStmt]
      exact (Emit.Keeps.atLine hlined).bind fun _ _ => .pure .nil
  | _, some n, .breakLoop line, _, _, _, hlined => by
      rw [compileStmt]
      exact (Emit.Keeps.atLine hlined).bind fun _ _ => .pure (lined_leave hlined Op.noConfusion)
  | _, none, .continueLoop line, _, _, _, hlined => by
      rw [compileStmt]
      exact (Emit.Keeps.atLine hlined).bind fun _ _ => .pure .nil
  | _, some n, .continueLoop line, _, _, _, hlined => by
      rw [compileStmt]
      exact (Emit.Keeps.atLine hlined).bind fun _ _ => .pure (lined_leave hlined Op.noConfusion)
  | _, _, .empty line, _, _, _, hlined => by
      rw [compileStmt]
      exact (Emit.Keeps.atLine hlined).bind fun _ _ => .pure .nil

theorem lined_compileStart : ∀ (start : Option Stmt) (inFunction : Bool),
    optionalPlaced false inFunction start → optionalLined L start →
    Emit.Keeps L (compileStart start) (OpenCode.Lined L)
  | none, _, _, _ => by
      rw [compileStart]
      exact .pure .nil
  | some s, inFunction, hplaced, hlined => by
      rw [compileStart]
      exact lined_compileStmt true none s false inFunction hplaced hlined

end

/-! ### Functions and programs -/

/-- The code ends with `last`. It belongs to a line that `L` holds of, but the end of a program to
none. -/
def Code.Ends (L : ℕ → Prop) (last : Instr) (code : Code) : Prop :=
  ∃ before line, code = before ++ [(last, line)] ∧ Code.Lined L before ∧
    if last = .halt then line = 0 else L line

/-- **The code of a function ends by returning.** -/
theorem lined_emitFunction {body : List Stmt} (hplaced : stmtsPlaced false true body)
    (hlined : stmtsLined L body) : Emit.Keeps L (emitFunction body) (Code.Ends L .ret) := by
  refine (lined_hoist hplaced hlined).bind fun bindings hbindings => ?_
  refine (lined_compileStmts none body false true hplaced hlined).bind fun code hcode => ?_
  refine (Emit.Keeps.emitConstant .undefined).bind fun value hvalue d hd => ⟨hd, ?_⟩
  refine ⟨_, d.line, rfl, (hbindings.append hcode.toCode).append hvalue, ?_⟩
  rw [if_neg Instr.noConfusion]
  exact hd.line

/-- **The code of a program ends with the only instruction that ends a program.** -/
theorem lined_emitProgram {program : Program} (hplaced : stmtsPlaced false false program)
    (hlined : stmtsLined L program) : Emit.Keeps L (emitProgram program) (Code.Ends L .halt) := by
  refine (Emit.Keeps.emitOne Instr.noConfusion).bind fun enter henter => ?_
  refine (lined_hoist hplaced hlined).bind fun bindings hbindings => ?_
  refine (lined_compileStmts none program false false hplaced hlined).bind fun code hcode => ?_
  refine .pure ⟨_, 0, rfl, (henter.append hbindings).append hcode.toCode, ?_⟩
  rw [if_pos rfl]

end

end Tracepoint
