/-
The code of straight programs.

A straight program is a list of declarations of variables and of expressions, without any function
in them.  The code of each of its statements lies on one line.  Control enters it at its start and
leaves it at its end: jumps inside it lead forward and never behind the last instruction, which
takes the value of the statement off the operands, or declares a variable with it.

Main definitions:

* `Stmt.Straight` — the statements;
* `Stmt.declared?`, `declaredBy` — the variables that they declare;
* `Code.Flat` — code on one line that control leaves at its end;
* `Emit.Stays` — a step of compiling stays on its line and gathers no functions;
* `Stmt.Coded`, `stmtsCoded` — the code of a straight statement, and of those up to the end of a
  program.

Main results:

* `Code.Flat.ahead` — where control goes inside flat code;
* `flat_compileExpr` — expressions without functions have flat code;
* `coded_emitProgram` — **the code of a straight program**.
-/

import Tracepoint.Proofs.Code.Flow
import Tracepoint.Proofs.Code.Table
import Tracepoint.Proofs.Grammar.Lines

set_option relaxedAutoImplicit false
set_option autoImplicit false

namespace Tracepoint

/-! ### Straight statements -/

namespace Stmt

/-- A variable is declared or an expression evaluated, and no function stands in the statement:
inside expressions, functions are all that has lines. -/
def Straight : Stmt → Prop
  | declare _ _ initial _ => valueLined (fun _ => False) initial
  | expression e _ => e.Lined fun _ => False
  | _ => False

/-- The variable that a statement declares. -/
def declared? : Stmt → Option String
  | declare _ name _ _ => some name
  | _ => none

theorem Straight.line_of_lined {L : ℕ → Prop} {s : Stmt} (h : s.Straight) (hs : s.Lined L) :
    L s.line := by
  cases s with
  | declare _ _ _ _ => exact hs.1
  | expression _ _ => exact hs.1
  | function _ => exact h.elim
  | block _ _ => exact h.elim
  | conditional _ _ _ _ => exact h.elim
  | whileLoop _ _ _ => exact h.elim
  | forLoop _ _ _ _ _ => exact h.elim
  | returnValue _ _ => exact h.elim
  | breakLoop _ => exact h.elim
  | continueLoop _ => exact h.elim
  | empty _ => exact h.elim

end Stmt

/-! ### Declared variables -/

/-- The variables that statements declare, each once, in the order of first declaration. -/
def declaredBy (stmts : List Stmt) : List String :=
  (stmts.filterMap Stmt.declared?).eraseDups

theorem eraseDups_concat (names : List String) (name : String) :
    (names ++ [name]).eraseDups =
      if name ∉ names.eraseDups then names.eraseDups ++ [name] else names.eraseDups := by
  rw [List.eraseDups_append]
  by_cases hname : name ∈ names
  · simp [List.removeAll, hname]
  · simp [List.removeAll, hname, List.eraseDups_cons]

theorem eraseDups_of_nodup {names : List String} (h : names.Nodup) : names.eraseDups = names := by
  induction names with
  | nil => rfl
  | cons name rest ih =>
      obtain ⟨hname, hrest⟩ := List.nodup_cons.1 h
      have hothers : rest.filter (fun other => !other == name) = rest := by
        refine List.filter_eq_self.2 fun other hother => ?_
        have hne : other ≠ name := fun heq => hname (heq ▸ hother)
        rw [beq_eq_false_iff_ne.2 hne]
        rfl
      rw [List.eraseDups_cons, hothers, ih hrest]

/-- A declaration adds its variable, if it is a new one. -/
theorem declaredBy_declare {done : List Stmt} {s : Stmt} {name : String}
    (h : s.declared? = some name) :
    declaredBy (done ++ [s]) =
      if name ∉ declaredBy done then declaredBy done ++ [name] else declaredBy done := by
  rw [declaredBy, List.filterMap_append, List.filterMap_cons_some h, List.filterMap_nil,
    eraseDups_concat, declaredBy]

theorem declaredBy_other {done : List Stmt} {s : Stmt} (h : s.declared? = none) :
    declaredBy (done ++ [s]) = declaredBy done := by
  rw [declaredBy, List.filterMap_append, List.filterMap_cons_none h, List.filterMap_nil,
    List.append_nil, declaredBy]

/-! ### Flat code -/

/-- The instruction goes on inside its frame and its scope, and declares nothing. -/
def Instr.Steady (i : Instr) : Prop :=
  (i.isPlain = true ∧ ∀ w kind, i ≠ .declare w kind) ∨ ∃ kind distance, i = .jump kind distance

namespace Code

/-- Code on one line. Control goes through it, or jumps forward inside it, and leaves it at its
end. -/
inductive Flat (line : ℕ) : Code → Prop
  | nil : Flat line []
  | single {i : Instr} (plain : i.isPlain = true) (declares : ∀ w kind, i ≠ .declare w kind) :
      Flat line [(i, line)]
  /-- A jump over code, which is flat itself. -/
  | jump (kind : JumpKind) {body : Code} (flat : Flat line body) :
      Flat line ((.jump kind (Int32.ofInt body.size), line) :: body)
  | append {first second : Code} (flat : Flat line first) (flat' : Flat line second) :
      Flat line (first ++ second)

namespace Flat

variable {line : ℕ} {code : Code}

theorem mem (h : Flat line code) : ∀ x ∈ code, x.1.Steady ∧ x.2 = line := by
  induction h with
  | nil => exact fun x hx => nomatch hx
  | single plain declares => exact List.forall_mem_singleton.2 ⟨.inl ⟨plain, declares⟩, rfl⟩
  | jump kind _ ih => exact List.forall_mem_cons.2 ⟨⟨.inr ⟨_, _, rfl⟩, rfl⟩, ih⟩
  | append _ _ ih ih' => exact List.forall_mem_append.2 ⟨ih, ih'⟩

/-- Where a jump leads that goes over so much code. -/
theorem target_of_jump {kind : JumpKind} {size next target : ℕ} {σ σ' : Shape}
    (hsize : size < Chunk.sizeLimit)
    (h : (target, σ') ∈ (Instr.jump kind (Int32.ofInt size)).successors next σ) :
    target = next ∨ target = next + size := by
  have hover : Instr.target next (Int32.ofInt size) = next + size := by
    rw [Instr.target, Int32.toInt_ofInt_of_le (by simp only [Chunk.sizeLimit] at hsize; omega)
      (by simp only [Chunk.sizeLimit] at hsize; omega)]
    exact Int.toNat_natCast _
  rw [← hover]
  cases kind with
  | always => exact .inr (Prod.mk.inj (List.mem_singleton.1 h)).1
  | _ =>
      rcases List.mem_cons.1 h with h | h
      · exact .inl (Prod.mk.inj h).1
      · exact .inr (Prod.mk.inj (List.mem_singleton.1 h)).1

/-- **Where control goes inside flat code**: over some of the code behind, and not further. -/
theorem ahead (h : Flat line code) {before after : Code} {x : Instr × ℕ}
    (hcode : code = before ++ x :: after) (hsize : after.size < Chunk.sizeLimit)
    {next target : ℕ} {σ σ' : Shape} (hleads : (target, σ') ∈ x.1.successors next σ) :
    ∃ inner rest, after = inner ++ rest ∧ target = next + inner.size := by
  induction h generalizing before after with
  | nil => exact absurd hcode.symm (List.append_ne_nil_of_right_ne_nil _ (List.cons_ne_nil _ _))
  | @single i plain declares =>
      cases before with
      | nil =>
          obtain ⟨rfl, rfl⟩ := List.cons.inj hcode
          rw [i.successors_of_isPlain plain] at hleads
          exact ⟨[], [], rfl, (Prod.mk.inj (List.mem_singleton.1 hleads)).1⟩
      | cons y before =>
          exact absurd (List.cons.inj hcode).2.symm
            (List.append_ne_nil_of_right_ne_nil _ (List.cons_ne_nil _ _))
  | @jump kind body flat ih =>
      cases before with
      | nil =>
          obtain ⟨rfl, rfl⟩ := List.cons.inj hcode
          rcases target_of_jump hsize hleads with rfl | rfl
          · exact ⟨[], body, rfl, rfl⟩
          · exact ⟨body, [], (List.append_nil _).symm, rfl⟩
      | cons y before => exact ih (List.cons.inj hcode).2 hsize
  | @append first second _ _ ih ih' =>
      rcases List.append_eq_append_iff.1 hcode with ⟨more, rfl, hsecond⟩ | ⟨more, rfl, hmore⟩
      · exact ih' hsecond hsize
      · cases more with
        | nil => exact ih' (show second = [] ++ x :: after from hmore.symm) hsize
        | cons y more =>
            obtain rfl : x = y := (List.cons.inj hmore).1
            obtain rfl : after = more ++ second := (List.cons.inj hmore).2
            rw [size_append] at hsize
            obtain ⟨inner, rest, rfl, htarget⟩ := ih rfl (by omega)
            exact ⟨inner, rest ++ second, List.append_assoc .., htarget⟩

end Flat

end Code

/-! ### Steps of compiling -/

/-- A step of compiling stays on its line and gathers no functions, and yields only what `P` holds
of. -/
def Emit.Stays {α : Type} (line : ℕ) (x : Emit α) (P : α → Prop) : Prop :=
  ∀ d : Draft, d.line = line →
    (x d).2.line = line ∧ (x d).2.functions = d.functions ∧ P (x d).1

namespace Emit.Stays

variable {α β : Type} {line : ℕ} {x : Emit α} {P : α → Prop} {Q : β → Prop}

theorem bind {f : α → Emit β} (hx : Emit.Stays line x P)
    (hf : ∀ a, P a → Emit.Stays line (f a) Q) : Emit.Stays line (x >>= f) Q := by
  intro d hd
  obtain ⟨hline, hfunctions, ha⟩ := hx d hd
  obtain ⟨hline', hfunctions', hb⟩ := hf _ ha _ hline
  exact ⟨hline', hfunctions'.trans hfunctions, hb⟩

theorem pure {a : α} (h : P a) : Emit.Stays line (pure a : Emit α) P :=
  fun _ hd => ⟨hd, rfl, h⟩

theorem constantPosition (c : Constant) :
    Emit.Stays line (constantPosition c) fun _ => True :=
  fun _ hd => ⟨hd, rfl, trivial⟩

theorem namePosition (name : String) : Emit.Stays line (namePosition name) fun _ => True :=
  constantPosition _

/-- A single instruction that leads to the one behind it. -/
theorem emitOne {i : Instr} (plain : i.isPlain = true) (declares : ∀ w kind, i ≠ .declare w kind) :
    Emit.Stays line (emit [i]) (Code.Flat line) := by
  rintro d rfl
  exact ⟨rfl, rfl, .single plain declares⟩

theorem emitConstant (c : Constant) : Emit.Stays line (emitConstant c) (Code.Flat line) :=
  (constantPosition c).bind fun _ _ => emitOne rfl fun _ _ => Instr.noConfusion

end Emit.Stays

/-! ### Expressions -/

section

variable {line : ℕ}

theorem flat_compileAtom (a : Atom) : Emit.Stays line (compileAtom a) (Code.Flat line) := by
  cases a with
  | name text =>
      exact (Emit.Stays.namePosition text).bind fun _ _ =>
        .emitOne rfl fun _ _ => Instr.noConfusion
  | number _ => exact .emitConstant _
  | bool _ => exact .emitConstant _
  | null => exact .emitConstant _
  | undefined => exact .emitConstant _
  | string _ => exact .emitConstant _

theorem flat_instr (op : UnaryOp) : Emit.Stays line (emit [op.instr]) (Code.Flat line) := by
  cases op with
  | not => exact .emitOne rfl fun _ _ => Instr.noConfusion
  | negate => exact .emitOne rfl fun _ _ => Instr.noConfusion

theorem flat_instrs (op : BinaryOp) : Emit.Stays line (emit op.instrs) (Code.Flat line) := by
  have hone : ∀ o : Operation, Code.Flat line [(.operate o, line)] := fun o =>
    .single rfl fun _ _ => Instr.noConfusion
  have hnot : Code.Flat line [(.not, line)] := .single rfl fun _ _ => Instr.noConfusion
  rintro d rfl
  refine ⟨rfl, rfl, ?_⟩
  cases op with
  | notEqual => exact .append (hone _) hnot
  | strictNotEqual => exact .append (hone _) hnot
  | _ => exact hone _

mutual

/-- **Expressions without functions have flat code.** -/
theorem flat_compileExpr : ∀ e : Expr, (e.Lined fun _ => False) →
    Emit.Stays line (compileExpr e) (Code.Flat line)
  | .atom a _ _, _ => by
      rw [compileExpr]
      exact flat_compileAtom a
  | .group inner, hfree => by
      rw [compileExpr]
      exact flat_compileExpr inner hfree
  | .unary op operand, hfree => by
      rw [compileExpr]
      refine (flat_compileExpr operand hfree).bind fun value hvalue => ?_
      exact (flat_instr op).bind fun last hlast => .pure (hvalue.append hlast)
  | .binary op left right, hfree => by
      rw [compileExpr]
      refine (flat_compileExpr left hfree.1).bind fun first hfirst => ?_
      refine (flat_compileExpr right hfree.2).bind fun second hsecond => ?_
      exact (flat_instrs op).bind fun last hlast => .pure ((hfirst.append hsecond).append hlast)
  | .logical op left right, hfree => by
      rw [compileExpr]
      refine (flat_compileExpr left hfree.1).bind fun first hfirst => ?_
      refine (flat_compileExpr right hfree.2).bind fun second hsecond => ?_
      rintro d rfl
      refine ⟨rfl, rfl, ?_⟩
      have hjump := hfirst.append (hsecond.jump op.jumpKind)
      rw [List.append_cons] at hjump
      exact hjump
  | .assignName name value, hfree => by
      rw [compileExpr]
      refine (flat_compileExpr value hfree).bind fun value hvalue => ?_
      refine (Emit.Stays.namePosition name).bind fun name _ => ?_
      exact (Emit.Stays.emitOne rfl fun _ _ => Instr.noConfusion).bind fun last hlast =>
        .pure (hvalue.append hlast)
  | .assignProperty object name value, hfree => by
      rw [compileExpr]
      refine (flat_compileExpr object hfree.1).bind fun object hobject => ?_
      refine (flat_compileExpr value hfree.2).bind fun value hvalue => ?_
      refine (Emit.Stays.namePosition name).bind fun name _ => ?_
      exact (Emit.Stays.emitOne rfl fun _ _ => Instr.noConfusion).bind fun last hlast =>
        .pure ((hobject.append hvalue).append hlast)
  | .assignIndex object index value, hfree => by
      rw [compileExpr]
      refine (flat_compileExpr object hfree.1).bind fun object hobject => ?_
      refine (flat_compileExpr index hfree.2.1).bind fun index hindex => ?_
      refine (flat_compileExpr value hfree.2.2).bind fun value hvalue => ?_
      exact (Emit.Stays.emitOne rfl fun _ _ => Instr.noConfusion).bind fun last hlast =>
        .pure (((hobject.append hindex).append hvalue).append hlast)
  | .call callee arguments, hfree => by
      rw [compileExpr]
      refine (flat_compileExpr callee hfree.1).bind fun callee hcallee => ?_
      refine (flat_compileExprs arguments hfree.2).bind fun values hvalues => ?_
      exact (Emit.Stays.emitOne rfl fun _ _ => Instr.noConfusion).bind fun last hlast =>
        .pure ((hcallee.append hvalues).append hlast)
  | .property object name, hfree => by
      rw [compileExpr]
      refine (flat_compileExpr object hfree).bind fun object hobject => ?_
      refine (Emit.Stays.namePosition name).bind fun name _ => ?_
      exact (Emit.Stays.emitOne rfl fun _ _ => Instr.noConfusion).bind fun last hlast =>
        .pure (hobject.append hlast)
  | .index object index, hfree => by
      rw [compileExpr]
      refine (flat_compileExpr object hfree.1).bind fun object hobject => ?_
      refine (flat_compileExpr index hfree.2).bind fun index hindex => ?_
      exact (Emit.Stays.emitOne rfl fun _ _ => Instr.noConfusion).bind fun last hlast =>
        .pure ((hobject.append hindex).append hlast)
  | .array elements, hfree => by
      rw [compileExpr]
      refine (flat_compileExprs elements hfree).bind fun values hvalues => ?_
      exact (Emit.Stays.emitOne rfl fun _ _ => Instr.noConfusion).bind fun last hlast =>
        .pure (hvalues.append hlast)
  | .object entries, hfree => by
      rw [compileExpr]
      refine (flat_compileEntries entries hfree).bind fun values hvalues => ?_
      exact (Emit.Stays.emitOne rfl fun _ _ => Instr.noConfusion).bind fun last hlast =>
        .pure (hvalues.append hlast)
  | .function (.mk _ _ _ _), hfree => hfree.1.elim

theorem flat_compileExprs : ∀ es : List Expr, exprsLined (fun _ => False) es →
    Emit.Stays line (compileExprs es) (Code.Flat line)
  | [], _ => by
      rw [compileExprs]
      exact .pure .nil
  | e :: rest, hfree => by
      rw [compileExprs]
      refine (flat_compileExpr e hfree.1).bind fun first hfirst => ?_
      exact (flat_compileExprs rest hfree.2).bind fun others hothers =>
        .pure (hfirst.append hothers)

theorem flat_compileEntries : ∀ entries : List (String × Expr),
    entriesLined (fun _ => False) entries →
    Emit.Stays line (compileEntries entries) (Code.Flat line)
  | [], _ => by
      rw [compileEntries]
      exact .pure .nil
  | (key, e) :: rest, hfree => by
      rw [compileEntries]
      refine (Emit.Stays.emitConstant _).bind fun key hkey => ?_
      refine (flat_compileExpr e hfree.1).bind fun value hvalue => ?_
      exact (flat_compileEntries rest hfree.2).bind fun others hothers =>
        .pure ((hkey.append hvalue).append hothers)

end

theorem flat_compileValue {value : Option Expr} (hfree : valueLined (fun _ => False) value) :
    Emit.Stays line (compileValue value) (Code.Flat line) := by
  cases value with
  | none =>
      rw [compileValue]
      exact .emitConstant _
  | some e =>
      rw [compileValue]
      exact flat_compileExpr e hfree

end

/-! ### Statements -/

/-- How the code of a straight statement ends: it declares a variable, or takes off the value. -/
def Stmt.EndsWith (p : Proto) : Stmt → Instr → Prop
  | .declare kind name _ _, i =>
    ∃ w, i = .declare w kind.binding ∧ p.chunk.pool.text? w.toNat = some name
  | .expression _ _, i => i = .pop
  | _, _ => False

/-- The code of a straight statement: flat code, and one more instruction on the same line. -/
def Stmt.Coded (p : Proto) (s : Stmt) (code : Code) : Prop :=
  ∃ body last, code = body ++ [(last, s.line)] ∧ Code.Flat s.line body ∧ s.EndsWith p last

/-- The code of straight statements one after the other, up to the end of a program. -/
def stmtsCoded (p : Proto) : List Stmt → Code → Prop
  | [], code => code = [(.halt, 0)]
  | s :: rest, code => ∃ first others, code = first ++ others ∧ s.Coded p first ∧
      stmtsCoded p rest others

section

variable {p : Proto} {d : Draft}

theorem coded_compileStmt {s : Stmt} (hs : s.Straight) (hp : p.Compact)
    (hext : p.Extends (compileStmt true none s d).2) :
    (compileStmt true none s d).2.functions = d.functions ∧
      ∃ code, (compileStmt true none s d).1 = .ofCode code ∧ s.Coded p code := by
  cases s with
  | declare kind name initial line =>
      simp only [compileStmt, Emit.bind_apply, Emit.pure_apply, Emit.emit_apply,
        Emit.atLine_apply] at hext ⊢
      obtain ⟨hline, hfunctions, hflat⟩ := flat_compileValue hs (d.onLine line) rfl
      refine ⟨hfunctions, _, rfl, (compileValue initial (d.onLine line)).1,
        .declare (namePosition name (compileValue initial (d.onLine line)).2).1 kind.binding,
        ?_, hflat, _, rfl, hext.name hp⟩
      change (compileValue initial (d.onLine line)).2.line = line at hline
      rw [show (namePosition name _).2.line = line from hline]
      rfl
  | expression e line =>
      simp only [compileStmt, Emit.bind_apply, Emit.pure_apply, Emit.emit_apply,
        Emit.atLine_apply] at hext ⊢
      obtain ⟨hline, hfunctions, hflat⟩ := flat_compileExpr e hs (d.onLine line) rfl
      refine ⟨hfunctions, _, rfl, _, .pop, ?_, hflat, rfl⟩
      rw [hline]
      rfl
  | function _ => exact hs.elim
  | block _ _ => exact hs.elim
  | conditional _ _ _ _ => exact hs.elim
  | whileLoop _ _ _ => exact hs.elim
  | forLoop _ _ _ _ _ => exact hs.elim
  | returnValue _ _ => exact hs.elim
  | breakLoop _ => exact hs.elim
  | continueLoop _ => exact hs.elim
  | empty _ => exact hs.elim

theorem toCode_ofCode (code : Code) : (OpenCode.ofCode code).toCode = code := by
  rw [OpenCode.toCode, OpenCode.ofCode, List.filterMap_map]
  exact List.filterMap_some

theorem coded_compileStmts {body : List Stmt} (hbody : ∀ s ∈ body, s.Straight) (hp : p.Compact)
    (hext : p.Extends (compileStmts none body d).2) :
    (compileStmts none body d).2.functions = d.functions ∧
      stmtsCoded p body (OpenCode.toCode (compileStmts none body d).1 ++ [(.halt, 0)]) := by
  induction body generalizing d with
  | nil =>
      rw [compileStmts]
      exact ⟨rfl, rfl⟩
  | cons s rest ih =>
      obtain ⟨hs, hrest⟩ := List.forall_mem_cons.1 hbody
      simp only [compileStmts, Emit.bind_apply, Emit.pure_apply] at hext ⊢
      obtain ⟨hfunctions, code, hcode, hcoded⟩ := coded_compileStmt hs hp
        (hext.of_grows (grows_compileStmts none rest _))
      obtain ⟨hfunctions', hothers⟩ := ih hrest hext
      refine ⟨hfunctions'.trans hfunctions, code, _, ?_, hcoded, hothers⟩
      rw [hcode, OpenCode.toCode, List.filterMap_append, List.append_assoc]
      exact congrArg (· ++ _) (toCode_ofCode code)

theorem hoist_straight {body : List Stmt} (hbody : ∀ s ∈ body, s.Straight) (d : Draft) :
    hoist body d = ([], d) := by
  induction body with
  | nil =>
      rw [hoist]
      rfl
  | cons s rest ih =>
      obtain ⟨hs, hrest⟩ := List.forall_mem_cons.1 hbody
      cases s with
      | function _ => exact hs.elim
      | _ =>
          rw [hoist]
          · exact ih hrest
          · intro decl heq
            cases heq

end

/-- **The code of a straight program** is the code of its statements, behind the instruction that
enters it. No functions are made. -/
theorem coded_emitProgram {program : Program} (hstraight : ∀ s ∈ program, s.Straight)
    (hfits : (compileProgram program).Fits) :
    (compileProgram program).functions = [] ∧
      ∃ code, (emitProgram program ⟨.empty, #[], 1⟩).1 = (.enter, 1) :: code ∧
        stmtsCoded (compileProgram program) program code := by
  have hp : (compileProgram program).Compact :=
    compact_protoOf _ _ _ _ _ (grows_emitProgram program _) hfits
  have hext := extends_protoOf "PROGRAM" none [] 1 (emitProgram program)
  have hfunctions := protoOf_functions "PROGRAM" none [] 1 (emitProgram program)
  rw [← compileProgram_eq] at hext hfunctions
  simp only [emitProgram, Emit.bind_apply, Emit.pure_apply, Emit.emit_apply,
    hoist_straight hstraight] at hext hfunctions ⊢
  obtain ⟨hnone, hcoded⟩ := coded_compileStmts hstraight hp hext
  rw [hnone] at hfunctions
  exact ⟨hfunctions, _, rfl, hcoded⟩

end Tracepoint
