/-
The functions that code makes.

Compiling a function adds it to the functions of the code around it and emits the instruction that
makes it, for a declaration with the instruction behind it that binds its name.  So the instructions
that make functions take them one after the other; and where statements are entered, the functions
that they declare are bound in front of the code of any statement.

A jump out of the body of a loop gets its distance when the loop ends.  Outlines leave these jumps
out, so code has its final outline as soon as it is emitted.

Main definitions:

* `Code.outline` — the instructions of some code, up to the jumps that are always taken;
* `MakesFunctions`, `BindsFunctions` — some code makes functions, or does nothing but bind them;
* `Hoists` — some code enters a list of statements and runs it;
* `Draft.Emits` — what is known of a piece of code and the draft behind it.

Main results:

* `binds_hoist` — entering statements binds the functions that they declare;
* `emits_compileExpr`, `emits_compileStmt` and their companions — **code makes the functions in
  its tree, in order**;
* `emits_emitFunction`, `emits_emitProgram` — whole functions and programs.
-/

import Tracepoint.Proofs.Code.Growth
import Tracepoint.Proofs.Grammar.Functions

set_option relaxedAutoImplicit false
set_option autoImplicit false

namespace Tracepoint

/-! ### Outlines -/

/-- The instruction, unless it is a jump that is always taken. -/
def Instr.outline : Instr → Option Instr
  | .jump .always _ => none
  | i => some i

/-- The instruction, unless it is a jump that is always taken. What waits becomes one. -/
def Op.outline (op : Op) : Option Instr :=
  op.instr?.bind Instr.outline

/-- The instructions in order, but for the jumps that are always taken. -/
def Code.outline (code : Code) : List (Option Instr) :=
  code.map fun entry => entry.1.outline

namespace OpenCode

/-- The instructions in order, but for the jumps that are, or will be, always taken. -/
def outline (code : OpenCode) : List (Option Instr) :=
  code.map fun entry => entry.1.outline

theorem outline_append (first second : OpenCode) :
    outline (first ++ second) = first.outline ++ second.outline :=
  List.map_append

theorem outline_ofCode (code : Code) : (ofCode code).outline = code.outline := by
  rw [outline, ofCode, List.map_map]
  rfl

theorem outline_toCode {code : OpenCode} (hclosed : code.Closed) :
    code.toCode.outline = code.outline := by
  rw [← outline_ofCode, ofCode_toCode hclosed]

end OpenCode

namespace Code

theorem outline_append (first second : Code) :
    outline (first ++ second) = first.outline ++ second.outline :=
  List.map_append

theorem outline_emit (is : List Instr) (line : ℕ) :
    outline (is.map (·, line)) = is.map Instr.outline := by
  rw [outline, List.map_map]
  rfl

/-- The distance of a waiting jump does not matter. -/
theorem outline_close (breakTo continueTo : Int) (position : ℕ) (code : OpenCode) :
    outline (close breakTo continueTo position code) = code.outline := by
  induction code generalizing position with
  | nil => rfl
  | cons entry rest ih =>
      obtain ⟨op, line⟩ := entry
      cases op <;> exact congrArg (_ :: ·) (ih _)

end Code

/-! ### Making functions -/

/-- The position leads to the text. -/
def Pool.Refers (pool : Pool) (w : UInt32) (text : String) : Prop :=
  ∃ position, w = UInt32.ofNat position ∧ pool.text? position = some text

/-- The instruction neither makes a function nor binds one. -/
def Plain : Option Instr → Prop
  | some (.closure _) => False
  | some (.declare _ .function) => False
  | _ => True

/-- Instructions make these functions, which have the positions from `position` on. A function that
is declared is bound to its name at once. -/
inductive MakesFunctions (pool : Pool) : ℕ → List (Option Instr) → List Inner → Prop
  | nil (position : ℕ) : MakesFunctions pool position [] []
  /-- An instruction that has to do with something else. -/
  | plain {position : ℕ} {i : Option Instr} {is : List (Option Instr)} {made : List Inner}
      (hi : Plain i) (h : MakesFunctions pool position is made) :
      MakesFunctions pool position (i :: is) made
  /-- The value of an expression. -/
  | value {position : ℕ} {is : List (Option Instr)} {made : List Inner} (decl : FunctionDecl)
      (h : MakesFunctions pool (position + 1) is made) :
      MakesFunctions pool position (some (.closure (UInt32.ofNat position)) :: is)
        (⟨false, decl⟩ :: made)
  /-- A declaration. -/
  | declared {position : ℕ} {is : List (Option Instr)} {made : List Inner} {decl : FunctionDecl}
      {name : String} {w : UInt32} (hname : decl.name = some name) (hw : pool.Refers w name)
      (h : MakesFunctions pool (position + 1) is made) :
      MakesFunctions pool position
        (some (.closure (UInt32.ofNat position)) :: some (.declare w .function) :: is)
        (⟨true, decl⟩ :: made)

/-- Instructions bind these functions, which have the positions from `position` on, and do nothing
else. -/
inductive BindsFunctions (pool : Pool) : ℕ → List (Option Instr) → List Inner → Prop
  | nil (position : ℕ) : BindsFunctions pool position [] []
  | cons {position : ℕ} {is : List (Option Instr)} {made : List Inner} {decl : FunctionDecl}
      {name : String} {w : UInt32} (hname : decl.name = some name) (hw : pool.Refers w name)
      (h : BindsFunctions pool (position + 1) is made) :
      BindsFunctions pool position
        (some (.closure (UInt32.ofNat position)) :: some (.declare w .function) :: is)
        (⟨true, decl⟩ :: made)

/-- Somewhere in the instructions, a list of statements is entered and run: first they bind the
functions `declared`, then comes the code of the statements. -/
def Hoists (pool : Pool) (position : ℕ) (body : List Stmt) (declared : List Inner)
    (is : List (Option Instr)) (made : List Inner) : Prop :=
  ∃ before bindings after first rest depth d,
    is = before ++ (bindings ++ (compileStmts depth body d).1.outline) ++ after ∧
      made = first ++ declared ++ rest ∧ MakesFunctions pool position before first ∧
      BindsFunctions pool (position + first.length) bindings declared

section

variable {pool pool' : Pool} {position : ℕ} {is js : List (Option Instr)}
  {made others declared : List Inner} {body : List Stmt}

theorem Pool.Refers.mono {w : UInt32} {text : String}
    (hpool : pool.constants.toList <+: pool'.constants.toList) (h : pool.Refers w text) :
    pool'.Refers w text := by
  obtain ⟨position, hw, htext⟩ := h
  refine ⟨position, hw, ?_⟩
  rw [text?, get?, ← Array.getElem?_toList] at htext ⊢
  cases hget : pool.constants.toList[position]? with
  | none =>
      rw [hget] at htext
      cases htext
  | some c =>
      obtain ⟨hlt, hc⟩ := List.getElem?_eq_some_iff.1 hget
      rw [List.prefix_iff_getElem?.1 hpool _ hlt, hc, ← hget]
      exact htext

namespace MakesFunctions

theorem of_plain (h : ∀ i ∈ is, Plain i) (position : ℕ) : MakesFunctions pool position is [] := by
  induction is with
  | nil => exact .nil position
  | cons i is ih =>
      exact .plain (h i List.mem_cons_self) (ih fun j hj => h j (List.mem_cons_of_mem i hj))

theorem append (h : MakesFunctions pool position is made)
    (h' : MakesFunctions pool (position + made.length) js others) :
    MakesFunctions pool position (is ++ js) (made ++ others) := by
  induction h with
  | nil position => exact h'
  | plain hi _ ih => exact .plain hi (ih h')
  | value decl _ ih =>
      rw [List.length_cons, Nat.add_comm _ 1, ← Nat.add_assoc] at h'
      exact .value decl (ih h')
  | declared hname hw _ ih =>
      rw [List.length_cons, Nat.add_comm _ 1, ← Nat.add_assoc] at h'
      exact .declared hname hw (ih h')

theorem mono (hpool : pool.constants.toList <+: pool'.constants.toList)
    (h : MakesFunctions pool position is made) : MakesFunctions pool' position is made := by
  induction h with
  | nil position => exact .nil position
  | plain hi _ ih => exact .plain hi ih
  | value decl _ ih => exact .value decl ih
  | declared hname hw _ ih => exact .declared hname (hw.mono hpool) ih

end MakesFunctions

namespace BindsFunctions

theorem makes (h : BindsFunctions pool position is made) :
    MakesFunctions pool position is made := by
  induction h with
  | nil position => exact .nil position
  | cons hname hw _ ih => exact .declared hname hw ih

theorem append (h : BindsFunctions pool position is made)
    (h' : BindsFunctions pool (position + made.length) js others) :
    BindsFunctions pool position (is ++ js) (made ++ others) := by
  induction h with
  | nil position => exact h'
  | cons hname hw _ ih =>
      rw [List.length_cons, Nat.add_comm _ 1, ← Nat.add_assoc] at h'
      exact .cons hname hw (ih h')

theorem mono (hpool : pool.constants.toList <+: pool'.constants.toList)
    (h : BindsFunctions pool position is made) : BindsFunctions pool' position is made := by
  induction h with
  | nil position => exact .nil position
  | cons hname hw _ ih => exact .cons hname (hw.mono hpool) ih

end BindsFunctions

namespace Hoists

theorem append (h : Hoists pool position body declared is made) (js : List (Option Instr))
    (others : List Inner) : Hoists pool position body declared (is ++ js) (made ++ others) := by
  obtain ⟨before, bindings, after, first, rest, depth, d, rfl, rfl, hbefore, hbindings⟩ := h
  refine ⟨before, bindings, after ++ js, first, rest ++ others, depth, d, ?_, ?_, hbefore,
    hbindings⟩
  · exact List.append_assoc ..
  · exact List.append_assoc ..

theorem behind (hfirst : MakesFunctions pool position is made)
    (h : Hoists pool (position + made.length) body declared js others) :
    Hoists pool position body declared (is ++ js) (made ++ others) := by
  obtain ⟨before, bindings, after, first, rest, depth, d, rfl, rfl, hbefore, hbindings⟩ := h
  rw [Nat.add_assoc, ← List.length_append] at hbindings
  refine ⟨is ++ before, bindings, after, made ++ first, rest, depth, d, ?_, ?_,
    hfirst.append hbefore, hbindings⟩
  · simp only [List.append_assoc]
  · simp only [List.append_assoc]

theorem mono (hpool : pool.constants.toList <+: pool'.constants.toList)
    (h : Hoists pool position body declared is made) :
    Hoists pool' position body declared is made := by
  obtain ⟨before, bindings, after, first, rest, depth, d, his, hmade, hbefore, hbindings⟩ := h
  exact ⟨before, bindings, after, first, rest, depth, d, his, hmade, hbefore.mono hpool,
    hbindings.mono hpool⟩

end Hoists

end

/-! ### Pieces of code -/

/-- The functions behind a list of them, each of which is compiled. -/
def Draft.Adds (d : Draft) (made : List Inner) (d' : Draft) : Prop :=
  d'.functions.toList = d.functions.toList ++ made.map fun f => compileFunction f.decl

/-- A piece of code binds functions, and that is all that was compiled. -/
structure Draft.Binds (d : Draft) (is : List (Option Instr)) (made : List Inner) (d' : Draft) :
    Prop where
  pool : d.pool.constants.toList <+: d'.pool.constants.toList
  functions : d.Adds made d'
  binds : BindsFunctions d'.pool d.functions.size is made

/-- A piece of code makes functions, and that is all that was compiled. It enters and runs some
lists of statements. -/
structure Draft.Emits (d : Draft) (is : List (Option Instr)) (made : List Inner)
    (lists : List (List Stmt)) (d' : Draft) : Prop where
  pool : d.pool.constants.toList <+: d'.pool.constants.toList
  functions : d.Adds made d'
  makes : MakesFunctions d'.pool d.functions.size is made
  hoists : ∀ body ∈ lists, Hoists d'.pool d.functions.size body (bound body) is made

section

variable {d d₁ d₂ d₃ : Draft} {is js : List (Option Instr)} {made others : List Inner}
  {lists rest : List (List Stmt)}

theorem Draft.Adds.refl (d : Draft) : d.Adds [] d :=
  (List.append_nil _).symm

theorem Draft.Adds.trans (h : d₁.Adds made d₂) (h' : d₂.Adds others d₃) :
    d₁.Adds (made ++ others) d₃ := by
  rw [Draft.Adds] at h h' ⊢
  rw [h', h, List.map_append, List.append_assoc]

theorem Draft.Adds.size (h : d₁.Adds made d₂) :
    d₂.functions.size = d₁.functions.size + made.length := by
  rw [← Array.length_toList, h, List.length_append, List.length_map, Array.length_toList]

theorem Draft.Adds.functionPosition (d : Draft) (declared : Bool) (decl : FunctionDecl) :
    d.Adds [⟨declared, decl⟩] (functionPosition (compileFunction decl) d).2 :=
  Array.toList_push

namespace Draft.Binds

theorem refl (d : Draft) : d.Binds [] [] d :=
  ⟨List.prefix_rfl, .refl d, .nil _⟩

theorem trans (h : d₁.Binds is made d₂) (h' : d₂.Binds js others d₃) :
    d₁.Binds (is ++ js) (made ++ others) d₃ :=
  ⟨h.pool.trans h'.pool, h.functions.trans h'.functions,
    (h.binds.mono h'.pool).append (h.functions.size ▸ h'.binds)⟩

theorem emits (h : d₁.Binds is made d₂) : d₁.Emits is made [] d₂ :=
  ⟨h.pool, h.functions, h.binds.makes, List.forall_mem_nil _⟩

end Draft.Binds

namespace Draft.Emits

theorem trans (h : d₁.Emits is made lists d₂) (h' : d₂.Emits js others rest d₃) :
    d₁.Emits (is ++ js) (made ++ others) (lists ++ rest) d₃ := by
  have hmakes := h.makes.mono h'.pool
  have hsize := h.functions.size
  refine ⟨h.pool.trans h'.pool, h.functions.trans h'.functions,
    hmakes.append (hsize ▸ h'.makes), fun body hbody => ?_⟩
  rcases List.mem_append.1 hbody with hbody | hbody
  · exact ((h.hoists body hbody).mono h'.pool).append js others
  · exact .behind hmakes (hsize ▸ h'.hoists body hbody)

theorem refl (d : Draft) : d.Emits [] [] [] d :=
  ⟨List.prefix_rfl, .refl d, .nil _, List.forall_mem_nil _⟩

/-- An expression behind, in which no statements are entered. -/
theorem value (h : d₁.Emits is made lists d₂) (h' : d₂.Emits js others [] d₃) :
    d₁.Emits (is ++ js) (made ++ others) lists d₃ := by
  simpa only [List.append_nil] using h.trans h'

/-- Instructions behind that have nothing to do with functions. -/
theorem plain (h : d₁.Emits is made lists d₂) (hjs : ∀ i ∈ js, Plain i) :
    d₁.Emits (is ++ js) made lists d₂ := by
  have hplain : d₂.Emits js [] [] d₂ :=
    ⟨List.prefix_rfl, .refl d₂, .of_plain hjs _, List.forall_mem_nil _⟩
  simpa only [List.append_nil] using h.value hplain

theorem instr (h : d₁.Emits is made lists d₂) (i : Instr) (hi : Plain i.outline) :
    d₁.Emits (is ++ [i.outline]) made lists d₂ :=
  h.plain (List.forall_mem_singleton.2 hi)

theorem behind (h : d₁.Emits is made lists d₂) (i : Instr) (hi : Plain i.outline) :
    d₁.Emits (i.outline :: is) made lists d₂ :=
  ((refl d₁).instr i hi).trans h

theorem ofLine {line : ℕ} (h : (d₁.onLine line).Emits is made lists d₂) :
    d₁.Emits is made lists d₂ :=
  ⟨h.pool, h.functions, h.makes, h.hoists⟩

theorem onLine (h : d₁.Emits is made lists d₂) (line : ℕ) :
    d₁.Emits is made lists (d₂.onLine line) :=
  ⟨h.pool, h.functions, h.makes, h.hoists⟩

theorem constantPosition (h : d₁.Emits is made lists d₂) (c : Constant) :
    d₁.Emits is made lists (constantPosition c d₂).2 := by
  have hpool := (Draft.Grows.constantPosition d₂ c).pool
  exact ⟨h.pool.trans hpool, h.functions, h.makes.mono hpool,
    fun body hbody => (h.hoists body hbody).mono hpool⟩

theorem namePosition (h : d₁.Emits is made lists d₂) (name : String) :
    d₁.Emits is made lists (namePosition name d₂).2 :=
  h.constantPosition _

theorem constant (h : d₁.Emits is made lists d₂) (c : Constant) :
    d₁.Emits (is ++ Code.outline (emitConstant c d₂).1) made lists (emitConstant c d₂).2 :=
  (h.constantPosition c).instr (.constant _) trivial

theorem emitConstant (d : Draft) (c : Constant) :
    d.Emits (Code.outline (emitConstant c d).1) [] [] (emitConstant c d).2 :=
  (refl d).constant c

end Draft.Emits

/-- A list of statements that is entered and run. -/
theorem Draft.Binds.entered {body : List Stmt} {depth : Option ℕ} {bindings : List (Option Instr)}
    (hbindings : d₁.Binds bindings (bound body) d₂)
    (h : d₂.Emits (compileStmts depth body d₂).1.outline made lists d₃) :
    d₁.Emits (bindings ++ (compileStmts depth body d₂).1.outline) (bound body ++ made)
      (body :: lists) d₃ := by
  have hwhole := hbindings.emits.trans h
  refine ⟨hwhole.pool, hwhole.functions, hwhole.makes, List.forall_mem_cons.2 ⟨?_, hwhole.hoists⟩⟩
  exact ⟨[], bindings, [], [], made, depth, d₂, (List.append_nil _).symm, rfl, .nil _,
    hbindings.binds.mono h.pool⟩

end

/-! ### What compiling emits -/

theorem emits_compileAtom (a : Atom) (d : Draft) :
    d.Emits (Code.outline (compileAtom a d).1) [] [] (compileAtom a d).2 := by
  cases a with
  | name text => exact ((Draft.Emits.refl d).namePosition text).instr (.get _) trivial
  | number _ => exact .emitConstant d _
  | bool _ => exact .emitConstant d _
  | null => exact .emitConstant d _
  | undefined => exact .emitConstant d _
  | string _ => exact .emitConstant d _

theorem plain_unary (op : UnaryOp) : Plain op.instr.outline := by
  cases op <;> trivial

theorem plain_binary (op : BinaryOp) : ∀ i ∈ op.instrs.map Instr.outline, Plain i := by
  cases op <;> simp [BinaryOp.instrs, Instr.outline, Plain]

theorem plain_logical (op : LogicalOp) (distance : Int32) :
    Plain (Instr.jump op.jumpKind distance).outline := by
  cases op <;> trivial

theorem plain_declare (kind : VariableKind) (w : UInt32) :
    Plain (Instr.declare w kind.binding).outline := by
  cases kind <;> trivial

theorem plain_test (given : Bool) (distance : Int32) :
    ∀ i ∈ (if given then [Instr.jump .ifFalse distance] else []).map Instr.outline, Plain i := by
  cases given <;> simp [Instr.outline, Plain]

/-- On the way out of a loop scopes are closed. -/
theorem plain_leave (op : Op) (hop : Plain op.outline) (n line : ℕ) : ∀ i ∈ OpenCode.outline
    (OpenCode.ofCode (List.replicate n (.popScope, line)) ++ [(op, line)]), Plain i := by
  rw [OpenCode.outline_append, OpenCode.outline_ofCode, Code.outline, List.map_replicate]
  intro i hi
  rcases List.mem_append.1 hi with hi | hi
  · rw [List.eq_of_mem_replicate hi]
    trivial
  · rw [List.mem_singleton.1 hi]
    exact hop

mutual

/-- The code of an expression makes the functions in it. -/
theorem emits_compileExpr : ∀ (e : Expr) (d : Draft),
    d.Emits (Code.outline (compileExpr e d).1) e.inner [] (compileExpr e d).2
  | .atom a _ _, d => by
      rw [compileExpr]
      exact emits_compileAtom a d
  | .group inner, d => by
      rw [compileExpr]
      exact emits_compileExpr inner d
  | .unary op operand, d => by
      have hoperand := emits_compileExpr operand d
      simp only [compileExpr, Emit.bind_apply, Emit.pure_apply, Emit.emit_apply,
        Code.outline_append, Code.outline_emit]
      exact hoperand.instr op.instr (plain_unary op)
  | .binary op left right, d => by
      have hleft := emits_compileExpr left d
      have hright := emits_compileExpr right (compileExpr left d).2
      simp only [compileExpr, Emit.bind_apply, Emit.pure_apply, Emit.emit_apply,
        Code.outline_append, Code.outline_emit]
      exact (hleft.trans hright).plain (plain_binary op)
  | .logical op left right, d => by
      have hleft := emits_compileExpr left d
      have hright := emits_compileExpr right (compileExpr left d).2
      simp only [compileExpr, Emit.bind_apply, Emit.pure_apply, Emit.emit_apply,
        Code.outline_append, Code.outline_emit]
      exact (hleft.instr (.jump op.jumpKind _) (plain_logical op _)).trans hright
  | .assignName name value, d => by
      have hvalue := emits_compileExpr value d
      simp only [compileExpr, Emit.bind_apply, Emit.pure_apply, Emit.emit_apply,
        Code.outline_append, Code.outline_emit]
      exact (hvalue.namePosition name).instr (.set _) trivial
  | .assignProperty object name value, d => by
      have hobject := emits_compileExpr object d
      have hvalue := emits_compileExpr value (compileExpr object d).2
      simp only [compileExpr, Emit.bind_apply, Emit.pure_apply, Emit.emit_apply,
        Code.outline_append, Code.outline_emit]
      exact ((hobject.trans hvalue).namePosition name).instr (.setProperty _) trivial
  | .assignIndex object index value, d => by
      have hobject := emits_compileExpr object d
      have hindex := emits_compileExpr index (compileExpr object d).2
      have hvalue := emits_compileExpr value (compileExpr index (compileExpr object d).2).2
      simp only [compileExpr, Emit.bind_apply, Emit.pure_apply, Emit.emit_apply,
        Code.outline_append, Code.outline_emit]
      exact ((hobject.trans hindex).trans hvalue).instr .setIndex trivial
  | .call callee arguments, d => by
      have hcallee := emits_compileExpr callee d
      have harguments := emits_compileExprs arguments (compileExpr callee d).2
      simp only [compileExpr, Emit.bind_apply, Emit.pure_apply, Emit.emit_apply,
        Code.outline_append, Code.outline_emit]
      exact (hcallee.trans harguments).instr (.call _) trivial
  | .property object name, d => by
      have hobject := emits_compileExpr object d
      simp only [compileExpr, Emit.bind_apply, Emit.pure_apply, Emit.emit_apply,
        Code.outline_append, Code.outline_emit]
      exact (hobject.namePosition name).instr (.getProperty _) trivial
  | .index object index, d => by
      have hobject := emits_compileExpr object d
      have hindex := emits_compileExpr index (compileExpr object d).2
      simp only [compileExpr, Emit.bind_apply, Emit.pure_apply, Emit.emit_apply,
        Code.outline_append, Code.outline_emit]
      exact (hobject.trans hindex).instr .getIndex trivial
  | .array elements, d => by
      have helements := emits_compileExprs elements d
      simp only [compileExpr, Emit.bind_apply, Emit.pure_apply, Emit.emit_apply,
        Code.outline_append, Code.outline_emit]
      exact helements.instr (.makeArray _) trivial
  | .object entries, d => by
      have hentries := emits_compileEntries entries d
      simp only [compileExpr, Emit.bind_apply, Emit.pure_apply, Emit.emit_apply,
        Code.outline_append, Code.outline_emit]
      exact hentries.instr (.makeObject _) trivial
  | .function decl, d => by
      simp only [compileExpr, Emit.bind_apply, Emit.emit_apply]
      exact ⟨List.prefix_rfl, .functionPosition d false decl, .value decl (.nil _),
        List.forall_mem_nil _⟩

theorem emits_compileExprs : ∀ (es : List Expr) (d : Draft),
    d.Emits (Code.outline (compileExprs es d).1) (exprsInner es) [] (compileExprs es d).2
  | [], d => by
      rw [compileExprs]
      exact .refl d
  | e :: rest, d => by
      have he := emits_compileExpr e d
      have hrest := emits_compileExprs rest (compileExpr e d).2
      simp only [compileExprs, Emit.bind_apply, Emit.pure_apply, Code.outline_append]
      exact he.trans hrest

theorem emits_compileEntries : ∀ (entries : List (String × Expr)) (d : Draft),
    d.Emits (Code.outline (compileEntries entries d).1) (entriesInner entries) []
      (compileEntries entries d).2
  | [], d => by
      rw [compileEntries]
      exact .refl d
  | (key, e) :: rest, d => by
      have hkey := Draft.Emits.emitConstant d (.string key)
      have he := emits_compileExpr e (emitConstant (.string key) d).2
      have hrest := emits_compileEntries rest (compileExpr e (emitConstant (.string key) d).2).2
      simp only [compileEntries, Emit.bind_apply, Emit.pure_apply, Code.outline_append]
      exact (hkey.trans he).trans hrest

end

theorem emits_compileValue (value : Option Expr) (d : Draft) :
    d.Emits (Code.outline (compileValue value d).1) (valueInner value) []
      (compileValue value d).2 := by
  cases value with
  | none =>
      rw [compileValue]
      exact .emitConstant d _
  | some e =>
      rw [compileValue]
      exact emits_compileExpr e d

theorem emits_compileTest (condition : Option Expr) (d : Draft) :
    d.Emits (Code.outline (compileTest condition d).1) (valueInner condition) []
      (compileTest condition d).2 := by
  cases condition with
  | none =>
      rw [compileTest]
      exact .refl d
  | some e =>
      rw [compileTest]
      exact emits_compileExpr e d

theorem emits_compileIncrement (increment : Option Expr) (d : Draft) :
    d.Emits (Code.outline (compileIncrement increment d).1) (valueInner increment) []
      (compileIncrement increment d).2 := by
  cases increment with
  | none =>
      rw [compileIncrement]
      exact .refl d
  | some e =>
      have he := emits_compileExpr e d
      simp only [compileIncrement, Emit.bind_apply, Emit.pure_apply, Emit.emit_apply,
        Code.outline_append, Code.outline_emit]
      exact he.instr .pop trivial

theorem refers_namePosition (d : Draft) (name : String) :
    (namePosition name d).2.pool.Refers (namePosition name d).1 name := by
  have hget : (d.pool.push (.string name)).2.get? (d.pool.push (.string name)).1 =
      some (.string name) := d.pool.get?_push _
  refine ⟨(d.pool.push (.string name)).1, rfl, ?_⟩
  simp only [Tracepoint.namePosition, Tracepoint.constantPosition, modifyGet,
    MonadStateOf.modifyGet, StateT.modifyGet, pure, Pool.text?, hget]

/-- A declared function is bound at once. -/
theorem binds_at_once (decl : FunctionDecl) (d : Draft) :
    d.Binds (Code.outline (bindFunction decl (compileFunction decl) d).1) decl.bound
      (bindFunction decl (compileFunction decl) d).2 := by
  cases hname : decl.name with
  | none =>
      simp only [bindFunction, FunctionDecl.bound, hname]
      exact .refl d
  | some name =>
      simp only [bindFunction, FunctionDecl.bound, hname, Emit.bind_apply, Emit.pure_apply,
        Emit.emit_apply, Emit.atLine_apply]
      refine ⟨(Draft.Grows.namePosition _ name).pool, .functionPosition d true decl, ?_⟩
      exact .cons hname (refers_namePosition _ name) (.nil _)

/-- Entering statements binds the functions that they declare, one after the other. -/
theorem binds_hoist (body : List Stmt) (d : Draft) :
    d.Binds (Code.outline (hoist body d).1) (bound body) (hoist body d).2 := by
  induction body generalizing d with
  | nil =>
      rw [hoist]
      exact .refl d
  | cons s rest ih =>
      cases s with
      | function decl =>
          have hdecl := binds_at_once decl d
          have hrest := ih (bindFunction decl (compileFunction decl) d).2
          simp only [hoist, Emit.bind_apply, Emit.pure_apply, Code.outline_append]
          exact hdecl.trans hrest
      | _ =>
          simp only [hoist]
          exact ih d

mutual

/-- The code of statements that have been entered makes all other functions in them. -/
theorem emits_compileStmts : ∀ (depth : Option ℕ) (body : List Stmt) (d : Draft),
    d.Emits (compileStmts depth body d).1.outline (stmtsMade body) (stmtsLists body)
      (compileStmts depth body d).2
  | _, [], d => by
      rw [compileStmts]
      exact .refl d
  | depth, s :: rest, d => by
      have hs := emits_compileStmt true depth s d
      have hrest := emits_compileStmts depth rest (compileStmt true depth s d).2
      simp only [compileStmts, Emit.bind_apply, Emit.pure_apply, OpenCode.outline_append]
      exact hs.trans hrest

/-- The code of a statement makes the functions in it. -/
theorem emits_compileStmt : ∀ (hoisted : Bool) (depth : Option ℕ) (s : Stmt) (d : Draft),
    d.Emits (compileStmt hoisted depth s d).1.outline (s.made hoisted) s.lists
      (compileStmt hoisted depth s d).2
  | _, _, .declare kind name initial line, d => by
      have hvalue := emits_compileValue initial (d.onLine line)
      simp only [compileStmt, Emit.bind_apply, Emit.pure_apply, Emit.emit_apply,
        Emit.atLine_apply, OpenCode.outline_ofCode, Code.outline_append, Code.outline_emit]
      exact ((hvalue.namePosition name).instr (.declare _ _) (plain_declare kind _)).ofLine
  | true, _, .function decl, d => by
      simp only [compileStmt, Emit.bind_apply, Emit.pure_apply, Emit.atLine_apply, if_true]
      exact (Draft.Emits.refl d).onLine decl.line
  | false, _, .function decl, d => by
      simp only [compileStmt, Emit.bind_apply, Emit.pure_apply, Bool.false_eq_true, if_false,
        OpenCode.outline_ofCode]
      exact (binds_at_once decl d).emits
  | _, _, .expression e line, d => by
      have he := emits_compileExpr e (d.onLine line)
      simp only [compileStmt, Emit.bind_apply, Emit.pure_apply, Emit.emit_apply,
        Emit.atLine_apply, OpenCode.outline_ofCode, Code.outline_append, Code.outline_emit]
      exact (he.instr .pop trivial).ofLine
  | _, depth, .block body line, d => by
      have hbindings := binds_hoist body (d.onLine line)
      have hbody := emits_compileStmts (depth.map (· + 1)) body (hoist body (d.onLine line)).2
      have hwhole := (((hbindings.entered hbody).behind .pushScope trivial).instr .popScope
        trivial).ofLine
      simp only [compileStmt, Emit.bind_apply, Emit.pure_apply, Emit.emit_apply,
        Emit.atLine_apply, OpenCode.outline_append, OpenCode.outline_ofCode, Code.outline_append,
        Code.outline_emit, Stmt.made, Stmt.lists]
      simpa only [List.map_cons, List.map_nil, List.cons_append, List.nil_append,
        List.append_assoc] using hwhole
  | _, depth, .conditional condition success none line, d => by
      have htest := emits_compileExpr condition (d.onLine line)
      have hyes := emits_compileStmt false depth success (compileExpr condition (d.onLine line)).2
      have hwhole := ((htest.instr (.jump .ifFalse (Int32.ofInt (OpenCode.size (compileStmt false
        depth success (compileExpr condition (d.onLine line)).2).1))) trivial).trans hyes).ofLine
      simp only [compileStmt, Emit.bind_apply, Emit.pure_apply, Emit.atLine_apply,
        OpenCode.outline_append, OpenCode.outline_ofCode, Code.outline_append, Stmt.made,
        Stmt.lists, optionalMade, optionalLists, List.append_nil]
      exact hwhole
  | _, depth, .conditional condition success (some failure) line, d => by
      have htest := emits_compileExpr condition (d.onLine line)
      have hyes := emits_compileStmt false depth success (compileExpr condition (d.onLine line)).2
      have hno := emits_compileStmt false depth failure
        (compileStmt false depth success (compileExpr condition (d.onLine line)).2).2
      simp only [compileStmt, Emit.bind_apply, Emit.pure_apply, Emit.atLine_apply,
        Emit.get_apply, OpenCode.outline_append, OpenCode.outline_ofCode, Code.outline_append]
      exact ((((htest.instr (.jump .ifFalse _) trivial).trans hyes).instr (.goto _)
        trivial).trans hno).ofLine
  | _, _, .whileLoop condition body line, d => by
      have htest := emits_compileExpr condition (d.onLine line)
      have hround := emits_compileStmt false (some 0) body
        (compileExpr condition (d.onLine line)).2
      simp only [compileStmt, Emit.bind_apply, Emit.pure_apply, Emit.emit_apply,
        Emit.atLine_apply, OpenCode.outline_ofCode, Code.outline_append, Code.outline_close,
        Code.outline_emit]
      exact (((htest.instr (.jump .ifFalse _) trivial).trans hround).instr (.goto _)
        trivial).ofLine.onLine line
  | _, _, .forLoop start condition increment body line, d => by
      have hstart := emits_compileStart start (d.onLine line)
      have htest := emits_compileTest condition ((compileStart start (d.onLine line)).2.onLine line)
      have hround := emits_compileStmt false (some 0) body
        (compileTest condition ((compileStart start (d.onLine line)).2.onLine line)).2
      have hnext := emits_compileIncrement increment
        ((compileStmt false (some 0) body (compileTest condition
          ((compileStart start (d.onLine line)).2.onLine line)).2).2.onLine line)
      simp only [compileStmt, Emit.bind_apply, Emit.pure_apply, Emit.emit_apply,
        Emit.atLine_apply, OpenCode.outline_append, OpenCode.outline_ofCode, Code.outline_append,
        Code.outline_close, Code.outline_emit, ← List.append_assoc]
      have hhead := ((hstart.behind .pushScope trivial).onLine line).value htest
      exact ((((((hhead.plain (plain_test condition.isSome _)).trans hround).onLine line).value
        hnext).instr (.goto _) trivial).instr .popScope trivial).ofLine
  | _, _, .returnValue value line, d => by
      have hvalue := emits_compileValue value (d.onLine line)
      simp only [compileStmt, Emit.bind_apply, Emit.pure_apply, Emit.emit_apply,
        Emit.atLine_apply, OpenCode.outline_ofCode, Code.outline_append, Code.outline_emit]
      exact (hvalue.instr .ret trivial).ofLine
  | _, none, .breakLoop line, d | _, none, .continueLoop line, d | _, _, .empty line, d => by
      rw [compileStmt]
      exact (Draft.Emits.refl d).onLine line
  | _, some n, .breakLoop line, d => by
      rw [compileStmt]
      exact ((Draft.Emits.refl d).plain (plain_leave .breakLoop trivial n line)).onLine line
  | _, some n, .continueLoop line, d => by
      rw [compileStmt]
      exact ((Draft.Emits.refl d).plain (plain_leave .continueLoop trivial n line)).onLine line

theorem emits_compileStart : ∀ (start : Option Stmt) (d : Draft),
    d.Emits (compileStart start d).1.outline (optionalMade true start) (optionalLists start)
      (compileStart start d).2
  | none, d => by
      rw [compileStart]
      exact .refl d
  | some s, d => by
      rw [compileStart]
      exact emits_compileStmt true none s d

end

/-! ### Whole functions and programs -/

theorem emits_emitFunction (body : List Stmt) (d : Draft) :
    d.Emits (Code.outline (emitFunction body d).1) (bound body ++ stmtsMade body)
      (body :: stmtsLists body) (emitFunction body d).2 := by
  have hbindings := binds_hoist body d
  have hbody := hbindings.entered (emits_compileStmts none body (hoist body d).2)
  have hclosed := closed_compileStmts body (hoist body d).2
  simp only [emitFunction, Emit.bind_apply, Emit.pure_apply, Emit.emit_apply, Code.outline_append,
    OpenCode.outline_toCode hclosed, Code.outline_emit]
  exact (hbody.constant .undefined).instr .ret trivial

theorem emits_emitProgram (program : Program) (d : Draft) :
    d.Emits (Code.outline (emitProgram program d).1) (bound program ++ stmtsMade program)
      (program :: stmtsLists program) (emitProgram program d).2 := by
  have hbindings := binds_hoist program d
  have hbody := hbindings.entered (emits_compileStmts none program (hoist program d).2)
  have hclosed := closed_compileStmts program (hoist program d).2
  simp only [emitProgram, Emit.bind_apply, Emit.pure_apply, Emit.emit_apply, Code.outline_append,
    OpenCode.outline_toCode hclosed, Code.outline_emit]
  rw [List.append_assoc (List.map _ _)]
  exact (hbody.behind .enter trivial).instr .halt trivial

end Tracepoint
