/-
Where trees lie in code.

The code of a tree is described without the compiler: its parts lie in order of evaluation, and
every jump leads to the offset where a part starts or ends.  The compiler puts every tree into
the code of its function in this way.

Main definitions:

* `Exits` — where the jumps out of a loop body lead, and over how many scopes;
* `Expr.Lies`, `Stmt.Lies` and their companions — a tree lies between two offsets of a function;
* `FunctionDecl.Lies`, `programLies` — a function or a program lies in its code;
* `FunctionDecl.Fills`, `programFills` — and nothing lies behind it.

Main results:

* `lies_compileExpr`, `lies_compileStmt` and their companions;
* `fills_compileFunction`, `fills_compileProgram`.
-/

import Tracepoint.Proofs.Code.Growth
import Tracepoint.Proofs.Grammar.Placement

set_option relaxedAutoImplicit false
set_option autoImplicit false

namespace Tracepoint

/-! ### Instructions with operands -/

namespace Proto

/-- A constant is pushed. -/
def Pushes (p : Proto) (c : Constant) (start stop : ℕ) : Prop :=
  ∃ w, p.chunk.At start (.constant w) stop ∧ p.chunk.pool.get? w.toNat = some c

/-- An instruction takes a name. -/
def Names (p : Proto) (make : UInt32 → Instr) (name : String) (start stop : ℕ) : Prop :=
  ∃ w, p.chunk.At start (make w) stop ∧ p.chunk.pool.text? w.toNat = some name

/-- An instruction takes a number. -/
def Counts (p : Proto) (make : UInt32 → Instr) (count start stop : ℕ) : Prop :=
  ∃ w, p.chunk.At start (make w) stop ∧ w.toNat = count

/-- A function is made. -/
def Makes (p : Proto) (decl : FunctionDecl) (start stop : ℕ) : Prop :=
  ∃ w, p.chunk.At start (.closure w) stop ∧ p.functions[w.toNat]? = some (compileFunction decl)

/-- A declared function is bound to its name. -/
def Binds (p : Proto) (decl : FunctionDecl) (start stop : ℕ) : Prop :=
  match decl.name with
  | none => start = stop
  | some name =>
    ∃ middle, p.Makes decl start middle ∧ p.Names (.declare · .function) name middle stop

end Proto

/-- Where the jumps out of a loop body lead. -/
structure Exits extends Targets where
  /-- The number of scopes opened since the body. -/
  depth : ℕ

/-- In one more scope. -/
def Exits.deeper (e : Exits) : Exits :=
  { e with depth := e.depth + 1 }

/-- A number of scopes is closed. -/
def Chunk.Closes (c : Chunk) (count start stop : ℕ) : Prop :=
  c.Sequence (List.replicate count .popScope) start stop

/-! ### Trees -/

/-- An expression of one token lies between two offsets. -/
def Atom.Lies (p : Proto) : Atom → (start stop : ℕ) → Prop
  | .number x => p.Pushes (.number x)
  | .bool b => p.Pushes (.bool b)
  | .null => p.Pushes .null
  | .undefined => p.Pushes .undefined
  | .string text => p.Pushes (.string text)
  | .name text => p.Names .get text

mutual

/-- An expression lies between two offsets. -/
def Expr.Lies (p : Proto) : Expr → (start stop : ℕ) → Prop
  | .atom a _ _, start, stop => a.Lies p start stop
  | .group inner, start, stop => inner.Lies p start stop
  | .unary op operand, start, stop =>
    ∃ a, operand.Lies p start a ∧ p.chunk.At a op.instr stop
  | .binary op left right, start, stop =>
    ∃ a b, left.Lies p start a ∧ right.Lies p a b ∧ p.chunk.Sequence op.instrs b stop
  | .logical op left right, start, stop =>
    ∃ a b, left.Lies p start a ∧ p.chunk.Jumps a op.jumpKind stop b ∧ right.Lies p b stop
  | .assignName name value, start, stop =>
    ∃ a, value.Lies p start a ∧ p.Names .set name a stop
  | .assignProperty object name value, start, stop =>
    ∃ a b, object.Lies p start a ∧ value.Lies p a b ∧ p.Names .setProperty name b stop
  | .assignIndex object index value, start, stop =>
    ∃ a b c, object.Lies p start a ∧ index.Lies p a b ∧ value.Lies p b c ∧
      p.chunk.At c .setIndex stop
  | .call callee arguments, start, stop =>
    ∃ a b, callee.Lies p start a ∧ exprsLie p arguments a b ∧
      p.Counts .call arguments.length b stop
  | .property object name, start, stop =>
    ∃ a, object.Lies p start a ∧ p.Names .getProperty name a stop
  | .index object index, start, stop =>
    ∃ a b, object.Lies p start a ∧ index.Lies p a b ∧ p.chunk.At b .getIndex stop
  | .array elements, start, stop =>
    ∃ a, exprsLie p elements start a ∧ p.Counts .makeArray elements.length a stop
  | .object entries, start, stop =>
    ∃ a, entriesLie p entries start a ∧ p.Counts .makeObject entries.length a stop
  | .function decl, start, stop => p.Makes decl start stop ∧ decl.Lies

/-- Expressions lie one behind the other. -/
def exprsLie (p : Proto) : List Expr → (start stop : ℕ) → Prop
  | [], start, stop => start = stop
  | e :: rest, start, stop => ∃ a, e.Lies p start a ∧ exprsLie p rest a stop

/-- Keys and values lie one behind the other. -/
def entriesLie (p : Proto) : List (String × Expr) → (start stop : ℕ) → Prop
  | [], start, stop => start = stop
  | (key, e) :: rest, start, stop =>
    ∃ a b, p.Pushes (.string key) start a ∧ e.Lies p a b ∧ entriesLie p rest b stop

/-- A value, given or not, lies between two offsets. -/
def valueLies (p : Proto) : Option Expr → (start stop : ℕ) → Prop
  | some e, start, stop => e.Lies p start stop
  | none, start, stop => p.Pushes .undefined start stop

/-- A function lies in its code. -/
def FunctionDecl.Lies : FunctionDecl → Prop
  | .mk name parameters body line =>
    let p := compileFunction (.mk name parameters body line)
    ∃ a b c d, hoistLies p body 0 a ∧ stmtsLie p none true body a b ∧
      p.Pushes .undefined b c ∧ p.chunk.At c .ret d

/-- The functions declared in a list of statements are bound one after the other. -/
def hoistLies (p : Proto) : List Stmt → (start stop : ℕ) → Prop
  | [], start, stop => start = stop
  | .function decl :: rest, start, stop =>
    (decl.name.isSome → decl.Lies) ∧ ∃ a, p.Binds decl start a ∧ hoistLies p rest a stop
  | _ :: rest, start, stop => hoistLies p rest start stop

/-- Statements lie one behind the other. -/
def stmtsLie (p : Proto) (exits : Option Exits) (inFunction : Bool) :
    List Stmt → (start stop : ℕ) → Prop
  | [], start, stop => start = stop
  | s :: rest, start, stop =>
    ∃ a, s.Lies p exits inFunction true start a ∧ stmtsLie p exits inFunction rest a stop

/-- A statement lies between two offsets. -/
def Stmt.Lies (p : Proto) (exits : Option Exits) (inFunction hoisted : Bool) :
    Stmt → (start stop : ℕ) → Prop
  | .declare kind name initial _, start, stop =>
    ∃ a, valueLies p initial start a ∧ p.Names (.declare · kind.binding) name a stop
  | .function decl, start, stop =>
    if hoisted then start = stop else (decl.name.isSome → decl.Lies) ∧ p.Binds decl start stop
  | .expression e _, start, stop => ∃ a, e.Lies p start a ∧ p.chunk.At a .pop stop
  | .block body _, start, stop =>
    ∃ a b c, p.chunk.At start .pushScope a ∧ hoistLies p body a b ∧
      stmtsLie p (exits.map Exits.deeper) inFunction body b c ∧ p.chunk.At c .popScope stop
  | .conditional condition success none _, start, stop =>
    ∃ a b, condition.Lies p start a ∧ p.chunk.Jumps a .ifFalse stop b ∧
      success.Lies p exits inFunction false b stop
  | .conditional condition success (some failure) _, start, stop =>
    ∃ a b c d, condition.Lies p start a ∧ p.chunk.Jumps a .ifFalse d b ∧
      success.Lies p exits inFunction false b c ∧ p.chunk.Jumps c .always stop d ∧
      failure.Lies p exits inFunction false d stop
  | .whileLoop condition body _, start, stop =>
    ∃ a b c, condition.Lies p start a ∧ p.chunk.Jumps a .ifFalse stop b ∧
      body.Lies p (some ⟨⟨stop, start⟩, 0⟩) inFunction false b c ∧
      p.chunk.Jumps c .always start stop
  | .forLoop first condition increment body _, start, stop =>
    ∃ a b c d e f, p.chunk.At start .pushScope a ∧ startLies p inFunction first a b ∧
      testLies p f condition b c ∧
      body.Lies p (some ⟨⟨f, d⟩, 0⟩) inFunction false c d ∧ incrementLies p increment d e ∧
      p.chunk.Jumps e .always b f ∧ p.chunk.At f .popScope stop
  | .returnValue value _, start, stop =>
    inFunction = true ∧ ∃ a, valueLies p value start a ∧ p.chunk.At a .ret stop
  | .breakLoop _, start, stop =>
    ∃ e a, exits = some e ∧ p.chunk.Closes e.depth start a ∧
      p.chunk.Jumps a .always e.breakTo stop
  | .continueLoop _, start, stop =>
    ∃ e a, exits = some e ∧ p.chunk.Closes e.depth start a ∧
      p.chunk.Jumps a .always e.continueTo stop
  | .empty _, start, stop => start = stop

/-- What a counting loop does first lies between two offsets. -/
def startLies (p : Proto) (inFunction : Bool) : Option Stmt → (start stop : ℕ) → Prop
  | some s, start, stop => s.Lies p none inFunction true start stop
  | none, start, stop => start = stop

/-- The condition of a loop lies between two offsets. If it fails, the loop ends at `exit`. -/
def testLies (p : Proto) (exit : ℕ) : Option Expr → (start stop : ℕ) → Prop
  | some e, start, stop => ∃ a, e.Lies p start a ∧ p.chunk.Jumps a .ifFalse exit stop
  | none, start, stop => start = stop

/-- What a counting loop does after each round lies between two offsets. -/
def incrementLies (p : Proto) : Option Expr → (start stop : ℕ) → Prop
  | some e, start, stop => ∃ a, e.Lies p start a ∧ p.chunk.At a .pop stop
  | none, start, stop => start = stop

end

/-- A program lies in its code. -/
def programLies (program : Program) : Prop :=
  let p := compileProgram program
  ∃ a b c d, p.chunk.At 0 .enter a ∧ hoistLies p program a b ∧
    stmtsLie p none false program b c ∧ p.chunk.At c .halt d

/-- A function lies in its code, and nothing lies behind it. -/
def FunctionDecl.Fills (decl : FunctionDecl) : Prop :=
  let p := compileFunction decl
  ∃ a b c, hoistLies p decl.body 0 a ∧ stmtsLie p none true decl.body a b ∧
    p.Pushes .undefined b c ∧ p.chunk.At c .ret p.chunk.code.size

/-- A program lies in its code, and nothing lies behind it. -/
def programFills (program : Program) : Prop :=
  let p := compileProgram program
  ∃ a b c, p.chunk.At 0 .enter a ∧ hoistLies p program a b ∧
    stmtsLie p none false program b c ∧ p.chunk.At c .halt p.chunk.code.size

theorem FunctionDecl.Fills.lies {decl : FunctionDecl} (h : decl.Fills) : decl.Lies := by
  cases decl with
  | mk name parameters body line =>
      obtain ⟨a, b, c, hbindings, hbody, hvalue, hret⟩ := h
      exact ⟨a, b, c, _, hbindings, hbody, hvalue, hret⟩

/-! ### What the compiler emits -/

section

variable {p : Proto} {d : Draft} {start stop : ℕ}

theorem pushes_emitConstant {c : Constant} (hp : p.Compact)
    (hext : p.Extends (emitConstant c d).2)
    (hlies : Code.Lies p.chunk (emitConstant c d).1 start stop) : p.Pushes c start stop :=
  ⟨_, Code.at_of_lies hlies, hext.constant hp⟩

theorem names_emit {make : UInt32 → Instr} {name : String} {line : ℕ} (hp : p.Compact)
    (hext : p.Extends (namePosition name d).2)
    (hlies : Code.Lies p.chunk [(make (namePosition name d).1, line)] start stop) :
    p.Names make name start stop :=
  ⟨_, Code.at_of_lies hlies, hext.name hp⟩

/-- No more values are counted than bytes of code were emitted for them. -/
theorem counts_emit {make : UInt32 → Instr} {count line : ℕ} {code : Code} {first : ℕ}
    (hp : p.Compact) (hcode : code.Lies p.chunk first start) (hcount : count ≤ code.size)
    (hlies : Code.Lies p.chunk [(make (UInt32.ofNat count), line)] start stop) :
    p.Counts make count start stop := by
  refine ⟨_, Code.at_of_lies hlies, UInt32.toNat_ofNat_of_lt' ?_⟩
  have hbounds := hcode.bounds
  have hsize := hp.fits.code
  exact Nat.lt_trans (show count < Chunk.sizeLimit by omega) (by decide)

theorem jump_of_lies {kind : JumpKind} {distance : Int32} {line : ℕ}
    (hlies : Code.Lies p.chunk [(.jump kind distance, line)] start stop) :
    p.chunk.At start (.jump kind distance) stop ∧ stop = start + Instr.wideSize := by
  obtain ⟨hjump, rfl, -⟩ := hlies
  exact ⟨hjump, rfl⟩

theorem closes_of_lies {count line : ℕ}
    (hlies : Code.Lies p.chunk (List.replicate count (.popScope, line)) start stop) :
    p.chunk.Closes count start stop := by
  have hmap : Code.Lies p.chunk ((List.replicate count .popScope).map (·, line)) start stop := by
    rw [List.map_replicate]
    exact hlies
  exact Code.sequence_of_lies hmap

/-- The jumps around the two branches of a conditional. -/
theorem branches_of_lies {success failure : OpenCode} {targets : Targets}
    {a b c line line' : ℕ} (hp : p.Compact)
    (hskip : Code.Lies p.chunk
      [(.jump .ifFalse (Int32.ofInt (success.size + Instr.wideSize)), line)] start a)
    (hsuccess : success.Lies p.chunk targets a b)
    (hpass : Code.Lies p.chunk [(.goto failure.size, line')] b c)
    (hfailure : failure.Lies p.chunk targets c stop) :
    p.chunk.Jumps start .ifFalse c a ∧ p.chunk.Jumps b .always stop c := by
  obtain ⟨hb, -⟩ := hsuccess.bounds
  obtain ⟨hstop, hle⟩ := hfailure.bounds
  obtain ⟨hgoto, hc⟩ := jump_of_lies hpass
  constructor
  · exact .of_distance (Code.at_of_lies hskip) (by omega) hp.fits.code (by omega) (by omega)
  · exact .of_distance hgoto (by omega) hp.fits.code (by omega) hle

/-- The body of a loop and the jump back to its head. The head and the loop behind it have the
sizes from which the distances were computed. -/
theorem loop_of_lies {body : OpenCode} {a b c line head length : ℕ} {distance : Int}
    (start continueTo : ℕ) (hp : p.Compact)
    (hbody : Code.Lies p.chunk (close length distance 0 body) a b)
    (hback : Code.Lies p.chunk [(.goto (-(head + length : Int)), line)] c stop)
    (hhead : a = start + head) (hlength : stop = a + length)
    (hcontinue : a + distance = continueTo) (hle : continueTo ≤ stop) :
    body.Lies p.chunk ⟨stop, continueTo⟩ a b ∧ p.chunk.Jumps c .always start stop := by
  obtain ⟨hgoto, -⟩ := jump_of_lies hback
  obtain ⟨-, hstop⟩ := hback.bounds
  constructor
  · exact OpenCode.lies_of_close 0 hbody (by simp only; omega) hcontinue hp.fits.code hstop
      (Nat.le_trans hle hstop)
  · exact .of_distance hgoto (by omega) hp.fits.code hstop (by omega)

theorem map_depth_deeper (exits : Option Exits) :
    (exits.map Exits.depth).map (· + 1) = (exits.map Exits.deeper).map Exits.depth := by
  cases exits <;> rfl

theorem makes_emit {decl : FunctionDecl} {line : ℕ} (hp : p.Compact)
    (hext : p.Extends (functionPosition (compileFunction decl) d).2)
    (hlies : Code.Lies p.chunk
      [(.closure (functionPosition (compileFunction decl) d).1, line)] start stop) :
    p.Makes decl start stop :=
  ⟨_, Code.at_of_lies hlies, hext.function hp⟩

theorem fits_of_makes {decl : FunctionDecl} (hp : p.Compact) (h : p.Makes decl start stop) :
    (compileFunction decl).Fits := by
  obtain ⟨w, -, hfunction⟩ := h
  exact hp.fits.function (List.mem_of_getElem? hfunction)

theorem fits_of_binds {decl : FunctionDecl} (hp : p.Compact) (h : p.Binds decl start stop)
    (hname : decl.name.isSome) : (compileFunction decl).Fits := by
  obtain ⟨name, hname⟩ := Option.isSome_iff_exists.1 hname
  simp only [Proto.Binds, hname] at h
  obtain ⟨a, hmakes, -⟩ := h
  exact fits_of_makes hp hmakes

theorem lies_compileAtom {a : Atom} (hp : p.Compact) (hext : p.Extends (compileAtom a d).2)
    (hlies : Code.Lies p.chunk (compileAtom a d).1 start stop) : a.Lies p start stop := by
  cases a with
  | name text => exact names_emit hp hext hlies
  | number _ => exact pushes_emitConstant hp hext hlies
  | bool _ => exact pushes_emitConstant hp hext hlies
  | null => exact pushes_emitConstant hp hext hlies
  | undefined => exact pushes_emitConstant hp hext hlies
  | string _ => exact pushes_emitConstant hp hext hlies

theorem binds_bindFunction {decl : FunctionDecl} (hp : p.Compact)
    (hext : p.Extends (bindFunction decl (compileFunction decl) d).2)
    (hlies : Code.Lies p.chunk (bindFunction decl (compileFunction decl) d).1 start stop) :
    p.Binds decl start stop := by
  cases hname : decl.name with
  | none =>
      simp only [bindFunction, hname] at hlies
      simp only [Proto.Binds, hname]
      exact hlies.1
  | some name =>
      simp only [bindFunction, hname, Emit.bind_apply, Emit.pure_apply, Emit.emit_apply,
        Emit.atLine_apply, Code.lies_append] at hext hlies
      obtain ⟨middle, hclosure, hdeclare⟩ := hlies
      simp only [Proto.Binds, hname]
      refine ⟨middle, ?_, ?_⟩
      · exact makes_emit hp (hext.of_grows (.namePosition _ name)) hclosure
      · exact names_emit hp hext hdeclare

end

mutual

theorem lies_compileExpr : ∀ (e : Expr) (p : Proto) (d : Draft) (start stop : ℕ), p.Compact →
    p.Extends (compileExpr e d).2 → e.Placed → Code.Lies p.chunk (compileExpr e d).1 start stop →
    e.Lies p start stop
  | .atom a _ _, p, d, start, stop, hp, hext, _, hlies => by
      rw [compileExpr] at hext hlies
      exact lies_compileAtom hp hext hlies
  | .group inner, p, d, start, stop, hp, hext, hplaced, hlies => by
      rw [compileExpr] at hext hlies
      exact lies_compileExpr inner p d start stop hp hext hplaced hlies
  | .unary op operand, p, d, start, stop, hp, hext, hplaced, hlies => by
      simp only [compileExpr, Emit.bind_apply, Emit.pure_apply, Emit.emit_apply,
        Code.lies_append] at hext hlies
      obtain ⟨a, hoperand, hop⟩ := hlies
      refine ⟨a, ?_, Code.at_of_lies hop⟩
      exact lies_compileExpr operand p d start a hp hext hplaced hoperand
  | .binary op left right, p, d, start, stop, hp, hext, hplaced, hlies => by
      simp only [compileExpr, Emit.bind_apply, Emit.pure_apply, Emit.emit_apply,
        Code.lies_append] at hext hlies
      obtain ⟨b, ⟨a, hleft, hright⟩, hop⟩ := hlies
      have hextLeft := hext.of_grows (grows_compileExpr right _)
      refine ⟨a, b, ?_, ?_, Code.sequence_of_lies hop⟩
      · exact lies_compileExpr left p d start a hp hextLeft hplaced.1 hleft
      · exact lies_compileExpr right p _ a b hp hext hplaced.2 hright
  | .logical op left right, p, d, start, stop, hp, hext, hplaced, hlies => by
      simp only [compileExpr, Emit.bind_apply, Emit.pure_apply, Emit.emit_apply,
        Code.lies_append] at hext hlies
      obtain ⟨b, ⟨a, hleft, hjump⟩, hright⟩ := hlies
      have hextLeft := hext.of_grows (grows_compileExpr right _)
      obtain ⟨hstop, hle⟩ := hright.bounds
      refine ⟨a, b, ?_, ?_, ?_⟩
      · exact lies_compileExpr left p d start a hp hextLeft hplaced.1 hleft
      · exact .of_distance (Code.at_of_lies hjump) (by omega) hp.fits.code (by omega) hle
      · exact lies_compileExpr right p _ b stop hp hext hplaced.2 hright
  | .assignName name value, p, d, start, stop, hp, hext, hplaced, hlies => by
      simp only [compileExpr, Emit.bind_apply, Emit.pure_apply, Emit.emit_apply,
        Code.lies_append] at hext hlies
      obtain ⟨a, hvalue, hset⟩ := hlies
      refine ⟨a, ?_, names_emit hp hext hset⟩
      exact lies_compileExpr value p d start a hp (hext.of_grows (.namePosition _ name)) hplaced
        hvalue
  | .assignProperty object name value, p, d, start, stop, hp, hext, hplaced, hlies => by
      simp only [compileExpr, Emit.bind_apply, Emit.pure_apply, Emit.emit_apply,
        Code.lies_append] at hext hlies
      obtain ⟨b, ⟨a, hobject, hvalue⟩, hset⟩ := hlies
      have hextValue := hext.of_grows (.namePosition _ name)
      have hextObject := hextValue.of_grows (grows_compileExpr value _)
      refine ⟨a, b, ?_, ?_, names_emit hp hext hset⟩
      · exact lies_compileExpr object p d start a hp hextObject hplaced.1 hobject
      · exact lies_compileExpr value p _ a b hp hextValue hplaced.2 hvalue
  | .assignIndex object index value, p, d, start, stop, hp, hext, hplaced, hlies => by
      simp only [compileExpr, Emit.bind_apply, Emit.pure_apply, Emit.emit_apply,
        Code.lies_append] at hext hlies
      obtain ⟨c, ⟨b, ⟨a, hobject, hindex⟩, hvalue⟩, hset⟩ := hlies
      have hextIndex := hext.of_grows (grows_compileExpr value _)
      have hextObject := hextIndex.of_grows (grows_compileExpr index _)
      refine ⟨a, b, c, ?_, ?_, ?_, Code.at_of_lies hset⟩
      · exact lies_compileExpr object p d start a hp hextObject hplaced.1 hobject
      · exact lies_compileExpr index p _ a b hp hextIndex hplaced.2.1 hindex
      · exact lies_compileExpr value p _ b c hp hext hplaced.2.2 hvalue
  | .call callee arguments, p, d, start, stop, hp, hext, hplaced, hlies => by
      simp only [compileExpr, Emit.bind_apply, Emit.pure_apply, Emit.emit_apply,
        Code.lies_append] at hext hlies
      obtain ⟨b, ⟨a, hcallee, harguments⟩, hcall⟩ := hlies
      have hextCallee := hext.of_grows (grows_compileExprs arguments _)
      have hcount := length_le_size_compileExprs arguments (compileExpr callee d).2
      refine ⟨a, b, ?_, ?_, counts_emit hp harguments hcount hcall⟩
      · exact lies_compileExpr callee p d start a hp hextCallee hplaced.1 hcallee
      · exact lies_compileExprs arguments p _ a b hp hext hplaced.2 harguments
  | .property object name, p, d, start, stop, hp, hext, hplaced, hlies => by
      simp only [compileExpr, Emit.bind_apply, Emit.pure_apply, Emit.emit_apply,
        Code.lies_append] at hext hlies
      obtain ⟨a, hobject, hget⟩ := hlies
      refine ⟨a, ?_, names_emit hp hext hget⟩
      exact lies_compileExpr object p d start a hp (hext.of_grows (.namePosition _ name)) hplaced
        hobject
  | .index object index, p, d, start, stop, hp, hext, hplaced, hlies => by
      simp only [compileExpr, Emit.bind_apply, Emit.pure_apply, Emit.emit_apply,
        Code.lies_append] at hext hlies
      obtain ⟨b, ⟨a, hobject, hindex⟩, hget⟩ := hlies
      have hextObject := hext.of_grows (grows_compileExpr index _)
      refine ⟨a, b, ?_, ?_, Code.at_of_lies hget⟩
      · exact lies_compileExpr object p d start a hp hextObject hplaced.1 hobject
      · exact lies_compileExpr index p _ a b hp hext hplaced.2 hindex
  | .array elements, p, d, start, stop, hp, hext, hplaced, hlies => by
      simp only [compileExpr, Emit.bind_apply, Emit.pure_apply, Emit.emit_apply,
        Code.lies_append] at hext hlies
      obtain ⟨a, helements, hmake⟩ := hlies
      have hcount := length_le_size_compileExprs elements d
      refine ⟨a, ?_, counts_emit hp helements hcount hmake⟩
      exact lies_compileExprs elements p d start a hp hext hplaced helements
  | .object entries, p, d, start, stop, hp, hext, hplaced, hlies => by
      simp only [compileExpr, Emit.bind_apply, Emit.pure_apply, Emit.emit_apply,
        Code.lies_append] at hext hlies
      obtain ⟨a, hentries, hmake⟩ := hlies
      have hcount := length_le_size_compileEntries entries d
      refine ⟨a, ?_, counts_emit hp hentries hcount hmake⟩
      exact lies_compileEntries entries p d start a hp hext hplaced hentries
  | .function decl, p, d, start, stop, hp, hext, hplaced, hlies => by
      simp only [compileExpr, Emit.bind_apply, Emit.emit_apply] at hext hlies
      have hmakes := makes_emit hp hext hlies
      exact ⟨hmakes, (fills_compileFunction decl (fits_of_makes hp hmakes) hplaced).lies⟩

theorem lies_compileExprs : ∀ (es : List Expr) (p : Proto) (d : Draft) (start stop : ℕ),
    p.Compact → p.Extends (compileExprs es d).2 → exprsPlaced es →
    Code.Lies p.chunk (compileExprs es d).1 start stop → exprsLie p es start stop
  | [], p, d, start, stop, _, _, _, hlies => by
      rw [compileExprs] at hlies
      exact hlies.1
  | e :: rest, p, d, start, stop, hp, hext, hplaced, hlies => by
      simp only [compileExprs, Emit.bind_apply, Emit.pure_apply, Code.lies_append] at hext hlies
      obtain ⟨a, he, hrest⟩ := hlies
      refine ⟨a, ?_, lies_compileExprs rest p _ a stop hp hext hplaced.2 hrest⟩
      exact lies_compileExpr e p d start a hp (hext.of_grows (grows_compileExprs rest _))
        hplaced.1 he

theorem lies_compileEntries : ∀ (entries : List (String × Expr)) (p : Proto) (d : Draft)
    (start stop : ℕ), p.Compact → p.Extends (compileEntries entries d).2 →
    entriesPlaced entries → Code.Lies p.chunk (compileEntries entries d).1 start stop →
    entriesLie p entries start stop
  | [], p, d, start, stop, _, _, _, hlies => by
      rw [compileEntries] at hlies
      exact hlies.1
  | (key, e) :: rest, p, d, start, stop, hp, hext, hplaced, hlies => by
      simp only [compileEntries, Emit.bind_apply, Emit.pure_apply, Code.lies_append]
        at hext hlies
      obtain ⟨b, ⟨a, hkey, he⟩, hrest⟩ := hlies
      have hextValue := hext.of_grows (grows_compileEntries rest _)
      have hextKey := hextValue.of_grows (grows_compileExpr e _)
      refine ⟨a, b, pushes_emitConstant hp hextKey hkey, ?_, ?_⟩
      · exact lies_compileExpr e p _ a b hp hextValue hplaced.1 he
      · exact lies_compileEntries rest p _ b stop hp hext hplaced.2 hrest

theorem lies_compileValue : ∀ (value : Option Expr) (p : Proto) (d : Draft) (start stop : ℕ),
    p.Compact → p.Extends (compileValue value d).2 → valuePlaced value →
    Code.Lies p.chunk (compileValue value d).1 start stop → valueLies p value start stop
  | none, p, d, start, stop, hp, hext, _, hlies => by
      rw [compileValue] at hext hlies
      exact pushes_emitConstant hp hext hlies
  | some e, p, d, start, stop, hp, hext, hplaced, hlies => by
      rw [compileValue] at hext hlies
      exact lies_compileExpr e p d start stop hp hext hplaced hlies

theorem lies_compileTest : ∀ (condition : Option Expr) (p : Proto) (d : Draft)
    (exit length line start middle stop : ℕ), p.Compact → p.Extends (compileTest condition d).2 →
    valuePlaced condition → Code.Lies p.chunk (compileTest condition d).1 start middle →
    Code.Lies p.chunk ((if condition.isSome then [.jump .ifFalse (Int32.ofInt length)]
      else []).map (·, line)) middle stop →
    stop + length = exit → exit ≤ p.chunk.code.size → testLies p exit condition start stop
  | none, p, d, exit, length, line, start, middle, stop, _, _, _, hlies, hskip, _, _ => by
      rw [compileTest] at hlies
      exact hlies.1.trans hskip.1
  | some e, p, d, exit, length, line, start, middle, stop, hp, hext, hplaced, hlies, hskip,
      hlead, hexit => by
      rw [compileTest] at hext hlies
      obtain ⟨-, hle⟩ := hskip.bounds
      refine ⟨middle, lies_compileExpr e p d start middle hp hext hplaced hlies, ?_⟩
      exact .of_distance (Code.at_of_lies hskip) (by omega) hp.fits.code hle hexit

theorem lies_compileIncrement : ∀ (increment : Option Expr) (p : Proto) (d : Draft)
    (start stop : ℕ), p.Compact → p.Extends (compileIncrement increment d).2 →
    valuePlaced increment → Code.Lies p.chunk (compileIncrement increment d).1 start stop →
    incrementLies p increment start stop
  | none, p, d, start, stop, _, _, _, hlies => by
      rw [compileIncrement] at hlies
      exact hlies.1
  | some e, p, d, start, stop, hp, hext, hplaced, hlies => by
      simp only [compileIncrement, Emit.bind_apply, Emit.pure_apply, Emit.emit_apply,
        Code.lies_append] at hext hlies
      obtain ⟨a, he, hpop⟩ := hlies
      exact ⟨a, lies_compileExpr e p d start a hp hext hplaced he, Code.at_of_lies hpop⟩

theorem fills_compileFunction : ∀ (decl : FunctionDecl), (compileFunction decl).Fits →
    decl.Placed → decl.Fills
  | .mk name parameters body line, hfits, hplaced => by
      have hcompact : (compileFunction (.mk name parameters body line)).Compact := by
        rw [compileFunction_mk] at hfits ⊢
        exact compact_protoOf _ _ _ _ _ (grows_emitFunction body _) hfits
      have hext := extends_protoOf (displayName name) name parameters line (emitFunction body)
      have hlies := Code.lies_protoOf (displayName name) name parameters line (emitFunction body)
      rw [← compileFunction_mk] at hext hlies
      simp only [emitFunction, Emit.bind_apply, Emit.pure_apply, Emit.emit_apply,
        Code.lies_append] at hext hlies
      obtain ⟨c, ⟨b, ⟨a, hbindings, hcode⟩, hvalue⟩, hret⟩ := hlies
      have hextCode := hext.of_grows (.emitConstant _ .undefined)
      have hextBindings := hextCode.of_grows (grows_compileStmts none body _)
      have hclosed := closed_compileStmts body (hoist body ⟨.empty, #[], line⟩).2
      refine ⟨a, b, c, ?_, ?_, pushes_emitConstant hcompact hext hvalue, Code.at_of_lies hret⟩
      · exact lies_hoist body _ false true _ 0 a hcompact hextBindings hplaced hbindings
      · exact lies_compileStmts body _ ⟨0, 0⟩ none true _ a b hcompact hextCode hplaced
          (fun e he => by cases he) (OpenCode.lies_of_toCode hclosed hcode)

theorem lies_hoist : ∀ (body : List Stmt) (p : Proto) (inLoop inFunction : Bool) (d : Draft)
    (start stop : ℕ), p.Compact → p.Extends (hoist body d).2 →
    stmtsPlaced inLoop inFunction body → Code.Lies p.chunk (hoist body d).1 start stop →
    hoistLies p body start stop
  | [], p, _, _, d, start, stop, _, _, _, hlies => by
      rw [hoist] at hlies
      exact hlies.1
  | s :: rest, p, inLoop, inFunction, d, start, stop, hp, hext, hplaced, hlies => by
      cases s with
      | function decl =>
          simp only [hoist, Emit.bind_apply, Emit.pure_apply, Code.lies_append] at hext hlies
          obtain ⟨a, hdecl, hrest⟩ := hlies
          have hextDecl := hext.of_grows (grows_hoist rest _)
          have hbinds := binds_bindFunction hp hextDecl hdecl
          refine ⟨fun hname => ?_, a, hbinds, ?_⟩
          · exact (fills_compileFunction decl (fits_of_binds hp hbinds hname) hplaced.1).lies
          · exact lies_hoist rest p inLoop inFunction _ a stop hp hext hplaced.2 hrest
      | _ =>
          simp only [hoist] at hext hlies
          exact lies_hoist rest p inLoop inFunction d start stop hp hext hplaced.2 hlies

theorem lies_compileStmts : ∀ (body : List Stmt) (p : Proto) (targets : Targets)
    (exits : Option Exits) (inFunction : Bool) (d : Draft) (start stop : ℕ), p.Compact →
    p.Extends (compileStmts (exits.map Exits.depth) body d).2 →
    stmtsPlaced exits.isSome inFunction body → (∀ e, exits = some e → e.toTargets = targets) →
    OpenCode.Lies p.chunk targets (compileStmts (exits.map Exits.depth) body d).1 start stop →
    stmtsLie p exits inFunction body start stop
  | [], p, _, _, _, d, start, stop, _, _, _, _, hlies => by
      rw [compileStmts] at hlies
      exact hlies.1
  | s :: rest, p, targets, exits, inFunction, d, start, stop, hp, hext, hplaced, htargets,
      hlies => by
      simp only [compileStmts, Emit.bind_apply, Emit.pure_apply, OpenCode.lies_append]
        at hext hlies
      obtain ⟨a, hs, hrest⟩ := hlies
      have hextStmt := hext.of_grows (grows_compileStmts _ rest _)
      refine ⟨a, ?_, ?_⟩
      · exact lies_compileStmt s p targets exits inFunction true d start a hp hextStmt hplaced.1
          htargets hs
      · exact lies_compileStmts rest p targets exits inFunction _ a stop hp hext hplaced.2
          htargets hrest

theorem lies_compileStmt : ∀ (s : Stmt) (p : Proto) (targets : Targets) (exits : Option Exits)
    (inFunction hoisted : Bool) (d : Draft) (start stop : ℕ), p.Compact →
    p.Extends (compileStmt hoisted (exits.map Exits.depth) s d).2 →
    s.Placed exits.isSome inFunction → (∀ e, exits = some e → e.toTargets = targets) →
    OpenCode.Lies p.chunk targets (compileStmt hoisted (exits.map Exits.depth) s d).1 start stop →
    s.Lies p exits inFunction hoisted start stop
  | .declare kind name initial line, p, targets, exits, inFunction, hoisted, d, start, stop, hp,
      hext, hplaced, htargets, hlies => by
      simp only [compileStmt, Emit.bind_apply, Emit.pure_apply, Emit.emit_apply,
        Emit.atLine_apply, OpenCode.lies_ofCode, Code.lies_append] at hext hlies
      obtain ⟨a, hvalue, hdeclare⟩ := hlies
      have hextValue := hext.of_grows (.namePosition _ name)
      refine ⟨a, lies_compileValue initial p _ start a hp hextValue hplaced hvalue, ?_⟩
      exact names_emit hp hext hdeclare
  | .function decl, p, targets, exits, inFunction, true, d, start, stop, hp, hext, hplaced,
      htargets, hlies => by
      simp only [compileStmt, Emit.bind_apply, Emit.pure_apply, Emit.atLine_apply, if_true]
        at hlies
      exact hlies.1
  | .function decl, p, targets, exits, inFunction, false, d, start, stop, hp, hext, hplaced,
      htargets, hlies => by
      simp only [compileStmt, Emit.bind_apply, Emit.pure_apply, Bool.false_eq_true, if_false,
        OpenCode.lies_ofCode] at hext hlies
      have hbinds := binds_bindFunction hp hext hlies
      refine ⟨fun hname => ?_, hbinds⟩
      exact (fills_compileFunction decl (fits_of_binds hp hbinds hname) hplaced).lies
  | .expression e line, p, targets, exits, inFunction, hoisted, d, start, stop, hp, hext,
      hplaced, htargets, hlies => by
      simp only [compileStmt, Emit.bind_apply, Emit.pure_apply, Emit.emit_apply,
        Emit.atLine_apply, OpenCode.lies_ofCode, Code.lies_append] at hext hlies
      obtain ⟨a, he, hpop⟩ := hlies
      exact ⟨a, lies_compileExpr e p _ start a hp hext hplaced he, Code.at_of_lies hpop⟩
  | .block body line, p, targets, exits, inFunction, hoisted, d, start, stop, hp, hext, hplaced,
      htargets, hlies => by
      simp only [compileStmt, Emit.bind_apply, Emit.pure_apply, Emit.emit_apply,
        Emit.atLine_apply, map_depth_deeper, OpenCode.lies_append, OpenCode.lies_ofCode,
        Code.lies_append] at hext hlies
      obtain ⟨c, ⟨b, ⟨a, hopen, hbindings⟩, hbody⟩, hclose⟩ := hlies
      have hextBindings := hext.of_grows (grows_compileStmts _ body _)
      refine ⟨a, b, c, Code.at_of_lies hopen, ?_, ?_, Code.at_of_lies hclose⟩
      · exact lies_hoist body p _ _ _ a b hp hextBindings hplaced hbindings
      -- The same exits, seen from one scope further inside.
      · refine lies_compileStmts body p targets _ inFunction _ b c hp hext ?_ ?_ hbody
        · rw [Option.isSome_map]
          exact hplaced
        · intro e he
          obtain ⟨e', he', rfl⟩ := Option.map_eq_some_iff.1 he
          exact htargets e' he'
  | .conditional condition success none line, p, targets, exits, inFunction, hoisted, d, start,
      stop, hp, hext, hplaced, htargets, hlies => by
      simp only [compileStmt, Emit.bind_apply, Emit.pure_apply, Emit.atLine_apply,
        OpenCode.lies_append, OpenCode.lies_ofCode, Code.lies_append] at hext hlies
      obtain ⟨b, ⟨a, hcondition, hskip⟩, hsuccess⟩ := hlies
      have hextCondition := hext.of_grows (grows_compileStmt false _ success _)
      obtain ⟨hstop, hle⟩ := hsuccess.bounds
      refine ⟨a, b, ?_, ?_, ?_⟩
      · exact lies_compileExpr condition p _ start a hp hextCondition hplaced.1 hcondition
      · exact .of_distance (Code.at_of_lies hskip) (by omega) hp.fits.code (by omega) hle
      · exact lies_compileStmt success p targets exits inFunction false _ b stop hp hext
          hplaced.2.1 htargets hsuccess
  | .conditional condition success (some failure) line, p, targets, exits, inFunction, hoisted,
      d, start, stop, hp, hext, hplaced, htargets, hlies => by
      simp only [compileStmt, Emit.bind_apply, Emit.pure_apply, Emit.atLine_apply,
        Emit.get_apply, OpenCode.lies_append, OpenCode.lies_ofCode, Code.lies_append]
        at hext hlies
      obtain ⟨d', ⟨c, ⟨b, ⟨a, hcondition, hskip⟩, hsuccess⟩, hpass⟩, hfailure⟩ := hlies
      -- Each part was compiled before the parts behind it added to the pool.
      have hextSuccess := hext.of_grows (grows_compileStmt false _ failure _)
      have hextCondition := hextSuccess.of_grows (grows_compileStmt false _ success _)
      obtain ⟨hjumpSkip, hjumpPass⟩ := branches_of_lies hp hskip hsuccess hpass hfailure
      refine ⟨a, b, c, d', ?_, hjumpSkip, ?_, hjumpPass, ?_⟩
      · exact lies_compileExpr condition p _ start a hp hextCondition hplaced.1 hcondition
      · exact lies_compileStmt success p targets exits inFunction false _ b c hp hextSuccess
          hplaced.2.1 htargets hsuccess
      · exact lies_compileStmt failure p targets exits inFunction false _ d' stop hp hext
          hplaced.2.2 htargets hfailure
  | .whileLoop condition body line, p, targets, exits, inFunction, hoisted, d, start, stop, hp,
      hext, hplaced, htargets, hlies => by
      simp only [compileStmt, Emit.bind_apply, Emit.pure_apply, Emit.emit_apply,
        Emit.atLine_apply, OpenCode.lies_ofCode, Code.lies_append] at hext hlies
      obtain ⟨c, ⟨b, ⟨a, hcondition, hskip⟩, hround⟩, hback⟩ := hlies
      have hextRound := hext.of_grows (.atLine _ line)
      have hextCondition := hextRound.of_grows (grows_compileStmt false _ body _)
      -- The distances were computed from sizes; the bounds say where the parts end.
      obtain ⟨ha, -⟩ := hcondition.bounds
      obtain ⟨hjump, hb⟩ := jump_of_lies hskip
      obtain ⟨hc, -⟩ := hround.bounds
      obtain ⟨-, hstop⟩ := jump_of_lies hback
      obtain ⟨-, hle⟩ := hback.bounds
      rw [OpenCode.size_close] at hc
      obtain ⟨hbody, hjumpBack⟩ := loop_of_lies start start hp hround hback (by omega) (by omega)
        (by omega) (by omega)
      refine ⟨a, b, c, ?_, ?_, ?_, hjumpBack⟩
      · exact lies_compileExpr condition p _ start a hp hextCondition hplaced.1 hcondition
      · exact .of_distance hjump (by omega) hp.fits.code (by omega) hle
      · exact lies_compileStmt body p ⟨stop, start⟩ (some ⟨⟨stop, start⟩, 0⟩) inFunction false _
          b c hp hextRound hplaced.2 (fun e he => by cases he; rfl) hbody
  | .forLoop first condition increment body line, p, targets, exits, inFunction, hoisted, d,
      start, stop, hp, hext, hplaced, htargets, hlies => by
      simp only [compileStmt, Emit.bind_apply, Emit.pure_apply, Emit.emit_apply,
        Emit.atLine_apply, OpenCode.lies_append, OpenCode.lies_ofCode, Code.lies_append]
        at hext hlies
      obtain ⟨b, ⟨a, hopen, hfirst⟩, hlies⟩ := hlies
      obtain ⟨f, ⟨e, ⟨d', ⟨c, ⟨c', hcondition, hskip⟩, hround⟩, hnext⟩, hback⟩, hclose⟩ := hlies
      have hextRound := (hext.of_grows (grows_compileIncrement increment _)).of_grows
        (.atLine _ line)
      have hextCondition := hextRound.of_grows (grows_compileStmt false _ body _)
      have hextFirst := (hextCondition.of_grows (grows_compileTest condition _)).of_grows
        (.atLine _ line)
      -- As above, with the scope and two more parts around the body.
      obtain ⟨hc', -⟩ := hcondition.bounds
      obtain ⟨hc, -⟩ := hskip.bounds
      obtain ⟨hd', -⟩ := hround.bounds
      obtain ⟨he, -⟩ := hnext.bounds
      obtain ⟨-, hf⟩ := jump_of_lies hback
      obtain ⟨-, hle⟩ := hback.bounds
      rw [OpenCode.size_close] at hd'
      obtain ⟨hbody, hjumpBack⟩ := loop_of_lies b d' hp hround hback (by omega) (by omega)
        (by omega) (by omega)
      obtain ⟨hplacedFirst, hplacedCondition, hplacedIncrement, hplacedBody⟩ := hplaced
      refine ⟨a, b, c, d', e, f, Code.at_of_lies hopen, ?_, ?_, ?_, ?_, hjumpBack,
        Code.at_of_lies hclose⟩
      · exact lies_compileStart first p targets inFunction _ a b hp hextFirst hplacedFirst hfirst
      · exact lies_compileTest condition p _ f _ _ b c' c hp hextCondition hplacedCondition
          hcondition hskip (by omega) hle
      · exact lies_compileStmt body p ⟨f, d'⟩ (some ⟨⟨f, d'⟩, 0⟩) inFunction false _ c d' hp
          hextRound hplacedBody (fun e he => by cases he; rfl) hbody
      · exact lies_compileIncrement increment p _ d' e hp hext hplacedIncrement hnext
  | .returnValue value line, p, targets, exits, inFunction, hoisted, d, start, stop, hp, hext,
      hplaced, htargets, hlies => by
      simp only [compileStmt, Emit.bind_apply, Emit.pure_apply, Emit.emit_apply,
        Emit.atLine_apply, OpenCode.lies_ofCode, Code.lies_append] at hext hlies
      obtain ⟨a, hvalue, hret⟩ := hlies
      refine ⟨hplaced.1, a, ?_, Code.at_of_lies hret⟩
      exact lies_compileValue value p _ start a hp hext hplaced.2 hvalue
  | .breakLoop line, p, targets, exits, inFunction, hoisted, d, start, stop, hp, hext, hplaced,
      htargets, hlies => by
      obtain ⟨e, rfl⟩ := Option.isSome_iff_exists.1 hplaced
      simp only [compileStmt, Option.map_some, Emit.bind_apply, Emit.pure_apply,
        Emit.atLine_apply, OpenCode.lies_append, OpenCode.lies_ofCode] at hlies
      obtain ⟨a, hcloses, hjump, rfl, -⟩ := hlies
      rw [← htargets e rfl] at hjump
      exact ⟨e, a, rfl, closes_of_lies hcloses, hjump⟩
  | .continueLoop line, p, targets, exits, inFunction, hoisted, d, start, stop, hp, hext,
      hplaced, htargets, hlies => by
      obtain ⟨e, rfl⟩ := Option.isSome_iff_exists.1 hplaced
      simp only [compileStmt, Option.map_some, Emit.bind_apply, Emit.pure_apply,
        Emit.atLine_apply, OpenCode.lies_append, OpenCode.lies_ofCode] at hlies
      obtain ⟨a, hcloses, hjump, rfl, -⟩ := hlies
      rw [← htargets e rfl] at hjump
      exact ⟨e, a, rfl, closes_of_lies hcloses, hjump⟩
  | .empty line, p, targets, exits, inFunction, hoisted, d, start, stop, hp, hext, hplaced,
      htargets, hlies => by
      rw [compileStmt] at hlies
      exact hlies.1

theorem lies_compileStart : ∀ (first : Option Stmt) (p : Proto) (targets : Targets)
    (inFunction : Bool) (d : Draft) (start stop : ℕ), p.Compact →
    p.Extends (compileStart first d).2 → optionalPlaced false inFunction first →
    OpenCode.Lies p.chunk targets (compileStart first d).1 start stop →
    startLies p inFunction first start stop
  | none, p, targets, inFunction, d, start, stop, _, _, _, hlies => by
      rw [compileStart] at hlies
      exact hlies.1
  | some s, p, targets, inFunction, d, start, stop, hp, hext, hplaced, hlies => by
      rw [compileStart] at hext hlies
      exact lies_compileStmt s p targets none inFunction true d start stop hp hext hplaced
        (fun e he => by cases he) hlies

end

/-- A program that was parsed fills its code. -/
theorem fills_compileProgram {program : Program} (hfits : (compileProgram program).Fits)
    (hplaced : stmtsPlaced false false program) : programFills program := by
  have hcompact : (compileProgram program).Compact :=
    compact_protoOf _ _ _ _ _ (grows_emitProgram program _) hfits
  have hext := extends_protoOf "PROGRAM" none [] 1 (emitProgram program)
  have hlies := Code.lies_protoOf "PROGRAM" none [] 1 (emitProgram program)
  rw [← compileProgram_eq] at hext hlies
  simp only [emitProgram, Emit.bind_apply, Emit.pure_apply, Emit.emit_apply,
    Code.lies_append] at hext hlies
  obtain ⟨c, ⟨b, ⟨a, henter, hbindings⟩, hcode⟩, hhalt⟩ := hlies
  have hextBindings := hext.of_grows (grows_compileStmts none program _)
  have hclosed := closed_compileStmts program (hoist program ⟨.empty, #[], 1⟩).2
  refine ⟨a, b, c, Code.at_of_lies henter, ?_, ?_, Code.at_of_lies hhalt⟩
  · exact lies_hoist program _ false false _ a b hcompact hextBindings hplaced hbindings
  · exact lies_compileStmts program _ ⟨0, 0⟩ none false _ b c hcompact hext hplaced
      (fun e he => by cases he) (OpenCode.lies_of_toCode hclosed hcode)

theorem lies_compileProgram {program : Program} (hfits : (compileProgram program).Fits)
    (hplaced : stmtsPlaced false false program) : programLies program := by
  obtain ⟨a, b, c, henter, hbindings, hbody, hhalt⟩ := fills_compileProgram hfits hplaced
  exact ⟨a, b, c, _, henter, hbindings, hbody, hhalt⟩

end Tracepoint
