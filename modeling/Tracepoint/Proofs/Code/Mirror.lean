/-
The functions of compiled programs.

The functions that stand directly in a program, or in a function, are exactly the functions of its
code, each of them once; and the same is true inside of each of them.  The instructions that make
functions take them one after the other, so one instruction makes each of them.  A declaration is
bound to its name by the next instruction, and nothing else is bound like that.

A handle is a word.  So that different functions have different handles, there must not be more of
them directly in one function than there are words.

Main definitions:

* `Proto.outline` — the instructions of a function, but for the jumps that are always taken;
* `Routine.functions`, `Routine.lists` — the functions directly in a routine, and its lists of
  statements;
* `Proto.Matches`, `Mirrors` — some code makes the functions in a tree, and so on inside of them.

Main results:

* `MakesFunctions.filter_isClosure`, `MakesFunctions.count` — **each of the functions is made by one
  instruction**;
* `Routine.matches_proto`, `Routine.mirrors` — **code mirrors a routine in which all that is
  declared can be bound**;
* `compiled_mirrors` — **so does the code of every program**.
-/

import Mathlib
import Tracepoint.Proofs.Code.Closures
import Tracepoint.Proofs.Code.Routine
import Tracepoint.Proofs.Code.Table

set_option relaxedAutoImplicit false
set_option autoImplicit false

namespace Tracepoint

/-! ### The instructions that make functions -/

/-- The instruction makes a function. -/
def isClosure : Option Instr → Bool
  | some (.closure _) => true
  | _ => false

/-- The instructions that make the functions at some positions. -/
def closures (positions : List ℕ) : List (Option Instr) :=
  positions.map fun position => some (.closure (UInt32.ofNat position))

theorem isClosure_of_plain {i : Option Instr} (hi : Plain i) : ¬isClosure i = true := by
  intro h
  simp only [isClosure] at h
  split at h
  · exact hi
  · cases h

theorem Instr.outline_eq_closure {i : Instr} {w : UInt32} :
    i.outline = some (.closure w) ↔ i = .closure w := by
  cases i with
  | jump kind distance => cases kind <;> simp [Instr.outline]
  | _ => simp [Instr.outline]

theorem count_outline_closure (is : List Instr) (w : UInt32) :
    (is.map Instr.outline).count (some (.closure w)) = is.count (.closure w) := by
  rw [List.count, List.countP_map, List.count]
  refine List.countP_congr fun i _ => ?_
  simp only [Function.comp_apply, beq_iff_eq, Instr.outline_eq_closure]

/-- Different positions are different words, if all of them fit. -/
theorem nodup_closures {count : ℕ} (hsize : count ≤ UInt32.size) :
    (closures (List.range count)).Nodup := by
  refine List.nodup_range.map_on fun j hj k hk h => ?_
  have hw : UInt32.ofNat j = UInt32.ofNat k := by simpa using h
  have hnat := congrArg UInt32.toNat hw
  rwa [UInt32.toNat_ofNat_of_lt' (Nat.lt_of_lt_of_le (List.mem_range.1 hj) hsize),
    UInt32.toNat_ofNat_of_lt' (Nat.lt_of_lt_of_le (List.mem_range.1 hk) hsize)] at hnat

namespace MakesFunctions

variable {pool : Pool} {is : List (Option Instr)} {made : List Inner}

/-- Instructions take the functions one after the other. -/
theorem filter_isClosure {position : ℕ} (h : MakesFunctions pool position is made) :
    is.filter isClosure = closures (List.range' position made.length) := by
  induction h with
  | nil position => rfl
  | plain hi _ ih => rw [List.filter_cons_of_neg (isClosure_of_plain hi), ih]
  | value decl _ ih =>
      rw [List.filter_cons_of_pos rfl, ih, List.length_cons, List.range'_succ, closures, closures,
        List.map_cons]
  | declared hname hw _ ih =>
      rw [List.filter_cons_of_pos rfl, List.filter_cons_of_neg Bool.false_ne_true, ih,
        List.length_cons, List.range'_succ, closures, closures, List.map_cons]

/-- **Each of the functions is made by one instruction.** -/
theorem count (h : MakesFunctions pool 0 is made) (hsize : made.length ≤ UInt32.size) {k : ℕ}
    (hk : k < made.length) : is.count (some (.closure (UInt32.ofNat k))) = 1 := by
  have hfilter := h.filter_isClosure
  rw [← List.range_eq_range'] at hfilter
  have hmem : some (Instr.closure (UInt32.ofNat k)) ∈ closures (List.range made.length) :=
    List.mem_map_of_mem (List.mem_range.2 hk)
  have hcount := List.count_eq_one_of_mem (nodup_closures hsize) hmem
  rwa [← hfilter, List.count_filter rfl] at hcount

end MakesFunctions

/-! ### Routines and their functions -/

/-- The instructions of a function in order, but for the jumps that are always taken. -/
def Proto.outline (p : Proto) : List (Option Instr) :=
  p.chunk.instructions.map fun x => x.2.outline

/-- A function is larger than the functions inside. -/
theorem Proto.sizeOf_lt_of_mem {p q : Proto} (h : q ∈ p.functions) : sizeOf q < sizeOf p := by
  have hlist := List.sizeOf_lt_of_mem h
  obtain ⟨name, parameters, line, chunk, functions⟩ := p
  rw [Proto.mk.sizeOf_spec]
  exact Nat.lt_of_lt_of_le hlist (Nat.le_add_left ..)

namespace Routine

/-- The name of a function, if it has one. Programs have none. -/
def name : Routine → Option String
  | program _ => none
  | function decl => decl.name

/-- The parameters of a function. Programs have none. -/
def parameters : Routine → List String
  | program _ => []
  | function decl => decl.parameters

/-- The line of a function. Programs start in the first one. -/
def line : Routine → ℕ
  | program _ => 1
  | function decl => decl.line

/-- The functions directly in a routine. -/
def functions (r : Routine) : List Inner :=
  stmtsInner r.body

/-- The lists of statements in a routine: its body and its blocks. -/
def lists (r : Routine) : List (List Stmt) :=
  r.body :: stmtsLists r.body

end Routine

/-- Some code is the code of a routine, and it makes the functions directly in the routine, which are
`made` in order. -/
structure Proto.Matches (p : Proto) (r : Routine) (made : List Inner) : Prop where
  name : p.name = r.name
  parameters : p.parameters = r.parameters
  line : p.line = r.line
  /-- The functions directly in the routine are made, each once. -/
  functions : made.Perm r.functions
  /-- Each of them has its position. -/
  length : p.functions.length = made.length
  /-- Instructions take one after the other, and a declaration is bound at once. -/
  makes : MakesFunctions p.chunk.pool 0 p.outline made
  /-- One instruction takes the function at a position. -/
  once : p.functions.length ≤ UInt32.size → ∀ k < p.functions.length,
    (p.chunk.instructions.map Prod.snd).count (.closure (UInt32.ofNat k)) = 1
  /-- What a list of statements declares is bound in front of the code of these statements. -/
  hoists : ∀ body ∈ r.lists, Hoists p.chunk.pool 0 body (declarations body) p.outline made

/-- Some code is the code of a routine, and so on for the functions inside. -/
inductive Mirrors : Routine → Proto → Prop
  | mk {r : Routine} {p : Proto} (made : List Inner) (h : p.Matches r made)
      (inside : ∀ (k : ℕ) (f : Inner) (q : Proto), made[k]? = some f → p.functions[k]? = some q →
        Mirrors (.function f.decl) q) :
      Mirrors r p

section

variable (chunkName : String) (name : Option String) (parameters : List String) (line : ℕ)
  (body : Emit Code)

theorem protoOf_outline :
    (protoOf chunkName name parameters line body).outline =
      (body ⟨.empty, #[], line⟩).1.outline := by
  rw [Proto.outline, protoOf_instructions, List.map_map]
  conv_rhs => rw [← Code.map_entries 0 (body ⟨.empty, #[], line⟩).1]
  rw [Code.outline, List.map_map]
  rfl

end

namespace Routine

/-- What a routine emits becomes its code. -/
theorem emits_proto (r : Routine) :
    ∃ d : Draft, Draft.Emits ⟨.empty, #[], r.line⟩ r.proto.outline
      (bound r.body ++ stmtsMade r.body) r.lists d ∧
        r.proto.chunk.pool = d.pool ∧ r.proto.functions = d.functions.toList := by
  cases r with
  | program statements =>
      refine ⟨_, ?_, protoOf_pool .., protoOf_functions ..⟩
      rw [proto, compileProgram_eq, protoOf_outline]
      exact emits_emitProgram statements _
  | function decl =>
      obtain ⟨name, parameters, body, line⟩ := decl
      rw [proto, compileFunction_mk]
      refine ⟨_, ?_, protoOf_pool .., protoOf_functions ..⟩
      rw [protoOf_outline]
      exact emits_emitFunction body _

theorem proto_eq (r : Routine) :
    r.proto.name = r.name ∧ r.proto.parameters = r.parameters ∧ r.proto.line = r.line := by
  cases r with
  | program statements => exact ⟨rfl, rfl, rfl⟩
  | function decl =>
      obtain ⟨name, parameters, body, line⟩ := decl
      rw [proto, compileFunction_mk]
      exact ⟨rfl, rfl, rfl⟩

/-- The functions of the code are those that are made, compiled. -/
theorem functions_proto (r : Routine) :
    r.proto.functions = (bound r.body ++ stmtsMade r.body).map fun f => compileFunction f.decl := by
  obtain ⟨d, hemits, -, hfunctions⟩ := r.emits_proto
  exact hfunctions.trans hemits.functions

variable {place : Place}

/-- In all lists of a routine, what is declared is bound. -/
theorem bound_of_mem_lists {r : Routine} (h : AllBindable (stmtsStatements place r.body))
    {body : List Stmt} (hbody : body ∈ r.lists) : bound body = declarations body := by
  have hlists : Listed r.lists (stmtsStatements place r.body) :=
    List.forall_mem_cons.2
      ⟨fun s hs => ⟨place, mem_stmtsStatements hs place⟩, listed_stmtsLists r.body place⟩
  exact bound_eq_declarations (h.of_listed hlists hbody)

/-- **The code of a routine makes the functions directly in it, if all that is declared can be
bound.** -/
theorem matches_proto (r : Routine) (h : AllBindable (stmtsStatements place r.body)) :
    r.proto.Matches r (bound r.body ++ stmtsMade r.body) := by
  obtain ⟨d, hemits, hpool, -⟩ := r.emits_proto
  obtain ⟨hname, hparameters, hline⟩ := r.proto_eq
  have hlength : r.proto.functions.length = (bound r.body ++ stmtsMade r.body).length := by
    rw [r.functions_proto, List.length_map]
  have hperm := perm_stmtsInner r.body place h
  refine ⟨hname, hparameters, hline, hperm, hlength, ?makes, ?once, ?hoists⟩
  case makes =>
    rw [hpool]
    exact hemits.makes
  case once =>
    intro hsize k hk
    rw [hlength] at hsize hk
    rw [← count_outline_closure, List.map_map]
    exact MakesFunctions.count hemits.makes hsize hk
  case hoists =>
    intro body hbody
    rw [← bound_of_mem_lists h hbody, hpool]
    exact hemits.hoists body hbody

/-- **The code of a routine mirrors it, if all that is declared can be bound.** -/
theorem mirrors (r : Routine) (place : Place) (h : AllBindable (stmtsStatements place r.body)) :
    Mirrors r r.proto := by
  refine .mk _ (r.matches_proto h) fun k f q hf hq => ?_
  have hmem : q ∈ r.proto.functions := List.mem_of_getElem? hq
  rw [r.functions_proto, List.getElem?_map, hf] at hq
  cases hq
  have hinner : f ∈ r.functions := (r.matches_proto h).functions.mem_iff.1 (List.mem_of_getElem? hf)
  have hbindable : AllBindable (stmtsStatements .ofFunction f.decl.body) := by
    rw [← FunctionDecl.statements_eq]
    exact fun s hs => h s (within_stmtsInner r.body place f hinner hs)
  exact mirrors (.function f.decl) .ofFunction hbindable
termination_by sizeOf r.proto
decreasing_by
  exact Proto.sizeOf_lt_of_mem hmem

end Routine

/-- **The code of every program mirrors its tree.** -/
theorem compiled_mirrors {source : String} {program : Program} (h : parse source = .ok program) :
    Mirrors (.program program) (compileProgram program) :=
  (Routine.program program).mirrors .outermost (bindable_of_parse h .outermost)

/-- A function is declared behind its call, and inside of it stands one without a name. -/
theorem compiled_mirrors_nested :
    ∃ program, parse "f(); function f(a) \x7b return function() \x7b return a; \x7d; \x7d" =
      .ok program ∧ (Routine.program program).functions.map (fun f => f.decl.name) = [some "f"] ∧
        Mirrors (.program program) (compileProgram program) := by
  obtain ⟨program, hprogram⟩ : ∃ program : Program, program =
      [.expression (.call (.atom (.name "f") ⟨0, 1⟩ 1) []) 1,
        .function (.mk (some "f") ["a"] [.returnValue (some (.function (.mk none []
          [.returnValue (some (.atom (.name "a") ⟨48, 1⟩ 1)) 1] 1))) 1] 1)] := ⟨_, rfl⟩
  have hparse : parse "f(); function f(a) \x7b return function() \x7b return a; \x7d; \x7d" =
      .ok program := by
    rw [hprogram]
    cbv
  refine ⟨program, hparse, ?_, compiled_mirrors hparse⟩
  rw [hprogram]
  rfl

end Tracepoint
