/-
The run of a straight program.

A machine on the run of a straight program always stands amid the code of one of its statements, in
the only frame and in the global scope.  A step goes on inside this code, or comes to the start of
the code of the next statement; and only then the names of the global scope may have changed.

Main definitions:

* `stmtsAhead` — what is left of the code of some straight statements;
* `Machine.Amid` — a machine stands amid the code of a statement.

Main results:

* `Machine.Amid.currentLine` — the line of the statement is the current one;
* `Machine.Amid.step` — what a step does;
* `Machine.Amid.namesInSight` — the variables that the statements before have declared are in sight.
-/

import Tracepoint.Proofs.Code.Straight
import Tracepoint.Proofs.Machine.Frames
import Tracepoint.Proofs.Session.Sight

set_option relaxedAutoImplicit false
set_option autoImplicit false

namespace Tracepoint

/-! ### Steady instructions -/

namespace Instr.Steady

variable {i : Instr}

theorem quiet (h : i.Steady) : i.Quiet fun _ => False := by
  rcases h with ⟨hplain, hdeclares⟩ | ⟨kind, distance, rfl⟩
  · cases i with
    | declare w kind => exact absurd rfl (hdeclares w kind)
    | pushScope => cases hplain
    | popScope => cases hplain
    | ret => cases hplain
    | halt => cases hplain
    | call w => exact fun _ => not_false
    | _ => trivial
  · trivial

/-- The scope stays the same. -/
theorem turns (h : i.Steady) {a : Arena Value} {before after : ScopeId}
    (hturns : i.Turns a before after) : after = before := by
  cases i with
  | pushScope => exact absurd h.quiet not_false
  | popScope => exact absurd h.quiet not_false
  | _ => exact hturns

end Instr.Steady

/-! ### The code ahead -/

/-- What is left of the code of straight statements: the rest of the code of the first one, which
is not empty, and the code of the others. -/
def stmtsAhead (p : Proto) : List Stmt → Code → Prop
  | [], code => code = [(.halt, 0)]
  | s :: rest, code => ∃ before after others, after ≠ [] ∧ code = after ++ others ∧
      s.Coded p (before ++ after) ∧ stmtsCoded p rest others

section

variable {p : Proto} {s : Stmt} {stmts rest : List Stmt} {code : Code}

theorem stmtsAhead_of_coded (h : stmtsCoded p stmts code) : stmtsAhead p stmts code := by
  cases stmts with
  | nil => exact h
  | cons s rest =>
      obtain ⟨first, others, rfl, hfirst, hothers⟩ := h
      refine ⟨[], first, others, ?_, rfl, hfirst, hothers⟩
      obtain ⟨body, last, rfl, -⟩ := hfirst
      exact List.append_ne_nil_of_right_ne_nil _ (List.cons_ne_nil _ _)

/-- The first instruction ahead is one of the statement, on its line: it is the last one, or it
leads to others of the same statement. -/
theorem stmtsAhead_cons (h : stmtsAhead p (s :: rest) code)
    (hsize : code.size < Chunk.sizeLimit) :
    ∃ i left, code = (i, s.line) :: left ∧
      (s.EndsWith p i ∧ stmtsAhead p rest left ∨
        i.Steady ∧ ∀ next target σ σ', (target, σ') ∈ i.successors next σ →
          ∃ inner left', left = inner ++ left' ∧ target = next + Code.size inner ∧
            stmtsAhead p (s :: rest) left') := by
  obtain ⟨before, after, others, hne, rfl, ⟨body, last, hcode, hflat, hlast⟩, hothers⟩ := h
  rcases List.append_eq_append_iff.1 hcode with ⟨more, rfl, rfl⟩ | ⟨more, rfl, hmore⟩
  · cases more with
    | nil => exact ⟨last, others, rfl, .inl ⟨hlast, stmtsAhead_of_coded hothers⟩⟩
    | cons x more =>
        obtain ⟨i, line⟩ := x
        obtain ⟨hsteady, hline⟩ :=
          hflat.mem (i, line) (List.mem_append_right _ List.mem_cons_self)
        simp only at hsteady hline
        subst hline
        refine ⟨i, _, rfl, .inr ⟨hsteady, fun next target σ σ' hleads => ?_⟩⟩
        simp only [List.cons_append, Code.size, Code.size_append] at hsize
        obtain ⟨inner, rest', rfl, htarget⟩ := hflat.ahead rfl (by omega) hleads
        refine ⟨inner, rest' ++ [(last, s.line)] ++ others, ?_, htarget,
          before ++ (i, s.line) :: inner, rest' ++ [(last, s.line)], others, ?_, rfl,
          ⟨before ++ (i, s.line) :: (inner ++ rest'), last, ?_, hflat, hlast⟩, hothers⟩
        · change inner ++ rest' ++ [(last, s.line)] ++ others = _
          simp only [List.append_assoc]
        · exact List.append_ne_nil_of_right_ne_nil _ (List.cons_ne_nil _ _)
        · simp only [List.append_assoc, List.cons_append]
  · cases more with
    | nil =>
        obtain rfl : after = [(last, s.line)] := hmore.symm
        exact ⟨last, others, rfl, .inl ⟨hlast, stmtsAhead_of_coded hothers⟩⟩
    | cons x more =>
        have hnil := List.append_eq_nil_iff.1 (List.cons.inj hmore).2.symm
        exact absurd hnil.2 hne

end

/-! ### Single steps -/

/-- A declaration that is not refused has changed the scopes. -/
theorem Act.scopes_declare {scope : ScopeId} {name : String} {v : Value} {kind : BindingKind}
    {s s' : Store} {a : Unit} (h : Act.declare scope name v kind s = .ok a s') :
    s'.scopes = (s.scopes.declare scope name v kind).2 := by
  simp only [Act.declare, Bind.bind, EStateM.bind, Act.onScopes] at h
  split at h
  next result s₁ hscopes =>
    obtain ⟨-, rfl⟩ := EStateM.Result.ok.inj hscopes
    cases result with
    | ok _ =>
        cases h
        rfl
    | error e => cases h
  next hscopes => cases hscopes

namespace Frame.Prepared

variable {f : Frame} {callers : List Frame} {σ : Shape} {i : Instr} {next : ℕ} {m : Machine}

theorem nextInstr? (h : f.Prepared callers σ i next m) : m.nextInstr? = some i := by
  rw [h.eq_machine]
  exact nextInstr?_of_at h.at_site

/-- **A steady instruction** leads on in its frame and its scope, and no scope gets names. -/
theorem steady (h : f.Prepared callers σ i next m) (hsteady : i.Steady)
    (hintact : m.Intact fun _ => False) (hmoves : f.Moves callers σ i next m.step.1) :
    m.step.1.halted = false ∧
      (∃ target σ', (target, σ') ∈ i.successors next σ ∧
        m.step.1.frames = ⟨f.proto, target, f.scope, f.base⟩ :: callers) ∧
      ∀ id, m.step.1.scopes.names id = m.scopes.names id := by
  have hquiet : m.Quiet fun _ => False := by
    intro i' hi'
    obtain rfl : i = i' := Option.some.inj (h.nextInstr?.symm.trans hi')
    exact hsteady.quiet
  have hleads := (hintact.step fun _ h => h.elim).2
  have hlength : m.step.1.frames.length = callers.length + 1 := by
    have hstill := congrArg List.length (hleads.frames hquiet)
    rw [List.length_map, List.length_map, h.frames, List.length_cons] at hstill
    exact hstill
  cases hmoves with
  | on leads frames height turns running =>
      obtain rfl := hsteady.turns turns
      exact ⟨running, ⟨_, _, leads, frames⟩, hleads.store.names hquiet⟩
  | call isCall frames compiled first base height running =>
      rw [frames, List.length_cons, List.length_cons] at hlength
      omega
  | ret isRet frames height running =>
      subst isRet
      exact hsteady.quiet.elim
  | halt isHalt frames stack halted =>
      subst isHalt
      exact hsteady.quiet.elim

/-- A plain instruction that declares nothing leads to the one behind it. -/
theorem plain (h : f.Prepared callers σ i next m) (hplain : i.isPlain = true)
    (hdeclares : ∀ w kind, i ≠ .declare w kind) (hintact : m.Intact fun _ => False)
    (hmoves : f.Moves callers σ i next m.step.1) :
    m.step.1.halted = false ∧
      m.step.1.frames = ⟨f.proto, next, f.scope, f.base⟩ :: callers ∧
      ∀ id, m.step.1.scopes.names id = m.scopes.names id := by
  obtain ⟨hrunning, ⟨target, σ', hleads, hframes⟩, hnames⟩ :=
    h.steady (.inl ⟨hplain, hdeclares⟩) hintact hmoves
  rw [i.successors_of_isPlain hplain] at hleads
  obtain ⟨rfl, -⟩ := Prod.mk.inj (List.mem_singleton.1 hleads)
  exact ⟨hrunning, hframes, hnames⟩

/-- **A declaration** leads on in its frame and its scope, which gets the name if it is new. -/
theorem declares {w : UInt32} {kind : BindingKind} {name : String}
    (h : f.Prepared callers σ (.declare w kind) next m)
    (hname : f.proto.chunk.pool.text? w.toNat = some name)
    (hcalm : ∀ e, m.step.2.2 ≠ .fault e) :
    m.step.1.halted = false ∧
      m.step.1.frames = ⟨f.proto, next, f.scope, f.base⟩ :: callers ∧
      ∃ v, m.step.1.scopes = (m.scopes.declare f.scope name v kind).2 := by
  obtain ⟨v, rest, -, hmachine⟩ := h.exists_top Nat.one_pos
  have hperforms : (f.site callers).Performs (.declare w kind) [v]
      (Act.declare f.scope name v kind) fun _ => [] := Site.performs_declare hname
  cases hact : Act.declare f.scope name v kind m.toStore with
  | error e s' =>
      have hstops := Site.stops_of_performs rest h.at_site hperforms hact
      exact absurd (hmachine ▸ hstops) (m.not_stops hcalm e s')
  | ok a s' =>
      have hstep := Site.step_of_performs rest h.at_site hperforms hact
      rw [List.singleton_append, ← hmachine] at hstep
      rw [hstep]
      refine ⟨rfl, rfl, v, ?_⟩
      change s'.scopes = _
      exact Act.scopes_declare hact

end Frame.Prepared

/-! ### Machines amid a statement -/

/-- A machine on the run of a straight program, of which it has done some statements and stands
amid the first one of the others. -/
structure Machine.Amid (program : Program) (done rest : List Stmt) (m : Machine) : Prop where
  split : program = done ++ rest
  running : m.halted = false
  place : ∃ before after, (emitProgram program ⟨.empty, #[], 1⟩).1 = before ++ after ∧
    stmtsAhead (compileProgram program) rest after ∧
    m.frames = [⟨compileProgram program, Code.size before, Arena.global, 0⟩]
  names : m.scopes.names Arena.global = declaredBy done
  intact : m.Intact fun _ => False

namespace Machine.Amid

variable {program : Program} {done rest : List Stmt} {s : Stmt} {m : Machine}
  {entries : List ScopeId}

/-- What lies ahead is small enough for jumps. -/
theorem size_lt {before after : Code} (hfits : (compileProgram program).Fits)
    (hcode : (emitProgram program ⟨.empty, #[], 1⟩).1 = before ++ after) :
    Code.size after < Chunk.sizeLimit := by
  have hbounds := (Code.lies_protoOf "PROGRAM" none [] 1 (emitProgram program)).bounds
  rw [← compileProgram_eq, hcode, Code.size_append] at hbounds
  have hsize := hfits.code
  omega

/-- The frame, and the instruction that is carried out next. -/
theorem prepared {before left : Code} {i : Instr} {line : ℕ} (hlies : programLies program)
    (horderly : m.Orderly program entries) (hrooted : m.Rooted) (hrunning : m.halted = false)
    (hcalm : ∀ e, m.step.2.2 ≠ .fault e)
    (hcode : (emitProgram program ⟨.empty, #[], 1⟩).1 = before ++ (i, line) :: left)
    (hframes : m.frames = [⟨compileProgram program, Code.size before, Arena.global, 0⟩]) :
    ∃ σ, Frame.Prepared ⟨compileProgram program, Code.size before, Arena.global, 0⟩ [] σ i
        (Code.size before + i.size) m ∧
      Frame.Moves ⟨compileProgram program, Code.size before, Arena.global, 0⟩ [] σ i
        (Code.size before + i.size) m.step.1 := by
  obtain ⟨hat, -⟩ := protoOf_place "PROGRAM" none [] 1 (emitProgram program) hcode
  obtain ⟨f, callers, entry, below, σ, i', next, -, -, hprepared, -, -, -, hmoves⟩ :=
    horderly.moves hlies hrooted hrunning hcalm
  obtain ⟨rfl, rfl⟩ := List.cons.inj (hprepared.frames.symm.trans hframes)
  obtain ⟨rfl, rfl⟩ := hprepared.lies.unique hat
  exact ⟨σ, hprepared, hmoves⟩

/-- The last instruction of a statement leads on, and the global scope gets the name of the
variable that the statement declares. -/
theorem step_last {callers : List Frame} {σ : Shape} {i : Instr} {offset next : ℕ}
    (h : m.Amid program done (s :: rest)) (hends : s.EndsWith (compileProgram program) i)
    (hprepared :
      Frame.Prepared ⟨compileProgram program, offset, Arena.global, 0⟩ callers σ i next m)
    (hmoves :
      Frame.Moves ⟨compileProgram program, offset, Arena.global, 0⟩ callers σ i next m.step.1)
    (hcalm : ∀ e, m.step.2.2 ≠ .fault e) :
    m.step.1.halted = false ∧
      m.step.1.frames = ⟨compileProgram program, next, Arena.global, 0⟩ :: callers ∧
      m.step.1.scopes.names Arena.global = declaredBy (done ++ [s]) := by
  cases s with
  | declare kind name initial line =>
      obtain ⟨w, rfl, hname⟩ := hends
      obtain ⟨hrunning, hframes, v, hscopes⟩ := hprepared.declares hname hcalm
      refine ⟨hrunning, hframes, ?_⟩
      rw [hscopes, Arena.names_declare, h.names, declaredBy_declare rfl]
      have hglobal := h.intact.store.global
      simp only [true_and, hglobal]
  | expression e line =>
      obtain rfl : i = .pop := hends
      obtain ⟨hrunning, hframes, hnames⟩ :=
        hprepared.plain rfl (fun _ _ => Instr.noConfusion) h.intact hmoves
      refine ⟨hrunning, hframes, ?_⟩
      rw [hnames, h.names, declaredBy_other rfl]
  | _ => exact hends.elim

/-- **What a step does** that does not fail: it goes on inside the statement, or comes to the next
one. -/
theorem step (h : m.Amid program done (s :: rest)) (hlies : programLies program)
    (hfits : (compileProgram program).Fits) (horderly : m.Orderly program entries)
    (hrooted : m.Rooted) (hcalm : ∀ e, m.step.2.2 ≠ .fault e) :
    m.step.1.Amid program done (s :: rest) ∨ m.step.1.Amid program (done ++ [s]) rest := by
  obtain ⟨before, after, hcode, hahead, hframes⟩ := h.place
  obtain ⟨i, left, rfl, hnext⟩ := stmtsAhead_cons hahead (size_lt hfits hcode)
  obtain ⟨σ, hprepared, hmoves⟩ :=
    prepared hlies horderly hrooted h.running hcalm hcode hframes
  have hintact := (h.intact.step fun _ h => h.elim).1
  rcases hnext with ⟨hends, hrest⟩ | ⟨hsteady, hinside⟩
  -- The last instruction of the statement leads to the next statement.
  · obtain ⟨hrunning, hframes', hnames⟩ := h.step_last hends hprepared hmoves hcalm
    refine .inr ⟨?_, hrunning, ⟨before ++ [(i, s.line)], left, ?_, hrest, ?_⟩, hnames, hintact⟩
    · rw [h.split, List.append_assoc]
      rfl
    · rw [hcode, List.append_assoc]
      rfl
    · rw [hframes', Code.size_append]
      rfl
  · obtain ⟨hrunning, ⟨target, σ', hleads, hframes'⟩, hnames⟩ :=
      hprepared.steady hsteady h.intact hmoves
    obtain ⟨inner, left, rfl, rfl, hahead'⟩ := hinside _ _ _ _ hleads
    refine .inl ⟨h.split, hrunning, ⟨before ++ (i, s.line) :: inner, left, ?_, hahead', ?_⟩,
      (hnames _).trans h.names, hintact⟩
    · rw [hcode, List.append_assoc]
      rfl
    · rw [hframes', Code.size_append, Code.size, Nat.add_assoc]

/-- The line of the statement is the current one. At the end there is none. -/
theorem currentLine (h : m.Amid program done rest) (hfits : (compileProgram program).Fits)
    (hlines : ∀ s ∈ program, 1 ≤ s.line) : m.currentLine = rest.head?.map Stmt.line := by
  obtain ⟨before, after, hcode, hahead, hframes⟩ := h.place
  have hline : ∀ i line left, after = (i, line) :: left →
      m.currentLine = (some line).filter (0 < ·) := by
    rintro i line left rfl
    obtain ⟨-, hmark⟩ := protoOf_place "PROGRAM" none [] 1 (emitProgram program) hcode
    rw [Machine.currentLine, h.running, if_neg Bool.false_ne_true, hframes]
    exact congrArg (Option.filter (0 < ·)) hmark
  cases rest with
  | nil => exact hline _ _ _ hahead
  | cons s rest =>
      obtain ⟨i, left, rfl, -⟩ := stmtsAhead_cons hahead (size_lt hfits hcode)
      have hpos : 0 < s.line := hlines s (h.split ▸ List.mem_append_right _ List.mem_cons_self)
      rw [hline i s.line left rfl, Option.filter_some, if_pos (decide_eq_true hpos)]
      rfl

/-- Behind the last statement the program ends. -/
theorem step_done (h : m.Amid program done []) : m.step.2.2 = .done := by
  obtain ⟨before, after, hcode, rfl, hframes⟩ := h.place
  obtain ⟨hat, -⟩ := protoOf_place "PROGRAM" none [] 1 (emitProgram program) hcode
  have hmachine : m = Site.machine ⟨compileProgram program, Arena.global, 0, []⟩ m.toStore
      (Code.size before) m.stack := by
    have hrunning := h.running
    obtain ⟨s, frames, stack, halted⟩ := m
    simp only at hframes hrunning
    subst hframes hrunning
    rfl
  rw [hmachine, Site.step_halt hat]

/-- **The variables in sight** are those that the statements before have declared. -/
theorem namesInSight (h : m.Amid program done rest) : m.namesInSight = declaredBy done := by
  obtain ⟨before, after, -, -, hframes⟩ := h.place
  have hscope : m.currentScope = Arena.global := by rw [Machine.currentScope, hframes]
  have hchain := h.intact.store.nested.chain_global h.intact.store.global
  rw [Machine.namesInSight, hscope, hchain, List.flatMap_singleton,
    eraseDups_of_nodup (h.intact.store.names _), h.names]

end Machine.Amid

/-! ### Runs -/

/-- The first step enters the program. -/
theorem amid_start {program : Program} (hstraight : ∀ s ∈ program, s.Straight)
    (hlies : programLies program) (hfits : (compileProgram program).Fits)
    (hcalm : ∀ e, (machineAfter program 0).step.2.2 ≠ .fault e) :
    (machineAfter program 1).Amid program [] program := by
  obtain ⟨hfunctions, code, hcode, hcoded⟩ := coded_emitProgram hstraight hfits
  have hintact : (machineAfter program 0).Intact fun _ => False :=
    Machine.intact_start fun q hq => by
      rw [hfunctions] at hq
      cases hq
  obtain ⟨hrooted, horderly⟩ := orderly_machineAfter hlies 0 fun k hk => absurd hk k.not_lt_zero
  obtain ⟨σ, hprepared, hmoves⟩ :=
    Machine.Amid.prepared hlies horderly hrooted rfl hcalm
      (show _ = [] ++ (Instr.enter, 1) :: code from hcode) rfl
  obtain ⟨hrunning, hframes, hnames⟩ :=
    hprepared.plain rfl (fun _ _ => Instr.noConfusion) hintact hmoves
  rw [machineAfter_succ]
  refine ⟨rfl, hrunning, ⟨[(.enter, 1)], code, hcode, stmtsAhead_of_coded hcoded, hframes⟩, ?_,
    (hintact.step fun _ h => h.elim).1⟩
  rw [hnames]
  exact Arena.names_initial _

end Tracepoint
