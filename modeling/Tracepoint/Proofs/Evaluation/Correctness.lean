/-
Compiled programs do what their trees say.

A call of a function of the script is simulated by induction on the fuel: the body of the function
is evaluated with less of it.  A program is then simulated from its first instruction to its last
one.  The machine has one run only, so what it does is known from any evaluation with enough fuel,
and evaluation is known from the run.

Main definitions:

* `Eval.Ends`, `Eval.Fails`, `Eval.GoesOn` — what becomes of a program that is evaluated;
* `Machine.Halts`, `Machine.Fails`, `Machine.RunsOn` — what becomes of a machine.

Main results:

* `calls_simulated`, `simulates_program` — calls and programs are simulated;
* `halts_of_ends`, `fails_of_fails`, `runsOn_of_goesOn` — the machine follows evaluation;
* `compiled_iff_evaluated` — a compiled program does the same as its tree.
-/

import Mathlib
import Tracepoint.Proofs.Evaluation.Statements

set_option relaxedAutoImplicit false
set_option autoImplicit false

namespace Tracepoint

/-! ### Calls -/

section

variable {fuel depth : ℕ} {site : Site} {w : World}

/-- The body of a function is carried out up to its return. -/
theorem simulates_body {call : Closure → List Value → Eval Value} (stack : List Value)
    (hcall : CallsSimulated call fuel depth) {decl : FunctionDecl}
    (hproto : site.proto = compileFunction decl) (hlies : decl.Lies)
    (hready : site.Ready depth true stack) (hw : w.Valid) :
    Simulates fuel (site.machine w.toStore 0 stack) w
      (Eval.evalBody call fuel site.scope decl.body)
      (fun w' v => ⟨w'.toStore, site.callers, v :: stack, false⟩) World.Knows := by
  cases decl with
  | mk name parameters body line =>
      obtain ⟨a, b, c, d, hhoist, hbody, hundefined, hret⟩ := hlies
      rw [← hproto] at hhoist hbody hundefined hret
      rw [Eval.evalBody]
      refine (simulates_hoist site stack hw hhoist).bind fun _ w₁ hw₁ _ _ => ?_
      have hstmts := simulated_stmts hcall body site stack a b w₁ none ⟨0, 0⟩ site.scope true hready
        hbody hw₁ leads_none
      refine hstmts.bind fun completion w₂ hw₂ _ hallowed => ?_
      cases completion with
      | normal =>
          -- Two instructions behind the body return the undefined value.
          obtain ⟨word, hi, hc⟩ := hundefined
          have hpush := Site.step_of_performs stack hi (Site.performs_constant hc)
            (s := w₂.toStore) rfl
          have hreturn := Site.step_ret hret hready.base (hready.callers rfl)
            (v := .undefined) (s := w₂.toStore)
          exact .after_step hpush (.after_step hreturn (.pure hw₂ rfl trivial))
      | broken => cases hallowed
      | continued => cases hallowed
      | returned v => exact .pure hw₂ rfl hallowed.2

/-- A step that makes the change to the world that an evaluation begins with. -/
theorem Simulates.of_change {α : Type} {bound : ℕ} {m m' : Machine} {w w' : World} {x y : Eval α}
    {arrive : World → α → Machine} {P : World → α → Prop} (hstep : m.step = (m', [], .more))
    (hgrows : w.Grows w') (hprinted : w'.printed = w.printed) (hx : x w = y w')
    (h : Simulates bound m' w' y arrive P) : Simulates (bound + 1) m w x arrive P := by
  have hall := Simulates.of_step hstep h
  simp only [Simulates, hx] at hall ⊢
  split
  next heq =>
    rw [heq, hprinted] at hall
    exact ⟨hall.1, hall.2.1, hgrows.trans hall.2.2.1, hall.2.2.2⟩
  next heq =>
    rw [heq, hprinted] at hall
    exact hall
  next heq =>
    rw [heq] at hall
    exact hall

theorem Eval.callFunction_of_limit (fuel : ℕ) (f : Closure) (arguments : List Value)
    (hlimit : callLimit < depth) (w : World) :
    Eval.callFunction (fuel + 1) depth f arguments w = Eval.fault .stackOverflow w := by
  simp only [Eval.callFunction, if_pos hlimit]
  rfl

theorem Eval.callFunction_of_lookup (fuel : ℕ) {f : Closure} (arguments : List Value) {decl : FunctionDecl}
    (hlimit : ¬callLimit < depth) (hlookup : w.functions.lookup f.identity = some decl)
    {inner : ScopeId} {s : Store}
    (hopen : Act.openCall f.scope decl.parameters arguments w.toStore = .ok inner s) :
    Eval.callFunction (fuel + 1) depth f arguments w =
      Eval.evalBody (Eval.callFunction fuel (depth + 1)) fuel inner decl.body
        { w with toStore := s } := by
  simp only [Eval.callFunction, if_neg hlimit, Bind.bind, EStateM.bind, get, getThe,
    MonadStateOf.get, EStateM.get, hlookup, liftM, monadLift, MonadLift.monadLift, hopen]

/-- **Calls of functions of the script are simulated.** -/
theorem calls_simulated (fuel depth : ℕ) :
    CallsSimulated (Eval.callFunction fuel depth) fuel depth := by
  induction fuel generalizing depth with
  | zero => exact fun site stack offset next count w f arguments _ _ _ _ _ _ => .exhausted
  | succ fuel ih =>
      rintro site stack offset next count w f arguments rfl hi hcount hw
        ⟨decl, hlookup, hproto, hlies⟩ harguments
      by_cases hlimit : callLimit < site.callers.length + 1
      · refine .congr (Eval.callFunction_of_limit fuel f arguments hlimit w) ?_
        exact .fault (Site.stops_call_function stack hi hcount hlimit) id
      · have hparameters : f.proto.parameters = decl.parameters :=
          hproto ▸ parameters_compileFunction decl
        have hsound := Act.sound_openCall f.scope hw.store decl.parameters harguments
        simp only [Act.Sound] at hsound
        cases hopen : Act.openCall f.scope decl.parameters arguments w.toStore with
        | error e s => cases hopen
        | ok inner s =>
            rw [hopen] at hsound
            obtain ⟨hvalid, hgrows⟩ := hw.withStore hsound.1 hsound.2.1
            have hstep := Site.step_call_function stack hi hcount hlimit (hparameters ▸ hopen)
            have heval := Eval.callFunction_of_lookup fuel arguments hlimit hlookup hopen
            -- The body runs in a frame of its own, above the operands of its caller.
            have hready : (site.entered f inner next stack.length).Ready
                (site.callers.length + 1 + 1) true stack :=
              ⟨rfl, rfl, fun _ => List.cons_ne_nil _ _⟩
            exact .of_change hstep hgrows rfl heval
              (simulates_body stack (ih _) hproto hlies hready hvalid)

/-! ### Programs -/

/-- Where a program runs. -/
def programSite (program : Program) : Site :=
  ⟨compileProgram program, Arena.global, 0, []⟩

/-- **A program is simulated** from its first instruction up to its last one. -/
theorem simulates_program {program : Program} (hlies : programLies program) :
    ∃ last next, (compileProgram program).chunk.At last .halt next ∧ ∀ fuel,
      Simulates fuel (.start (compileProgram program)) .start (Eval.evalProgram fuel program)
        (fun w _ => (programSite program).machine w.toStore last []) fun _ _ => True := by
  obtain ⟨a, b, c, d, henter, hhoist, hbody, hhalt⟩ := hlies
  refine ⟨c, d, hhalt, fun fuel => ?_⟩
  have hready : (programSite program).Ready 1 false [] :=
    ⟨rfl, rfl, fun h => by cases h⟩
  have hstart : Machine.start (compileProgram program) =
      (programSite program).machine .start 0 [] := rfl
  -- The first instruction does nothing.
  have hfirst : ((programSite program).machine .start 0 []).step =
      ((programSite program).machine .start a [], [], .more) := Site.step_enter henter
  rw [hstart, Eval.evalProgram]
  refine .after_step hfirst ?_
  refine (simulates_hoist (programSite program) [] World.valid_start hhoist).bind
    fun _ w hw _ _ => ?_
  have hstmts := simulated_stmts (calls_simulated fuel 1) program (programSite program) [] b c w
    none ⟨0, 0⟩ Arena.global false hready hbody hw leads_none
  refine hstmts.bind fun completion w' hw' _ hallowed => ?_
  cases completion with
  | normal => exact .pure hw' rfl trivial
  | broken => cases hallowed
  | continued => cases hallowed
  | returned v => cases hallowed.1

end

/-! ### Outcomes -/

namespace Machine

/-- After some steps, which write lines, the machine carries out `halt`. -/
def Halts (m : Machine) (out : List String) (s : Store) : Prop :=
  ∃ n m', m.Runs n out m' ∧ m'.nextInstr? = some .halt ∧ m'.step = (⟨s, [], [], true⟩, [], .done)

/-- After some steps, which write lines, the machine fails. -/
def Fails (m : Machine) (out : List String) (e : Fault) (s : Store) : Prop :=
  ∃ n m', m.Runs n out m' ∧ m'.Stops e s

/-- The machine takes one step after the other for ever. -/
def RunsOn (m : Machine) : Prop :=
  ∀ n, ∃ out m', m.Runs n out m'

section

variable {m m₁ m₂ : Machine} {n k : ℕ} {out out₁ out₂ : List String}

/-- A run that goes on has another step. -/
theorem Runs.more_of_lt (h₁ : m.Runs n out₁ m₁) (hlt : n < k) (h₂ : m.Runs k out₂ m₂) :
    m₁.step.2.2 = .more := by
  obtain ⟨more, rfl⟩ := Nat.exists_eq_add_of_lt hlt
  rw [Nat.add_assoc] at h₂
  obtain ⟨middle, _, _, hfirst, hrest, -⟩ := h₂.split
  obtain ⟨rfl, -⟩ := h₁.eq hfirst
  cases hrest with
  | step first _ => rw [first]

/-- No run goes on behind a step that is the last. -/
theorem Runs.le_of_last (h₁ : m.Runs n out₁ m₁) (hlast : m₁.step.2.2 ≠ .more)
    (h₂ : m.Runs k out₂ m₂) : k ≤ n := by
  rcases Nat.lt_or_ge n k with hlt | hle
  · exact absurd (h₁.more_of_lt hlt h₂) hlast
  · exact hle

/-- Some steps lead to a machine whose next step is the last one. -/
def EndsIn (m : Machine) (out : List String) (m' : Machine) : Prop :=
  ∃ n, m.Runs n out m' ∧ m'.step.2.2 ≠ .more

/-- There is only one last step. -/
theorem EndsIn.unique (h₁ : m.EndsIn out₁ m₁) (h₂ : m.EndsIn out₂ m₂) : m₁ = m₂ ∧ out₁ = out₂ := by
  obtain ⟨n, hruns₁, hlast₁⟩ := h₁
  obtain ⟨k, hruns₂, hlast₂⟩ := h₂
  have hle₁ := hruns₁.le_of_last hlast₁ hruns₂
  have hle₂ := hruns₂.le_of_last hlast₂ hruns₁
  obtain rfl := Nat.le_antisymm hle₁ hle₂
  exact hruns₁.eq hruns₂

theorem EndsIn.not_runsOn (h : m.EndsIn out m₁) : ¬m.RunsOn := by
  intro hon
  obtain ⟨n, hruns, hlast⟩ := h
  obtain ⟨_, _, hlonger⟩ := hon (n + 1)
  exact Nat.not_succ_le_self n (hruns.le_of_last hlast hlonger)

theorem Halts.endsIn {s : Store} (h : m.Halts out s) :
    ∃ m', m.EndsIn out m' ∧ m'.step = (⟨s, [], [], true⟩, [], .done) := by
  obtain ⟨n, m', hruns, -, hstep⟩ := h
  refine ⟨m', ⟨n, hruns, ?_⟩, hstep⟩
  rw [hstep]
  exact Status.noConfusion

theorem Fails.endsIn {e : Fault} {s : Store} (h : m.Fails out e s) :
    ∃ m', m.EndsIn out m' ∧ m'.Stops e s := by
  obtain ⟨n, m', hruns, hstops⟩ := h
  obtain ⟨_, _, hstep, -⟩ := id hstops
  refine ⟨m', ⟨n, hruns, ?_⟩, hstops⟩
  rw [hstep]
  exact Status.noConfusion

theorem Halts.unique {s s' : Store} (h : m.Halts out s) (h' : m.Halts out₁ s') :
    out = out₁ ∧ s = s' := by
  obtain ⟨m', hend, hstep⟩ := h.endsIn
  obtain ⟨m'', hend', hstep'⟩ := h'.endsIn
  obtain ⟨rfl, rfl⟩ := hend.unique hend'
  rw [hstep] at hstep'
  cases hstep'
  exact ⟨rfl, rfl⟩

theorem Fails.unique {e e' : Fault} {s s' : Store} (h : m.Fails out e s)
    (h' : m.Fails out₁ e' s') : out = out₁ ∧ e = e' ∧ s = s' := by
  obtain ⟨m', hend, m₁, line, hstep, rfl⟩ := h.endsIn
  obtain ⟨m'', hend', m₂, line', hstep', rfl⟩ := h'.endsIn
  obtain ⟨rfl, rfl⟩ := hend.unique hend'
  rw [hstep] at hstep'
  cases hstep'
  exact ⟨rfl, rfl, rfl⟩

theorem Halts.not_fails {e : Fault} {s s' : Store} (h : m.Halts out s) :
    ¬m.Fails out₁ e s' := by
  intro h'
  obtain ⟨m', hend, hstep⟩ := h.endsIn
  obtain ⟨m'', hend', m₂, line, hstep', -⟩ := h'.endsIn
  obtain ⟨rfl, -⟩ := hend.unique hend'
  rw [hstep] at hstep'
  cases hstep'

theorem Halts.not_runsOn {s : Store} (h : m.Halts out s) : ¬m.RunsOn := by
  obtain ⟨m', hend, -⟩ := h.endsIn
  exact hend.not_runsOn

theorem Fails.not_runsOn {e : Fault} {s : Store} (h : m.Fails out e s) : ¬m.RunsOn := by
  obtain ⟨m', hend, -⟩ := h.endsIn
  exact hend.not_runsOn

end

end Machine

namespace Eval

/-- The program ends, for some amount of fuel. -/
def Ends (program : Program) (out : List String) (s : Store) : Prop :=
  ∃ fuel w, evalProgram fuel program .start = .ok () w ∧ w.printed = out ∧ w.toStore = s

/-- The program ends in a fault, for some amount of fuel. -/
def Fails (program : Program) (out : List String) (e : Fault) (s : Store) : Prop :=
  ∃ fuel w, evalProgram fuel program .start = .error (.fault e) w ∧ w.printed = out ∧
    w.toStore = s

/-- No amount of fuel is enough. -/
def GoesOn (program : Program) : Prop :=
  ∀ fuel, ∃ w, evalProgram fuel program .start = .error .exhausted w

/-- A program ends, fails or goes on. -/
theorem outcome (program : Program) :
    (∃ out s, Ends program out s) ∨ (∃ out e s, Fails program out e s) ∨ GoesOn program := by
  by_cases hon : GoesOn program
  · exact .inr (.inr hon)
  · obtain ⟨fuel, hfuel⟩ := Classical.not_forall.1 hon
    cases hrun : evalProgram fuel program .start with
    | ok a w => exact .inl ⟨_, _, fuel, w, hrun, rfl, rfl⟩
    | error stop w =>
        cases stop with
        | fault e => exact .inr (.inl ⟨_, e, _, fuel, w, hrun, rfl, rfl⟩)
        | exhausted => exact absurd ⟨w, hrun⟩ hfuel

end Eval

/-! ### Compiled programs -/

section

variable {program : Program} {out : List String} {e : Fault} {s : Store}

theorem nextInstr?_of_at {site : Site} {offset next : ℕ} {stack : List Value} {i : Instr}
    (h : site.proto.chunk.At offset i next) : (site.machine s offset stack).nextInstr? = some i := by
  simp only [Chunk.At] at h
  simp [Machine.nextInstr?, Site.machine, h]

theorem halts_of_ends (hlies : programLies program) (h : Eval.Ends program out s) :
    (Machine.start (compileProgram program)).Halts out s := by
  obtain ⟨last, next, hhalt, hsimulates⟩ := simulates_program hlies
  obtain ⟨fuel, w, hrun, rfl, rfl⟩ := h
  have hfuel := hsimulates fuel
  simp only [Simulates, hrun] at hfuel
  obtain ⟨⟨n, out, hruns, hprinted⟩, -⟩ := hfuel
  rw [show w.printed = out from hprinted]
  have hat : (programSite program).proto.chunk.At last .halt next := hhalt
  exact ⟨n, _, hruns, nextInstr?_of_at hat, Site.step_halt hat⟩

theorem fails_of_fails (hlies : programLies program) (h : Eval.Fails program out e s) :
    (Machine.start (compileProgram program)).Fails out e s := by
  obtain ⟨last, next, hhalt, hsimulates⟩ := simulates_program hlies
  obtain ⟨fuel, w, hrun, rfl, rfl⟩ := h
  have hfuel := hsimulates fuel
  simp only [Simulates, hrun] at hfuel
  obtain ⟨⟨n, out, m', hruns, hprinted, hstops⟩, -⟩ := hfuel
  rw [show w.printed = out from hprinted]
  exact ⟨n, m', hruns, hstops⟩

theorem runsOn_of_goesOn (hlies : programLies program) (h : Eval.GoesOn program) :
    (Machine.start (compileProgram program)).RunsOn := by
  obtain ⟨last, next, hhalt, hsimulates⟩ := simulates_program hlies
  intro n
  obtain ⟨w, hrun⟩ := h n
  have hfuel := hsimulates n
  simp only [Simulates, hrun] at hfuel
  obtain ⟨k, out, m', hruns, hle⟩ := hfuel
  obtain ⟨more, rfl⟩ := Nat.exists_eq_add_of_le hle
  obtain ⟨middle, _, _, hfirst, -⟩ := hruns.split
  exact ⟨_, middle, hfirst⟩

end

/-- **A compiled program does the same as its tree.** Evaluation and the machine end with the same
lines and the same store, fail with the same fault, lines and store, or both go on for ever. -/
theorem compiled_iff_evaluated {source : String} {program : Program}
    (hparse : parse source = .ok program) (hfits : (compileProgram program).Fits) :
    (∀ out s, (Machine.start (compileProgram program)).Halts out s ↔
      Eval.Ends program out s) ∧
    (∀ out e s, (Machine.start (compileProgram program)).Fails out e s ↔
      Eval.Fails program out e s) ∧
    ((Machine.start (compileProgram program)).RunsOn ↔ Eval.GoesOn program) := by
  have hlies := lies_compileProgram hfits (placed_of_parse hparse)
  -- Whatever becomes of the evaluation becomes of the machine, and of that there is only one.
  rcases Eval.outcome program with ⟨out, s, hends⟩ | ⟨out, e, s, hfails⟩ | hon
  · have hhalts := halts_of_ends hlies hends
    refine ⟨fun out' s' => ⟨fun h => ?_, halts_of_ends hlies⟩,
      fun out' e' s' => ⟨fun h => absurd h hhalts.not_fails, fails_of_fails hlies⟩,
      ⟨fun h => absurd h hhalts.not_runsOn, runsOn_of_goesOn hlies⟩⟩
    obtain ⟨rfl, rfl⟩ := h.unique hhalts
    exact hends
  · have hstops := fails_of_fails hlies hfails
    refine ⟨fun out' s' => ⟨fun h => absurd hstops h.not_fails, halts_of_ends hlies⟩,
      fun out' e' s' => ⟨fun h => ?_, fails_of_fails hlies⟩,
      ⟨fun h => absurd h hstops.not_runsOn, runsOn_of_goesOn hlies⟩⟩
    obtain ⟨rfl, rfl, rfl⟩ := h.unique hstops
    exact hfails
  · have hruns := runsOn_of_goesOn hlies hon
    exact ⟨fun out' s' => ⟨fun h => absurd hruns h.not_runsOn, halts_of_ends hlies⟩,
      fun out' e' s' => ⟨fun h => absurd hruns h.not_runsOn, fails_of_fails hlies⟩,
      ⟨fun _ => hon, fun _ => hruns⟩⟩

/-- A function writes a line in a loop that it returns from. It is called, and then something that
is no function. -/
def calledTwice : Program :=
  [.function ⟨some "f", [], [.whileLoop (.atom (.bool true) ⟨22, 4⟩ 1)
      (.block [.expression (.call (.property (.atom (.name "console") ⟨30, 7⟩ 1) "log")
          [.atom (.string "a") ⟨42, 3⟩ 1]) 1, .returnValue none 1] 1) 1], 1⟩,
    .expression (.call (.atom (.name "f") ⟨60, 1⟩ 1) []) 1,
    .expression (.call (.atom .null ⟨65, 4⟩ 1) []) 1]

/-- It fails behind the loop and the first call, because its evaluation does. -/
theorem compiled_iff_evaluated_calledTwice :
    parse ("function f() \x7b while (true) \x7b console.log('a'); return; \x7d \x7d " ++
        "f(); null();") = .ok calledTwice ∧
      (compileProgram calledTwice).Fits ∧
      ∃ s, (Machine.start (compileProgram calledTwice)).Fails ["a"] (.notCallable "null") s := by
  have hparse : parse ("function f() \x7b while (true) \x7b console.log('a'); return; \x7d \x7d " ++
      "f(); null();") = .ok calledTwice := by cbv
  have hfits : (compileProgram calledTwice).Fits := by
    refine .mk (by decide) fun q hq => ?_
    obtain rfl := List.mem_singleton.1 hq
    exact .mk (by decide) fun q hq => by cases hq
  have hfails : ∃ s, Eval.Fails calledTwice ["a"] (.notCallable "null") s :=
    ⟨_, 3, _, rfl, by decide +kernel, rfl⟩
  obtain ⟨s, hs⟩ := hfails
  exact ⟨hparse, hfits, s, ((compiled_iff_evaluated hparse hfits).2.1 _ _ s).2 hs⟩

end Tracepoint
