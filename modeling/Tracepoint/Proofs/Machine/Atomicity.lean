/-
Failed steps.

An instruction takes its operands first and finds out whether it can go on before it changes
anything else.  So behind a fault the machine is the one that it was, with the running frame behind
the instruction and some operands gone; and an instruction that cannot be decoded moves nothing at
all.  No variable in sight has changed and the fault belongs to the line that was next, and that is
what a debugger shows of a program that cannot go on.

Main definitions:

* `Machine.Trimmed` — operands on top are gone;
* `Exec.Takes`, `Exec.Recoils`, `Exec.Sure` — parts of a step that only take operands, that have
  only taken operands when they fail, and that do not fail;
* `Machine.Recoiled` — the machine behind a failed step.

Main results:

* `recoils_execute` — **an instruction that fails has only taken operands**;
* `Machine.step_of_fault` — where a fault comes from;
* `failed_step_recoils` — **a failed step changes nothing but operands and the place in the code**,
  and a debugger shows the machine from before it.
-/

import Mathlib
import Tracepoint.Proofs.Debugger.Sources
import Tracepoint.Proofs.Machine.Integrity
import Tracepoint.Proofs.Store.Atomicity

set_option relaxedAutoImplicit false
set_option autoImplicit false

namespace Tracepoint

/-! ### Machines without some operands -/

/-- The machine is the same, but operands on top are gone. -/
structure Machine.Trimmed (m m' : Machine) : Prop where
  store : m'.toStore = m.toStore
  frames : m'.frames = m.frames
  halted : m'.halted = m.halted
  stack : m'.stack <:+ m.stack

namespace Machine.Trimmed

variable {m m' m'' : Machine}

theorem refl (m : Machine) : m.Trimmed m :=
  ⟨rfl, rfl, rfl, List.suffix_refl _⟩

theorem trans (h : m.Trimmed m') (h' : m'.Trimmed m'') : m.Trimmed m'' :=
  ⟨h'.store.trans h.store, h'.frames.trans h.frames, h'.halted.trans h.halted,
    h'.stack.trans h.stack⟩

theorem of_stack {stack : List Value} (h : stack <:+ m.stack) : m.Trimmed { m with stack } :=
  ⟨rfl, rfl, rfl, h⟩

end Machine.Trimmed

/-! ### Parts of steps -/

namespace Exec

variable {α β : Type} {m : Machine}

/-- Only takes operands, whether or not it fails. -/
def Takes (x : Exec α) : Prop :=
  ∀ m : Machine, m.Trimmed (after x m)

/-- When it fails, it has only taken operands. -/
def Recoils (m : Machine) (x : Exec α) : Prop :=
  ∀ e m', x m = .error e m' → m.Trimmed m'

/-- Does not fail. -/
def Sure (x : Exec α) : Prop :=
  ∀ m : Machine, ∃ a m', x m = .ok a m'

/-! #### Parts that do not fail -/

theorem sure_pure (a : α) : Sure (pure a : Exec α) :=
  fun m => ⟨a, m, rfl⟩

theorem sure_modify (f : Machine → Machine) : Sure (modify f : Exec Unit) :=
  fun m => ⟨(), f m, rfl⟩

/-- An operand is left behind something else. -/
theorem sure_push (v : Value) (a : α) : Sure (push v >>= fun _ => pure a) :=
  fun m => ⟨a, { m with stack := v :: m.stack }, rfl⟩

/-! #### Parts that recoil -/

namespace Recoils

variable {x : Exec α}

theorem of_sure (h : Sure x) : Recoils m x := by
  intro e m' herror
  obtain ⟨a, m'', hok⟩ := h m
  rw [hok] at herror
  cases herror

theorem throw (e : Fault) : Recoils m (throw e : Exec α) := by
  intro e' m' h
  cases h
  exact .refl m

theorem lift {act : Act α} (h : act.Atomic m.toStore) : Recoils m (liftM act : Exec α) := by
  intro e m' herror
  simp only [liftM, monadLift, MonadLift.monadLift] at herror
  cases hact : act m.toStore with
  | ok a s =>
      rw [hact] at herror
      cases herror
  | error e' s =>
      rw [hact] at herror
      cases herror
      exact ⟨h e s hact, rfl, rfl, List.suffix_refl _⟩

theorem get_bind {f : Machine → Exec β} (h : Recoils m (f m)) : Recoils m (get >>= f) :=
  h

/-- Behind what may fail nothing may fail any more. -/
theorem then_sure {f : α → Exec β} (hx : Recoils m x) (hf : ∀ a, Sure (f a)) :
    Recoils m (x >>= f) := by
  intro e m' h
  simp only [Bind.bind, EStateM.bind] at h
  cases hrun : x m with
  | error e' m'' =>
      rw [hrun] at h
      cases h
      exact hx e m' hrun
  | ok a m'' =>
      rw [hrun] at h
      obtain ⟨b, m''', hok⟩ := hf a m''
      cases hok.symm.trans h

theorem then_pure {a : β} (hx : Recoils m x) : Recoils m (x >>= fun _ => Pure.pure a) :=
  hx.then_sure fun _ => sure_pure a

end Recoils

/-! #### Parts that take operands -/

namespace Takes

variable {x : Exec α}

theorem recoils (hx : Takes x) : Recoils m x := by
  intro e m' h
  have htrimmed := hx m
  rw [after, h] at htrimmed
  exact htrimmed

/-- **Operands are taken before anything else may fail.** -/
theorem bind {f : α → Exec β} (hx : Takes x)
    (hf : ∀ a m', m.Trimmed m' → Recoils m' (f a)) : Recoils m (x >>= f) := by
  intro e m'' h
  simp only [Bind.bind, EStateM.bind] at h
  have htrimmed := hx m
  cases hrun : x m with
  | error e' m' =>
      rw [hrun] at h
      cases h
      exact hx.recoils e m'' hrun
  | ok a m' =>
      rw [hrun] at h
      rw [after, hrun] at htrimmed
      exact htrimmed.trans (hf a m' htrimmed e m'' h)

end Takes

theorem takes_pop : Takes pop := by
  intro m
  unfold after pop
  cases hstack : m.stack with
  | nil => exact .refl m
  | cons v rest => exact .of_stack (hstack ▸ List.suffix_cons v rest)

theorem takes_top : Takes top := by
  intro m
  unfold after top
  cases m.stack with
  | nil => exact .refl m
  | cons v rest => exact .refl m

theorem takes_popMany (count : ℕ) : Takes (popMany count) := by
  intro m
  simp only [after, popMany]
  by_cases hlt : m.stack.length < count
  · rw [if_pos hlt]
    exact .refl m
  · rw [if_neg hlt]
    exact .of_stack (List.drop_suffix count m.stack)

theorem takes_currentScope : Takes currentScope :=
  fun m => .refl m

theorem takes_nameAt (proto : Proto) (position : UInt32) : Takes (nameAt proto position) := by
  intro m
  unfold nameAt
  split
  · exact .refl m
  · exact .refl m

/-! #### Frames -/

theorem recoils_onFrame (f : Frame → Frame) : Recoils m (onFrame f) := by
  intro e m' h
  unfold onFrame at h
  split at h
  · cases h
    exact .refl m
  · cases h

theorem recoils_jumpOrPop (condition : Bool) (distance : Int32) :
    Recoils m (jumpOrPop condition distance) := by
  unfold jumpOrPop
  split
  · exact recoils_onFrame _
  · exact takes_pop.recoils.then_pure

theorem recoils_jumpWhen (kind : JumpKind) (distance : Int32) :
    Recoils m (jumpWhen kind distance) := by
  cases kind with
  | always => exact recoils_onFrame _
  | ifFalse =>
      refine takes_pop.bind fun v m' _ => ?_
      split
      · exact recoils_onFrame _
      · exact .of_sure (sure_pure _)
  | ifFalseOrPop => exact takes_top.bind fun v m' _ => recoils_jumpOrPop _ distance
  | ifTrueOrPop => exact takes_top.bind fun v m' _ => recoils_jumpOrPop _ distance

/-! #### Calls -/

theorem recoils_enter (f : Closure) (arguments : List Value) : Recoils m (enter f arguments) := by
  refine .get_bind ?_
  split
  · exact .throw _
  · exact (Recoils.lift (Act.atomic_openCall _ f.scope f.proto.parameters arguments)).then_sure
      fun scope => sure_modify _

theorem recoils_call (count : ℕ) : Recoils m (call count) := by
  refine (takes_popMany count).bind fun arguments m₁ _ => takes_pop.bind fun callee m₂ _ => ?_
  split
  next f => exact (recoils_enter f arguments).then_pure
  next f =>
    exact (Recoils.lift (Act.atomic_callNative _ f arguments)).then_sure
      fun result => sure_push result.1 result.2
  next => exact .throw _

theorem recoils_ret : Recoils m ret := by
  refine takes_pop.bind fun v m' _ => .get_bind ?_
  split
  · exact .throw _
  · exact .of_sure (sure_modify fun _ => _)

end Exec

/-! ### Instructions -/

open Exec

section

variable {m : Machine}

/-- An action that leaves its result. -/
theorem Act.Atomic.yields {act : Act Value} (h : act.Atomic m.toStore) :
    Recoils m (do
      let v ← (liftM act : Exec Value)
      push v
      return ([] : List String)) :=
  (Recoils.lift h).then_sure fun v => sure_push v _

/-- An action with an operand that is left behind it. -/
theorem Act.Atomic.leaves {act : Act Unit} (h : act.Atomic m.toStore) (v : Value) :
    Recoils m (do
      (liftM act : Exec Unit)
      push v
      return ([] : List String)) :=
  (Recoils.lift h).then_sure fun _ => sure_push v _

/-- **An instruction that fails has only taken operands.** -/
theorem recoils_execute (hm : m.frames ≠ []) (proto : Proto) (i : Instr) :
    Recoils m (execute proto i) := by
  cases i with
  | enter => exact .of_sure (sure_pure _)
  | halt => exact (Recoils.of_sure (sure_modify _)).then_pure
  | constant position =>
      simp only [execute]
      split
      · exact .of_sure (sure_push _ _)
      · exact (Recoils.throw _).then_pure
  | pop => exact takes_pop.recoils.then_pure
  | declare name kind =>
      exact (takes_nameAt proto name).bind fun name m₁ _ => takes_pop.bind fun v m₂ _ =>
        takes_currentScope.bind fun scope m₃ _ =>
          (Recoils.lift (Act.atomic_declare _ scope name v kind)).then_pure
  | get name =>
      exact (takes_nameAt proto name).bind fun name m₁ _ => takes_currentScope.bind
        fun scope m₂ _ => (Act.atomic_read _ scope name).yields
  | set name =>
      exact (takes_nameAt proto name).bind fun name m₁ _ => takes_top.bind fun v m₂ _ =>
        takes_currentScope.bind fun scope m₃ _ =>
          (Recoils.lift (Act.atomic_assign _ scope name v)).then_pure
  | getProperty name =>
      exact (takes_nameAt proto name).bind fun name m₁ _ => takes_pop.bind fun object m₂ _ =>
        (Act.atomic_getProperty _ object name).yields
  | setProperty name =>
      exact (takes_nameAt proto name).bind fun name m₁ _ => takes_pop.bind fun v m₂ _ =>
        takes_pop.bind fun object m₃ _ => (Act.atomic_setProperty _ object name v).leaves v
  | getIndex =>
      exact takes_pop.bind fun index m₁ _ => takes_pop.bind fun object m₂ _ =>
        (Act.atomic_getIndex _ object index).yields
  | setIndex =>
      exact takes_pop.bind fun v m₁ _ => takes_pop.bind fun index m₂ _ => takes_pop.bind
        fun object m₃ _ => (Act.atomic_setIndex _ object index v).leaves v
  | makeArray count =>
      exact (takes_popMany _).bind fun items m₁ _ => (Act.atomic_newArray _ items).yields
  | makeObject count =>
      exact (takes_popMany _).bind fun values m₁ _ => (Act.atomic_newObject _ values).yields
  | closure function =>
      simp only [execute]
      split
      · exact takes_currentScope.bind fun scope m₁ _ => (Act.atomic_newFunction _ _ scope).yields
      · exact (Recoils.throw _).then_pure
  | call count => exact recoils_call count.toNat
  | ret => exact recoils_ret.then_pure
  | operate op =>
      exact takes_pop.bind fun right m₁ _ => takes_pop.bind fun left m₂ _ =>
        (Act.atomic_operate _ op left right).yields
  | negate => exact takes_pop.bind fun v m₁ _ => (Act.atomic_negate _ v).yields
  | not => exact takes_pop.bind fun v m₁ _ => .of_sure (sure_push _ _)
  | jump kind distance => exact (recoils_jumpWhen kind distance).then_pure
  | pushScope =>
      -- The scope is opened first, but where a frame runs, nothing fails behind that.
      obtain ⟨store, frames, stack, halted⟩ := m
      obtain ⟨frame, callers, rfl⟩ := List.exists_cons_of_ne_nil hm
      intro e m' h
      cases h
  | popScope =>
      refine .get_bind ?_
      split
      · exact (recoils_onFrame _).then_pure
      · exact (Recoils.throw _).then_pure

end

/-! ### Steps -/

namespace Machine

variable {m m' : Machine} {e : RuntimeError}

/-- Where a fault comes from: the running frame has no instruction there that can be decoded, or the
instruction has failed. -/
theorem step_of_fault (h : m.step.2.2 = .fault e) :
    m.halted = false ∧ m.step.2.1 = [] ∧ ∃ frame callers, m.frames = frame :: callers ∧
      e.line = frame.line ∧
        ((∃ d, frame.proto.chunk.decodeAt frame.offset = .error d) ∧ m.step.1 = m ∨
          ∃ i next, frame.proto.chunk.decodeAt frame.offset = .ok (some (i, next)) ∧
            execute frame.proto i
              { m with frames := { frame with offset := next } :: callers } =
                .error e.fault m.step.1) := by
  by_cases hhalted : m.halted = true
  · rw [step_of_halted hhalted] at h
    cases h
  rw [step, if_neg hhalted] at h ⊢
  refine ⟨Bool.eq_false_iff.2 hhalted, ?_⟩
  cases hframes : m.frames with
  | nil =>
      simp only [hframes] at h
      cases h
  | cons frame callers =>
      simp only [hframes] at h ⊢
      cases hdecode : frame.proto.chunk.decodeAt frame.offset with
      | error d =>
          simp only [hdecode] at h ⊢
          cases h
          exact ⟨trivial, frame, callers, rfl, rfl, .inl ⟨⟨d, hdecode⟩, trivial⟩⟩
      | ok result =>
          cases result with
          | none =>
              simp only [hdecode] at h
              cases h
          | some pair =>
              obtain ⟨i, next⟩ := pair
              simp only [hdecode] at h ⊢
              cases hrun : execute frame.proto i
                  { m with frames := { frame with offset := next } :: callers } with
              | ok printed m' =>
                  simp only [hrun] at h
                  split at h <;> cases h
              | error fault m' =>
                  simp only [hrun] at h ⊢
                  cases h
                  exact ⟨trivial, frame, callers, rfl, rfl, .inr ⟨i, next, hdecode, hrun⟩⟩

/-- The machine behind a failed step. -/
structure Recoiled (m m' : Machine) : Prop where
  store : m'.toStore = m.toStore
  halted : m'.halted = m.halted
  stack : m'.stack <:+ m.stack
  frames : ∃ frame callers, m.frames = frame :: callers ∧
    ((∃ d, frame.proto.chunk.decodeAt frame.offset = .error d) ∧ m'.frames = m.frames ∨
      ∃ i next, frame.proto.chunk.decodeAt frame.offset = .ok (some (i, next)) ∧
        m'.frames = { frame with offset := next } :: callers)

theorem recoiled_of_fault (h : m.step.2.2 = .fault e) : m.Recoiled m.step.1 := by
  obtain ⟨-, -, frame, callers, hframes, -, ⟨hdecode, hsame⟩ | ⟨i, next, hdecode, hrun⟩⟩ :=
    step_of_fault h
  · rw [hsame]
    exact ⟨rfl, rfl, List.suffix_refl _, frame, callers, hframes, .inl ⟨hdecode, rfl⟩⟩
  · have htrimmed := recoils_execute (List.cons_ne_nil _ _) frame.proto i _ _ hrun
    exact ⟨htrimmed.store, htrimmed.halted, htrimmed.stack, frame, callers, hframes,
      .inr ⟨i, next, hdecode, htrimmed.frames⟩⟩

/-- The line of a fault is the one that was next. -/
theorem line_of_fault (h : m.step.2.2 = .fault e) : e.line = m.currentLine := by
  obtain ⟨hhalted, -, frame, callers, hframes, hline, -⟩ := step_of_fault h
  rw [hline, currentLine, hhalted, hframes]
  rfl

theorem Recoiled.currentScope (h : m.Recoiled m') : m'.currentScope = m.currentScope := by
  obtain ⟨frame, callers, hframes, ⟨-, hsame⟩ | ⟨i, next, -, hmoved⟩⟩ := h.frames
  · rw [Machine.currentScope, Machine.currentScope, hsame]
  · rw [Machine.currentScope, Machine.currentScope, hmoved, hframes]

/-- The variables in sight are those from before the failed step. -/
theorem Recoiled.snapshot (h : m.Recoiled m') (limits : Limits) :
    snapshot Script.interpreter limits m' = snapshot Script.interpreter limits m := by
  have hscopes : m'.scopeBindings = m.scopeBindings := by
    rw [scopeBindings, scopeBindings, h.store, h.currentScope]
  have hmarshal : m'.marshal = m.marshal := by
    funext v
    cases v with
    | array r => rw [marshal, marshal, h.store]
    | object r => rw [marshal, marshal, h.store]
    | _ => rfl
  simp only [Tracepoint.snapshot, Script.interpreter, hscopes, hmarshal]

end Machine

/-! ### Faults under the debugger -/

/-- What a debugger is told of a step that failed is what its error says. -/
theorem Status.exists_fault_of_outcome {status : Status} {message : String} {line : Option ℕ}
    (h : status.outcome = .fault message line) :
    ∃ e, status = .fault e ∧ message = e.fault.message ∧ line = e.line := by
  cases status with
  | more => cases h
  | done => cases h
  | fault e =>
      cases h
      exact ⟨e, rfl, rfl, rfl⟩

/-- What a debugger shows of a program that cannot go on: the line and the variables from before the
step that failed. -/
theorem Debugger.Sound.observe_of_fault {d : Debugger Machine} (h : d.Sound Script.interpreter)
    {t : Session Machine} (ht : d.session = some t) {message : String}
    (hfault : t.rest.fault? = some message) :
    ∃ (m : Machine) (e : RuntimeError), m.step.2.2 = .fault e ∧ message = e.fault.message ∧
      t.progress.state = m.step.1 ∧ d.observe.activeLine = m.currentLine ∧
        d.observe.scope = some (snapshot Script.interpreter d.config.limits m) := by
  obtain ⟨source, s, -, hreplays⟩ := h t ht
  have hdescribes := hreplays.describes
  cases hrest : t.rest with
  | paused line => rw [hrest] at hfault; cases hfault
  | ended => rw [hrest] at hfault; cases hfault
  | exhausted limit line => rw [hrest] at hfault; cases hfault
  | faulted text line =>
      rw [hrest] at hfault hdescribes
      obtain rfl : text = message := Option.some.inj hfault
      obtain ⟨n, found, htotal, -, houtcome, hline⟩ := hdescribes
      have hstate : t.progress.state = (Script.interpreter.iterate n s).step.1 := by
        rw [hreplays.follows.state, htotal, Interpreter.iterate_succ]
        rfl
      generalize hm : Script.interpreter.iterate n s = m at hstate hline
      -- A unit of work that fails is a step that fails.
      have hstatus : m.step.2.2.outcome = .fault text found := by
        rw [← houtcome, Interpreter.outcomeAt, hm]
        rfl
      obtain ⟨e, hstep, rfl, rfl⟩ := Status.exists_fault_of_outcome hstatus
      refine ⟨m, e, hstep, rfl, hstate, ?_, ?_⟩
      · have hafter : Script.interpreter.lineAfter s n = none ∨
            Script.interpreter.lineAfter s n = m.currentLine := by
          cases n with
          | zero => exact .inl rfl
          | succ n => exact .inr (by rw [Interpreter.lineAfter, hm]; rfl)
        rw [observe_of_session ht, hrest]
        change line = m.currentLine
        rw [hline, Machine.line_of_fault hstep]
        change (m.currentLine <|> (m.currentLine <|> _)) = _
        rcases hafter with hafter | hafter
        · rw [hafter]
          cases m.currentLine <;> rfl
        · rw [hafter]
          cases m.currentLine <;> rfl
      · rw [observe_of_session ht]
        change some t.scope = _
        rw [hreplays.scope, hstate, (Machine.recoiled_of_fault hstep).snapshot]

/-- **A failed step changes nothing but operands and the place in the code.** It writes nothing, its
fault belongs to the line that was next, and the variables in sight are as before. So a debugger
whose program cannot go on, whatever it was asked for, shows the line and the variables from before
the step that failed. -/
theorem failed_step_recoils :
    (∀ (m : Machine) (e : RuntimeError), m.step.2.2 = .fault e →
      m.step.2.1 = [] ∧ e.line = m.currentLine ∧ m.Recoiled m.step.1 ∧
        ∀ limits, snapshot Script.interpreter limits m.step.1 =
          snapshot Script.interpreter limits m) ∧
    ∀ (config : Config) (actions : List Action),
      let d := (Debugger.new config).actAll Script.interpreter actions
      ∀ (t : Session Machine) (message : String), d.session = some t →
        t.rest.fault? = some message →
        ∃ (m : Machine) (e : RuntimeError), m.step.2.2 = .fault e ∧ message = e.fault.message ∧
          t.progress.state = m.step.1 ∧ d.observe.activeLine = m.currentLine ∧
            d.observe.scope = some (snapshot Script.interpreter d.config.limits m) := by
  refine ⟨fun m e h => ?_, fun config actions => ?_⟩
  · have hrecoiled := Machine.recoiled_of_fault h
    exact ⟨(Machine.step_of_fault h).2.1, Machine.line_of_fault h, hrecoiled, hrecoiled.snapshot⟩
  · intro d t message ht hfault
    have hsound : (Debugger.new config : Debugger Machine).Sound Script.interpreter :=
      Debugger.sound_of_session_none rfl
    exact (hsound.actAll actions).observe_of_fault ht hfault

/-- The value that is called on the second line is no function. The debugger shows that line and the
variable. -/
theorem failed_step_recoils_uncallable :
    let d := (Debugger.new { stepLimit := 9 }).actAll Script.interpreter
      [.start "let a = true;\na();"]
    ∃ (m : Machine) (e : RuntimeError), m.step.2.2 = .fault e ∧ m.Recoiled m.step.1 ∧
      m.currentLine = some 2 ∧ d.observe.activeLine = m.currentLine ∧
        d.observe.scope = some (snapshot Script.interpreter d.config.limits m) := by
  intro d
  have hfault : d.session.map (fun t => t.rest.fault?) =
      some (some "TypeError: true is not a function") := by decide +kernel
  have hactive : d.observe.activeLine = some 2 := by decide +kernel
  obtain ⟨t, ht, hmessage⟩ := Option.map_eq_some_iff.1 hfault
  obtain ⟨m, e, hstep, -, -, hline, hscope⟩ := failed_step_recoils.2 { stepLimit := 9 }
    [.start "let a = true;\na();"] t _ ht hmessage
  obtain ⟨-, -, hrecoiled, -⟩ := failed_step_recoils.1 m e hstep
  exact ⟨m, e, hstep, hrecoiled, hline.symm.trans hactive, hline, hscope⟩

end Tracepoint
