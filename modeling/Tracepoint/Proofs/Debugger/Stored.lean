/-
What a controller writes down is what a debugger works out.

A debugger keeps of a session where it stands and why it rests, and works out everything else from
that.  Written down, this is a controller.  Whatever is asked for, the controller that is written
down from a debugger answers as the debugger does and becomes the one that is written down from what
the debugger becomes, so nothing that a controller writes is ever out of date.

Main definitions:

* `Progress.stored`, `Session.stored`, `Debugger.stored` — what is written down of a running session,
  of a session at rest and of a debugger.

Main results:

* `Controller.loop_stored` — **running up to the end writes down the session at rest**;
* `Debugger.stored_start`, `Debugger.stored_restart`, `Debugger.stored_advance` — the requests;
* `Debugger.stored_actAll` — **a controller and a debugger stay together, whatever is asked for**.
-/

import Tracepoint.Proofs.Debugger.Coherence

set_option relaxedAutoImplicit false
set_option autoImplicit false

namespace Tracepoint

variable {ε σ υ : Type} {I : Interpreter ε σ υ}

/-! ### Running sessions -/

/-- What is written down of a session while it runs. The line and the variables in sight are those
of its last rest. -/
def Progress.stored (p : Progress σ) (activeLine : Option ℕ) (scope : Option Snapshot) :
    Sitting σ :=
  { program := p.state, console := p.printed.toList, total := p.total,
    transitions := p.transitions, lastLine := p.lastLine, activeLine, scope, fault := none,
    paused := false, finished := false }

/-- What is written down of a session at rest. -/
def Session.stored (t : Session σ) : Sitting σ :=
  { program := t.progress.state, console := t.console, total := t.progress.total,
    transitions := t.progress.transitions, lastLine := t.progress.lastLine,
    activeLine := t.rest.line, scope := some t.scope, fault := t.rest.fault?, paused := true,
    finished := t.rest.isFinal }

/-- The phase of a debugger with a session at rest. -/
def Session.phase (t : Session σ) : Phase :=
  if t.rest.isFinal then .finished else .paused

section Running

variable {p : Progress σ} {activeLine : Option ℕ} {scope : Option Snapshot}

/-- A unit of work writes down what it does. -/
theorem Progress.work_stored :
    (p.stored activeLine scope).work I =
      ((p.unit I).2.1, (p.unit I).2.2.stored activeLine scope) := by
  have hprinted : p.printed.toList ++ (I.step p.state).2.1 = (p.unit I).2.2.printed.toList :=
    (p.toList_unit_printed I).symm
  simp only [Sitting.work, stored, hprinted]
  rfl

theorem Progress.arrive_stored (line : Option ℕ) :
    (p.stored activeLine scope).arrive line = (p.entered line).stored activeLine scope := by
  by_cases hline : (line != p.lastLine) = true
  · rw [Progress.entered, if_pos hline]
    exact if_pos hline
  · rw [Progress.entered, if_neg hline]
    exact if_neg hline

end Running

namespace Controller

/-! ### Runs -/

section Run

variable {config : Config} {breakpoints : Breakpoints} {gait : Gait} {phase : Phase}
  {p : Progress σ} {activeLine : Option ℕ} {scope : Option Snapshot}

theorem loop_of_end {r r' : Phase × Sitting σ}
    (h : turn I config breakpoints gait r = (false, r')) :
    loop I config breakpoints gait r = r' := by
  rw [loop]
  split
  next heq => rw [h] at heq; exact (congrArg Prod.snd heq).symm
  next heq => rw [h] at heq; cases heq

theorem loop_of_again {r r' : Phase × Sitting σ}
    (h : turn I config breakpoints gait r = (true, r')) :
    loop I config breakpoints gait r = loop I config breakpoints gait r' := by
  rw [loop]
  split
  next heq => rw [h] at heq; cases heq
  next heq => rw [h] at heq; cases heq; rfl

/-- The phase and the session that a run which has come to rest writes down. -/
def settled (I : Interpreter ε σ υ) (limits : Limits) (r : Progress σ × Rest) :
    Phase × Sitting σ :=
  let t : Session σ := ⟨r.1, r.2, snapshot I limits r.1.state⟩
  (t.phase, t.stored)

theorem turn_of_fault {message : String} {line : Option ℕ}
    (h : (p.unit I).2.1 = .fault message line) :
    turn I config breakpoints gait (phase, p.stored activeLine scope) =
      (false, settled I config.limits
        ((p.unit I).2.2, .faulted message (line <|> (p.unit I).1))) := by
  simp only [turn, Progress.work_stored, h]
  rfl

theorem turn_of_done (h : (p.unit I).2.1 = .done) :
    turn I config breakpoints gait (phase, p.stored activeLine scope) =
      (false, settled I config.limits ((p.unit I).2.2, .ended)) := by
  simp only [turn, Progress.work_stored, h, settled, Session.stored, Session.console, Rest.notice,
    List.append_nil]
  rfl

/-- Whether a unit of work enters a line at which the session pauses. -/
theorem turn_of_more (h : (p.unit I).2.1 = .more) :
    turn I config breakpoints gait (phase, p.stored activeLine scope) =
      if p.nextLine I != p.lastLine && gait.pauses breakpoints (p.nextLine I) then
        (false, settled I config.limits
          ((p.unit I).2.2.entered (p.nextLine I), .paused (p.nextLine I)))
      else if config.stepLimit < p.total + 1 then
        (false, settled I config.limits ((p.unit I).2.2.entered (p.nextLine I),
          .exhausted config.stepLimit (p.nextLine I <|> (p.unit I).1)))
      else
        (true, phase, ((p.unit I).2.2.entered (p.nextLine I)).stored activeLine scope) := by
  simp only [turn, Progress.work_stored, h, Progress.arrive_stored, settled, Session.stored,
    Session.console, Rest.notice, List.append_nil]
  rfl

/-- Either the next unit of work brings the session to rest, or there is more to do and the session
does not pause. -/
theorem loop_stored_or_more :
    (∀ left, loop I config breakpoints gait (phase, p.stored activeLine scope) =
        settled I config.limits
          (Tracepoint.run I config.stepLimit (gait.pauses breakpoints) left p)) ∨
      ((p.unit I).2.1 = .more ∧
        (p.nextLine I != p.lastLine && gait.pauses breakpoints (p.nextLine I)) = false) := by
  cases hout : (p.unit I).2.1 with
  | fault message found =>
      exact Or.inl fun left => by rw [run_of_fault hout, loop_of_end (turn_of_fault hout)]
  | done => exact Or.inl fun left => by rw [run_of_done hout, loop_of_end (turn_of_done hout)]
  | more =>
      cases hpause : p.nextLine I != p.lastLine && gait.pauses breakpoints (p.nextLine I) with
      | false => exact Or.inr ⟨rfl, rfl⟩
      | true =>
          refine Or.inl fun left => ?_
          rw [run_of_pause hout hpause]
          exact loop_of_end ((turn_of_more hout).trans (if_pos hpause))

/-- **Running up to the end writes down the session at rest.** -/
theorem loop_stored :
    loop I config breakpoints gait (phase, p.stored activeLine scope) =
      settled I config.limits
        (Tracepoint.run I config.stepLimit (gait.pauses breakpoints)
          (config.stepLimit - p.total) p) := by
  -- induction on the units that the limit leaves
  induction hleft : config.stepLimit - p.total generalizing p with
  | zero =>
      rcases loop_stored_or_more with hends | ⟨hout, hpause⟩
      · exact hends 0
      · have hlimit : config.stepLimit < p.total + 1 := by omega
        rw [run_zero_of_more hout hpause]
        exact loop_of_end ((turn_of_more hout).trans
          ((if_neg (Bool.eq_false_iff.1 hpause)).trans (if_pos hlimit)))
  | succ left ih =>
      rcases loop_stored_or_more with hends | ⟨hout, hpause⟩
      · exact hends _
      · have hlimit : ¬ config.stepLimit < p.total + 1 := by omega
        rw [run_succ_of_more hout hpause, loop_of_again ((turn_of_more hout).trans
          ((if_neg (Bool.eq_false_iff.1 hpause)).trans (if_neg hlimit)))]
        exact ih (by rw [Progress.entered_total, Progress.unit_total]; omega)

end Run

end Controller

/-! ### Requests -/

namespace Debugger

variable {d : Debugger σ}

/-- What is written down of a debugger. -/
def stored (d : Debugger σ) : Controller σ :=
  { config := d.config, breakpoints := d.breakpoints, source := d.source,
    session := d.session.map Session.stored, phase := d.phase }

theorem observe_stored (d : Debugger σ) : d.stored.observe = d.observe := by
  cases h : d.session with
  | none => simp only [Controller.observe, stored, observe, h, Option.map_none]
  | some t =>
      simp only [Controller.observe, stored, observe, h, Option.map_some, Sitting.observe,
        Session.stored]

/-- A run writes down the session that a program which is resumed comes to. -/
theorem stored_run (gait : Gait) {c : Controller σ} {s : Sitting σ} {p : Progress σ}
    {activeLine : Option ℕ} {scope : Option Snapshot} (hsession : c.session = some s)
    (hstored : { s with paused := false } = p.stored activeLine scope) :
    c.run I gait =
      stored ⟨c.config, c.breakpoints, c.source,
        some (resume I c.config.limits c.config.stepLimit (gait.pauses c.breakpoints) p)⟩ := by
  rw [Controller.run, hsession]
  simp only [hstored, Controller.loop_stored]
  rfl

/-- **Opening a session.** -/
theorem stored_start (source : String) :
    d.stored.start I source =
      ((d.start I source).1.map fun _ => (d.start I source).2.observe,
        (d.start I source).2.stored) := by
  cases hload : I.load source with
  | error e =>
      rw [start_of_load_error hload, Controller.start_of_load_error hload]
      rfl
  | ok program =>
      rw [start_of_load I d hload, Controller.start]
      simp only [hload]
      rw [stored_run .continue_ rfl (p := .start program) rfl]
      rw [observe_stored]
      rfl

/-- **Opening a session on the same source again.** -/
theorem stored_restart :
    d.stored.restart I =
      ((d.restart I).1.map fun _ => (d.restart I).2.observe, (d.restart I).2.stored) := by
  cases hsource : d.source with
  | none =>
      rw [restart_of_source_none hsource, Controller.restart_of_source_none hsource]
      rfl
  | some source =>
      have hstart : d.stored.stop.2.start I source = _ := stored_start (d := d.stop) source
      have hstop : d.stop.start I source = d.start I source := rfl
      have hstored : d.stored.source = some source := hsource
      rw [Controller.restart, restart, hsource, hstored]
      simp only [hstart, hstop]
      cases d.start I source with
      | mk answer d' =>
          cases answer with
          | ok _ => rfl
          | error e => rfl

/-- **Going on.** -/
theorem stored_advance (gait : Gait) :
    d.stored.advance I gait =
      ((d.advance I gait).1.map fun _ => (d.advance I gait).2.observe,
        (d.advance I gait).2.stored) := by
  obtain ⟨config, breakpoints, source, session⟩ := d
  cases session with
  | none => rfl
  | some t =>
      obtain ⟨p, rest, scope⟩ := t
      cases rest with
      | paused line =>
          have hstored : { (Session.stored ⟨p, .paused line, scope⟩) with paused := false } =
              p.stored line (some scope) := by
            simp only [Session.stored, Session.console, Rest.notice, List.append_nil]
            rfl
          rw [Controller.advance_of_paused gait rfl rfl, stored_run gait rfl hstored,
            observe_stored]
          rfl
      | ended => rfl
      | faulted message line => rfl
      | exhausted limit line => rfl

/-- Breakpoints. -/
theorem stored_toggle (line : ℕ) :
    d.stored.toggle line = ((d.toggle line).1, (d.toggle line).2.stored) := by
  rw [Controller.toggle, toggle]
  split <;> rfl

theorem stored_act (a : Action) : d.stored.act I a = (d.act I a).stored := by
  cases a with
  | start source => exact congrArg Prod.snd (stored_start source)
  | advance gait => exact congrArg Prod.snd (stored_advance gait)
  | stop => rfl
  | restart => exact congrArg Prod.snd stored_restart
  | setSource source => rfl
  | toggle line => exact congrArg Prod.snd (stored_toggle line)

/-- **A controller and a debugger stay together, whatever is asked for.** -/
theorem stored_actAll (I : Interpreter ε σ υ) (config : Config) (actions : List Action) :
    (Controller.new config).actAll I actions = ((Debugger.new config).actAll I actions).stored := by
  suffices hall : ∀ d : Debugger σ, d.stored.actAll I actions = (d.actAll I actions).stored from
    hall (Debugger.new config)
  intro d
  induction actions generalizing d with
  | nil => rfl
  | cons a rest ih =>
      rw [Controller.actAll, List.foldl_cons, ← Controller.actAll, stored_act, ih, actAll_cons]

end Debugger

end Tracepoint
