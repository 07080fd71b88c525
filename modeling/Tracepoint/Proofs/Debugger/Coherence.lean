/-
What a controller writes down agrees.

The phase of a controller, whether it has a session, the flags of the session and the variables in
sight are written in many places, and read as if they belonged together.  They do.  A turn of a run
either goes on, or writes a phase with the flags that belong to it; so does the run, and so does
every request, whatever was asked for before and however it was answered.  Between two requests a
controller is never loading and never running.

Main definitions:

* `Sitting.Shows` — a session at rest, finished or not, with the variables in sight;
* `Controller.Turned` — how a turn may end;
* `Controller.InPhase` — what a controller has and shows in a phase;
* `Controller.refusal?` — the refusal that an action is answered with.

Main results:

* `Controller.turned` — one turn; `Controller.loop_rests` — **any number of turns up to the end**;
* `Controller.Coherent.act`, `Controller.Coherent.actAll` — every action keeps what is written down
  in agreement;
* `Controller.act_of_refusal?` — **a refusal changes nothing**;
* `Controller.phase_of_actions` — **a controller is in one phase, and answers accordingly**.
-/

import Tracepoint.Controller
import Tracepoint.Proofs.Debugger.Sources

set_option relaxedAutoImplicit false
set_option autoImplicit false

namespace Tracepoint

variable {ε σ υ : Type} {I : Interpreter ε σ υ}

/-! ### Sessions -/

/-- The session is written down to be at rest, with the variables in sight. -/
structure Sitting.Shows (I : Interpreter ε σ υ) (limits : Limits) (finished : Bool)
    (s : Sitting σ) : Prop where
  paused : s.paused = true
  finished_eq : s.finished = finished
  scope : s.scope = some (snapshot I limits s.program)

namespace Sitting

variable {limits : Limits}

theorem shows_pause (line : Option ℕ) {s : Sitting σ} (h : s.finished = false) :
    (s.pause I limits line).Shows I limits false :=
  ⟨rfl, h, rfl⟩

theorem shows_finish (line : Option ℕ) (s : Sitting σ) :
    (s.finish I limits line).Shows I limits true :=
  ⟨rfl, rfl, rfl⟩

@[simp]
theorem finished_arrive (line : Option ℕ) (s : Sitting σ) :
    (s.arrive line).finished = s.finished := by
  rw [arrive]
  split <;> rfl

@[simp]
theorem finished_work (s : Sitting σ) : (s.work I).2.finished = s.finished :=
  rfl

end Sitting

namespace Controller

/-! ### Runs -/

section Run

variable {config : Config} {breakpoints : Breakpoints} {gait : Gait} {phase : Phase}

/-- How a turn may end: it goes on in the phase it began in, or it writes a phase together with the
flags that belong to it. -/
inductive Turned (I : Interpreter ε σ υ) (limits : Limits) (phase : Phase) :
    Bool × Phase × Sitting σ → Prop
  | again {s : Sitting σ} (h : s.finished = false) : Turned I limits phase (true, phase, s)
  | paused {s : Sitting σ} (h : s.Shows I limits false) : Turned I limits phase (false, .paused, s)
  | finished {s : Sitting σ} (h : s.Shows I limits true) :
      Turned I limits phase (false, .finished, s)

/-- **One turn.** -/
theorem turned {s : Sitting σ} (h : s.finished = false) :
    Turned I config.limits phase (turn I config breakpoints gait (phase, s)) := by
  have hwork : (s.work I).2.finished = false := h
  simp only [turn]
  split
  next => exact .finished (Sitting.shows_finish _ _)
  next => exact .finished (Sitting.shows_finish _ _)
  next =>
    split
    · exact .paused (Sitting.shows_pause _ ((Sitting.finished_arrive _ _).trans hwork))
    · split
      · exact .finished (Sitting.shows_finish _ _)
      · exact .again ((Sitting.finished_arrive _ _).trans hwork)

/-- **Any number of turns** up to the end of the run. -/
theorem loop_rests {r : Phase × Sitting σ} (h : r.2.finished = false) :
    Turned I config.limits r.1 (false, loop I config breakpoints gait r) := by
  fun_induction loop I config breakpoints gait r with
  | case1 r r' hturn =>
      have hturned : Turned I config.limits r.1 (turn I config breakpoints gait r) := turned h
      rw [hturn] at hturned
      exact hturned
  | case2 r r' hturn _ ih =>
      have hturned : Turned I config.limits r.1 (turn I config breakpoints gait r) := turned h
      rw [hturn] at hturned
      cases hturned with
      | again hgoes => exact ih hgoes

end Run

/-! ### Phases -/

variable {c : Controller σ}

/-- What a controller has and shows in a phase. -/
inductive InPhase (I : Interpreter ε σ υ) (c : Controller σ) : Phase → Prop
  | idle (hphase : c.phase = .idle) (hsession : c.session = none)
      (hseen : c.observe = ⟨false, false, none, none, []⟩) : InPhase I c .idle
  | paused {s : Sitting σ} (hphase : c.phase = .paused) (hsession : c.session = some s)
      (hshows : s.Shows I c.config.limits false) : InPhase I c .paused
  | finished {s : Sitting σ} (hphase : c.phase = .finished) (hsession : c.session = some s)
      (hshows : s.Shows I c.config.limits true) : InPhase I c .finished

theorem InPhase.phase_eq {phase : Phase} (h : c.InPhase I phase) : c.phase = phase := by
  cases h <;> assumption

/-- Phase, session and flags agree. -/
def Coherent (I : Interpreter ε σ υ) (c : Controller σ) : Prop :=
  ∃ phase, c.InPhase I phase

theorem coherent_idle (hphase : c.phase = .idle) (hsession : c.session = none) : c.Coherent I :=
  ⟨_, .idle hphase hsession (by rw [observe, hsession])⟩

/-- What is asked of a session does not show in phase and flags, unless it runs. -/
theorem Coherent.congr {c' : Controller σ} (h : c.Coherent I) (hphase : c'.phase = c.phase)
    (hsession : c'.session = c.session) (hconfig : c'.config = c.config) : c'.Coherent I := by
  obtain ⟨_, ⟨hc, hs, hseen⟩ | ⟨hc, hs, hshows⟩ | ⟨hc, hs, hshows⟩⟩ := h
  · exact coherent_idle (hphase.trans hc) (hsession.trans hs)
  · exact ⟨_, .paused (hphase.trans hc) (hsession.trans hs) (hconfig ▸ hshows)⟩
  · exact ⟨_, .finished (hphase.trans hc) (hsession.trans hs) (hconfig ▸ hshows)⟩

/-- **A run writes down what it comes to.** -/
theorem coherent_run (gait : Gait) {s : Sitting σ} (hs : c.session = some s)
    (h : s.finished = false) : (c.run I gait).Coherent I := by
  have hgoes : (Phase.running, { s with paused := false }).2.finished = false := h
  have hrests : Turned I c.config.limits _ (false, loop I c.config c.breakpoints gait _) :=
    loop_rests hgoes
  rw [run, hs]
  simp only
  generalize loop I c.config c.breakpoints gait (.running, { s with paused := false }) = r at hrests
  cases hrests with
  | paused hshows => exact ⟨_, .paused rfl rfl hshows⟩
  | finished hshows => exact ⟨_, .finished rfl rfl hshows⟩

/-! ### Requests -/

/-- A start that fails leaves the controller idle, with the new source. -/
theorem start_of_load_error {source : String} {e : ε} (h : I.load source = .error e) :
    c.start I source =
      (.error e, { c with source := some source, session := none, phase := .idle }) := by
  simp only [start, h]
  rfl

theorem load_error_of_start {source : String} {e : ε} (h : (c.start I source).1 = .error e) :
    I.load source = .error e := by
  simp only [start] at h
  split at h
  next e' heq =>
    cases h
    exact heq
  next => cases h

theorem coherent_start (source : String) : (c.start I source).2.Coherent I := by
  simp only [start]
  split
  next => exact coherent_idle rfl rfl
  next program hload =>
    have hgoes : (Sitting.new program).finished = false := rfl
    simp only
    exact coherent_run .continue_ rfl hgoes

theorem restart_of_source_none (h : c.source = none) :
    c.restart I = (.error (.refused (.untimely "restart" c.phase)), c) := by
  rw [restart, h]

/-- Starting again is stopping, and starting the source that was given last. -/
theorem restart_of_source {source : String} (h : c.source = some source) :
    (c.restart I).2 = (c.stop.2.start I source).2 := by
  rw [restart, h]
  simp only
  split
  next heq => rw [heq]
  next heq => rw [heq]

/-- Who is paused can go on. -/
theorem Coherent.resumable (h : c.Coherent I) (hphase : c.phase = .paused) : c.resumable = true := by
  obtain ⟨_, ⟨hc, -, -⟩ | ⟨hc, hs, hshows⟩ | ⟨hc, -, -⟩⟩ := h
  · cases hphase.symm.trans hc
  · rw [Controller.resumable, hs, Option.any_some, hshows.paused, hshows.finished_eq]
    rfl
  · cases hphase.symm.trans hc

theorem advance_of_paused (gait : Gait) (hphase : c.phase = .paused) (hresume : c.resumable = true) :
    c.advance I gait = (.ok (c.run I gait).observe, c.run I gait) := by
  rw [advance, if_neg]
  rintro (hne | hfalse)
  · exact hne hphase
  · rw [hresume] at hfalse
    cases hfalse

theorem advance_of_not_paused (gait : Gait) (hphase : c.phase ≠ .paused) :
    c.advance I gait = (.error (.untimely gait.name c.phase), c) :=
  if_pos (Or.inl hphase)

/-- **To go on is accepted exactly when the controller is paused.** -/
theorem Coherent.advance_ok_iff (h : c.Coherent I) (gait : Gait) :
    (∃ seen, (c.advance I gait).1 = .ok seen) ↔ c.phase = .paused := by
  constructor
  · rintro ⟨seen, hok⟩
    refine Decidable.byContradiction fun hne => ?_
    rw [advance_of_not_paused gait hne] at hok
    cases hok
  · intro hphase
    rw [advance_of_paused gait hphase (h.resumable hphase)]
    exact ⟨_, rfl⟩

theorem Coherent.advance (h : c.Coherent I) (gait : Gait) : (c.advance I gait).2.Coherent I := by
  by_cases hphase : c.phase = .paused
  · rw [advance_of_paused gait hphase (h.resumable hphase)]
    obtain ⟨_, ⟨hc, -, -⟩ | ⟨-, hs, hshows⟩ | ⟨hc, -, -⟩⟩ := h
    · cases hphase.symm.trans hc
    · exact coherent_run gait hs hshows.finished_eq
    · cases hphase.symm.trans hc
  · rw [advance_of_not_paused gait hphase]
    exact h

/-- Where an action leads. -/
def act (I : Interpreter ε σ υ) (c : Controller σ) : Action → Controller σ
  | .start source => (c.start I source).2
  | .advance gait => (c.advance I gait).2
  | .stop => c.stop.2
  | .restart => (c.restart I).2
  | .setSource source => c.setSource source
  | .toggle line => (c.toggle line).2

/-- Where some actions lead, one after the other. -/
def actAll (I : Interpreter ε σ υ) (c : Controller σ) (actions : List Action) : Controller σ :=
  actions.foldl (act I) c

/-- **Every action keeps what is written down in agreement.** -/
theorem Coherent.act (h : c.Coherent I) (a : Action) : (c.act I a).Coherent I := by
  cases a with
  | start source => exact coherent_start source
  | advance gait => exact h.advance gait
  | stop => exact coherent_idle rfl rfl
  | restart =>
      rw [Controller.act]
      cases hsource : c.source with
      | none =>
          rw [restart_of_source_none hsource]
          exact h
      | some source =>
          rw [restart_of_source hsource]
          exact coherent_start source
  | setSource source => exact h.congr rfl rfl rfl
  | toggle line =>
      rw [Controller.act, toggle]
      split
      · exact h
      · exact h.congr rfl rfl rfl

theorem Coherent.actAll (h : c.Coherent I) (actions : List Action) :
    (c.actAll I actions).Coherent I := by
  induction actions generalizing c with
  | nil => exact h
  | cons a rest ih => exact ih (h.act a)

/-! ### Sources -/

theorem source_run (gait : Gait) : (c.run I gait).source = c.source := by
  rw [run]
  split <;> rfl

theorem source_start (source : String) : (c.start I source).2.source = some source := by
  simp only [start]
  split
  next => rfl
  next => exact source_run .continue_

/-- An action that gives no source keeps the one that is there. -/
theorem source_act (a : Action) : (c.act I a).source = (a.source? <|> c.source) := by
  cases a with
  | start source => exact source_start source
  | setSource source => rfl
  | stop => rfl
  | toggle line =>
      rw [act, toggle]
      split <;> rfl
  | advance gait =>
      rw [act, Controller.advance]
      split
      · rfl
      · exact source_run gait
  | restart =>
      rw [act]
      cases hsource : c.source with
      | none => rw [restart_of_source_none hsource, hsource]; rfl
      | some source => rw [restart_of_source hsource, source_start]; rfl

/-- There is no source exactly as long as none was given. -/
theorem source_actAll (actions : List Action) :
    (c.actAll I actions).source = none ↔ c.source = none ∧ ∀ a ∈ actions, a.source? = none := by
  induction actions generalizing c with
  | nil => exact (and_iff_left (by simp)).symm
  | cons a rest ih =>
      rw [actAll, List.foldl_cons, ← actAll, ih, source_act, List.forall_mem_cons]
      cases a.source? <;> simp

/-! ### Refusals -/

/-- The refusal that an action is answered with, if it is refused. -/
def refusal? (I : Interpreter ε σ υ) (c : Controller σ) : Action → Option Refusal
  | .advance gait =>
    match (c.advance I gait).1 with
    | .error r => some r
    | .ok _ => none
  | .restart =>
    match (c.restart I).1 with
    | .error (.refused r) => some r
    | _ => none
  | .toggle line =>
    match (c.toggle line).1 with
    | .error r => some r
    | .ok _ => none
  | .start _ | .stop | .setSource _ => none

theorem advance_error {gait : Gait} {r : Refusal} (h : (c.advance I gait).1 = .error r) :
    (c.advance I gait).2 = c := by
  rw [Controller.advance] at h ⊢
  split at h
  next hrefused => rw [if_pos hrefused]
  next => cases h

theorem toggle_error {line : ℕ} {r : Refusal} (h : (c.toggle line).1 = .error r) :
    (c.toggle line).2 = c := by
  rw [toggle] at h ⊢
  split at h
  next hline => rw [if_pos hline]
  next => cases h

theorem restart_refused_iff : (c.refusal? I .restart).isSome ↔ c.source = none := by
  rw [refusal?]
  cases hsource : c.source with
  | none => simp [restart_of_source_none hsource]
  | some source =>
      rw [restart, hsource]
      simp only
      cases hstart : c.stop.2.start I source with
      | mk answer c' => cases answer <;> simp

/-- **A refusal changes nothing.** -/
theorem act_of_refusal? {a : Action} {r : Refusal} (h : c.refusal? I a = some r) :
    c.act I a = c := by
  cases a with
  | advance gait =>
      rw [refusal?] at h
      split at h
      next heq => exact advance_error heq
      next => cases h
  | toggle line =>
      rw [refusal?] at h
      split at h
      next heq => exact toggle_error heq
      next => cases h
  | restart =>
      have hsource : c.source = none := restart_refused_iff.1 (Option.isSome_of_eq_some h)
      rw [act, restart_of_source_none hsource]
  | start source => cases h
  | stop => cases h
  | setSource source => cases h

/-- A restart whose source cannot be loaded leaves the controller idle, with this source. -/
theorem restart_of_load_error {e : ε} (h : (c.restart I).1 = .error (.load e)) :
    (c.restart I).2 = { c with session := none, phase := .idle } := by
  cases hsource : c.source with
  | none =>
      rw [restart_of_source_none hsource] at h
      cases h
  | some source =>
      rw [restart_of_source hsource]
      rw [restart, hsource] at h
      simp only at h
      split at h
      next => cases h
      next e' c' hstart =>
        have hload := load_error_of_start (congrArg Prod.fst hstart)
        rw [start_of_load_error hload, ← hsource]
        rfl

/-- **A controller is in one phase, and answers accordingly.** Whatever was asked for and however it
was answered, a controller is idle, paused or finished, and what it has written down of its session
belongs to that; it is never loading and never running. It goes on exactly when it is paused, and
starts again unless no source was ever given. What it refuses changes nothing. A source that cannot
be loaded leaves it idle, with that source and the same breakpoints. -/
theorem phase_of_actions (I : Interpreter ε σ υ) (config : Config) (actions : List Action) :
    let c : Controller σ := (Controller.new config).actAll I actions
    (∃! phase, c.InPhase I phase) ∧
      (c.phase = .idle ∨ c.phase = .paused ∨ c.phase = .finished) ∧
      (∀ gait, (∃ seen, (c.advance I gait).1 = .ok seen) ↔ c.phase = .paused) ∧
      ((c.refusal? I .restart).isSome ↔ ∀ a ∈ actions, a.source? = none) ∧
      (∀ a r, c.refusal? I a = some r → c.act I a = c) ∧
      (∀ source e, (c.start I source).1 = .error e →
        (c.start I source).2 =
          { c with source := some source, session := none, phase := .idle } ∧
        (c.start I source).2.InPhase I .idle) ∧
      ∀ e, (c.restart I).1 = .error (.load e) →
        (c.restart I).2 = { c with session := none, phase := .idle } ∧
        (c.restart I).2.InPhase I .idle := by
  intro c
  have hcoherent : c.Coherent I := Coherent.actAll (coherent_idle rfl rfl) actions
  obtain ⟨phase, hphase⟩ := hcoherent
  refine ⟨⟨phase, hphase, fun phase' h => h.phase_eq.symm.trans hphase.phase_eq⟩, ?_,
    Coherent.advance_ok_iff ⟨phase, hphase⟩, ?_,
    fun a r => act_of_refusal?, fun source e hfails => ?_, fun e hfails => ?_⟩
  · rcases hphase with ⟨hphase, -, -⟩ | ⟨hphase, -, -⟩ | ⟨hphase, -, -⟩
    · exact Or.inl hphase
    · exact Or.inr (Or.inl hphase)
    · exact Or.inr (Or.inr hphase)
  · rw [restart_refused_iff, source_actAll]
    exact and_iff_right rfl
  · rw [start_of_load_error (load_error_of_start hfails)]
    exact ⟨rfl, .idle rfl rfl rfl⟩
  · rw [restart_of_load_error hfails]
    exact ⟨rfl, .idle rfl rfl rfl⟩

end Controller

end Tracepoint
