/-
What can be asked of a debugger, one action after the other.

An action that is refused leaves the debugger as it is, so a sequence of actions always leads
somewhere.

* `Action`, `Action.keepsSession` — the actions, and the ones that neither open nor close a session;
* `Debugger.act`, `Debugger.actAll` — where an action and a sequence of them lead;
* `Debugger.Replays` — the open session stands at a point of the run of its interpreter;
* `Debugger.HasDone` — a session that has not ended has done a number of units of work;
* `Debugger.Replays.actAll`, `Debugger.HasDone.actAll` — both stay so, whatever is asked for in the
  session, and every request to go on that is not refused does a unit of work.
-/

import Tracepoint.Debugger
import Tracepoint.Proofs.Session.Replay

set_option relaxedAutoImplicit false
set_option autoImplicit false

namespace Tracepoint

/-- What can be asked of a debugger. -/
inductive Action
  | start (source : String)
  | advance (gait : Gait)
  | stop
  | restart
  | setSource (source : String)
  | toggle (line : ℕ)
  deriving Repr, DecidableEq

namespace Action

/-- The action neither opens nor closes a session. -/
def keepsSession : Action → Bool
  | advance _ | setSource _ | toggle _ => true
  | start _ | stop | restart => false

/-- The action asks to go on. -/
def isAdvance : Action → Bool
  | advance _ => true
  | _ => false

/-- The number of actions that ask to go on. -/
def advances (actions : List Action) : ℕ :=
  actions.countP isAdvance

@[simp] theorem advances_cons (a : Action) (rest : List Action) :
    advances (a :: rest) = advances rest + if a.isAdvance then 1 else 0 :=
  List.countP_cons

end Action

namespace Debugger

variable {ε σ υ : Type}

/-- Where an action leads. -/
def act (I : Interpreter ε σ υ) (d : Debugger σ) : Action → Debugger σ
  | .start source => (d.start I source).2
  | .advance gait => (d.advance I gait).2
  | .stop => d.stop
  | .restart => (d.restart I).2
  | .setSource source => d.setSource source
  | .toggle line => (d.toggle line).2

/-- Where some actions lead, one after the other. -/
def actAll (I : Interpreter ε σ υ) (d : Debugger σ) (actions : List Action) : Debugger σ :=
  actions.foldl (act I) d

@[simp] theorem actAll_cons (I : Interpreter ε σ υ) (d : Debugger σ) (a : Action)
    (rest : List Action) : d.actAll I (a :: rest) = (d.act I a).actAll I rest := rfl

/-! ### What single actions do -/

@[simp] theorem toggle_session (d : Debugger σ) (line : ℕ) :
    (d.toggle line).2.session = d.session := by
  by_cases h : line = 0 <;> simp [toggle, h]

@[simp] theorem toggle_config (d : Debugger σ) (line : ℕ) :
    (d.toggle line).2.config = d.config := by
  by_cases h : line = 0 <;> simp [toggle, h]

theorem advance_of_paused (I : Interpreter ε σ υ) (gait : Gait) {d : Debugger σ} {t : Session σ}
    {line : Option ℕ} (ht : d.session = some t) (hrest : t.rest = .paused line) :
    (d.advance I gait).2 = { d with
      session := some (resume I d.config.limits d.config.stepLimit
        (gait.pauses d.breakpoints) t.progress) } := by
  obtain ⟨config, breakpoints, source, session⟩ := d
  obtain ⟨p, rest, scope⟩ := t
  subst ht hrest
  rfl

theorem advance_of_final (I : Interpreter ε σ υ) (gait : Gait) {d : Debugger σ} {t : Session σ}
    (ht : d.session = some t) (hrest : t.rest.isFinal = true) : (d.advance I gait).2 = d := by
  obtain ⟨config, breakpoints, source, session⟩ := d
  obtain ⟨p, rest, scope⟩ := t
  subst ht
  cases rest with
  | paused line => simp [Rest.isFinal] at hrest
  | ended => rfl
  | faulted message line => rfl
  | exhausted limit line => rfl

theorem phase_of_session {d : Debugger σ} {t : Session σ} (ht : d.session = some t) :
    d.phase = if t.rest.isFinal then .finished else .paused := by
  rw [phase, ht]

theorem observe_of_session {d : Debugger σ} {t : Session σ} (ht : d.session = some t) :
    d.observe = ⟨true, t.rest.isFinal, t.rest.line, some t.scope, t.console⟩ := by
  rw [observe, ht]

/-- A start that succeeds has loaded the source and run it until a first rest. -/
theorem start_of_load (I : Interpreter ε σ υ) (d : Debugger σ) {source : String} {s : σ}
    (h : I.load source = .ok s) :
    d.start I source = (.ok (), { d with
      source := some source
      session := some (resume I d.config.limits d.config.stepLimit
        (Gait.continue_.pauses d.breakpoints) (.start s)) }) := by
  simp only [start, h]
  rfl

theorem load_of_start {I : Interpreter ε σ υ} {d : Debugger σ} {source : String}
    (h : (d.start I source).1 = .ok ()) : ∃ s, I.load source = .ok s := by
  cases hload : I.load source with
  | ok s => exact ⟨s, rfl⟩
  | error e => simp [start, hload] at h

/-- Outside `advance`, an action that keeps the session does not touch it. -/
theorem act_session (I : Interpreter ε σ υ) (d : Debugger σ) {a : Action}
    (hkeep : a.keepsSession = true) (hadvance : a.isAdvance = false) :
    (d.act I a).session = d.session := by
  cases a with
  | setSource source => rfl
  | toggle line => exact toggle_session d line
  | advance gait => simp [Action.isAdvance] at hadvance
  | start source => simp [Action.keepsSession] at hkeep
  | stop => simp [Action.keepsSession] at hkeep
  | restart => simp [Action.keepsSession] at hkeep

theorem act_config (I : Interpreter ε σ υ) (d : Debugger σ) {a : Action}
    (hkeep : a.keepsSession = true) : (d.act I a).config = d.config := by
  cases a with
  | advance gait =>
      change (d.advance I gait).2.config = d.config
      unfold advance
      split <;> rfl
  | setSource source => rfl
  | toggle line => exact toggle_config d line
  | start source => simp [Action.keepsSession] at hkeep
  | stop => simp [Action.keepsSession] at hkeep
  | restart => simp [Action.keepsSession] at hkeep

theorem actAll_config (I : Interpreter ε σ υ) {actions : List Action}
    (hkeep : ∀ a ∈ actions, a.keepsSession = true) (d : Debugger σ) :
    (d.actAll I actions).config = d.config := by
  induction actions generalizing d with
  | nil => rfl
  | cons a rest ih =>
      rw [actAll_cons, ih (fun b hb => hkeep b (List.mem_cons_of_mem _ hb)),
        act_config I d (hkeep a List.mem_cons_self)]

/-! ### The open session -/

/-- The open session stands at a point of the run of its interpreter on `s`. -/
def Replays (I : Interpreter ε σ υ) (s : σ) (d : Debugger σ) : Prop :=
  ∃ t, d.session = some t ∧ t.Replays I d.config.limits d.config.stepLimit s

/-- A session that has not ended has done at least `n` units of work. -/
def HasDone (n : ℕ) (d : Debugger σ) : Prop :=
  ∀ t, d.session = some t → t.rest.isFinal = false → n ≤ t.progress.total

variable {I : Interpreter ε σ υ} {s : σ} {d : Debugger σ} {n : ℕ}

theorem replays_start (d : Debugger σ) {source : String} (h : I.load source = .ok s) :
    (d.start I source).2.Replays I s := by
  rw [start_of_load I d h]
  exact ⟨_, rfl, ((Progress.underway_start I s).resume _ _ _).1⟩

theorem hasDone_start (d : Debugger σ) {source : String} (h : I.load source = .ok s) :
    (d.start I source).2.HasDone 1 := by
  intro t ht _
  rw [start_of_load I d h] at ht
  obtain rfl := Option.some.inj ht
  exact ((Progress.underway_start I s).resume _ _ _).2

/-- Going on either finds the session at its end and changes nothing, or resumes it. -/
theorem Replays.advance (h : d.Replays I s) (gait : Gait) :
    ((d.advance I gait).2 = d ∧ d.phase = .finished) ∨
      ∃ t p, d.session = some t ∧ p = t.progress ∧ t.rest.isFinal = false ∧ p.Underway I s ∧
        (d.advance I gait).2 = { d with
          session := some (resume I d.config.limits d.config.stepLimit
            (gait.pauses d.breakpoints) p) } := by
  obtain ⟨t, ht, hreplays⟩ := h
  cases hfinal : t.rest.isFinal with
  | true => exact Or.inl ⟨advance_of_final I gait ht hfinal, by simp [phase_of_session ht, hfinal]⟩
  | false =>
      cases hrest : t.rest with
      | paused line =>
          have hdescribes := hreplays.describes
          rw [hrest] at hdescribes
          exact Or.inr ⟨t, _, ht, rfl, hfinal, hdescribes.1, advance_of_paused I gait ht hrest⟩
      | ended => simp [hrest, Rest.isFinal] at hfinal
      | faulted message line => simp [hrest, Rest.isFinal] at hfinal
      | exhausted limit line => simp [hrest, Rest.isFinal] at hfinal

/-- An action in a session leaves the session on the run of its interpreter. -/
theorem Replays.act (h : d.Replays I s) {a : Action} (ha : a.keepsSession = true) :
    (d.act I a).Replays I s := by
  cases hadvance : a.isAdvance with
  | false =>
      obtain ⟨t, ht, hreplays⟩ := h
      exact ⟨t, by rw [act_session I d ha hadvance, ht],
        by rw [act_config I d ha]; exact hreplays⟩
  | true =>
      cases a with
      | advance gait =>
          rcases h.advance gait with ⟨heq, _⟩ | ⟨t, p, _, _, _, hunder, heq⟩
          · rw [Debugger.act, heq]; exact h
          · rw [Debugger.act, heq]
            exact ⟨_, rfl, (hunder.resume _ _ _).1⟩
      -- No other action goes on.
      | _ => simp [Action.isAdvance] at hadvance

/-- An action that goes on adds a unit of work, unless the session has ended. -/
theorem HasDone.act (hdone : d.HasDone n) (h : d.Replays I s) {a : Action}
    (ha : a.keepsSession = true) :
    (d.act I a).HasDone (n + if a.isAdvance then 1 else 0) := by
  cases hadvance : a.isAdvance with
  | false =>
      intro t ht hrest
      rw [act_session I d ha hadvance] at ht
      simpa using hdone t ht hrest
  | true =>
      cases a with
      | advance gait =>
          intro t ht hrest
          rcases h.advance gait with ⟨heq, hphase⟩ | ⟨u, p, hu, hp, hfinal, hunder, heq⟩
          · rw [Debugger.act, heq] at ht
            simp [phase_of_session ht, hrest] at hphase
          · rw [Debugger.act, heq] at ht
            obtain rfl := Option.some.inj ht
            have hlater := (hunder.resume d.config.limits d.config.stepLimit
              (gait.pauses d.breakpoints)).2
            have hn := hdone u hu hfinal
            rw [← hp] at hn
            exact Nat.lt_of_le_of_lt hn hlater
      | _ => simp [Action.isAdvance] at hadvance

/-- **Whatever is asked for in a session, it stays on the run of its interpreter.** -/
theorem Replays.actAll (h : d.Replays I s) {actions : List Action}
    (hkeep : ∀ a ∈ actions, a.keepsSession = true) : (d.actAll I actions).Replays I s := by
  induction actions generalizing d with
  | nil => exact h
  | cons a rest ih =>
      exact ih (h.act (hkeep a List.mem_cons_self)) fun b hb => hkeep b (List.mem_cons_of_mem _ hb)

/-- Every request to go on that is not refused does at least one unit of work. -/
theorem HasDone.actAll (hdone : d.HasDone n) (h : d.Replays I s) {actions : List Action}
    (hkeep : ∀ a ∈ actions, a.keepsSession = true) :
    (d.actAll I actions).HasDone (n + Action.advances actions) := by
  induction actions generalizing d n with
  | nil => exact hdone
  | cons a rest ih =>
      have ha := hkeep a List.mem_cons_self
      have hrest := ih (hdone.act h ha) (h.act ha) fun b hb => hkeep b (List.mem_cons_of_mem _ hb)
      rw [Action.advances_cons, Nat.add_comm (Action.advances rest), ← Nat.add_assoc]
      exact hrest

end Debugger

end Tracepoint
