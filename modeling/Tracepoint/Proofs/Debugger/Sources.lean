/-
Sessions and sources of a debugger.

Whatever was asked for before, an open session stands on the run of a source that was loaded, and
the source that is run next is the one that was given last.

Main definitions:

* `Debugger.Sound` — an open session stands on the run of a source that was loaded;
* `Action.source?` — the source that an action gives.

Main results:

* `Debugger.Sound.act`, `Debugger.Sound.actAll` — **every action keeps a debugger sound**;
* `Debugger.source_act`, `Debugger.source_actAll` — the source is there once it was given, and stays.
-/

import Tracepoint.Proofs.Debugger.Actions

set_option relaxedAutoImplicit false
set_option autoImplicit false

namespace Tracepoint

/-- The source that an action gives. -/
def Action.source? : Action → Option String
  | start source | setSource source => some source
  | advance _ | stop | restart | toggle _ => none

namespace Debugger

variable {ε σ υ : Type} {I : Interpreter ε σ υ} {d : Debugger σ}

/-! ### Sessions -/

/-- An open session stands at a point of the run of a source that was loaded. -/
def Sound (I : Interpreter ε σ υ) (d : Debugger σ) : Prop :=
  ∀ t, d.session = some t → ∃ source s, I.load source = .ok s ∧
    t.Replays I d.config.limits d.config.stepLimit s

theorem sound_of_session_none (h : d.session = none) : d.Sound I := by
  intro t ht
  rw [h] at ht
  cases ht

theorem sound_of_replays {source : String} {s : σ} (hload : I.load source = .ok s)
    (h : d.Replays I s) : d.Sound I := by
  obtain ⟨t, ht, hreplays⟩ := h
  intro u hu
  obtain rfl := Option.some.inj (ht.symm.trans hu)
  exact ⟨source, s, hload, hreplays⟩

/-- A start that fails closes the session and keeps the new source. -/
theorem start_of_load_error {source : String} {e : ε} (h : I.load source = .error e) :
    d.start I source = (.error e, { d with source := some source, session := none }) := by
  simp only [start, h]
  rfl

theorem sound_start (source : String) : (d.start I source).2.Sound I := by
  cases hload : I.load source with
  | ok s => exact sound_of_replays hload (replays_start d hload)
  | error e =>
      rw [start_of_load_error hload]
      exact sound_of_session_none rfl

/-- Starting again is starting the source that was given last. -/
theorem restart_of_source {source : String} (h : d.source = some source) :
    (d.restart I).2 = (d.start I source).2 := by
  simp only [restart, h]
  split
  next heq => rw [heq]
  next heq => rw [heq]

theorem restart_of_source_none (h : d.source = none) :
    d.restart I = (.error (.refused (.untimely "restart" d.phase)), d) := by
  simp only [restart, h]

/-- Where no session is open, none is opened by an action that keeps the session. -/
theorem act_of_session_none (hsession : d.session = none) {a : Action}
    (ha : a.keepsSession = true) : (d.act I a).session = none := by
  cases a with
  | advance gait =>
      obtain ⟨config, breakpoints, source, session⟩ := d
      subst hsession
      rfl
  | setSource source => exact hsession
  | toggle line => exact (toggle_session d line).trans hsession
  | start source => cases ha
  | stop => cases ha
  | restart => cases ha

theorem actAll_of_session_none (hsession : d.session = none) {actions : List Action}
    (hkeep : ∀ a ∈ actions, a.keepsSession = true) : (d.actAll I actions).session = none := by
  induction actions generalizing d with
  | nil => exact hsession
  | cons a rest ih =>
      obtain ⟨ha, hrest⟩ := List.forall_mem_cons.1 hkeep
      exact ih (act_of_session_none hsession ha) hrest

/-- An action that keeps the session keeps a debugger sound. -/
theorem Sound.keep (h : d.Sound I) {a : Action} (ha : a.keepsSession = true) :
    (d.act I a).Sound I := by
  cases hsession : d.session with
  | some t =>
      obtain ⟨source, s, hload, hreplays⟩ := h t hsession
      exact sound_of_replays hload (Replays.act ⟨t, hsession, hreplays⟩ ha)
  | none => exact sound_of_session_none (act_of_session_none hsession ha)

/-- **Every action keeps a debugger sound.** -/
theorem Sound.act (h : d.Sound I) (a : Action) : (d.act I a).Sound I := by
  cases a with
  | start source => exact sound_start source
  | stop => exact sound_of_session_none rfl
  | restart =>
      cases hsource : d.source with
      | none =>
          rw [Debugger.act, restart_of_source_none hsource]
          exact h
      | some source =>
          rw [Debugger.act, restart_of_source hsource]
          exact sound_start source
  | advance gait => exact h.keep rfl
  | setSource source => exact h.keep rfl
  | toggle line => exact h.keep rfl

theorem Sound.actAll (h : d.Sound I) (actions : List Action) : (d.actAll I actions).Sound I := by
  induction actions generalizing d with
  | nil => exact h
  | cons a rest ih => exact ih (h.act a)

/-! ### Sources -/

@[simp] theorem toggle_source (d : Debugger σ) (line : ℕ) :
    (d.toggle line).2.source = d.source := by
  by_cases h : line = 0 <;> simp [toggle, h]

theorem source_start (source : String) : (d.start I source).2.source = some source := by
  cases hload : I.load source with
  | ok s => rw [start_of_load I d hload]
  | error e => rw [start_of_load_error hload]

/-- An action that gives no source keeps the one that is there. -/
theorem source_act (a : Action) : (d.act I a).source = (a.source? <|> d.source) := by
  cases a with
  | start source => exact source_start source
  | setSource source => rfl
  | stop => rfl
  | toggle line => exact toggle_source d line
  | advance gait =>
      change (d.advance I gait).2.source = d.source
      unfold advance
      split <;> rfl
  | restart =>
      change (d.restart I).2.source = d.source
      cases hsource : d.source with
      | none => rw [restart_of_source_none hsource, hsource]
      | some source => rw [restart_of_source hsource, source_start]

/-- There is no source exactly as long as none was given. -/
theorem source_actAll (actions : List Action) :
    (d.actAll I actions).source = none ↔
      d.source = none ∧ ∀ a ∈ actions, a.source? = none := by
  induction actions generalizing d with
  | nil => simp [actAll]
  | cons a rest ih =>
      rw [actAll_cons, ih, source_act, List.forall_mem_cons]
      cases a.source? <;> simp

end Debugger

end Tracepoint
