/-
Breakpoints and sessions are independent.

Breakpoints change by toggling alone: whatever else is asked for, and however it is answered, they
stay.  So a line is a breakpoint exactly when it was toggled an odd number of times.  A session in
turn takes no notice of breakpoints before it goes on: toggling shows nowhere else.

Main definitions:

* `Action.toggles` — how often some actions toggle a line that exists.

Main results:

* `Debugger.breakpoints_act`, `Debugger.contains_act` — what one action does to the breakpoints;
* `Debugger.contains_actAll` — membership after some actions is a matter of parity;
* `Debugger.toggle_eq` — what toggling does, and what it leaves alone;
* `Debugger.breakpoints_of_actions` — **breakpoints and sessions are independent**.
-/

import Mathlib.Algebra.Ring.Parity
import Tracepoint.Proofs.Debugger.Sources

set_option relaxedAutoImplicit false
set_option autoImplicit false

namespace Tracepoint

/-- How often some actions toggle a line. There is no line zero. -/
def Action.toggles (line : ℕ) (actions : List Action) : ℕ :=
  if line = 0 then 0 else actions.count (.toggle line)

theorem Action.toggles_cons (line : ℕ) (a : Action) (rest : List Action) :
    toggles line (a :: rest) =
      toggles line rest + if a = .toggle line ∧ line ≠ 0 then 1 else 0 := by
  by_cases hline : line = 0
  · simp [toggles, hline]
  · simp [toggles, hline, List.count_cons]

namespace Debugger

variable {ε σ υ : Type} {I : Interpreter ε σ υ} {d : Debugger σ}

/-! ### One action -/

/-- Toggling a line that exists answers with its new membership, and leaves all else alone. -/
theorem toggle_eq (d : Debugger σ) {line : ℕ} (hline : line ≠ 0) :
    d.toggle line = (.ok ((d.breakpoints.toggle line).contains line),
      { d with breakpoints := d.breakpoints.toggle line }) := by
  rw [toggle, if_neg hline]

theorem breakpoints_toggle (line : ℕ) : (d.toggle line).2.breakpoints =
    if line = 0 then d.breakpoints else d.breakpoints.toggle line := by
  by_cases hline : line = 0
  · rw [toggle, if_pos hline, if_pos hline]
  · rw [toggle_eq d hline, if_neg hline]

theorem breakpoints_start (source : String) :
    (d.start I source).2.breakpoints = d.breakpoints := by
  cases hload : I.load source with
  | ok s => rw [start_of_load I d hload]
  | error e => rw [start_of_load_error hload]

/-- **Only toggling changes the breakpoints.** -/
theorem breakpoints_act {a : Action} (h : ∀ line, a ≠ .toggle line) :
    (d.act I a).breakpoints = d.breakpoints := by
  cases a with
  | start source => exact breakpoints_start source
  | advance gait =>
      change (d.advance I gait).2.breakpoints = d.breakpoints
      unfold advance
      split <;> rfl
  | stop => rfl
  | restart =>
      change (d.restart I).2.breakpoints = d.breakpoints
      cases hsource : d.source with
      | none => rw [restart_of_source_none hsource]
      | some source => rw [restart_of_source hsource, breakpoints_start]
  | setSource source => rfl
  | toggle line => exact absurd rfl (h line)

/-- An action changes whether a line is a breakpoint exactly if it toggles this line. -/
theorem contains_act (a : Action) (n : ℕ) : (d.act I a).breakpoints.contains n =
    (d.breakpoints.contains n ^^ decide (a = .toggle n ∧ n ≠ 0)) := by
  by_cases ha : ∃ line, a = .toggle line
  · obtain ⟨line, rfl⟩ := ha
    rw [act, breakpoints_toggle]
    by_cases hline : line = 0
    · rw [if_pos hline, hline]
      by_cases hn : n = 0 <;> simp [hn, eq_comm]
    · rw [if_neg hline, Breakpoints.contains_toggle]
      by_cases hn : n = line
      · subst hn
        simp [hline]
      · simp [hn, Ne.symm hn]
  · have hother : ∀ line, a ≠ .toggle line := fun line heq => ha ⟨line, heq⟩
    rw [breakpoints_act hother]
    simp [hother n]

/-! ### Some actions -/

/-- **Membership is a matter of parity.** -/
theorem contains_actAll (actions : List Action) (n : ℕ) :
    (d.actAll I actions).breakpoints.contains n =
      (d.breakpoints.contains n ^^ decide (Odd (Action.toggles n actions))) := by
  induction actions generalizing d with
  | nil =>
      have hnone : Action.toggles n [] = 0 := by rw [Action.toggles, List.count_nil, ite_self]
      simp [hnone, actAll]
  | cons a rest ih =>
      rw [actAll_cons, ih, contains_act, Action.toggles_cons, Bool.xor_assoc]
      by_cases ha : a = .toggle n ∧ n ≠ 0
      · rw [if_pos ha, decide_eq_true ha, Bool.true_xor, decide_eq_decide.2 Nat.odd_add_one,
          decide_not]
      · rw [if_neg ha, decide_eq_false ha, Bool.false_xor, Nat.add_zero]

/-- **Breakpoints and sessions are independent.** Whatever was asked for and however it was
answered, the breakpoints are the lines, in ascending order and without line zero, that were toggled
an odd number of times, and toggling answers with the new membership. Only toggling changes them.
Toggling in turn changes nothing that can be seen of a session, and keeps the source. -/
theorem breakpoints_of_actions (I : Interpreter ε σ υ) (config : Config) (actions : List Action) :
    let d : Debugger σ := (Debugger.new config).actAll I actions
    (∀ line, d.breakpoints.contains line = true ↔
        1 ≤ line ∧ Odd (actions.count (.toggle line))) ∧
      d.breakpoints.lines.Pairwise (· < ·) ∧
      (∀ line, line ∈ d.breakpoints.lines ↔ 1 ≤ line ∧ Odd (actions.count (.toggle line))) ∧
      0 ∉ d.breakpoints.lines ∧
      (∀ line, 1 ≤ line → (d.toggle line).1 = .ok ((d.toggle line).2.breakpoints.contains line)) ∧
      (∀ a, (∀ line, a ≠ .toggle line) → (d.act I a).breakpoints = d.breakpoints) ∧
      ∀ line, (d.toggle line).2.phase = d.phase ∧ (d.toggle line).2.observe = d.observe ∧
        (d.toggle line).2.session = d.session ∧ (d.toggle line).2.source = d.source := by
  intro d
  have hparity : ∀ line, d.breakpoints.contains line = true ↔
      1 ≤ line ∧ Odd (actions.count (.toggle line)) := by
    intro line
    have hempty : (Debugger.new config : Debugger σ).breakpoints.contains line = false := rfl
    rw [contains_actAll, hempty, Bool.false_xor, decide_eq_true_iff, Action.toggles]
    by_cases hline : line = 0
    · simp [hline]
    · simp [hline, Nat.one_le_iff_ne_zero]
  have hmem : ∀ line, line ∈ d.breakpoints.lines ↔
      1 ≤ line ∧ Odd (actions.count (.toggle line)) := fun line => by
    rw [← hparity, Breakpoints.contains, List.contains_iff_mem]
  refine ⟨hparity, d.breakpoints.ascending, hmem, fun hzero => ?_, fun line hline => ?_,
    fun a ha => breakpoints_act ha, fun line => ?_⟩
  · exact absurd ((hmem 0).1 hzero).1 (Nat.not_succ_le_zero 0)
  · rw [toggle_eq d (Nat.one_le_iff_ne_zero.1 hline)]
  · have hsession := toggle_session d line
    refine ⟨?_, ?_, hsession, source_act (I := I) (.toggle line)⟩
    · rw [phase, hsession, phase]
    · rw [observe, hsession, observe]

end Debugger

end Tracepoint
