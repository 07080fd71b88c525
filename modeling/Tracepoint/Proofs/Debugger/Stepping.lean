/-
Going on step by step.

A program turns when a unit of work leads to another line than the one before.  A session that goes
on step by step pauses at every turn, one after the other, and ends behind the last one, if the
program ends without a fault before the limit is reached.

Main definitions:

* `Interpreter.turnsMade` — the turns that some units of work have made;
* `Interpreter.EndsAfter` — a program ends, without a fault;
* `Debugger.PausesBehind` — a debugger pauses behind a number of turns.

Main results:

* `Interpreter.linesEntered_eq` — the lines entered are the turns that lead to a line;
* `Session.Burst.ends`, `Session.Burst.pausesAt` — where a burst leads, by the pauses ahead;
* `Debugger.PausesBehind.advance` — a step leads to the next turn;
* `Debugger.PausesBehind.ends` — or to the end of the program.
-/

import Mathlib.Data.Nat.Find
import Tracepoint.Proofs.Debugger.Bursts

set_option relaxedAutoImplicit false
set_option autoImplicit false

namespace Tracepoint

variable {ε σ υ : Type}

/-! ### Turns -/

namespace Interpreter

/-- The number of turns that the first `n` units of work make. -/
def turnsMade (I : Interpreter ε σ υ) (s : σ) (n : ℕ) : ℕ :=
  (List.range n).countP fun k => I.Turns s k

/-- The program goes on for `n` units of work and ends with the next one. -/
structure EndsAfter (I : Interpreter ε σ υ) (s : σ) (n : ℕ) : Prop where
  goesOn : I.GoesOn s n
  done : I.outcomeAt s n = .done

variable {I : Interpreter ε σ υ} {s : σ} {m n : ℕ}

theorem turnsMade_succ (I : Interpreter ε σ υ) (s : σ) (n : ℕ) :
    I.turnsMade s (n + 1) = I.turnsMade s n + if I.Turns s n then 1 else 0 := by
  simp [turnsMade, List.range_succ, List.countP_append, List.countP_cons]

/-- Without a turn in between, no more turns are made. -/
theorem turnsMade_of_still (hle : m ≤ n) (hstill : ∀ k, m ≤ k → k < n → ¬I.Turns s k) :
    I.turnsMade s n = I.turnsMade s m := by
  induction n, hle using Nat.le_induction with
  | base => rfl
  | succ n hle ih =>
      rw [turnsMade_succ, if_neg (hstill n hle n.lt_succ_self), Nat.add_zero]
      exact ih fun k hk hlt => hstill k hk (Nat.lt_succ_of_lt hlt)

theorem turnsMade_mono (I : Interpreter ε σ υ) (s : σ) (hle : m ≤ n) :
    I.turnsMade s m ≤ I.turnsMade s n := by
  induction n, hle using Nat.le_induction with
  | base => exact Nat.le_refl _
  | succ n _ ih =>
      rw [turnsMade_succ]
      exact Nat.le_add_right_of_le ih

/-- If more turns are made later on, there is a next one. -/
theorem exists_next_turn (hle : m ≤ n) (hmore : I.turnsMade s m < I.turnsMade s n) :
    ∃ k, m ≤ k ∧ k < n ∧ I.Turns s k ∧ (∀ j, m ≤ j → j < k → ¬I.Turns s j) ∧
      I.turnsMade s (k + 1) = I.turnsMade s m + 1 := by
  have hexists : ∃ k, m ≤ k ∧ k < n ∧ I.Turns s k := by
    by_contra hnone
    have hsame : I.turnsMade s n = I.turnsMade s m :=
      turnsMade_of_still hle fun k hk hlt hturn => hnone ⟨k, hk, hlt, hturn⟩
    omega
  obtain ⟨hk, hlt, hturn⟩ := Nat.find_spec hexists
  have hstill : ∀ j, m ≤ j → j < Nat.find hexists → ¬I.Turns s j := fun j hj hbefore hturn' =>
    Nat.find_min hexists hbefore ⟨hj, Nat.lt_trans hbefore hlt, hturn'⟩
  refine ⟨_, hk, hlt, hturn, hstill, ?_⟩
  rw [turnsMade_succ, if_pos hturn, turnsMade_of_still hk hstill]

theorem entersLine_iff (I : Interpreter ε σ υ) (s : σ) (n : ℕ) :
    I.entersLine s n = true ↔ I.Turns s n ∧ (I.lineAfter s (n + 1)).isSome := by
  simp only [entersLine, Turns, Bool.and_eq_true, beq_iff_eq, bne_iff_ne]
  exact and_right_comm

/-- **The lines entered are the turns that lead to a line**, if these are the first `count` ones. -/
theorem linesEntered_eq {count : ℕ}
    (h : ∀ k < n, (I.lineAfter s (k + 1)).isSome ↔ I.turnsMade s (k + 1) ≤ count) :
    I.linesEntered s n = min (I.turnsMade s n) count := by
  induction n with
  | zero => exact (Nat.zero_min _).symm
  | succ n ih =>
      have hline := h n n.lt_succ_self
      rw [linesEntered_succ, ih fun k hk => h k (Nat.lt_succ_of_lt hk)]
      rw [turnsMade_succ] at hline ⊢
      by_cases hturn : I.Turns s n
      · rw [if_pos hturn] at hline ⊢
        by_cases hsome : (I.lineAfter s (n + 1)).isSome
        · rw [if_pos ((I.entersLine_iff s n).2 ⟨hturn, hsome⟩)]
          have hle := hline.1 hsome
          omega
        · rw [if_neg fun henters => hsome ((I.entersLine_iff s n).1 henters).2]
          have hlt := mt hline.2 hsome
          omega
      · rw [if_neg hturn, if_neg fun henters => hturn ((I.entersLine_iff s n).1 henters).1,
          Nat.add_zero, Nat.add_zero]

end Interpreter

/-! ### Bursts -/

section

variable {I : Interpreter ε σ υ} {config : Config} {pauses : Option ℕ → Bool} {s : σ} {t i n : ℕ}
  {u : Session σ}

/-- While the program goes on within the limit, only pauses stop a burst. -/
theorem Interpreter.EndsAfter.stopsAt_iff {limit k : ℕ} (h : I.EndsAfter s n) (hlimit : n ≤ limit)
    (hk : k < n) : I.StopsAt limit pauses s k ↔ I.PausesAt pauses s k := by
  have hmore := h.goesOn k hk
  refine ⟨fun hstop => ?_, .pause⟩
  cases hstop with
  | fault hfault =>
      rw [hmore] at hfault
      cases hfault
  | done hdone =>
      rw [hmore] at hdone
      cases hdone
  | pause hpause => exact hpause
  | limit hpast => omega

namespace Session.Burst

/-- A burst stops at the first unit that stops it. -/
theorem last_eq {k : ℕ} (h : u.Burst I config pauses s t i) (hk : t ≤ k)
    (hstop : I.StopsAt config.stepLimit pauses s k)
    (hfirst : ∀ j, t ≤ j → j < k → ¬I.StopsAt config.stepLimit pauses s j) : t + i = k + 1 := by
  have hunit : t + (k + 1 - t) - 1 = k := by omega
  have hle : i ≤ k + 1 - t := h.least.2 ⟨by omega, by rw [hunit]; exact hstop⟩
  have hpos := h.pos
  by_contra hne
  exact hfirst (t + i - 1) (by omega) (by omega) h.least.1.2

/-- Without a pause ahead, a burst leads to the end of the program. -/
theorem ends (h : u.Burst I config pauses s t i) (hend : I.EndsAfter s n)
    (hlimit : n ≤ config.stepLimit) (hle : t ≤ n)
    (hpass : ∀ k, t ≤ k → k < n → ¬I.PausesAt pauses s k) :
    u.rest = .ended ∧ u.progress.total = n + 1 := by
  have hlast := h.last_eq hle (.done hend.done) fun j hj hlt hstop =>
    hpass j hj hlt ((hend.stopsAt_iff hlimit hlt).1 hstop)
  have hunit : t + i - 1 = n := by omega
  refine ⟨?_, h.total.trans hlast⟩
  rw [h.rest, hunit, Interpreter.restAfter, hend.done]

/-- A burst leads to the first pause ahead. -/
theorem pausesAt {k : ℕ} (h : u.Burst I config pauses s t i) (hend : I.EndsAfter s n)
    (hlimit : n ≤ config.stepLimit) (hle : t ≤ k) (hlt : k < n) (hpause : I.PausesAt pauses s k)
    (hfirst : ∀ j, t ≤ j → j < k → ¬I.PausesAt pauses s j) :
    u.rest = .paused (I.lineAfter s (k + 1)) ∧ u.progress.total = k + 1 := by
  have hlast := h.last_eq hle (.pause hpause) fun j hj hbefore hstop =>
    hfirst j hj hbefore ((hend.stopsAt_iff hlimit (Nat.lt_trans hbefore hlt)).1 hstop)
  have hunit : t + i - 1 = k := by omega
  refine ⟨?_, h.total.trans hlast⟩
  rw [h.rest, hunit, Interpreter.restAfter, hend.goesOn k hlt, if_pos hpause]

end Session.Burst

end

/-! ### Debuggers -/

namespace Debugger

section

variable {I : Interpreter ε σ υ} {config : Config} {s : σ} {n count : ℕ} {d e : Debugger σ}

/-- A debugger whose session pauses on the run of a program that ends behind unit `n`. The last
unit done has made turn number `count`. -/
structure PausesBehind (I : Interpreter ε σ υ) (config : Config) (s : σ) (n count : ℕ)
    (e : Debugger σ) : Prop where
  sameConfig : e.config = config
  session : ∃ u, e.session = some u ∧ u.rest = .paused (I.lineAfter s u.progress.total) ∧
    u.progress.Underway I s ∧ u.scope = snapshot I config.limits u.progress.state ∧
    0 < u.progress.total ∧ u.progress.total ≤ n ∧ I.turnsMade s u.progress.total = count

/-- Where a start leads. -/
theorem session_start (d : Debugger σ) {source : String} (hload : I.load source = .ok s) :
    ∃ u i, (d.start I source).2.session = some u ∧ (d.start I source).2.config = d.config ∧
      u.Replays I d.config.limits d.config.stepLimit s ∧
      u.Burst I d.config (Gait.continue_.pauses d.breakpoints) s 0 i := by
  have hunder := Progress.underway_start I s
  obtain ⟨i, hburst⟩ := hunder.burst d.config (Gait.continue_.pauses d.breakpoints)
  have hreplays := (hunder.resume d.config.limits d.config.stepLimit
    (Gait.continue_.pauses d.breakpoints)).1
  rw [start_of_load I d hload]
  exact ⟨_, i, rfl, rfl, hreplays, hburst⟩

/-- Without breakpoints, a start leads to the end of the program. All lines that are entered on the
way are counted. -/
theorem ends_of_start {source : String} (hload : I.load source = .ok s) (hend : I.EndsAfter s n)
    (hlimit : n ≤ d.config.stepLimit) (hnone : ∀ line, d.breakpoints.contains line = false) :
    ∃ u, (d.start I source).2.session = some u ∧ u.rest = .ended ∧
      u.progress.transitions = I.linesEntered s n := by
  obtain ⟨u, i, hu, -, hreplays, hburst⟩ := d.session_start hload
  have hpass : ∀ line, Gait.continue_.pauses d.breakpoints line = false := by
    intro line
    cases line with
    | none => rfl
    | some line => exact hnone line
  obtain ⟨hrest, htotal⟩ := hburst.ends hend hlimit (Nat.zero_le n) fun k _ _ hpause => by
    rw [Interpreter.PausesAt, hpass] at hpause
    exact Bool.false_ne_true hpause.2
  have hstill : I.entersLine s n = false := by
    simp [Interpreter.entersLine, hend.done]
  refine ⟨u, hu, hrest, ?_⟩
  rw [hreplays.follows.transitions, htotal, I.linesEntered_succ, hstill]
  rfl

/-- A session that has come to a pause. -/
theorem pausesBehind_of_session {u : Session σ} {k : ℕ} (hconfig : e.config = config)
    (hu : e.session = some u) (hreplays : u.Replays I config.limits config.stepLimit s)
    (hrest : u.rest = .paused (I.lineAfter s (k + 1))) (htotal : u.progress.total = k + 1)
    (hk : k < n) : e.PausesBehind I config s n (I.turnsMade s (k + 1)) := by
  have hdescribes := hreplays.describes
  rw [hrest] at hdescribes
  exact ⟨hconfig, u, hu, htotal ▸ hrest, hdescribes.1, hreplays.scope, by omega, by omega,
    htotal ▸ rfl⟩

/-- A start leads to the first turn, if it is made at once and the session pauses there. -/
theorem pausesBehind_start {source : String} (hload : I.load source = .ok s)
    (hend : I.EndsAfter s n) (hlimit : n ≤ d.config.stepLimit) (hpos : 0 < n)
    (hpause : I.PausesAt (Gait.continue_.pauses d.breakpoints) s 0) :
    (d.start I source).2.PausesBehind I d.config s n 1 := by
  obtain ⟨u, i, hu, hconfig, hreplays, hburst⟩ := d.session_start hload
  obtain ⟨hrest, htotal⟩ := hburst.pausesAt hend hlimit (Nat.le_refl 0) hpos hpause
    fun j _ hlt => absurd hlt j.not_lt_zero
  have hfirst : I.turnsMade s 1 = 1 := by
    rw [Interpreter.turnsMade_succ, if_pos hpause.1]
    rfl
  rw [← hfirst]
  exact pausesBehind_of_session hconfig hu hreplays hrest htotal hpos

/-- Where a step leads that is asked for in a session that pauses. -/
theorem PausesBehind.session_advance (h : e.PausesBehind I config s n count) :
    ∃ u t i, (e.advance I .step).2.session = some u ∧ (e.advance I .step).2.config = config ∧
      u.Replays I config.limits config.stepLimit s ∧
      u.Burst I config (Gait.step.pauses e.breakpoints) s t i ∧ t ≤ n ∧
      I.turnsMade s t = count := by
  obtain ⟨u, hu, hrest, hunder, -, -, hle, hcount⟩ := h.session
  obtain ⟨i, hburst⟩ := hunder.burst config (Gait.step.pauses e.breakpoints)
  have hreplays := (hunder.resume config.limits config.stepLimit
    (Gait.step.pauses e.breakpoints)).1
  rw [advance_of_paused I .step hu hrest, h.sameConfig]
  exact ⟨_, _, i, rfl, rfl, hreplays, hburst, hle, hcount⟩

/-- **A step leads to the next turn.** -/
theorem PausesBehind.advance (h : e.PausesBehind I config s n count) (hend : I.EndsAfter s n)
    (hlimit : n ≤ config.stepLimit) (hmore : count < I.turnsMade s n) :
    (e.advance I .step).2.PausesBehind I config s n (count + 1) := by
  obtain ⟨u, t, i, hu, hconfig, hreplays, hburst, hle, rfl⟩ := h.session_advance
  obtain ⟨k, hk, hlt, hturn, hstill, hnext⟩ := Interpreter.exists_next_turn hle hmore
  obtain ⟨hrest, htotal⟩ := hburst.pausesAt hend hlimit hk hlt ⟨hturn, rfl⟩
    fun j hj hbefore hpause => hstill j hj hbefore hpause.1
  rw [← hnext]
  exact pausesBehind_of_session hconfig hu hreplays hrest htotal hlt

/-- **Behind the last turn, a step leads to the end of the program.** -/
theorem PausesBehind.ends (h : e.PausesBehind I config s n count) (hend : I.EndsAfter s n)
    (hlimit : n ≤ config.stepLimit) (hlast : I.turnsMade s n ≤ count) :
    ∃ u, (e.advance I .step).2.session = some u ∧ u.rest = .ended := by
  obtain ⟨u, t, i, hu, -, -, hburst, hle, rfl⟩ := h.session_advance
  refine ⟨u, hu, (hburst.ends hend hlimit hle fun k hk hlt hpause => ?_).1⟩
  -- A turn in between would be one more than the program makes.
  have hmade := I.turnsMade_succ s k
  rw [if_pos hpause.1] at hmade
  have hbefore := I.turnsMade_mono s hk
  have hafter : I.turnsMade s (k + 1) ≤ I.turnsMade s n := I.turnsMade_mono s hlt
  omega

/-- Steps lead from turn to turn. -/
theorem PausesBehind.steps (h : e.PausesBehind I config s n count) (hend : I.EndsAfter s n)
    (hlimit : n ≤ config.stepLimit) (k : ℕ) (hmore : count + k ≤ I.turnsMade s n) :
    (e.actAll I (List.replicate k (.advance .step))).PausesBehind I config s n (count + k) := by
  induction k generalizing e count with
  | zero => exact h
  | succ k ih =>
      rw [List.replicate_succ, actAll_cons, Nat.add_comm k 1, ← Nat.add_assoc]
      exact ih (h.advance hend hlimit (by omega)) (by omega)

end

end Debugger

end Tracepoint
