/-
How far a session can be taken beyond its limit.

The limit of a session counts all its units of work, also over pauses.  But a burst asks for it
only behind a unit at which it does not pause.  So the limit ends a session for sure with the first
unit, from the limit on, that leads to no other line; and a program each of whose units leads to
another line is kept alive by stepping through it.

Main definitions:

* `Session.KeepsTurning` — beyond the limit, a session has done no unit but such as lead to another
  line, its last one excepted if that has ended it.

Main results:

* `Debugger.Replays.actAll_of_burst` — what bursts keep holds of a session for good;
* `Debugger.ends_without_turning` — **a unit from the limit on that leads to no other line is the
  last one of every session**, and the requests to go on that it takes to get there are bounded;
* `Debugger.stepping_never_ends` — **a program that keeps turning is never ended by stepping**.
-/

import Tracepoint.Proofs.Debugger.Bursts
import Tracepoint.Script

set_option relaxedAutoImplicit false
set_option autoImplicit false

namespace Tracepoint

variable {ε σ υ : Type} {I : Interpreter ε σ υ} {s : σ}

/-! ### Units of work beyond the limit -/

/-- Whatever a session does from unit `limit` on leads to another line each time, or ends it. -/
def Session.KeepsTurning (I : Interpreter ε σ υ) (limit : ℕ) (s : σ) (t : Session σ) : Prop :=
  ∀ n, limit ≤ n → n < t.progress.total →
    I.Turns s n ∨ (t.progress.total = n + 1 ∧ t.rest.isFinal = true)

/-- A session that does not rest for good pauses. -/
theorem Interpreter.pausesAt_of_restAfter {limit n : ℕ} {pauses : Option ℕ → Bool}
    (h : (I.restAfter limit pauses s n).isFinal = false) : I.PausesAt pauses s n := by
  unfold restAfter at h
  split at h
  · cases h
  · cases h
  · split at h
    · assumption
    · cases h

/-- A burst from a session that only turns beyond the limit leads to such a session again. -/
theorem Session.Burst.keepsTurning {config : Config} {pauses : Option ℕ → Bool} {t i : ℕ}
    {u : Session σ} (h : u.Burst I config pauses s t i)
    (hturns : ∀ n, config.stepLimit ≤ n → n < t → I.Turns s n) :
    u.KeepsTurning I config.stepLimit s := by
  intro n hlimit hn
  rw [h.total] at hn ⊢
  have hpos := h.pos
  rcases Nat.lt_or_ge n t with hlt | hle
  · exact Or.inl (hturns n hlimit hlt)
  rcases Nat.lt_or_ge (n + 1) (t + i) with hlt | hge
  -- A unit from the limit on is the last one of its burst.
  · exact absurd (.limit (by omega)) (h.not_stopsAt hle hlt)
  · have hlast : t + i - 1 = n := by omega
    cases hfinal : u.rest.isFinal with
    | true => exact Or.inr ⟨by omega, rfl⟩
    | false =>
        rw [h.rest, hlast] at hfinal
        exact Or.inl (Interpreter.pausesAt_of_restAfter hfinal).1

namespace Debugger

/-! ### What bursts keep -/

/-- **What bursts keep holds of a session for good**, whatever is asked for in it. -/
theorem Replays.actAll_of_burst {P : Session σ → Prop} {d : Debugger σ} {t : Session σ}
    (ht : d.session = some t) (hreplays : t.Replays I d.config.limits d.config.stepLimit s)
    (hP : P t)
    (hburst : ∀ t u line pauses i, P t → t.rest = .paused line → t.progress.Underway I s →
      u.Burst I d.config pauses s t.progress.total i → P u)
    {actions : List Action} (hkeep : ∀ a ∈ actions, a.keepsSession = true) :
    ∃ u, (d.actAll I actions).session = some u ∧
      u.Replays I d.config.limits d.config.stepLimit s ∧ P u := by
  induction actions generalizing d t with
  | nil => exact ⟨t, ht, hreplays, hP⟩
  | cons a rest ih =>
      have ha := hkeep a List.mem_cons_self
      have hrest : ∀ b ∈ rest, b.keepsSession = true := fun b hb =>
        hkeep b (List.mem_cons_of_mem _ hb)
      have hconfig := act_config I d ha
      obtain ⟨u, hu, hagain⟩ := Replays.act ⟨t, ht, hreplays⟩ ha
      have hPu : P u := by
        cases hadvance : a.isAdvance with
        | false =>
            rw [act_session I d ha hadvance, ht] at hu
            exact Option.some.inj hu ▸ hP
        | true =>
            cases a with
            | advance gait =>
                cases hcase : t.rest with
                | paused line =>
                    have hdescribes := hreplays.describes
                    rw [hcase] at hdescribes
                    obtain ⟨i, hi⟩ := hdescribes.1.burst d.config (gait.pauses d.breakpoints)
                    rw [Debugger.act, advance_of_paused I gait ht hcase] at hu
                    exact hburst t u line _ i hP hcase hdescribes.1 (Option.some.inj hu ▸ hi)
                -- A session that has ended is not touched.
                | _ =>
                    rw [Debugger.act, advance_of_final I gait ht (by rw [hcase]; rfl), ht] at hu
                    exact Option.some.inj hu ▸ hP
            | _ => simp [Action.isAdvance] at hadvance
      rw [actAll_cons, ← hconfig]
      rw [← hconfig] at hburst
      exact ih hu hagain hPu hburst hrest

/-! ### The limit -/

/-- A session does units beyond the limit only by turning. -/
theorem keepsTurning_of_start (d : Debugger σ) {source : String} (hload : I.load source = .ok s)
    {actions : List Action} (hkeep : ∀ a ∈ actions, a.keepsSession = true) :
    ∃ t, ((d.start I source).2.actAll I actions).session = some t ∧
      t.KeepsTurning I d.config.stepLimit s := by
  have hconfig : (d.start I source).2.config = d.config := by rw [start_of_load I d hload]
  obtain ⟨t, ht, hreplays⟩ := replays_start d hload
  obtain ⟨i, hfirst⟩ := (Progress.underway_start I s).burst d.config
    (Gait.continue_.pauses d.breakpoints)
  have hopen : t.KeepsTurning I (d.start I source).2.config.stepLimit s := by
    rw [start_of_load I d hload] at ht ⊢
    obtain rfl := Option.some.inj ht
    exact hfirst.keepsTurning fun n _ hn => absurd hn (Nat.not_lt_zero n)
  obtain ⟨u, hu, _, hturning⟩ := Replays.actAll_of_burst ht hreplays hopen
    (fun t u line pauses i hP hrest _ hburst => hburst.keepsTurning fun n hlimit hn => by
      rcases hP n hlimit hn with hturn | ⟨_, hfinal⟩
      · exact hturn
      · rw [hrest] at hfinal
        cases hfinal) hkeep
  exact ⟨u, hu, hconfig ▸ hturning⟩

/-- **A unit from the limit on that leads to no other line is the last one of every session.**
Whatever is asked for in a session, it does not go past this unit; it is finished when it has done
it, and it is finished when it was asked to go on as often as there are units before. -/
theorem ends_without_turning (d : Debugger σ) {source : String} (hload : I.load source = .ok s)
    {n : ℕ} (hlimit : d.config.stepLimit ≤ n) (hstay : ¬ I.Turns s n) {actions : List Action}
    (hkeep : ∀ a ∈ actions, a.keepsSession = true) :
    ∃ t, ((d.start I source).2.actAll I actions).session = some t ∧
      t.progress.total ≤ n + 1 ∧ (n < t.progress.total → t.rest.isFinal = true) ∧
      (n ≤ Action.advances actions → t.rest.isFinal = true) := by
  obtain ⟨t, ht, hturning⟩ := keepsTurning_of_start d hload hkeep
  have hpast : n < t.progress.total → t.progress.total = n + 1 ∧ t.rest.isFinal = true := by
    intro hlt
    rcases hturning n hlimit hlt with hturn | hfinal
    · exact absurd hturn hstay
    · exact hfinal
  refine ⟨t, ht, ?_, fun hlt => (hpast hlt).2, fun hadvances => ?_⟩
  · by_contra hgt
    have htotal := (hpast (by omega)).1
    omega
  · have hdone := (hasDone_start d hload).actAll (replays_start d hload) hkeep
    -- If the session were paused, each request would have done a unit, and so this one too.
    cases hfinal : t.rest.isFinal with
    | true => rfl
    | false =>
        have htotal := hdone t ht hfinal
        have := (hpast (by omega)).2
        rw [hfinal] at this
        cases this

/-- Three lines under a limit of one unit: the program has ended with its third unit, so that unit
turns no more, and a session is finished after it. -/
theorem ends_without_turning_of_counting :
    let I := Interpreter.counting 3
    let d : Debugger ℕ := (Debugger.new { stepLimit := 1 }).actAll I [.toggle 2]
    let actions : List Action := [.advance .step, .setSource "other", .advance .step]
    I.load "count" = .ok 0 ∧ d.config.stepLimit ≤ 2 ∧ ¬ I.Turns 0 2 ∧
      (∀ a ∈ actions, a.keepsSession = true) ∧
      ∃ t, ((d.start I "count").2.actAll I actions).session = some t ∧
        t.progress.total ≤ 3 ∧ (2 < t.progress.total → t.rest.isFinal = true) ∧
        (2 ≤ Action.advances actions → t.rest.isFinal = true) := by
  have hkeep : ∀ a ∈ [Action.advance .step, .setSource "other", .advance .step],
      a.keepsSession = true := by decide
  have hlimit : ((Debugger.new { stepLimit := 1 }).actAll (.counting 3) [.toggle 2] :
      Debugger ℕ).config.stepLimit ≤ 2 := by decide
  have hstay : ¬ (Interpreter.counting 3).Turns 0 2 := by decide
  exact ⟨rfl, hlimit, hstay, hkeep,
    ends_without_turning ((Debugger.new { stepLimit := 1 }).actAll (.counting 3) [.toggle 2])
      (rfl : (Interpreter.counting 3).load "count" = .ok 0) hlimit hstay hkeep⟩

/-- The loop `for (;;)` over three lines, a pause at the first of which keeps it alive: stepped six
times under a limit of five units, its session has done seven units and is not finished. -/
theorem paused_beyond_limit :
    ∃ t, ((Debugger.new { stepLimit := 5 }).actAll Script.interpreter
        (.toggle 1 :: .start "for (;;)\n\x7b\n;\x7d" :: List.replicate 6 (.advance .step))).session =
          some t ∧
      5 < t.progress.total ∧ t.rest.isFinal = false := by
  have hseen : ((Debugger.new { stepLimit := 5 }).actAll Script.interpreter
      (.toggle 1 :: .start "for (;;)\n\x7b\n;\x7d" :: List.replicate 6 (.advance .step))).session.map
        (fun t => (t.progress.total, t.rest)) = some (7, .paused (some 1)) := by
    decide +kernel
  obtain ⟨t, ht, hfacts⟩ := Option.map_eq_some_iff.1 hseen
  obtain ⟨htotal, hrest⟩ := Prod.mk.inj hfacts
  exact ⟨t, ht, by omega, by rw [hrest]; rfl⟩

/-! ### Stepping -/

/-- Where every unit leads to another line, stepping does one unit each time and pauses again. -/
theorem advance_step_of_turns {d : Debugger σ} {t : Session σ} {line : Option ℕ}
    (ht : d.session = some t) (hreplays : t.Replays I d.config.limits d.config.stepLimit s)
    (hrest : t.rest = .paused line) (hturns : ∀ n, I.Turns s n) :
    ∃ u line, (d.advance I .step).2.session = some u ∧ u.rest = .paused line ∧
      u.progress.total = t.progress.total + 1 := by
  have hdescribes := hreplays.describes
  rw [hrest] at hdescribes
  obtain ⟨i, hburst⟩ := hdescribes.1.burst d.config (Gait.step.pauses d.breakpoints)
  have hpause : ∀ n, I.PausesAt (Gait.step.pauses d.breakpoints) s n := fun n => ⟨hturns n, rfl⟩
  -- The first unit is one that ends the burst.
  have hone : i = 1 := Nat.le_antisymm (hburst.least.2 ⟨Nat.le_refl 1, .pause (hpause _)⟩) hburst.pos
  refine ⟨_, I.lineAfter s (t.progress.total + i - 1 + 1),
    congrArg Debugger.session (advance_of_paused I .step ht hrest), ?_, ?_⟩
  · rw [hburst.rest, Interpreter.restAfter, (hturns _).1]
    exact if_pos (hpause _)
  · rw [hburst.total, hone]

/-- **A program that keeps turning is never ended by stepping**, whatever the limit: a session on
it that has paused once has paused again after any number of steps, one unit further each time. -/
theorem stepping_never_ends {d : Debugger σ} {t : Session σ} {line : Option ℕ}
    (ht : d.session = some t) (hreplays : t.Replays I d.config.limits d.config.stepLimit s)
    (hrest : t.rest = .paused line) (hturns : ∀ n, I.Turns s n) (k : ℕ) :
    ∃ u line, (d.actAll I (List.replicate k (.advance .step))).session = some u ∧
      u.rest = .paused line ∧ u.progress.total = t.progress.total + k := by
  induction k generalizing d t line with
  | zero => exact ⟨t, line, ht, hrest, rfl⟩
  | succ k ih =>
      obtain ⟨u, next, hu, hpaused, htotal⟩ := advance_step_of_turns ht hreplays hrest hturns
      obtain ⟨v, hv, hagain⟩ := Replays.act (a := .advance .step) ⟨t, ht, hreplays⟩ rfl
      obtain rfl : v = u := Option.some.inj (hv.symm.trans hu)
      obtain ⟨w, last, hw, hlast, hsteps⟩ := ih hu hagain hpaused
      exact ⟨w, last, hw, hlast, by omega⟩

end Debugger

end Tracepoint
