/-
Where a burst of work stops.

A session that is about to run does one unit of work after the other.  Four things end this: the
program cannot go on, it has ended, a line is entered at which the session pauses, or the session
has done more units than its limit allows.  This file shows that a burst stops at the first of
them, and why the session rests then.

Units of work are counted from zero, so unit `n` is the one behind the first `n` ones.

Main definitions:

* `Interpreter.Turns`, `Interpreter.PausesAt` — a unit behind which another line comes, and one
  behind which a session pauses;
* `Interpreter.StopsAt`, `Interpreter.restAfter` — a unit that ends a burst, and why the session
  rests behind it;
* `Session.Burst` — a session that a burst of a number of units has led to.

Main results:

* `Progress.Underway.run_stops` — the loop stops at the first unit that ends a burst;
* `Session.Burst.passes_no_breakpoint` — what lies behind the units before is no breakpoint;
* `Debugger.bursts_stop` — **every start and every request to go on stops where it should**.
-/

import Mathlib.Order.Bounds.Basic
import Tracepoint.Proofs.Debugger.Transparency

set_option relaxedAutoImplicit false
set_option autoImplicit false

namespace Tracepoint

variable {ε σ υ : Type}

/-! ### The units that end a burst -/

namespace Interpreter

/-- Unit `n` leads to another line than the one before it has led to: there is more to do, and the
two lines differ. Having no line is one of the things that can change. -/
def Turns (I : Interpreter ε σ υ) (s : σ) (n : ℕ) : Prop :=
  I.outcomeAt s n = .more ∧ I.lineAfter s (n + 1) ≠ I.lineAfter s n

instance (I : Interpreter ε σ υ) (s : σ) (n : ℕ) : Decidable (I.Turns s n) :=
  inferInstanceAs (Decidable (_ ∧ _))

/-- A session pauses behind unit `n`, at the line it leads to. -/
def PausesAt (I : Interpreter ε σ υ) (pauses : Option ℕ → Bool) (s : σ) (n : ℕ) : Prop :=
  I.Turns s n ∧ pauses (I.lineAfter s (n + 1)) = true

instance (I : Interpreter ε σ υ) (pauses : Option ℕ → Bool) (s : σ) (n : ℕ) :
    Decidable (I.PausesAt pauses s n) :=
  inferInstanceAs (Decidable (_ ∧ _))

/-- The line of unit `n`. A unit without a line of its own belongs to the line before. -/
def lineAt (I : Interpreter ε σ υ) (s : σ) (n : ℕ) : Option ℕ :=
  I.currentLine (I.iterate n s) <|> I.lineAfter s n

/-- Unit `n` is one that a burst does not go past. -/
inductive StopsAt (I : Interpreter ε σ υ) (limit : ℕ) (pauses : Option ℕ → Bool) (s : σ) (n : ℕ) :
    Prop
  | fault {message : String} {found : Option ℕ} (h : I.outcomeAt s n = .fault message found)
  | done (h : I.outcomeAt s n = .done)
  | pause (h : I.PausesAt pauses s n)
  /-- The units of work done are then more than the limit allows. -/
  | limit (h : limit < n + 1)

/-- Why a session rests behind unit `n`. Only a program that has more to do is subject to the
limit, and a pause comes before it. -/
def restAfter (I : Interpreter ε σ υ) (limit : ℕ) (pauses : Option ℕ → Bool) (s : σ) (n : ℕ) :
    Rest :=
  match I.outcomeAt s n with
  | .fault message found => .faulted message (found <|> I.lineAt s n)
  | .done => .ended
  | .more =>
    if I.PausesAt pauses s n then .paused (I.lineAfter s (n + 1))
    else .exhausted limit (I.lineAfter s (n + 1) <|> I.lineAt s n)

end Interpreter

/-! ### The loop -/

namespace Progress

section

variable {I : Interpreter ε σ υ} {s : σ} {limit : ℕ} {pauses : Option ℕ → Bool} {p : Progress σ}

/-- The loop looks for a pause where the run of the interpreter has one. -/
theorem Underway.pausesAt_iff (h : p.Underway I s) (hmore : I.outcomeAt s p.total = .more) :
    I.PausesAt pauses s p.total ↔
      (p.nextLine I != p.lastLine && pauses (p.nextLine I)) = true := by
  rw [h.nextLine, h.lastLine, Bool.and_eq_true, bne_iff_ne, Interpreter.PausesAt,
    Interpreter.Turns]
  constructor
  · rintro ⟨⟨_, hturn⟩, hpause⟩
    exact ⟨hturn, hpause⟩
  · rintro ⟨hturn, hpause⟩
    exact ⟨⟨hmore, hturn⟩, hpause⟩

/-- A unit that ends a burst is the last one that the loop does. -/
theorem Underway.run_of_stopsAt (h : p.Underway I s)
    (hstop : I.StopsAt limit pauses s p.total) :
    (Tracepoint.run I limit pauses (limit - p.total) p).1.total = p.total + 1 ∧
      (Tracepoint.run I limit pauses (limit - p.total) p).2 =
        I.restAfter limit pauses s p.total := by
  have hout := h.unit_outcome
  cases hat : I.outcomeAt s p.total with
  | fault message found =>
      rw [hat] at hout
      rw [run_of_fault hout, Interpreter.restAfter, hat, unit_line, h.state, h.lastLine]
      exact ⟨rfl, rfl⟩
  | done =>
      rw [hat] at hout
      rw [run_of_done hout, Interpreter.restAfter, hat]
      exact ⟨rfl, rfl⟩
  | more =>
      rw [hat] at hout
      by_cases hpause : I.PausesAt pauses s p.total
      · rw [run_of_pause hout ((h.pausesAt_iff hat).1 hpause), Interpreter.restAfter, hat,
          entered_total, h.nextLine]
        exact ⟨rfl, (if_pos hpause).symm⟩
      -- What is left of the four is the limit.
      · have hpast : limit < p.total + 1 := by
          cases hstop with
          | fault hfault => rw [hat] at hfault; cases hfault
          | done hdone => rw [hat] at hdone; cases hdone
          | pause hp => exact absurd hp hpause
          | limit hlimit => exact hlimit
        have hzero : limit - p.total = 0 := by omega
        have hgo : ¬ (p.nextLine I != p.lastLine && pauses (p.nextLine I)) = true :=
          mt (h.pausesAt_iff hat).2 hpause
        rw [hzero, run_zero_of_more hout (Bool.eq_false_iff.2 hgo), Interpreter.restAfter, hat,
          entered_total, h.nextLine, unit_line, h.state, h.lastLine]
        exact ⟨rfl, (if_neg hpause).symm⟩

/-- Behind a unit that does not end a burst the loop goes on. -/
theorem Underway.run_of_not_stopsAt (h : p.Underway I s)
    (hgo : ¬ I.StopsAt limit pauses s p.total) :
    ∃ q : Progress σ, q.Underway I s ∧ q.total = p.total + 1 ∧
      Tracepoint.run I limit pauses (limit - p.total) p =
        Tracepoint.run I limit pauses (limit - q.total) q := by
  have hmore : I.outcomeAt s p.total = .more := by
    cases hat : I.outcomeAt s p.total with
    | more => rfl
    | done => exact absurd (.done hat) hgo
    | fault message found => exact absurd (.fault hat) hgo
  have hout := h.unit_outcome.trans hmore
  have hpause : ¬ (p.nextLine I != p.lastLine && pauses (p.nextLine I)) = true :=
    mt (h.pausesAt_iff hmore).2 fun hp => hgo (.pause hp)
  have hwithin : ¬ limit < p.total + 1 := fun hlt => hgo (.limit hlt)
  have hleft : limit - p.total = limit - (p.total + 1) + 1 := by omega
  refine ⟨(p.unit I).2.2.entered (p.nextLine I), h.entered hmore, ?_, ?_⟩
  · rw [entered_total, unit_total]
  · rw [hleft, run_succ_of_more hout (Bool.eq_false_iff.2 hpause), entered_total, unit_total]

/-- **The loop stops at the first unit that ends a burst**, and rests for the reason that this unit
gives. -/
theorem Underway.run_stops (h : p.Underway I s) (limit : ℕ) (pauses : Option ℕ → Bool) :
    ∃ n, IsLeast {m | p.total ≤ m ∧ I.StopsAt limit pauses s m} n ∧ n ≤ max p.total limit ∧
      (Tracepoint.run I limit pauses (limit - p.total) p).1.total = n + 1 ∧
      (Tracepoint.run I limit pauses (limit - p.total) p).2 = I.restAfter limit pauses s n := by
  -- induction on the units that the limit leaves: unit `limit` ends every burst
  induction hleft : limit - p.total generalizing p with
  | zero =>
      have hstop : I.StopsAt limit pauses s p.total := .limit (by omega)
      obtain ⟨htotal, hrest⟩ := h.run_of_stopsAt hstop
      rw [hleft] at htotal hrest
      exact ⟨p.total, ⟨⟨Nat.le_refl _, hstop⟩, fun m hm => hm.1⟩, Nat.le_max_left _ _, htotal,
        hrest⟩
  | succ left ih =>
      rw [← hleft]
      by_cases hstop : I.StopsAt limit pauses s p.total
      · exact ⟨p.total, ⟨⟨Nat.le_refl _, hstop⟩, fun m hm => hm.1⟩, Nat.le_max_left _ _,
          h.run_of_stopsAt hstop⟩
      · obtain ⟨q, hq, htotal, hrun⟩ := h.run_of_not_stopsAt hstop
        have hqleft : limit - q.total = left := by omega
        obtain ⟨n, ⟨⟨hle, hn⟩, hleast⟩, hbound, hdone, hrest⟩ := ih hq hqleft
        rw [hrun, hqleft]
        refine ⟨n, ⟨⟨by omega, hn⟩, ?_⟩, by omega, hdone, hrest⟩
        intro m hm
        obtain ⟨hle, hm⟩ := hm
        -- The unit that the loop has just gone past is not the one that stops it.
        rcases Nat.lt_or_eq_of_le hle with hlt | rfl
        · exact hleast ⟨by omega, hm⟩
        · exact absurd hm hstop

end

end Progress

/-! ### Sessions -/

/-- A burst of `i` units of work, behind the first `t` ones, has led to the session: the last of
them is the first one that ends a burst. -/
structure Session.Burst (I : Interpreter ε σ υ) (config : Config) (pauses : Option ℕ → Bool)
    (s : σ) (t i : ℕ) (u : Session σ) : Prop where
  least : IsLeast {j | 1 ≤ j ∧ I.StopsAt config.stepLimit pauses s (t + j - 1)} i
  bound : i ≤ max 1 (config.stepLimit + 1 - t)
  total : u.progress.total = t + i
  state : u.progress.state = I.iterate (t + i) s
  rest : u.rest = I.restAfter config.stepLimit pauses s (t + i - 1)
  shown : ∀ d : Debugger σ, d.session = some u →
    d.observe = ⟨true, u.rest.isFinal, u.rest.line,
      some (snapshot I config.limits u.progress.state), I.printed (t + i) s ++ u.rest.notice⟩

/-- Going on is a burst. -/
theorem Progress.Underway.burst {I : Interpreter ε σ υ} {s : σ} {p : Progress σ}
    (h : p.Underway I s) (config : Config) (pauses : Option ℕ → Bool) :
    ∃ i, (Tracepoint.resume I config.limits config.stepLimit pauses p).Burst I config pauses s
      p.total i := by
  obtain ⟨n, ⟨⟨hle, hstop⟩, hleast⟩, hbound, htotal, hrest⟩ := h.run_stops config.stepLimit pauses
  have hfollows := (h.run config.stepLimit pauses).follows
  have hunit : p.total + (n + 1 - p.total) - 1 = n := by omega
  have hcount : p.total + (n + 1 - p.total) = n + 1 := by omega
  refine ⟨n + 1 - p.total, ⟨⟨⟨by omega, ?_⟩, ?_⟩, by omega, ?_, ?_, ?_, ?_⟩⟩
  · rw [hunit]
    exact hstop
  · rintro j ⟨hj, hat⟩
    have hmin : n ≤ p.total + j - 1 := hleast ⟨by omega, hat⟩
    omega
  · rw [hcount]
    exact htotal
  · rw [hcount, ← htotal]
    exact hfollows.state
  · rw [hunit]
    exact hrest
  · intro d hd
    rw [hcount, ← htotal, Debugger.observe, hd, ← hfollows.printed]
    rfl

namespace Session.Burst

variable {I : Interpreter ε σ υ} {config : Config} {pauses : Option ℕ → Bool} {s : σ} {t i : ℕ}
  {u : Session σ}

/-- A burst does at least one unit. -/
theorem pos (h : u.Burst I config pauses s t i) : 1 ≤ i := h.least.1.1

/-- No unit before the last one of a burst ends it. -/
theorem not_stopsAt (h : u.Burst I config pauses s t i) {n : ℕ} (hle : t ≤ n)
    (hlt : n + 1 < t + i) : ¬ I.StopsAt config.stepLimit pauses s n := by
  intro hstop
  have hunit : t + (n + 1 - t) - 1 = n := by omega
  have hmin : i ≤ n + 1 - t := h.least.2 ⟨by omega, by rw [hunit]; exact hstop⟩
  omega

/-- **Going on never runs past the entry into a breakpoint**: a line that a unit before the last
one leads to, and that is another line than before, holds none. -/
theorem passes_no_breakpoint {b : Breakpoints}
    (h : u.Burst I config (Gait.continue_.pauses b) s t i) {n line : ℕ} (hle : t ≤ n)
    (hlt : n + 1 < t + i) (hturn : I.Turns s n) (hline : I.lineAfter s (n + 1) = some line) :
    b.contains line = false := by
  have hgo : ¬ I.PausesAt (Gait.continue_.pauses b) s n := fun hp => h.not_stopsAt hle hlt (.pause hp)
  rw [Bool.eq_false_iff]
  intro hset
  refine hgo ⟨hturn, ?_⟩
  rw [hline]
  exact hset

end Session.Burst

/-! ### Debuggers -/

namespace Debugger

/-- **Every start and every request to go on stops where it should.**  Whatever is asked for in a
session, a start runs from the loaded state, and a request to go on runs from where the session
pauses; both do units of work up to the first one that ends a burst. -/
theorem bursts_stop (I : Interpreter ε σ υ) (d : Debugger σ) {source : String} {s : σ}
    (hload : I.load source = .ok s) {actions : List Action}
    (hkeep : ∀ a ∈ actions, a.keepsSession = true) :
    let e := (d.start I source).2.actAll I actions
    (∃ u i, (d.start I source).2.session = some u ∧
        u.Burst I d.config (Gait.continue_.pauses d.breakpoints) s 0 i) ∧
      ∀ t line gait, e.session = some t → t.rest = .paused line →
        t.progress.lastLine = I.lineAfter s t.progress.total ∧
        ∃ u i, (e.advance I gait).2.session = some u ∧
          u.Burst I d.config (gait.pauses e.breakpoints) s t.progress.total i ∧
          (gait = .continue_ → ∀ n line, t.progress.total ≤ n → n + 1 < t.progress.total + i →
            I.Turns s n → I.lineAfter s (n + 1) = some line →
            e.breakpoints.contains line = false) := by
  intro e
  have hconfig : e.config = d.config := by
    change ((d.start I source).2.actAll I actions).config = d.config
    rw [actAll_config I hkeep, start_of_load I d hload]
  refine ⟨?_, ?_⟩
  · obtain ⟨i, hburst⟩ := (Progress.underway_start I s).burst d.config
      (Gait.continue_.pauses d.breakpoints)
    rw [start_of_load I d hload]
    exact ⟨_, i, rfl, hburst⟩
  · intro t line gait ht hrest
    obtain ⟨u, hu, hreplays⟩ := (replays_start d hload).actAll hkeep
    obtain rfl : u = t := Option.some.inj (hu.symm.trans ht)
    have hunder : u.progress.Underway I s := by
      have hdescribes := hreplays.describes
      rw [hrest] at hdescribes
      exact hdescribes.1
    obtain ⟨i, hburst⟩ := hunder.burst d.config (gait.pauses e.breakpoints)
    refine ⟨hunder.lastLine, _, i, ?_, hburst, ?_⟩
    · rw [advance_of_paused I gait ht hrest, hconfig]
    · rintro rfl n line hle hlt hturn hline
      exact hburst.passes_no_breakpoint hle hlt hturn hline

/-- A session that has paused at a breakpoint in the second of three lines goes on from there. -/
theorem bursts_stop_of_counting :
    let I := Interpreter.counting 3
    let d : Debugger ℕ := (Debugger.new {}).actAll I [.toggle 2]
    let actions : List Action := [.toggle 2, .toggle 3]
    let e := (d.start I "count").2.actAll I actions
    I.load "count" = .ok 0 ∧ (∀ a ∈ actions, a.keepsSession = true) ∧
      (∃ u i, (d.start I "count").2.session = some u ∧
        u.Burst I d.config (Gait.continue_.pauses d.breakpoints) 0 0 i) ∧
      ∃ t, e.session = some t ∧ t.rest = .paused (some 2) ∧ t.progress.total = 1 ∧
        t.progress.lastLine = I.lineAfter 0 1 ∧
        ∃ u i, (e.advance I .continue_).2.session = some u ∧
          u.Burst I d.config (Gait.continue_.pauses e.breakpoints) 0 1 i ∧
          (Gait.continue_ = .continue_ → ∀ n line, 1 ≤ n → n + 1 < 1 + i →
            I.Turns 0 n → I.lineAfter 0 (n + 1) = some line →
            e.breakpoints.contains line = false) := by
  have hkeep : ∀ a ∈ [Action.toggle 2, .toggle 3], a.keepsSession = true := by decide
  obtain ⟨hstart, hgo⟩ := bursts_stop (.counting 3)
    ((Debugger.new {}).actAll (.counting 3) [.toggle 2])
    (rfl : (Interpreter.counting 3).load "count" = .ok 0) hkeep
  exact ⟨rfl, hkeep, hstart, _, rfl, by decide +kernel, by decide +kernel,
    hgo _ (some 2) .continue_ rfl (by decide +kernel)⟩

end Debugger

end Tracepoint
