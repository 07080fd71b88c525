/-
Debugging shows a program and does not change it.

A session runs its interpreter unit by unit, with rests in between.  Where the rests lie depends on
breakpoints and requests; what the program does does not.  So two people who debug one program to
its end, each in their own way, see the same end.

Main definitions:

* `Session.ShowsConsole` — the console is what the units of work wrote, and one entry of the
  session's own if the program could not go on or the limit was passed;
* `Interpreter.EndsAt`, `Interpreter.restAt` — a program that ends, and why a session on it rests
  in the end.

Main results:

* `Debugger.session_on_interpreter` — **the debugger is transparent**;
* `Session.Replays.final` — the last rest of a session is decided by the program alone;
* `Debugger.LooksLike` is what two debuggers share then:
  `Debugger.same_end_of_schedules` — **the outcome does not depend on how a program is debugged**.
-/

import Tracepoint.Proofs.Debugger.Actions

set_option relaxedAutoImplicit false
set_option autoImplicit false

namespace Tracepoint

variable {ε σ υ : Type}

/-! ### Transparency -/

/-- The console of a session on `s` shows the lines that its units of work wrote.  An entry of the
session's own stands behind them if and only if the last unit was a fault or the limit was
passed. -/
def Session.ShowsConsole (I : Interpreter ε σ υ) (limit : ℕ) (s : σ) (t : Session σ) : Prop :=
  let written := I.printed t.progress.total s
  match t.rest with
  | .paused _ => t.console = written ∧ I.GoesOn s t.progress.total
  | .ended => t.console = written ∧
      ∃ n, t.progress.total = n + 1 ∧ I.GoesOn s n ∧ I.outcomeAt s n = .done
  | .faulted message _ => t.console = written ++ ["ERROR: " ++ message] ∧
      ∃ n line, t.progress.total = n + 1 ∧ I.GoesOn s n ∧ I.outcomeAt s n = .fault message line
  | .exhausted _ _ => t.console = written ++
        ["WARNING: execution halted after " ++ toString limit ++
          " steps (possible infinite loop)"] ∧
      limit < t.progress.total ∧ I.GoesOn s t.progress.total

theorem Session.Replays.showsConsole {I : Interpreter ε σ υ} {limits : Limits} {limit : ℕ} {s : σ}
    {t : Session σ} (h : t.Replays I limits limit s) : t.ShowsConsole I limit s := by
  obtain ⟨p, rest, scope⟩ := t
  have hprinted : p.printed.toList = I.printed p.total s := h.follows.printed
  have hdescribes : rest.Describes I limit s p := h.describes
  cases rest with
  | paused line =>
      exact ⟨by simp [Session.console, Rest.notice, hprinted], hdescribes.1.goesOn⟩
  | ended => exact ⟨by simp [Session.console, Rest.notice, hprinted], hdescribes⟩
  | faulted message line =>
      obtain ⟨n, found, htotal, hgoes, hout, _⟩ := hdescribes
      exact ⟨by simp [Session.console, Rest.notice, hprinted], n, found, htotal, hgoes, hout⟩
  | exhausted bound line =>
      obtain ⟨rfl, hunder, hpast, _⟩ := hdescribes
      exact ⟨by simp [Session.console, Rest.notice, hprinted], hpast, hunder.goesOn⟩

/-- **The debugger is transparent.**  After a start that succeeds, whatever is asked for in the
session, accepted or refused, its interpreter is in the state that as many units of work lead to
from the loaded one; the console shows what these units wrote; and the lines entered are counted as
the units enter them. -/
theorem Debugger.session_on_interpreter (I : Interpreter ε σ υ) (d : Debugger σ)
    {source : String} (hstart : (d.start I source).1 = .ok ()) {actions : List Action}
    (hkeep : ∀ a ∈ actions, a.keepsSession = true) :
    ∃ s t, I.load source = .ok s ∧
      ((d.start I source).2.actAll I actions).session = some t ∧
      t.progress.state = I.iterate t.progress.total s ∧
      ((d.start I source).2.actAll I actions).observe.console = t.console ∧
      t.ShowsConsole I d.config.stepLimit s ∧
      t.progress.transitions = I.linesEntered s t.progress.total := by
  obtain ⟨s, hload⟩ := load_of_start hstart
  obtain ⟨t, ht, hreplays⟩ := (replays_start d hload).actAll hkeep
  have hlimit : ((d.start I source).2.actAll I actions).config.stepLimit = d.config.stepLimit := by
    rw [actAll_config I hkeep, start_of_load I d hload]
  refine ⟨s, t, hload, ht, hreplays.follows.state, ?_, ?_, hreplays.follows.transitions⟩
  · rw [observe, ht]
  · rw [← hlimit]
    exact hreplays.showsConsole

/-- An interpreter of `units` units of work, each on a line of its own, that write their number. -/
def Interpreter.counting (units : ℕ) : Interpreter String ℕ ℕ where
  load _ := .ok 0
  step n := (n + 1, [toString n], if n + 1 < units then .more else .done)
  currentLine n := some (n + 1)
  scopes n := [[("n", n)]]
  marshal _ n := .plain (.string (toString n))

/-- A session that is stepped, refused and given another source is still transparent. -/
theorem Debugger.session_on_counting :
    let d : Debugger ℕ := Debugger.new {}
    let actions : List Action := [.toggle 2, .advance .step, .setSource "other", .toggle 0]
    (d.start (.counting 3) "count").1 = .ok () ∧ (∀ a ∈ actions, a.keepsSession = true) ∧
      ∃ s t, (Interpreter.counting 3).load "count" = .ok s ∧
        ((d.start (.counting 3) "count").2.actAll (.counting 3) actions).session = some t ∧
        t.progress.state = (Interpreter.counting 3).iterate t.progress.total s ∧
        ((d.start (.counting 3) "count").2.actAll (.counting 3) actions).observe.console =
          t.console ∧
        t.ShowsConsole (.counting 3) d.config.stepLimit s ∧
        t.progress.transitions = (Interpreter.counting 3).linesEntered s t.progress.total :=
  ⟨rfl, by decide, session_on_interpreter (.counting 3) (Debugger.new {}) rfl (by decide)⟩

/-! ### Schedules -/

namespace Interpreter

/-- A run from `s` ends with its unit of work number `K`, counted from one. -/
def EndsAt (I : Interpreter ε σ υ) (s : σ) (K : ℕ) : Prop :=
  ∃ n, K = n + 1 ∧ I.GoesOn s n ∧ I.outcomeAt s n ≠ .more

/-- Why a session rests when the unit of work after the first `n` ones was the last one. -/
def restAt (I : Interpreter ε σ υ) (s : σ) (n : ℕ) : Rest :=
  match I.outcomeAt s n with
  | .fault message found =>
    .faulted message (found <|> (I.currentLine (I.iterate n s) <|> I.lineAfter s n))
  | _ => .ended

/-- A program ends only once. -/
theorem GoesOn.eq_of_ends {I : Interpreter ε σ υ} {s : σ} {m n : ℕ} (hm : I.GoesOn s m)
    (hn : I.GoesOn s n) (hendm : I.outcomeAt s m ≠ .more) (hendn : I.outcomeAt s n ≠ .more) :
    m = n :=
  Nat.le_antisymm (hm.le hendn) (hn.le hendm)

end Interpreter

section

variable {I : Interpreter ε σ υ} {limits : Limits} {limit n : ℕ} {s : σ} {t : Session σ}

/-- **The last rest of a session is decided by the program alone**, if the limit leaves room for the
whole program. -/
theorem Session.Replays.final (h : t.Replays I limits limit s) (hgoes : I.GoesOn s n)
    (hend : I.outcomeAt s n ≠ .more) (hlimit : n ≤ limit) (hfinal : t.rest.isFinal = true) :
    t.progress.total = n + 1 ∧ t.rest = I.restAt s n := by
  obtain ⟨p, rest, scope⟩ := t
  have hdescribes : rest.Describes I limit s p := h.describes
  cases rest with
  | paused line => simp [Rest.isFinal] at hfinal
  | ended =>
      obtain ⟨m, htotal, hm, hout⟩ := hdescribes
      obtain rfl := hm.eq_of_ends hgoes (by simp [hout]) hend
      exact ⟨htotal, by simp [Interpreter.restAt, hout]⟩
  | faulted message line =>
      obtain ⟨m, found, htotal, hm, hout, rfl⟩ := hdescribes
      obtain rfl := hm.eq_of_ends hgoes (by simp [hout]) hend
      exact ⟨htotal, by simp [Interpreter.restAt, hout]⟩
  | exhausted bound line =>
      -- A session that the limit has stopped has done more units than this program has.
      obtain ⟨_, hunder, hpast, _⟩ := hdescribes
      have hle : p.total ≤ n := hunder.goesOn.le hend
      omega

/-- A session that has done as many units as the program has is at its end. -/
theorem Session.Replays.isFinal (h : t.Replays I limits limit s)
    (hend : I.outcomeAt s n ≠ .more) (hdone : n < t.progress.total) : t.rest.isFinal = true := by
  obtain ⟨p, rest, scope⟩ := t
  have hdescribes : rest.Describes I limit s p := h.describes
  cases rest with
  | paused line =>
      have hle : p.total ≤ n := hdescribes.1.goesOn.le hend
      exact absurd hdone (Nat.not_lt.2 hle)
  | ended => rfl
  | faulted message line => rfl
  | exhausted bound line => rfl

end

namespace Debugger

/-- Nothing that a debugger tells about its session tells the two apart. -/
structure LooksLike (e₁ e₂ : Debugger σ) : Prop where
  observe : e₁.observe = e₂.observe
  fault : e₁.fault? = e₂.fault?
  total : (e₁.session.map fun t => t.progress.total) = e₂.session.map fun t => t.progress.total
  transitions : (e₁.session.map fun t => t.progress.transitions) =
    e₂.session.map fun t => t.progress.transitions

variable {I : Interpreter ε σ υ} {s : σ} {source : String} {n : ℕ}

/-- A session on a program of `n + 1` units of work has ended when its loop was run as often. -/
theorem finished_of_advances (d : Debugger σ) (hload : I.load source = .ok s)
    (hend : I.outcomeAt s n ≠ .more) {actions : List Action}
    (hkeep : ∀ a ∈ actions, a.keepsSession = true) (hruns : n ≤ Action.advances actions) :
    ((d.start I source).2.actAll I actions).phase = .finished := by
  have hstart := replays_start d hload
  obtain ⟨t, ht, hreplays⟩ := hstart.actAll hkeep
  have hdone := (hasDone_start d hload).actAll hstart hkeep
  rw [phase_of_session ht]
  -- If the session were paused, it would have done fewer units than its requests have asked for.
  cases hfinal : t.rest.isFinal with
  | true => rfl
  | false =>
      have htotal := hdone t ht hfinal
      rw [hreplays.isFinal hend (by omega)] at hfinal
      cases hfinal

/-- What can be seen of a session that has ended. -/
theorem seen_of_finished (d : Debugger σ) (hload : I.load source = .ok s) (hgoes : I.GoesOn s n)
    (hend : I.outcomeAt s n ≠ .more) (hlimit : n ≤ d.config.stepLimit) {actions : List Action}
    (hkeep : ∀ a ∈ actions, a.keepsSession = true)
    (hfinished : ((d.start I source).2.actAll I actions).phase = .finished) :
    let e := (d.start I source).2.actAll I actions
    let rest := I.restAt s n
    e.observe = ⟨true, true, rest.line,
        some (snapshot I d.config.limits (I.iterate (n + 1) s)),
        I.printed (n + 1) s ++ rest.notice⟩ ∧
      e.fault? = rest.fault? ∧
      (e.session.map fun t => t.progress.total) = some (n + 1) ∧
      (e.session.map fun t => t.progress.transitions) = some (I.linesEntered s (n + 1)) := by
  have hconfig : ((d.start I source).2.actAll I actions).config = d.config := by
    rw [actAll_config I hkeep, start_of_load I d hload]
  obtain ⟨t, ht, hreplays⟩ := (replays_start d hload).actAll hkeep
  rw [hconfig] at hreplays
  have hfinal : t.rest.isFinal = true := by
    rw [phase_of_session ht] at hfinished
    cases hcase : t.rest.isFinal with
    | true => rfl
    | false => simp [hcase] at hfinished
  -- Where the session stands is now known, so everything it shows is read off the interpreter.
  obtain ⟨htotal, hrest⟩ := hreplays.final hgoes hend hlimit hfinal
  have hstate := hreplays.follows.state
  have hprinted := hreplays.follows.printed
  have htransitions := hreplays.follows.transitions
  rw [htotal] at hstate hprinted htransitions
  refine ⟨?_, ?_, ?_, ?_⟩
  · rw [hrest] at hfinal
    rw [observe, ht]
    simp only [hfinal, Session.console, hprinted, hrest, hreplays.scope, hstate]
  · rw [fault?, ht, ← hrest]
    rfl
  · rw [ht, Option.map_some, htotal]
  · rw [ht, Option.map_some, htransitions]

/-- **The outcome does not depend on how a program is debugged.**  Of a program that ends with its
unit of work number `K`, within the limit, any two debuggers, whatever their breakpoints, and any
two ways to go on lead to the same end: each session has ended when its loop was run `K` times, the
start included, and all that can be seen of two sessions that have ended is the same. -/
theorem same_end_of_schedules {K : ℕ} (hload : I.load source = .ok s) (hends : I.EndsAt s K)
    (d₁ d₂ : Debugger σ) (hconfig : d₁.config = d₂.config) (hlimit : K ≤ d₁.config.stepLimit + 1)
    {actions₁ actions₂ : List Action} (hkeep₁ : ∀ a ∈ actions₁, a.keepsSession = true)
    (hkeep₂ : ∀ a ∈ actions₂, a.keepsSession = true) :
    let e₁ := (d₁.start I source).2.actAll I actions₁
    let e₂ := (d₂.start I source).2.actAll I actions₂
    (K ≤ 1 + Action.advances actions₁ → e₁.phase = .finished) ∧
      (K ≤ 1 + Action.advances actions₂ → e₂.phase = .finished) ∧
      (e₁.phase = .finished → e₂.phase = .finished → e₁.LooksLike e₂) := by
  obtain ⟨n, rfl, hgoes, hend⟩ := hends
  refine ⟨fun hruns => ?_, fun hruns => ?_, fun hfin₁ hfin₂ => ?_⟩
  · exact finished_of_advances d₁ hload hend hkeep₁ (by omega)
  · exact finished_of_advances d₂ hload hend hkeep₂ (by omega)
  · obtain ⟨hobs₁, hfault₁, htotal₁, htrans₁⟩ :=
      seen_of_finished d₁ hload hgoes hend (by omega) hkeep₁ hfin₁
    obtain ⟨hobs₂, hfault₂, htotal₂, htrans₂⟩ :=
      seen_of_finished d₂ hload hgoes hend (by rw [← hconfig]; omega) hkeep₂ hfin₂
    constructor
    · rw [hobs₁, hobs₂, hconfig]
    · rw [hfault₁, hfault₂]
    · rw [htotal₁, htotal₂]
    · rw [htrans₁, htrans₂]

/-- Stepping through a program and running it to a breakpoint on its last line and then on lead to
the same end. -/
theorem same_end_of_counting :
    let I := Interpreter.counting 3
    let d₁ : Debugger ℕ := Debugger.new {}
    let d₂ : Debugger ℕ := (Debugger.new {}).actAll I [.toggle 1, .toggle 3]
    let actions₁ : List Action := [.toggle 2, .advance .step, .advance .step]
    let actions₂ : List Action := [.advance .continue_, .toggle 3, .advance .step]
    (I.load "count" = .ok 0 ∧ I.EndsAt 0 3 ∧ d₁.config = d₂.config ∧
      3 ≤ d₁.config.stepLimit + 1 ∧ (∀ a ∈ actions₁, a.keepsSession = true) ∧
      ∀ a ∈ actions₂, a.keepsSession = true) ∧
    let e₁ := (d₁.start I "count").2.actAll I actions₁
    let e₂ := (d₂.start I "count").2.actAll I actions₂
    (3 ≤ 1 + Action.advances actions₁ → e₁.phase = .finished) ∧
      (3 ≤ 1 + Action.advances actions₂ → e₂.phase = .finished) ∧
      (e₁.phase = .finished → e₂.phase = .finished → e₁.LooksLike e₂) := by
  have hends : (Interpreter.counting 3).EndsAt 0 3 :=
    ⟨2, rfl, by unfold Interpreter.GoesOn; decide, by decide⟩
  have hlimit : 3 ≤ (Debugger.new {} : Debugger ℕ).config.stepLimit + 1 := by decide
  have hkeep₁ : ∀ a ∈ [Action.toggle 2, .advance .step, .advance .step],
      a.keepsSession = true := by decide
  have hkeep₂ : ∀ a ∈ [Action.advance .continue_, .toggle 3, .advance .step],
      a.keepsSession = true := by decide
  exact ⟨⟨rfl, hends, rfl, hlimit, hkeep₁, hkeep₂⟩,
    same_end_of_schedules (rfl : (Interpreter.counting 3).load "count" = .ok 0) hends
      (Debugger.new {}) ((Debugger.new {}).actAll (.counting 3) [.toggle 1, .toggle 3]) rfl hlimit
      hkeep₁ hkeep₂⟩

end Debugger

end Tracepoint
