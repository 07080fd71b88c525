/-
The lines that a debugger shows.

A session rests at the line of the instruction that comes next, or at that of the instruction that
failed.  Instructions belong to lines of the tree, so a session that pauses does so in a line in
which a statement or a function of its source begins.  It never comes to any other line, and a
breakpoint there changes nothing.

Main definitions:

* `Debugger.Opens` — an action opens a session on a source.

Main results:

* `Rest.Describes.line_of` — a session rests at a line that the run has come to;
* `Progress.Underway.resume_congr` — **a breakpoint that the run never comes to makes no
  difference**;
* `Session.Replays.line_within`, `Session.Replays.headed` — the lines at which a session rests, and
  those at which it pauses;
* `Debugger.activeLine_within` — **a line that is shown is a line of the source**;
* `Debugger.shows_headed_lines` — **only lines in which something begins are shown** by a debugger
  that pauses.
-/

import Mathlib
import Tracepoint.Proofs.Debugger.Bounds
import Tracepoint.Proofs.Debugger.Independence
import Tracepoint.Proofs.Debugger.Straight
import Tracepoint.Proofs.Grammar.Lines
import Tracepoint.Proofs.Machine.Atomicity
import Tracepoint.Proofs.Machine.Lines
import Tracepoint.Proofs.Token.Spans

set_option relaxedAutoImplicit false
set_option autoImplicit false

namespace Tracepoint

/-! ### Lines of a run -/

section

variable {ε σ υ : Type} {I : Interpreter ε σ υ} {s : σ} {p : Progress σ}

/-- What holds of the lines of all states and all faults of a run holds of the line of a rest. -/
theorem Rest.Describes.line_of {P : ℕ → Prop} {limit line : ℕ} {rest : Rest}
    (h : rest.Describes I limit s p)
    (hstate : ∀ n line, I.currentLine (I.iterate n s) = some line → P line)
    (hfault : ∀ n message line, I.outcomeAt s n = .fault message (some line) → P line)
    (hline : rest.line = some line) : P line := by
  have hafter : ∀ n, I.lineAfter s n = some line → P line := by
    intro n hn
    cases n with
    | zero => cases hn
    | succ n => exact hstate (n + 1) line hn
  have hunit : ∀ n, (I.currentLine (I.iterate n s) <|> I.lineAfter s n) = some line → P line := by
    intro n hn
    rcases (Option.orElse_eq_some _ _ _).1 hn with hcurrent | ⟨-, hbefore⟩
    · exact hstate n line hcurrent
    · exact hafter n hbefore
  cases rest with
  | ended => cases hline
  | paused found =>
      obtain ⟨hunder, rfl⟩ := h
      exact hafter p.total (hunder.lastLine ▸ hline)
  | faulted message found =>
      obtain ⟨n, given, -, -, houtcome, rfl⟩ := h
      rcases (Option.orElse_eq_some _ _ _).1 hline with hgiven | ⟨-, hbefore⟩
      · exact hfault n message line (hgiven ▸ houtcome)
      · exact hunit n hbefore
  | exhausted bound found =>
      obtain ⟨-, -, -, n, -, rfl⟩ := h
      rcases (Option.orElse_eq_some _ _ _).1 hline with hnext | ⟨-, hbefore⟩
      · exact hafter p.total hnext
      · exact hunit n hbefore

/-- A rest that is not final is a pause. -/
theorem Rest.exists_paused {rest : Rest} (h : rest.isFinal = false) :
    ∃ line, rest = .paused line := by
  cases rest with
  | paused line => exact ⟨line, rfl⟩
  | ended => cases h
  | faulted message line => cases h
  | exhausted bound line => cases h

/-! ### Breakpoints that a run never comes to -/

/-- The loop asks about lines that the run comes to, and about no others. -/
theorem Progress.Underway.run_congr {pauses pauses' : Option ℕ → Bool} (h : p.Underway I s)
    (hsame : ∀ n, I.GoesOn s n → pauses (I.lineAfter s n) = pauses' (I.lineAfter s n))
    (limit left : ℕ) :
    Tracepoint.run I limit pauses left p = Tracepoint.run I limit pauses' left p := by
  have hasked : ∀ p : Progress σ, p.Underway I s → (p.unit I).2.1 = .more →
      pauses (p.nextLine I) = pauses' (p.nextLine I) := by
    intro p h hout
    rw [h.nextLine]
    exact hsame _ (h.goesOn.succ (h.unit_outcome.symm.trans hout))
  -- induction on the units that are left
  induction left generalizing p with
  | zero =>
      cases hout : (p.unit I).2.1 with
      | fault message found => rw [run_of_fault hout, run_of_fault hout]
      | done => rw [run_of_done hout, run_of_done hout]
      | more =>
          have hpauses := hasked p h hout
          cases hpause : p.nextLine I != p.lastLine && pauses (p.nextLine I) with
          | true => rw [run_of_pause hout hpause, run_of_pause hout (hpauses ▸ hpause)]
          | false => rw [run_zero_of_more hout hpause, run_zero_of_more hout (hpauses ▸ hpause)]
  | succ left ih =>
      cases hout : (p.unit I).2.1 with
      | fault message found => rw [run_of_fault hout, run_of_fault hout]
      | done => rw [run_of_done hout, run_of_done hout]
      | more =>
          have hpauses := hasked p h hout
          cases hpause : p.nextLine I != p.lastLine && pauses (p.nextLine I) with
          | true => rw [run_of_pause hout hpause, run_of_pause hout (hpauses ▸ hpause)]
          | false =>
              rw [run_succ_of_more hout hpause, run_succ_of_more hout (hpauses ▸ hpause)]
              exact ih (h.entered (h.unit_outcome.symm.trans hout))

/-- **A breakpoint that the run never comes to makes no difference.** -/
theorem Progress.Underway.resume_congr {pauses pauses' : Option ℕ → Bool} (h : p.Underway I s)
    (hsame : ∀ n, I.GoesOn s n → pauses (I.lineAfter s n) = pauses' (I.lineAfter s n))
    (limits : Limits) (limit : ℕ) :
    Tracepoint.resume I limits limit pauses p = Tracepoint.resume I limits limit pauses' p := by
  rw [Tracepoint.resume, h.run_congr hsame]
  rfl

/-- A session that goes on and pauses does so at a breakpoint. -/
theorem Session.Burst.exists_breakpoint {config : Config} {b : Breakpoints} {t i : ℕ}
    {u : Session σ} (h : u.Burst I config (Gait.continue_.pauses b) s t i)
    (hpaused : u.rest.isFinal = false) :
    ∃ line, u.rest = .paused (some line) ∧ b.contains line = true := by
  rw [h.rest] at hpaused ⊢
  have hpause := Interpreter.pausesAt_of_restAfter hpaused
  have hrest : I.restAfter config.stepLimit (Gait.continue_.pauses b) s (t + i - 1) =
      .paused (I.lineAfter s (t + i - 1 + 1)) := by
    rw [Interpreter.restAfter, hpause.1.1]
    exact if_pos hpause
  have hasked := hpause.2
  rw [hrest]
  cases hline : I.lineAfter s (t + i - 1 + 1) with
  | none =>
      rw [hline] at hasked
      cases hasked
  | some line =>
      rw [hline] at hasked
      exact ⟨line, rfl, hasked⟩

end

/-! ### Lines of a source -/

section

variable {source : String} {program : Program} {limits : Limits} {limit line : ℕ}
  {t : Session Machine}

/-- The lines that the run of a script comes to are lines in which something begins. -/
theorem headed_of_lineAfter (hparse : parse source = .ok program)
    (hfits : (compileProgram program).Fits) {n : ℕ}
    (hgoes : Script.interpreter.GoesOn (.start (compileProgram program)) n)
    (hline : Script.interpreter.lineAfter (.start (compileProgram program)) n = some line) :
    Headed source program line := by
  have hplaced := placed_of_parse hparse
  cases n with
  | zero => cases hline
  | succ n =>
      refine Machine.currentLine_of_calm (lies_compileProgram hfits hplaced) hplaced
        (headed_of_parse hparse) (fun k hk e hfault => ?_) hline
      have hmore : (machineAfter program k).step.2.2 = .more :=
        Status.eq_more_of_outcome (hgoes k hk)
      rw [hmore] at hfault
      cases hfault

/-- A session rests at a line of the tree, or at the first line. -/
theorem Session.Replays.line_of_lined {L : ℕ → Prop} (hplaced : stmtsPlaced false false program)
    (hlined : stmtsLined L program)
    (h : t.Replays Script.interpreter limits limit (.start (compileProgram program)))
    (hline : t.rest.line = some line) : L line ∨ line = 1 := by
  have hstate : ∀ n line, (machineAfter program n).currentLine = some line → L line ∨ line = 1 :=
    fun n line => Machine.currentLine_machineAfter hplaced hlined
  refine h.describes.line_of hstate (fun n message line houtcome => ?_) hline
  -- A step that fails belongs to the line that was next.
  obtain ⟨e, hstep, -, hfound⟩ := Status.exists_fault_of_outcome houtcome
  exact hstate n line ((Machine.line_of_fault hstep).symm.trans hfound.symm)

/-- The lines at which a session rests are lines of its source. -/
theorem Session.Replays.line_within (hparse : parse source = .ok program)
    (h : t.Replays Script.interpreter limits limit (.start (compileProgram program)))
    (hline : t.rest.line = some line) :
    1 ≤ line ∧ line ≤ Text.lineBehind source.toList := by
  have hlined : stmtsLined (fun line => 1 ≤ line ∧ line ≤ Text.lineBehind source.toList) program :=
    lined_of_parse (fun t ht => ⟨Lexer.one_le_line ht, (Lexer.liesIn_lexemes ht).line_le⟩) hparse
  rcases h.line_of_lined (placed_of_parse hparse) hlined hline with hwithin | rfl
  · exact hwithin
  · rw [Text.lineBehind_nat]
    exact ⟨Nat.le_refl 1, Nat.le_add_right 1 _⟩

/-- **A session pauses in lines in which something begins.** -/
theorem Session.Replays.headed (hparse : parse source = .ok program)
    (hfits : (compileProgram program).Fits)
    (h : t.Replays Script.interpreter limits limit (.start (compileProgram program)))
    (hpaused : t.rest.isFinal = false) (hline : t.rest.line = some line) :
    Headed source program line := by
  obtain ⟨found, hrest⟩ := Rest.exists_paused hpaused
  have hdescribes := h.describes
  rw [hrest] at hdescribes hline
  obtain ⟨hunder, rfl⟩ := hdescribes
  exact headed_of_lineAfter hparse hfits hunder.goesOn (hunder.lastLine ▸ hline)

end

/-! ### Debuggers -/

namespace Debugger

section

variable {ε σ υ : Type} {I : Interpreter ε σ υ} {s : σ} {d e : Debugger σ} {source : String}
  {a : Action} {line : ℕ}

/-- The action opens a session on the source, if it can be loaded. -/
def Opens (source : String) (d : Debugger σ) : Action → Prop
  | .start given => given = source
  | .restart => d.source = some source
  | .advance _ | .stop | .setSource _ | .toggle _ => False

theorem act_of_opens (h : d.Opens source a) : d.act I a = (d.start I source).2 := by
  cases a with
  | start given =>
      obtain rfl : given = source := h
      rfl
  | restart => exact restart_of_source h
  | advance gait => exact h.elim
  | stop => exact h.elim
  | setSource given => exact h.elim
  | toggle line => exact h.elim

theorem Opens.toggle (h : d.Opens source a) (line : ℕ) : (d.toggle line).2.Opens source a := by
  cases a with
  | start given => exact h
  | restart => exact (toggle_source d line).trans h
  | advance gait => exact h
  | stop => exact h
  | setSource given => exact h
  | toggle line => exact h

/-- A debugger that pauses has a session that does. -/
theorem exists_session_of_paused (hpaused : d.observe.paused = true)
    (hgoes : d.observe.finished = false) :
    ∃ t, d.session = some t ∧ t.rest.isFinal = false ∧ d.observe.activeLine = t.rest.line := by
  cases hsession : d.session with
  | none =>
      rw [observe, hsession] at hpaused
      cases hpaused
  | some t =>
      rw [observe_of_session hsession] at hgoes ⊢
      exact ⟨t, rfl, hgoes, rfl⟩

/-- A toggled line only matters for a pause in this line. -/
theorem pauses_toggle (gait : Gait) {found : Option ℕ} (h : found ≠ some line) :
    gait.pauses (d.toggle line).2.breakpoints found = gait.pauses d.breakpoints found := by
  cases gait with
  | step => rfl
  | continue_ =>
      cases found with
      | none => rfl
      | some n =>
          have hne : n ≠ line := fun heq => h (congrArg some heq)
          change (d.toggle line).2.breakpoints.contains n = d.breakpoints.contains n
          rw [breakpoints_toggle]
          split
          · rfl
          · rw [Breakpoints.contains_toggle, if_neg hne]

/-- Whether a line is a breakpoint that the run never comes to does not matter for a start. -/
theorem session_start_toggle (hload : I.load source = .ok s)
    (hnever : ∀ n, I.GoesOn s n → I.lineAfter s n ≠ some line) :
    ((d.toggle line).2.start I source).2.session = (d.start I source).2.session := by
  have hsame := (Progress.underway_start I s).resume_congr
    (fun n hn => pauses_toggle (d := d) .continue_ (hnever n hn)) d.config.limits d.config.stepLimit
  rw [start_of_load I d hload, start_of_load I (d.toggle line).2 hload, toggle_config]
  exact congrArg some hsame

/-- Nor does it matter in a session. -/
theorem Replays.session_advance_toggle (h : e.Replays I s) (gait : Gait)
    (hnever : ∀ n, I.GoesOn s n → I.lineAfter s n ≠ some line) :
    ((e.toggle line).2.advance I gait).2.session = (e.advance I gait).2.session := by
  obtain ⟨t, ht, hreplays⟩ := h
  have htoggled : (e.toggle line).2.session = some t := (toggle_session e line).trans ht
  cases hfinal : t.rest.isFinal with
  | true =>
      rw [advance_of_final I gait ht hfinal, advance_of_final I gait htoggled hfinal, ht, htoggled]
  | false =>
      obtain ⟨found, hrest⟩ := Rest.exists_paused hfinal
      have hdescribes := hreplays.describes
      rw [hrest] at hdescribes
      have hsame := hdescribes.1.resume_congr
        (fun n hn => pauses_toggle (d := e) gait (hnever n hn)) e.config.limits e.config.stepLimit
      rw [advance_of_paused I gait ht hrest, advance_of_paused I gait htoggled hrest, toggle_config]
      exact congrArg some hsame

/-- A burst that ends in a pause has led to a breakpoint. -/
theorem exists_breakpoint_of_burst {config : Config} {t : Session σ} {n i : ℕ}
    (ht : d.session = some t)
    (hburst : t.Burst I config (Gait.continue_.pauses d.breakpoints) s n i)
    (hpaused : d.observe.paused = true) (hgoes : d.observe.finished = false) :
    ∃ line, d.observe.activeLine = some line ∧ d.breakpoints.contains line = true := by
  obtain ⟨u, hu, hfinal, hactive⟩ := exists_session_of_paused hpaused hgoes
  obtain rfl := Option.some.inj (hu.symm.trans ht)
  obtain ⟨line, hrest, hset⟩ := hburst.exists_breakpoint hfinal
  exact ⟨line, hactive.trans (congrArg Rest.line hrest), hset⟩

/-- A start that ends in a pause has led to a breakpoint. -/
theorem exists_breakpoint_of_start (hload : I.load source = .ok s)
    (hpaused : (d.start I source).2.observe.paused = true)
    (hgoes : (d.start I source).2.observe.finished = false) :
    ∃ line, (d.start I source).2.observe.activeLine = some line ∧
      (d.start I source).2.breakpoints.contains line = true := by
  obtain ⟨u, i, hu, -, -, hburst⟩ := d.session_start hload
  rw [← breakpoints_start (I := I) source] at hburst
  exact exists_breakpoint_of_burst hu hburst hpaused hgoes

/-- And so has a request to go on to a breakpoint. -/
theorem Replays.exists_breakpoint (h : e.Replays I s)
    (hpaused : (e.advance I .continue_).2.observe.paused = true)
    (hgoes : (e.advance I .continue_).2.observe.finished = false) :
    ∃ line, (e.advance I .continue_).2.observe.activeLine = some line ∧
      (e.advance I .continue_).2.breakpoints.contains line = true := by
  rcases h.advance .continue_ with ⟨heq, hphase⟩ | ⟨t, p, -, -, -, hunder, heq⟩
  · rw [heq] at hpaused hgoes
    obtain ⟨u, hu, hfinal, -⟩ := exists_session_of_paused hpaused hgoes
    rw [phase_of_session hu, hfinal] at hphase
    cases hphase
  · obtain ⟨i, hburst⟩ := hunder.burst e.config (Gait.continue_.pauses e.breakpoints)
    rw [heq] at hpaused hgoes ⊢
    exact exists_breakpoint_of_burst rfl hburst hpaused hgoes

end

/-! ### Scripts under the debugger -/

section

variable {d e : Debugger Machine} {source : String} {program : Program} {a : Action} {line : ℕ}

theorem replays_of_opens (hopen : d.Opens source a) (hparse : parse source = .ok program) :
    (d.act Script.interpreter a).Replays Script.interpreter (.start (compileProgram program)) := by
  rw [act_of_opens hopen]
  exact replays_start d (Script.load_of_parse hparse)

/-- **The line that is shown of a session is a line of its source.** -/
theorem activeLine_within (hopen : d.Opens source a) {actions : List Action}
    (hkeep : ∀ b ∈ actions, b.keepsSession = true)
    (hactive : ((d.act Script.interpreter a).actAll Script.interpreter actions).observe.activeLine =
      some line) :
    1 ≤ line ∧ line ≤ Text.lineBehind source.toList := by
  cases hparse : parse source with
  | ok program =>
      obtain ⟨t, ht, hreplays⟩ := (replays_of_opens hopen hparse).actAll hkeep
      rw [observe_of_session ht] at hactive
      exact hreplays.line_within hparse hactive
  | error fault =>
      -- Without a program there is no session.
      have hload : Script.interpreter.load source = .error fault := by
        change Script.load source = _
        rw [Script.load, hparse]
      have hnone : (d.act Script.interpreter a).session = none := by
        rw [act_of_opens hopen, start_of_load_error hload]
      rw [observe, actAll_of_session_none hnone hkeep] at hactive
      cases hactive

/-- Something begins in the line that is shown of a session, unless it is the first one. -/
theorem Replays.headed_or_first
    (h : e.Replays Script.interpreter (.start (compileProgram program)))
    (hparse : parse source = .ok program) (hactive : e.observe.activeLine = some line) :
    Headed source program line ∨ line = 1 := by
  obtain ⟨t, ht, hreplays⟩ := h
  rw [observe_of_session ht] at hactive
  exact hreplays.line_of_lined (placed_of_parse hparse) (headed_of_parse hparse) hactive

/-- While the session pauses, something begins there. -/
theorem Replays.headed (h : e.Replays Script.interpreter (.start (compileProgram program)))
    (hparse : parse source = .ok program) (hfits : (compileProgram program).Fits)
    (hpaused : e.observe.paused = true) (hgoes : e.observe.finished = false)
    (hactive : e.observe.activeLine = some line) : Headed source program line := by
  obtain ⟨t, ht, hreplays⟩ := h
  obtain ⟨u, hu, hfinal, hline⟩ := exists_session_of_paused hpaused hgoes
  obtain rfl := Option.some.inj (hu.symm.trans ht)
  exact hreplays.headed hparse hfits hfinal (hline.symm.trans hactive)

/-- **Only lines in which something begins are shown by a debugger that pauses.** Whatever is asked
for in a session on a source, the line that is shown is a line of the source, and a statement or a
function of the program begins there, or it is the first line. While the session is paused and has
not finished, something begins there in any case. So a start, or a request to go on to a breakpoint,
only pauses at breakpoints in such lines, and a breakpoint in any other line makes no difference. -/
theorem shows_headed_lines (hopen : d.Opens source a) {actions : List Action}
    (hkeep : ∀ b ∈ actions, b.keepsSession = true) :
    let started := d.act Script.interpreter a
    let e := started.actAll Script.interpreter actions
    (∀ line, e.observe.activeLine = some line →
      1 ≤ line ∧ line ≤ 1 + source.toList.count '\n' ∧
        ∀ program, parse source = .ok program → Headed source program line ∨ line = 1) ∧
    ∀ program, parse source = .ok program → (compileProgram program).Fits →
      (∀ line, e.observe.paused = true → e.observe.finished = false →
        e.observe.activeLine = some line → Headed source program line) ∧
      (∀ f ∈ [started, (e.advance Script.interpreter .continue_).2],
        f.observe.paused = true → f.observe.finished = false →
          ∃ line, f.observe.activeLine = some line ∧ f.breakpoints.contains line = true ∧
            Headed source program line) ∧
      ∀ line, ¬ Headed source program line →
        ((d.toggle line).2.act Script.interpreter a).session = started.session ∧
        ∀ gait, ((e.toggle line).2.advance Script.interpreter gait).2.session =
          (e.advance Script.interpreter gait).2.session := by
  intro started e
  refine ⟨fun line hactive => ?_, fun program hparse hfits => ?_⟩
  · obtain ⟨hfirst, hlast⟩ := activeLine_within hopen hkeep hactive
    rw [Text.lineBehind_nat] at hlast
    exact ⟨hfirst, hlast, fun program hparse =>
      ((replays_of_opens hopen hparse).actAll hkeep).headed_or_first hparse hactive⟩
  have hload := Script.load_of_parse hparse
  have hopened := replays_of_opens hopen hparse
  have hbehind := hopened.actAll hkeep
  have hstarted : started = (d.start Script.interpreter source).2 := act_of_opens hopen
  refine ⟨fun line hpaused hgoes hactive => hbehind.headed hparse hfits hpaused hgoes hactive,
    List.forall_mem_cons.2 ⟨fun hpaused hgoes => ?_, List.forall_mem_singleton.2
      fun hpaused hgoes => ?_⟩, fun line hline => ?_⟩
  · have hset : ∃ line, started.observe.activeLine = some line ∧
        started.breakpoints.contains line = true := by
      rw [hstarted] at hpaused hgoes ⊢
      exact exists_breakpoint_of_start hload hpaused hgoes
    obtain ⟨line, hactive, hset⟩ := hset
    exact ⟨line, hactive, hset, hopened.headed hparse hfits hpaused hgoes hactive⟩
  · have hnext := hbehind.act (a := .advance .continue_) rfl
    obtain ⟨line, hactive, hset⟩ := hbehind.exists_breakpoint hpaused hgoes
    exact ⟨line, hactive, hset, hnext.headed hparse hfits hpaused hgoes hactive⟩
  · have hnever : ∀ n, Script.interpreter.GoesOn (.start (compileProgram program)) n →
        Script.interpreter.lineAfter (.start (compileProgram program)) n ≠ some line :=
      fun n hgoes hn => hline (headed_of_lineAfter hparse hfits hgoes hn)
    refine ⟨?_, fun gait => hbehind.session_advance_toggle gait hnever⟩
    rw [act_of_opens (hopen.toggle line), hstarted]
    exact session_start_toggle hload hnever

end

/-- A declaration that ends in the second line, and a statement in the third one. -/
def brokenDeclaration : Program :=
  [.declare .let_ "a" (some (.atom (.bool true) ⟨8, 4⟩ 2)) 1,
    .expression (.atom (.name "a") ⟨14, 1⟩ 3) 3]

/-- With breakpoints in the second and the third line, a session pauses in the third one. Nothing
begins in the second one, and the breakpoint there makes no difference. -/
theorem shows_headed_lines_broken :
    let source := "let a =\ntrue;\na;"
    let d : Debugger Machine :=
      (Debugger.new {}).actAll Script.interpreter [.toggle 2, .toggle 3]
    let started := d.act Script.interpreter (.start source)
    let e := started.actAll Script.interpreter [.toggle 1]
    d.Opens source (.start source) ∧ parse source = .ok brokenDeclaration ∧
    (compileProgram brokenDeclaration).Fits ∧
    e.observe.paused = true ∧ e.observe.finished = false ∧ e.observe.activeLine = some 3 ∧
    (1 ≤ 3 ∧ 3 ≤ 1 + source.toList.count '\n' ∧
      ∀ program, parse source = .ok program → Headed source program 3 ∨ 3 = 1) ∧
    Headed source brokenDeclaration 3 ∧
    (∃ line, started.observe.activeLine = some line ∧ started.breakpoints.contains line = true ∧
      Headed source brokenDeclaration line) ∧
    ¬ Headed source brokenDeclaration 2 ∧
    ((d.toggle 2).2.act Script.interpreter (.start source)).session = started.session ∧
    ∀ gait, ((e.toggle 2).2.advance Script.interpreter gait).2.session =
      (e.advance Script.interpreter gait).2.session := by
  intro source d started e
  have hopen : d.Opens source (.start source) := rfl
  have hkeep : ∀ b ∈ [Action.toggle 1], b.keepsSession = true := by decide
  have hparse : parse source = .ok brokenDeclaration := by cbv
  have hfits : (compileProgram brokenDeclaration).Fits := .mk (by decide) fun q hq => by cases hq
  have hpaused : e.observe.paused = true := by decide +kernel
  have hgoes : e.observe.finished = false := by decide +kernel
  have hactive : e.observe.activeLine = some 3 := by decide +kernel
  have hnone : ¬ Headed source brokenDeclaration 2 := by
    rintro ⟨t, h, -, hmem, hbegins, hline⟩
    rw [← hbegins.line] at hline
    rcases List.mem_pair.1 hmem with rfl | rfl
    · exact absurd hline (by decide)
    · exact absurd hline (by decide)
  obtain ⟨hwithin, hrest⟩ := shows_headed_lines hopen hkeep
  obtain ⟨hheaded, hpauses, hnever⟩ := hrest brokenDeclaration hparse hfits
  have hfirst := hpauses started List.mem_cons_self (by decide +kernel) (by decide +kernel)
  exact ⟨hopen, hparse, hfits, hpaused, hgoes, hactive, hwithin 3 hactive,
    hheaded 3 hpaused hgoes hactive, hfirst, hnone, hnever 2 hnone⟩

end Debugger

end Tracepoint
