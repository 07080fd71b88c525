/-
Compiled programs never go wrong.

A machine that runs a compiled program always has a next instruction, and no instruction meets a
state that only wrong code could lead to.  This follows from evaluation: with more fuel than there
were steps, the simulation reaches beyond the step in question, or ends exactly there.

Main definitions:

* `Machine.GoesRight` — what may be said of the next step;
* `machineAfter` — the machine that runs a program, after a number of steps.

Main results:

* `goesRight_of_runs` — every machine on the run of a program goes right;
* `compiled_goes_right` — so does the machine after any number of steps up to the first fault.
-/

import Mathlib
import Tracepoint.Proofs.Evaluation.Correctness
import Tracepoint.Script

set_option relaxedAutoImplicit false
set_option autoImplicit false

namespace Tracepoint

/-! ### Machines that go right -/

namespace Machine

/-- Only the program is running, and its `halt` comes next. -/
def AtEnd (p : Proto) (m : Machine) : Prop :=
  m.nextInstr? = some .halt ∧ m.frames.map Frame.proto = [p]

/-- There is a next instruction. It ends the run only at the end of the program, and it meets no
defect. -/
structure GoesRight (p : Proto) (m : Machine) : Prop where
  instruction : m.nextInstr?.isSome
  done : m.step.2.2 = .done → m.AtEnd p
  fault : ∀ e, m.step.2.2 = .fault e → ¬e.fault.IsDefect

variable {m : Machine} {p : Proto}

/-- Without an instruction, a step is the last one or meets a defect. -/
theorem status_of_nextInstr?_eq_none (h : m.nextInstr? = none) :
    m.step.2.2 = .done ∨ ∃ e, m.step.2.2 = .fault e ∧ e.fault.IsDefect := by
  by_cases hhalted : m.halted
  · rw [step_of_halted hhalted]
    exact .inl rfl
  · simp only [nextInstr?, step, if_neg hhalted] at h ⊢
    cases hframes : m.frames with
    | nil => exact .inl rfl
    | cons frame callers =>
        simp only [hframes] at h ⊢
        cases hdecode : frame.proto.chunk.decodeAt frame.offset with
        | error e => exact .inr ⟨_, rfl, trivial⟩
        | ok result =>
            cases result with
            | none => exact .inl rfl
            | some pair =>
                simp only [hdecode] at h
                cases h

theorem goesRight_of_more (h : m.step.2.2 = .more) : m.GoesRight p := by
  refine ⟨?_, ?_, ?_⟩
  · rw [Option.isSome_iff_ne_none]
    intro hnone
    rcases status_of_nextInstr?_eq_none hnone with hdone | ⟨e, hfault, -⟩
    · rw [h] at hdone
      cases hdone
    · rw [h] at hfault
      cases hfault
  · intro hdone
    rw [h] at hdone
    cases hdone
  · intro e hfault
    rw [h] at hfault
    cases hfault

theorem goesRight_of_stops {e : Fault} {s : Store} (h : m.Stops e s) (he : ¬e.IsDefect) :
    m.GoesRight p := by
  obtain ⟨m', line, hstep, -⟩ := h
  have hfaults : ∀ e', m.step.2.2 = .fault e' → ¬e'.fault.IsDefect := by
    intro e' he'
    rw [hstep] at he'
    cases he'
    exact he
  refine ⟨?_, ?_, hfaults⟩
  · rw [Option.isSome_iff_ne_none]
    intro hnone
    rcases status_of_nextInstr?_eq_none hnone with hdone | ⟨e', he', hdefect⟩
    · rw [hstep] at hdone
      cases hdone
    · exact hfaults e' he' hdefect
  · intro hdone
    rw [hstep] at hdone
    cases hdone

theorem goesRight_of_atEnd (h : m.AtEnd p) (hdone : m.step.2.2 = .done) : m.GoesRight p := by
  refine ⟨?_, fun _ => h, ?_⟩
  · rw [h.1]
    rfl
  · intro e he
    rw [hdone] at he
    cases he

theorem halted_of_done (h : m.step.2.2 = .done) : m.step.1.halted = true := by
  by_cases hhalted : m.halted
  · rw [step_of_halted hhalted]
    exact hhalted
  · simp only [step, if_neg hhalted] at h ⊢
    cases hframes : m.frames with
    | nil => rfl
    | cons frame callers =>
        simp only [hframes] at h ⊢
        cases hdecode : frame.proto.chunk.decodeAt frame.offset with
        | error e =>
            simp only [hdecode] at h
            cases h
        | ok result =>
            cases result with
            | none => rfl
            | some pair =>
                simp only [hdecode] at h ⊢
                generalize execute frame.proto pair.1 _ = r at h ⊢
                cases r with
                | error e m' => cases h
                | ok printed m' =>
                    by_cases hm' : m'.halted
                    · exact hm'
                    · simp only [if_neg hm'] at h
                      cases h

end Machine

/-- At every point of its run a compiled program goes right. -/
theorem goesRight_of_runs {program : Program} (hlies : programLies program) {n : ℕ}
    {out : List String} {m : Machine}
    (hruns : (Machine.start (compileProgram program)).Runs n out m) :
    m.GoesRight (compileProgram program) := by
  obtain ⟨last, next, hhalt, hsimulates⟩ := simulates_program hlies
  -- With more fuel than there were steps, evaluation knows what comes next.
  have hfuel := hsimulates (n + 1)
  cases hrun : Eval.evalProgram (n + 1) program .start with
  | ok a w =>
      simp only [Simulates, hrun] at hfuel
      obtain ⟨⟨k, out', hwhole, -⟩, -⟩ := hfuel
      have hat : (programSite program).proto.chunk.At last .halt next := hhalt
      have hdone : ((programSite program).machine w.toStore last []).step =
          (⟨w.toStore, [], [], true⟩, [], .done) := Site.step_halt hat
      rcases Nat.lt_or_ge n k with hlt | hge
      · exact Machine.goesRight_of_more (hruns.more_of_lt hlt hwhole)
      · have hle := hwhole.le_of_last (by simp [hdone]) hruns
        obtain rfl := Nat.le_antisymm hle hge
        obtain ⟨rfl, -⟩ := hruns.eq hwhole
        exact Machine.goesRight_of_atEnd ⟨nextInstr?_of_at hat, rfl⟩ (by rw [hdone])
  | error stop w =>
      cases stop with
      | fault e =>
          simp only [Simulates, hrun] at hfuel
          obtain ⟨⟨k, out', m', hwhole, -, hstops⟩, he⟩ := hfuel
          obtain ⟨m₁, line, hstep, -⟩ := id hstops
          rcases Nat.lt_or_ge n k with hlt | hge
          · exact Machine.goesRight_of_more (hruns.more_of_lt hlt hwhole)
          · have hle := hwhole.le_of_last (by simp [hstep]) hruns
            obtain rfl := Nat.le_antisymm hle hge
            obtain ⟨rfl, -⟩ := hruns.eq hwhole
            exact Machine.goesRight_of_stops hstops he
      | exhausted =>
          simp only [Simulates, hrun] at hfuel
          obtain ⟨k, out', m', hwhole, hle⟩ := hfuel
          exact Machine.goesRight_of_more (hruns.more_of_lt hle hwhole)

/-- The machine that runs a program, after a number of steps, whatever they report. -/
def machineAfter (program : Program) (n : ℕ) : Machine :=
  Script.interpreter.iterate n (.start (compileProgram program))

theorem machineAfter_succ (program : Program) (n : ℕ) :
    machineAfter program (n + 1) = (machineAfter program n).step.1 :=
  Script.interpreter.iterate_add n 1 _

/-- Up to the first fault the machine is on a run, or it has halted. -/
theorem runs_or_halted {program : Program} (hlies : programLies program) (n : ℕ)
    (hcalm : ∀ k < n, ∀ e, (machineAfter program k).step.2.2 ≠ .fault e) :
    (∃ out, (Machine.start (compileProgram program)).Runs n out (machineAfter program n)) ∨
      ((machineAfter program n).halted = true ∧
        ∃ k < n, (machineAfter program k).AtEnd (compileProgram program)) := by
  induction n with
  | zero => exact .inl ⟨[], .refl _⟩
  | succ n ih =>
      have hstill := hcalm n (Nat.lt_succ_self n)
      rw [machineAfter_succ]
      rcases ih fun k hk => hcalm k (Nat.lt_succ_of_lt hk) with
        ⟨out, hruns⟩ | ⟨hhalted, k, hk, hend⟩
      -- The status of the last step decides whether the run goes on.
      · have hright := goesRight_of_runs hlies hruns
        cases hstatus : (machineAfter program n).step.2.2 with
        | more => exact .inl ⟨_, hruns.trans (.single (Prod.ext rfl (Prod.ext rfl hstatus)))⟩
        | done =>
            exact .inr ⟨Machine.halted_of_done hstatus, n, Nat.lt_succ_self n, hright.done hstatus⟩
        | fault e => exact absurd hstatus (hstill e)
      · rw [Machine.step_of_halted hhalted]
        exact .inr ⟨hhalted, k, Nat.lt_succ_of_lt hk, hend⟩

/-- **Compiled programs never go wrong.** Up to the first fault, whatever the number of steps, the
next one goes right, or the machine has halted at the end of the program. -/
theorem compiled_goes_right {source : String} {program : Program}
    (hparse : parse source = .ok program) (hfits : (compileProgram program).Fits) (n : ℕ)
    (hcalm : ∀ k < n, ∀ e, (machineAfter program k).step.2.2 ≠ .fault e) :
    (machineAfter program n).GoesRight (compileProgram program) ∨
      ((machineAfter program n).halted = true ∧
        ∃ k < n, (machineAfter program k).AtEnd (compileProgram program)) := by
  have hlies := lies_compileProgram hfits (placed_of_parse hparse)
  rcases runs_or_halted hlies n hcalm with ⟨out, hruns⟩ | hhalted
  · exact .inl (goesRight_of_runs hlies hruns)
  · exact .inr hhalted

/-- After two steps the machine goes right, although its next step fails. -/
theorem compiled_goes_right_uncallable :
    ∃ program, parse "null();" = .ok program ∧ (compileProgram program).Fits ∧
      (∀ k < 2, ∀ e, (machineAfter program k).step.2.2 ≠ .fault e) ∧
      ((machineAfter program 2).GoesRight (compileProgram program) ∨
        ((machineAfter program 2).halted = true ∧
          ∃ k < 2, (machineAfter program k).AtEnd (compileProgram program))) := by
  have hparse : parse "null();" = .ok [.expression (.call (.atom .null ⟨0, 4⟩ 1) []) 1] := by cbv
  have hfits : (compileProgram [.expression (.call (.atom .null ⟨0, 4⟩ 1) []) 1]).Fits :=
    .mk (by decide) fun q hq => by cases hq
  have hcalm : ∀ k < 2, ∀ e, (machineAfter
      [.expression (.call (.atom .null ⟨0, 4⟩ 1) []) 1] k).step.2.2 ≠ .fault e := by
    intro k hk e
    obtain rfl | rfl : k = 0 ∨ k = 1 := by omega
    · exact Status.noConfusion
    · exact Status.noConfusion
  exact ⟨_, hparse, hfits, hcalm, compiled_goes_right hparse hfits 2 hcalm⟩

end Tracepoint
