/-
Stepping through straight programs.

The turns of a straight program are its statements: it turns when it is entered, and whenever it
comes from one statement to the next or to its end.  So a session that goes on step by step pauses
at every statement, and shows there the variables that the statements before have declared.

Main definitions:

* `StraightRun` — the run of a straight program, which ends without a fault.

Main results:

* `StraightRun.amid` — **the run goes from statement to statement**, and counts them by turns;
* `StraightRun.shows` — what can be seen behind a number of turns;
* `Debugger.steps_by_statement` — **a straight program is stepped statement by statement**.
-/

import Mathlib
import Tracepoint.Proofs.Debugger.Stepping
import Tracepoint.Proofs.Grammar.Openings
import Tracepoint.Proofs.Machine.Straight

set_option relaxedAutoImplicit false
set_option autoImplicit false

namespace Tracepoint

namespace Status

variable {status : Status}

theorem eq_more_of_outcome (h : status.outcome = .more) : status = .more := by
  cases status with
  | more => rfl
  | done => cases h
  | fault e => cases h

theorem eq_done_of_outcome (h : status.outcome = .done) : status = .done := by
  cases status with
  | more => cases h
  | done => rfl
  | fault e => cases h

end Status

section

variable {program : Program} {n : ℕ}

/-- The run of a straight program, which ends without a fault. -/
structure StraightRun (program : Program) (n : ℕ) : Prop where
  straight : ∀ s ∈ program, s.Straight
  nonempty : program ≠ []
  numbered : ∀ s ∈ program, 1 ≤ s.line
  ascending : (program.map Stmt.line).Pairwise (· < ·)
  lies : programLies program
  fits : (compileProgram program).Fits
  ends : Script.interpreter.EndsAfter (.start (compileProgram program)) n

namespace StraightRun

/-- Before its end, the program has more to do. -/
theorem more (h : StraightRun program n) {k : ℕ} (hk : k < n) :
    (machineAfter program k).step.2.2 = .more :=
  Status.eq_more_of_outcome (h.ends.goesOn k hk)

/-- Then it ends. -/
theorem finishes (h : StraightRun program n) : (machineAfter program n).step.2.2 = .done :=
  Status.eq_done_of_outcome h.ends.done

theorem calm (h : StraightRun program n) {k : ℕ} (hk : k ≤ n) (e : RuntimeError) :
    (machineAfter program k).step.2.2 ≠ .fault e := by
  rcases Nat.lt_or_eq_of_le hk with hlt | rfl
  · rw [h.more hlt]
    exact Status.noConfusion
  · rw [h.finishes]
    exact Status.noConfusion

theorem start_amid (h : StraightRun program n) : (machineAfter program 1).Amid program [] program :=
  amid_start h.straight h.lies h.fits (h.calm n.zero_le)

/-- Where a step leads behind the first one. -/
theorem step (h : StraightRun program n) {k : ℕ} (hk : k ≤ n) {done rest : List Stmt} {s : Stmt}
    (hamid : (machineAfter program k).Amid program done (s :: rest)) :
    (machineAfter program (k + 1)).Amid program done (s :: rest) ∨
      (machineAfter program (k + 1)).Amid program (done ++ [s]) rest := by
  have hcalm : ∀ j ≤ k, ∀ e, (machineAfter program j).step.2.2 ≠ .fault e := fun j hj e =>
    h.calm (Nat.le_trans hj hk) e
  obtain ⟨hrooted, horderly⟩ :=
    orderly_machineAfter h.lies k fun j hj => hcalm j (Nat.le_of_lt hj)
  rw [machineAfter_succ]
  exact hamid.step h.lies h.fits horderly hrooted (hcalm k (Nat.le_refl k))

/-- The line behind some units of work is that of the statement amid which the machine stands. -/
theorem lineAfter (h : StraightRun program n) {k : ℕ} {done rest : List Stmt}
    (hamid : (machineAfter program (k + 1)).Amid program done rest) :
    Script.interpreter.lineAfter (.start (compileProgram program)) (k + 1) =
      rest.head?.map Stmt.line :=
  hamid.currentLine h.fits h.numbered

/-- The statement behind another one starts in another line. -/
theorem line_ne (h : StraightRun program n) {done rest : List Stmt} {s : Stmt}
    (hsplit : program = done ++ s :: rest) : rest.head?.map Stmt.line ≠ some s.line := by
  have hascending := h.ascending
  rw [hsplit, List.map_append, List.map_cons] at hascending
  have hbehind := (List.pairwise_cons.1 (List.pairwise_append.1 hascending).2.1).1
  cases rest with
  | nil => exact (Option.some_ne_none _).symm
  | cons s' rest =>
      intro heq
      have hlt := hbehind s'.line List.mem_cons_self
      exact Nat.ne_of_gt hlt (Option.some.inj heq)

/-- **The run of a straight program, statement by statement.** Behind its first step the machine
stands amid a statement or at the end, and has made one turn for each statement that it has done
and one more. -/
theorem amid (h : StraightRun program n) {k : ℕ} (hpos : 1 ≤ k) (hk : k ≤ n) :
    ∃ done rest, (machineAfter program k).Amid program done rest ∧
      Script.interpreter.turnsMade (.start (compileProgram program)) k = done.length + 1 := by
  induction k, hpos using Nat.le_induction with
  | base =>
      refine ⟨[], program, h.start_amid, ?_⟩
      have hturn : Script.interpreter.Turns (.start (compileProgram program)) 0 := by
        refine ⟨h.ends.goesOn 0 hk, ?_⟩
        rw [h.lineAfter h.start_amid]
        obtain ⟨s, rest, rfl⟩ := List.exists_cons_of_ne_nil h.nonempty
        exact Option.some_ne_none _
      rw [Interpreter.turnsMade_succ, if_pos hturn]
      rfl
  | succ k hpos ih =>
      obtain ⟨done, rest, hamid, hmade⟩ := ih (Nat.le_of_lt hk)
      obtain ⟨k, rfl⟩ := Nat.exists_eq_add_of_le' hpos
      have hmore := h.more hk
      cases rest with
      | nil =>
          rw [hamid.step_done] at hmore
          cases hmore
      | cons s rest =>
          have hline := h.lineAfter hamid
          rw [Interpreter.turnsMade_succ, hmade]
          rcases h.step (Nat.le_of_lt hk) hamid with hsame | hnext
          · refine ⟨done, s :: rest, hsame, ?_⟩
            rw [if_neg]
            rintro ⟨-, hturn⟩
            exact hturn ((h.lineAfter hsame).trans hline.symm)
          · refine ⟨done ++ [s], rest, hnext, ?_⟩
            rw [if_pos, List.length_append]
            · rfl
            · refine ⟨h.ends.goesOn _ hk, ?_⟩
              rw [h.lineAfter hnext, hline]
              exact h.line_ne hamid.split

/-- The first step does not end the program. -/
theorem pos (h : StraightRun program n) : 0 < n := by
  refine Nat.pos_of_ne_zero fun hzero => ?_
  subst hzero
  have hhalted := Machine.halted_of_done h.finishes
  rw [← machineAfter_succ, h.start_amid.running] at hhalted
  cases hhalted

/-- What the number of turns made says about the machine: the line that comes next, and the names
in sight. -/
theorem shows (h : StraightRun program n) {k count : ℕ} (hpos : 1 ≤ k) (hk : k ≤ n)
    (hmade : Script.interpreter.turnsMade (.start (compileProgram program)) k = count + 1) :
    count ≤ program.length ∧
      Script.interpreter.lineAfter (.start (compileProgram program)) k =
        (program.map Stmt.line)[count]? ∧
      (machineAfter program k).namesInSight = declaredBy (program.take count) := by
  obtain ⟨done, rest, hamid, hdone⟩ := h.amid hpos hk
  obtain rfl : count = done.length := by omega
  obtain ⟨k, rfl⟩ := Nat.exists_eq_add_of_le' hpos
  have hsplit := hamid.split
  refine ⟨?_, ?_, ?_⟩
  · rw [hsplit, List.length_append]
    omega
  · rw [h.lineAfter hamid, List.getElem?_map, hsplit, List.getElem?_append_right (Nat.le_refl _),
      Nat.sub_self, List.head?_eq_getElem?]
  · rw [hamid.namesInSight, hsplit, List.take_left]

/-- All in all the program makes one turn for each statement and one more. -/
theorem turnsMade (h : StraightRun program n) :
    Script.interpreter.turnsMade (.start (compileProgram program)) n = program.length + 1 := by
  obtain ⟨done, rest, hamid, hmade⟩ := h.amid h.pos (Nat.le_refl n)
  cases rest with
  | nil => rw [hmade, hamid.split, List.append_nil]
  | cons s rest =>
      -- The step from amid a statement would not end the program.
      have hhalted := Machine.halted_of_done h.finishes
      have hrunning : (machineAfter program (n + 1)).halted = false := by
        rcases h.step (Nat.le_refl n) hamid with hsame | hnext
        · exact hsame.running
        · exact hnext.running
      rw [machineAfter_succ, hhalted] at hrunning
      cases hrunning

/-- The lines that the program enters are those of its statements. -/
theorem linesEntered (h : StraightRun program n) :
    Script.interpreter.linesEntered (.start (compileProgram program)) n = program.length := by
  rw [Interpreter.linesEntered_eq fun k hk => ?_, h.turnsMade]
  · exact Nat.min_eq_right (Nat.le_succ _)
  · obtain ⟨done, rest, hamid, hmade⟩ := h.amid (Nat.le_add_left 1 k) hk
    rw [h.lineAfter hamid, hmade, hamid.split, List.length_append]
    cases rest with
    | nil => simp
    | cons s rest => simp

end StraightRun

/-- The lines of straight statements are among the lines of the source. -/
theorem lines_of_lined {L : ℕ → Prop} {stmts : List Stmt} (h : stmtsLined L stmts)
    (hstraight : ∀ s ∈ stmts, s.Straight) : ∀ s ∈ stmts, L s.line := by
  induction stmts with
  | nil => exact fun s hs => absurd hs List.not_mem_nil
  | cons s rest ih =>
      obtain ⟨hs, hrest⟩ := List.forall_mem_cons.1 hstraight
      exact List.forall_mem_cons.2 ⟨hs.line_of_lined h.1, ih h.2 hrest⟩

/-- The run of a straight source. -/
theorem straightRun_of_parse {source : String} (hparse : parse source = .ok program)
    (hfits : (compileProgram program).Fits) (hstraight : ∀ s ∈ program, s.Straight)
    (hne : program ≠ []) (hlines : ((firstTokens source).map Token.line).Pairwise (· < ·))
    (hend : Script.interpreter.EndsAfter (.start (compileProgram program)) n) :
    StraightRun program n where
  straight := hstraight
  nonempty := hne
  numbered := lines_of_lined (numbered_of_parse hparse) hstraight
  ascending := lines_firstTokens hparse ▸ hlines
  lies := lies_compileProgram hfits (placed_of_parse hparse)
  fits := hfits
  ends := hend

end

/-! ### Sessions -/

theorem Script.load_of_parse {source : String} {program : Program}
    (hparse : parse source = .ok program) :
    Script.interpreter.load source = .ok (.start (compileProgram program)) := by
  change Script.load source = _
  rw [Script.load, hparse]

namespace Debugger

section

variable {program : Program} {source : String} {n count : ℕ} {d e : Debugger Machine}

/-- What can be seen of a debugger whose session has ended. -/
theorem seen_of_ended {u : Session Machine} (hu : e.session = some u) (hrest : u.rest = .ended) :
    e.phase = .finished ∧ e.observe.activeLine = none := by
  refine ⟨?_, ?_⟩
  · rw [phase_of_session hu, hrest]
    rfl
  · rw [observe_of_session hu, hrest]
    rfl

/-- What can be seen of a debugger that pauses on the run of a straight program. -/
theorem PausesBehind.shows {config : Config}
    (h : e.PausesBehind Script.interpreter config (.start (compileProgram program)) n (count + 1))
    (hrun : StraightRun program n) :
    e.phase = .paused ∧ e.observe.activeLine = (program.map Stmt.line)[count]? ∧
      e.observe.scope.map (List.map Prod.fst) = some (declaredBy (program.take count)) := by
  obtain ⟨u, hu, hrest, hunder, hscope, hpos, hle, hmade⟩ := h.session
  obtain ⟨-, hline, hnames⟩ := hrun.shows hpos hle hmade
  have hstate : u.progress.state = machineAfter program u.progress.total := hunder.state
  refine ⟨?_, ?_, ?_⟩
  · rw [phase_of_session hu, hrest]
    rfl
  · rw [observe_of_session hu, hrest]
    exact hline
  · rw [observe_of_session hu, hscope, hstate]
    exact congrArg some ((names_snapshot _ _).trans hnames)

/-- With a breakpoint at the first line, a start leads there. -/
theorem pausesBehind_first
    (hload : Script.interpreter.load source = .ok (.start (compileProgram program)))
    (hrun : StraightRun program n) (hlimit : n ≤ d.config.stepLimit)
    (hfirst : ∀ line, (program.map Stmt.line).head? = some line →
      d.breakpoints.contains line = true) :
    (d.start Script.interpreter source).2.PausesBehind Script.interpreter d.config
      (.start (compileProgram program)) n 1 := by
  obtain ⟨s, rest, rfl⟩ := List.exists_cons_of_ne_nil hrun.nonempty
  have hline := hrun.lineAfter hrun.start_amid
  refine pausesBehind_start hload hrun.ends hlimit hrun.pos ⟨⟨hrun.ends.goesOn 0 hrun.pos, ?_⟩, ?_⟩
  · rw [hline]
    exact Option.some_ne_none _
  · rw [hline]
    exact hfirst s.line rfl

/-- **A straight program is stepped statement by statement.** Let the first tokens of its
statements lie in ascending lines, and let it end without a fault within the limit. Without
breakpoints, a start leads to its end, and enters as many lines as there are statements. With a
breakpoint only at the first line, a start pauses there; each step leads to the next statement,
and behind the last one to no line; and one more step ends the program. At each of the pauses the
names in sight are those that the statements before have declared. -/
theorem steps_by_statement (hparse : parse source = .ok program)
    (hfits : (compileProgram program).Fits) (hstraight : ∀ s ∈ program, s.Straight)
    (hne : program ≠ []) (hlines : ((firstTokens source).map Token.line).Pairwise (· < ·))
    (hend : Script.interpreter.EndsAfter (.start (compileProgram program)) n)
    (d : Debugger Machine) (hlimit : n ≤ d.config.stepLimit) :
    let lines := (firstTokens source).map Token.line
    let started := (d.start Script.interpreter source).2
    let stepped (k : ℕ) := started.actAll Script.interpreter (List.replicate k (.advance .step))
    lines.length = program.length ∧
    ((∀ line, d.breakpoints.contains line = false) →
      ∃ u, started.session = some u ∧ u.rest = .ended ∧
        u.progress.transitions = program.length ∧
        started.phase = .finished ∧ started.observe.activeLine = none) ∧
    ((∀ line, d.breakpoints.contains line = true ↔ lines.head? = some line) →
      (∀ k ≤ program.length, (stepped k).phase = .paused ∧
        (stepped k).observe.activeLine = lines[k]? ∧
        (stepped k).observe.scope.map (List.map Prod.fst) =
          some (declaredBy (program.take k))) ∧
      ∃ u, (stepped (program.length + 1)).session = some u ∧ u.rest = .ended ∧
        (stepped (program.length + 1)).phase = .finished ∧
        (stepped (program.length + 1)).observe.activeLine = none) := by
  intro lines started stepped
  have hrun := straightRun_of_parse hparse hfits hstraight hne hlines hend
  have hload := Script.load_of_parse hparse
  have heq : lines = program.map Stmt.line := lines_firstTokens hparse
  refine ⟨by rw [heq, List.length_map], fun hnone => ?_, fun hfirst => ?_⟩
  · obtain ⟨u, hu, hrest, hcount⟩ := ends_of_start hload hend hlimit hnone
    exact ⟨u, hu, hrest, hcount.trans hrun.linesEntered, seen_of_ended hu hrest⟩
  · have hstart := pausesBehind_first hload hrun hlimit fun line hline =>
      (hfirst line).2 (heq ▸ hline)
    have hstepped : ∀ k ≤ program.length, (stepped k).PausesBehind Script.interpreter d.config
        (.start (compileProgram program)) n (k + 1) := fun k hk => by
      rw [Nat.add_comm]
      exact hstart.steps hend hlimit k (by rw [hrun.turnsMade]; omega)
    refine ⟨fun k hk => ?_, ?_⟩
    · rw [heq]
      exact (hstepped k hk).shows hrun
    · obtain ⟨u, hu, hrest⟩ := (hstepped program.length (Nat.le_refl _)).ends hend hlimit
        (Nat.le_of_eq hrun.turnsMade)
      have hlast : stepped (program.length + 1) =
          ((stepped program.length).advance Script.interpreter .step).2 := by
        simp only [stepped, actAll, List.replicate_succ', List.foldl_append, List.foldl_cons,
          List.foldl_nil, act]
      rw [hlast]
      exact ⟨u, hu, hrest, seen_of_ended hu hrest⟩

end

/-- A variable is declared and read, in two lines. -/
def declaredAndRead : Program :=
  [.declare .let_ "a" none 1, .expression (.atom (.name "a") ⟨7, 1⟩ 2) 2]

/-- It goes on for five steps: one at the start, two for the declaration and two for the reading.
The next one ends it. -/
theorem steps_by_statement_reading :
    let source := "let a;\na;"
    let lines := (firstTokens source).map Token.line
    let atOnce : Debugger Machine := ((Debugger.new {}).start Script.interpreter source).2
    let stepped (k : ℕ) : Debugger Machine :=
      (((Debugger.new {}).toggle 1).2.start Script.interpreter source).2.actAll Script.interpreter
        (List.replicate k (.advance .step))
    parse source = .ok declaredAndRead ∧ (compileProgram declaredAndRead).Fits ∧
    (∀ s ∈ declaredAndRead, s.Straight) ∧ declaredAndRead ≠ [] ∧ lines = [1, 2] ∧
    Script.interpreter.EndsAfter (.start (compileProgram declaredAndRead)) 5 ∧
    (∃ u, atOnce.session = some u ∧ u.rest = .ended ∧ u.progress.transitions = 2 ∧
      atOnce.phase = .finished ∧ atOnce.observe.activeLine = none) ∧
    (∀ k ≤ 2, (stepped k).phase = .paused ∧ (stepped k).observe.activeLine = lines[k]? ∧
      (stepped k).observe.scope.map (List.map Prod.fst) =
        some (declaredBy (declaredAndRead.take k))) ∧
    ∃ u, (stepped 3).session = some u ∧ u.rest = .ended ∧
      (stepped 3).phase = .finished ∧ (stepped 3).observe.activeLine = none := by
  intro source lines atOnce stepped
  have hparse : parse source = .ok declaredAndRead := by cbv
  have hfits : (compileProgram declaredAndRead).Fits := .mk (by decide) fun q hq => by cases hq
  have hstraight : ∀ s ∈ declaredAndRead, s.Straight := by
    intro s hs
    rcases List.mem_pair.1 hs with rfl | rfl
    · trivial
    · trivial
  have hne : declaredAndRead ≠ [] := List.cons_ne_nil _ _
  have hlines : lines = [1, 2] := lines_firstTokens hparse
  have hascending : lines.Pairwise (· < ·) := by
    rw [hlines]
    decide
  have hgoes : ∀ k < 5, Script.interpreter.outcomeAt (.start (compileProgram declaredAndRead)) k =
      .more := by decide +kernel
  have hend : Script.interpreter.EndsAfter (.start (compileProgram declaredAndRead)) 5 :=
    ⟨hgoes, by decide +kernel⟩
  have hatOnce := (steps_by_statement hparse hfits hstraight hne hascending hend
    (Debugger.new {}) (by decide)).2.1 fun _ => rfl
  have hstepped := (steps_by_statement hparse hfits hstraight hne hascending hend
    ((Debugger.new {}).toggle 1).2 (by decide)).2.2 fun line => by
      change _ ↔ lines.head? = some line
      rw [hlines]
      simp [Debugger.toggle, Debugger.new, Breakpoints.contains, Breakpoints.toggle,
        Breakpoints.empty, toggleLine, eq_comm]
  exact ⟨hparse, hfits, hstraight, hne, hlines, hend, hatOnce, hstepped.1, hstepped.2⟩

end Debugger

end Tracepoint
