/-
What a session does, read off the interpreter alone.

A session adds nothing to the program that it runs: where it stands is decided by the state that
was loaded and by the number of units of work done.  The first section describes a run of an
interpreter without any session; the others show that a session is always at some point of it.

Main definitions:

* `Interpreter.outcomeAt`, `Interpreter.lineAfter`, `Interpreter.entersLine` — how a unit of work
  ends, the line it leads to, and whether it enters that line;
* `Progress.Follows`, `Progress.Underway` — a progress is the one that its units of work make;
* `Rest.Describes` — the reason for a rest is the one that the interpreter gives;
* `Session.Replays` — both, for a session at rest.

Main results:

* `Progress.Underway.run` — **running leads from one point of the run to a later one**;
* `Progress.Underway.resume` — the same for sessions.
-/

import Mathlib.Data.List.Count
import Tracepoint.Session.Run

set_option relaxedAutoImplicit false
set_option autoImplicit false

namespace Tracepoint

variable {ε σ υ : Type}

/-! ### A run of an interpreter -/

namespace Interpreter

/-- How the unit of work after the first `n` ones ends. -/
def outcomeAt (I : Interpreter ε σ υ) (s : σ) (n : ℕ) : Outcome :=
  (I.step (I.iterate n s)).2.2

/-- The line to which `n` units of work have led. Before the first one there is none. -/
def lineAfter (I : Interpreter ε σ υ) (s : σ) : ℕ → Option ℕ
  | 0 => none
  | n + 1 => I.currentLine (I.iterate (n + 1) s)

/-- The unit of work after the first `n` ones enters a line: there is more to do, and the line
of the next unit is another one than the line before. -/
def entersLine (I : Interpreter ε σ υ) (s : σ) (n : ℕ) : Bool :=
  I.outcomeAt s n == .more && (I.lineAfter s (n + 1)).isSome &&
    I.lineAfter s (n + 1) != I.lineAfter s n

/-- The number of lines that the first `n` units of work enter. -/
def linesEntered (I : Interpreter ε σ υ) (s : σ) (n : ℕ) : ℕ :=
  (List.range n).countP (I.entersLine s)

/-- The program has more to do after each of the first `n` units of work. -/
def GoesOn (I : Interpreter ε σ υ) (s : σ) (n : ℕ) : Prop :=
  ∀ k < n, I.outcomeAt s k = .more

theorem iterate_succ (I : Interpreter ε σ υ) (s : σ) (n : ℕ) :
    I.iterate (n + 1) s = (I.step (I.iterate n s)).1 := by
  rw [I.iterate_add n 1]
  rfl

theorem printed_succ (I : Interpreter ε σ υ) (s : σ) (n : ℕ) :
    I.printed (n + 1) s = I.printed n s ++ (I.step (I.iterate n s)).2.1 := by
  rw [I.printed_add n 1]
  simp [printed]

theorem linesEntered_succ (I : Interpreter ε σ υ) (s : σ) (n : ℕ) :
    I.linesEntered s (n + 1) = I.linesEntered s n + if I.entersLine s n then 1 else 0 := by
  simp [linesEntered, List.range_succ, List.countP_append, List.countP_cons]

theorem GoesOn.succ {I : Interpreter ε σ υ} {s : σ} {n : ℕ} (h : I.GoesOn s n)
    (hn : I.outcomeAt s n = .more) : I.GoesOn s (n + 1) := by
  intro k hk
  rcases Nat.lt_succ_iff_lt_or_eq.1 hk with hk | rfl
  · exact h k hk
  · exact hn

/-- A program that goes on for `n` units does not end within them. -/
theorem GoesOn.le {I : Interpreter ε σ υ} {s : σ} {n m : ℕ} (h : I.GoesOn s n)
    (hm : I.outcomeAt s m ≠ .more) : n ≤ m := by
  by_contra hlt
  exact hm (h m (Nat.lt_of_not_le hlt))

end Interpreter

/-! ### Where a session stands -/

namespace Progress

/-- State, lines written and lines entered are those of as many units of work on `s`. -/
structure Follows (I : Interpreter ε σ υ) (s : σ) (p : Progress σ) : Prop where
  state : p.state = I.iterate p.total s
  printed : p.printed.toList = I.printed p.total s
  transitions : p.transitions = I.linesEntered s p.total

/-- The progress of a program that has more to do. Its last line is the line of the next unit,
once there was a unit. -/
structure Underway (I : Interpreter ε σ υ) (s : σ) (p : Progress σ) : Prop
    extends Follows I s p where
  goesOn : I.GoesOn s p.total
  lastLine : p.lastLine = I.lineAfter s p.total

theorem underway_start (I : Interpreter ε σ υ) (s : σ) : (Progress.start s).Underway I s where
  state := rfl
  printed := rfl
  transitions := rfl
  goesOn := fun _ hk => absurd hk (Nat.not_lt_zero _)
  lastLine := rfl

/-! ### One unit of work -/

variable {I : Interpreter ε σ υ} {s : σ} {p : Progress σ}

@[simp] theorem unit_line (I : Interpreter ε σ υ) (p : Progress σ) :
    (p.unit I).1 = (I.currentLine p.state <|> p.lastLine) := rfl

@[simp] theorem unit_total (I : Interpreter ε σ υ) (p : Progress σ) :
    (p.unit I).2.2.total = p.total + 1 := rfl

@[simp] theorem unit_lastLine (I : Interpreter ε σ υ) (p : Progress σ) :
    (p.unit I).2.2.lastLine = p.lastLine := rfl

@[simp] theorem unit_transitions (I : Interpreter ε σ υ) (p : Progress σ) :
    (p.unit I).2.2.transitions = p.transitions := rfl

theorem Follows.unit_outcome (h : p.Follows I s) :
    (p.unit I).2.1 = I.outcomeAt s p.total := by
  rw [Interpreter.outcomeAt, ← h.state]
  rfl

theorem Follows.unit_state (h : p.Follows I s) :
    (p.unit I).2.2.state = I.iterate (p.total + 1) s := by
  rw [I.iterate_succ, ← h.state]
  rfl

/-- A unit of work writes behind what was written before. -/
theorem toList_unit_printed (I : Interpreter ε σ υ) (p : Progress σ) :
    (p.unit I).2.2.printed.toList = p.printed.toList ++ (I.step p.state).2.1 := by
  have hpush : ((p.unit I).2.2.printed : Array String) =
      p.printed ++ ((I.step p.state).2.1.map id).toArray := List.foldl_push_eq_append
  rw [hpush, Array.toList_append, List.map_id]

theorem Follows.unit_printed (h : p.Follows I s) :
    (p.unit I).2.2.printed.toList = I.printed (p.total + 1) s := by
  rw [toList_unit_printed, I.printed_succ, ← h.printed, ← h.state]

/-- The last unit of a program enters no line. -/
theorem Follows.unit_of_not_more (h : p.Follows I s) (hend : I.outcomeAt s p.total ≠ .more) :
    (p.unit I).2.2.Follows I s where
  state := h.unit_state
  printed := h.unit_printed
  transitions := by
    have hno : I.entersLine s p.total = false := by simp [Interpreter.entersLine, hend]
    simp [I.linesEntered_succ, hno, h.transitions]

/-- The line to which one more unit of work leads. -/
def nextLine (I : Interpreter ε σ υ) (p : Progress σ) : Option ℕ :=
  I.currentLine (p.unit I).2.2.state

theorem Follows.nextLine (h : p.Follows I s) : p.nextLine I = I.lineAfter s (p.total + 1) := by
  rw [Progress.nextLine, h.unit_state, Interpreter.lineAfter]

/-- The progress after a unit of work behind which there is more to do. -/
def entered (line : Option ℕ) (p : Progress σ) : Progress σ :=
  if line != p.lastLine then p.enter line else p

@[simp] theorem entered_state (line : Option ℕ) (p : Progress σ) :
    (p.entered line).state = p.state := by
  unfold entered; split <;> rfl

@[simp] theorem entered_printed (line : Option ℕ) (p : Progress σ) :
    (p.entered line).printed = p.printed := by
  unfold entered; split <;> rfl

@[simp] theorem entered_total (line : Option ℕ) (p : Progress σ) :
    (p.entered line).total = p.total := by
  unfold entered; split <;> rfl

@[simp] theorem entered_lastLine (line : Option ℕ) (p : Progress σ) :
    (p.entered line).lastLine = line := by
  unfold entered
  split
  · rfl
  · next h => simpa using Eq.symm (by simpa using h)

@[simp] theorem entered_transitions (line : Option ℕ) (p : Progress σ) :
    (p.entered line).transitions =
      p.transitions + if line.isSome && line != p.lastLine then 1 else 0 := by
  unfold entered
  split
  · next h => cases line <;> simp_all [enter]
  · next h => simp_all

/-- **A unit of work leads a program that is underway one unit further.** -/
theorem Underway.entered (h : p.Underway I s) (hmore : I.outcomeAt s p.total = .more) :
    ((p.unit I).2.2.entered (p.nextLine I)).Underway I s where
  state := by simpa using h.unit_state
  printed := by simpa using h.unit_printed
  transitions := by
    simp [I.linesEntered_succ, Interpreter.entersLine, hmore, h.transitions, h.lastLine,
      h.nextLine]
  goesOn := by simpa using h.goesOn.succ hmore
  lastLine := by simp [h.nextLine]

end Progress

/-! ### Why a session rests -/

/-- The reason for a rest is the one that the interpreter gives: the line it has come to, the end
of the program or its fault, or that there is more to do behind the limit. A unit of work that
has no line of its own belongs to the line before it. -/
def Rest.Describes (I : Interpreter ε σ υ) (limit : ℕ) (s : σ) (p : Progress σ) : Rest → Prop
  | .paused line => p.Underway I s ∧ line = p.lastLine
  | .ended => ∃ n, p.total = n + 1 ∧ I.GoesOn s n ∧ I.outcomeAt s n = .done
  | .faulted message line => ∃ n found, p.total = n + 1 ∧ I.GoesOn s n ∧
      I.outcomeAt s n = .fault message found ∧
      line = (found <|> (I.currentLine (I.iterate n s) <|> I.lineAfter s n))
  | .exhausted bound line => bound = limit ∧ p.Underway I s ∧ limit < p.total ∧
      ∃ n, p.total = n + 1 ∧
        line = (I.lineAfter s p.total <|> (I.currentLine (I.iterate n s) <|> I.lineAfter s n))

/-- Where a session comes to rest, seen from the progress `p` before. -/
structure RestsAt (I : Interpreter ε σ υ) (limit : ℕ) (s : σ) (p : Progress σ)
    (result : Progress σ × Rest) : Prop where
  follows : result.1.Follows I s
  describes : result.2.Describes I limit s result.1
  later : p.total < result.1.total

section

variable {I : Interpreter ε σ υ} {s : σ} {limit left : ℕ} {pauses : Option ℕ → Bool}
  {p : Progress σ}

theorem run_of_fault {message : String} {line : Option ℕ}
    (h : (p.unit I).2.1 = .fault message line) :
    run I limit pauses left p = ((p.unit I).2.2, .faulted message (line <|> (p.unit I).1)) := by
  rw [run]
  simp only [h]

theorem run_of_done (h : (p.unit I).2.1 = .done) :
    run I limit pauses left p = ((p.unit I).2.2, .ended) := by
  rw [run]
  simp only [h]

theorem run_of_pause (h : (p.unit I).2.1 = .more)
    (hpause : (p.nextLine I != p.lastLine && pauses (p.nextLine I)) = true) :
    run I limit pauses left p =
      ((p.unit I).2.2.entered (p.nextLine I), .paused (p.nextLine I)) := by
  rw [run]
  simp only [h]
  exact if_pos hpause

theorem run_zero_of_more (h : (p.unit I).2.1 = .more)
    (hpause : (p.nextLine I != p.lastLine && pauses (p.nextLine I)) = false) :
    run I limit pauses 0 p =
      ((p.unit I).2.2.entered (p.nextLine I),
        .exhausted limit (p.nextLine I <|> (p.unit I).1)) := by
  rw [run]
  simp only [h]
  exact if_neg (Bool.not_eq_true _ ▸ hpause)

theorem run_succ_of_more (h : (p.unit I).2.1 = .more)
    (hpause : (p.nextLine I != p.lastLine && pauses (p.nextLine I)) = false) :
    run I limit pauses (left + 1) p =
      run I limit pauses left ((p.unit I).2.2.entered (p.nextLine I)) := by
  rw [run]
  simp only [h]
  exact if_neg (Bool.not_eq_true _ ▸ hpause)

/-- Either the next unit of work brings the session to rest, or there is more to do and the
session does not pause. -/
theorem Progress.Underway.restsAt_or_more (h : p.Underway I s) (pauses : Option ℕ → Bool) :
    (∀ left, RestsAt I limit s p (run I limit pauses left p)) ∨
      ((p.unit I).2.1 = .more ∧
        (p.nextLine I != p.lastLine && pauses (p.nextLine I)) = false) := by
  cases hout : (p.unit I).2.1 with
  | fault message found =>
      have hat : I.outcomeAt s p.total = .fault message found := by rw [← h.unit_outcome, hout]
      refine Or.inl fun left => ?_
      rw [run_of_fault hout]
      refine ⟨h.unit_of_not_more (by simp [hat]), ⟨p.total, found, rfl, h.goesOn, hat, ?_⟩,
        Nat.lt_succ_self _⟩
      rw [unit_line, h.state, h.lastLine]
  | done =>
      have hat : I.outcomeAt s p.total = .done := by rw [← h.unit_outcome, hout]
      refine Or.inl fun left => ?_
      rw [run_of_done hout]
      exact ⟨h.unit_of_not_more (by simp [hat]), ⟨p.total, rfl, h.goesOn, hat⟩,
        Nat.lt_succ_self _⟩
  | more =>
      -- Only here the breakpoints and the gait matter.
      cases hpause : p.nextLine I != p.lastLine && pauses (p.nextLine I) with
      | false => exact Or.inr ⟨rfl, rfl⟩
      | true =>
          have hnext := h.entered (by rw [← h.unit_outcome, hout])
          refine Or.inl fun left => ?_
          rw [run_of_pause hout hpause]
          exact ⟨hnext.toFollows, ⟨hnext, (entered_lastLine _ _).symm⟩, by simp⟩

/-- **Running leads from one point of the run to a later one**, and the reason for coming to rest
there is the one that the interpreter gives. -/
theorem Progress.Underway.run (h : p.Underway I s) (limit : ℕ) (pauses : Option ℕ → Bool) :
    RestsAt I limit s p (run I limit pauses (limit - p.total) p) := by
  -- induction on the units that the limit leaves
  induction hleft : limit - p.total generalizing p with
  | zero =>
      rcases h.restsAt_or_more pauses with hrest | ⟨hout, hpause⟩
      · exact hrest 0
      -- The limit allows no further unit.
      · have hnext := h.entered (by rw [← h.unit_outcome, hout])
        rw [run_zero_of_more hout hpause]
        refine ⟨hnext.toFollows, ⟨rfl, hnext, ?_, p.total, by simp, ?_⟩, by simp⟩
        · rw [entered_total, unit_total]; omega
        · rw [entered_total, unit_total, h.nextLine, unit_line, h.state, h.lastLine]
  | succ left ih =>
      rcases h.restsAt_or_more pauses with hrest | ⟨hout, hpause⟩
      · exact hrest _
      · have hnext := h.entered (by rw [← h.unit_outcome, hout])
        rw [run_succ_of_more hout hpause]
        have hrec := ih hnext (by rw [entered_total, unit_total]; omega)
        refine ⟨hrec.follows, hrec.describes, Nat.lt_trans ?_ hrec.later⟩
        rw [entered_total, unit_total]
        exact Nat.lt_succ_self _

end

/-! ### Sessions -/

/-- A session stands at a point of the run of its interpreter on `s`, for the reason that the
interpreter gives, and shows the variables in sight there. -/
structure Session.Replays (I : Interpreter ε σ υ) (limits : Limits) (limit : ℕ) (s : σ)
    (t : Session σ) : Prop where
  follows : t.progress.Follows I s
  describes : t.rest.Describes I limit s t.progress
  scope : t.scope = snapshot I limits t.progress.state

/-- Going on keeps a session on the run of its interpreter and does at least one unit of work. -/
theorem Progress.Underway.resume {I : Interpreter ε σ υ} {s : σ} {p : Progress σ}
    (h : p.Underway I s) (limits : Limits) (limit : ℕ) (pauses : Option ℕ → Bool) :
    (resume I limits limit pauses p).Replays I limits limit s ∧
      p.total < (resume I limits limit pauses p).progress.total := by
  have hrun := h.run limit pauses
  exact ⟨⟨hrun.follows, hrun.describes, rfl⟩, hrun.later⟩

end Tracepoint
