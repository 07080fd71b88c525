/-
Each line of the console is shown once.

A viewer counts the lines that it has shown, apart from the session that writes them.  The session
adds lines while it goes on, and starts anew when the script is started over.  What a command
writes is told here as a transcript, in which the lines of the console can be told from all else;
an account of it has the lines that were shown since a session was last opened.  The account and
the count stay in step with the session, whatever is typed.

Main definitions:

* `Mark`, `Mark.outputs` — what a command does, and what it writes for that;
* `Account`, `account` — the lines shown since a session was opened, and what was reported last;
* `Prompt.transcript`, `Viewer.transcript`, `Request.transcript` — what a dialogue, a run and a
  command do;
* `Viewer.EndsAfter`, `Request.EndsWithin` — a run comes to its end;
* `Viewer.Settled` — the account has all lines of the session.

Main results:

* `Debugger.Replays.console_advance` — a session that goes on keeps its lines and adds some;
* `Viewer.note_told` — a report shows what was not shown yet;
* `Viewer.Settled.obey` — **no order disturbs the account**;
* `Viewer.outputs_transcript`, `Viewer.runOut_of_not_endsAfter` — a run that has come to its end, and
  one that has not yet;
* `Viewer.account_transcript` — the account of a run, rest by rest;
* `console_shown_once` — **each line of the console is shown once**.
-/

import Mathlib.Logic.Function.Iterate
import Tracepoint.Command
import Tracepoint.Proofs.Debugger.Sources
import Tracepoint.Proofs.Debugger.Transparency

set_option relaxedAutoImplicit false
set_option autoImplicit false

namespace Tracepoint

/-! ### Sessions that go on -/

namespace Debugger

variable {ε σ υ : Type} {I : Interpreter ε σ υ} {s : σ} {d e : Debugger σ} {source : String}

/-- What can be seen depends on the session only. -/
theorem observe_congr (h : d.session = e.session) : d.observe = e.observe := by
  rw [observe, observe, h]

/-- **A session that goes on keeps its lines and adds some.** -/
theorem Replays.console_advance (h : d.Replays I s) (gait : Gait) :
    d.observe.console <+: (d.advance I gait).2.observe.console := by
  rcases h.advance gait with ⟨heq, -⟩ | ⟨t, p, ht, rfl, hfinal, hunder, heq⟩
  · exact ⟨[], by rw [heq, List.append_nil]⟩
  · obtain ⟨u, hu, hreplays⟩ := h
    obtain rfl : u = t := Option.some.inj (hu.symm.trans ht)
    have hnext := hunder.resume d.config.limits d.config.stepLimit (gait.pauses d.breakpoints)
    have hsession : (d.advance I gait).2.session = some
        (resume I d.config.limits d.config.stepLimit (gait.pauses d.breakpoints) u.progress) := by
      rw [heq]
    -- a session that may go on has written nothing itself
    have hnotice : u.rest.notice = [] := by
      cases hrest : u.rest with
      | paused line => rfl
      | ended => rfl
      | faulted message line =>
          rw [hrest] at hfinal
          cases hfinal
      | exhausted limit line =>
          rw [hrest] at hfinal
          cases hfinal
    obtain ⟨more, hmore⟩ := Nat.exists_eq_add_of_lt hnext.2
    rw [observe_of_session ht, observe_of_session hsession, Session.console.eq_def,
      Session.console.eq_def, hnotice, List.append_nil, hreplays.follows.printed,
      hnext.1.follows.printed, hmore, Nat.add_assoc, I.printed_add, List.append_assoc]
    exact List.prefix_append _ _

/-- A session that has finished stays as it is. -/
theorem advance_of_finished (hphase : d.phase = .finished) (gait : Gait) :
    (d.advance I gait).2 = d := by
  cases hsession : d.session with
  | none =>
      rw [phase, hsession] at hphase
      cases hphase
  | some t =>
      cases hfinal : t.rest.isFinal with
      | true => exact advance_of_final I gait hsession hfinal
      | false =>
          rw [phase_of_session hsession, hfinal] at hphase
          cases hphase

theorem actAll_of_finished (hphase : d.phase = .finished) (gait : Gait) (k : ℕ) :
    d.actAll I (List.replicate k (.advance gait)) = d := by
  induction k with
  | zero => rfl
  | succ k ih =>
      rw [List.replicate_succ, actAll_cons]
      rw [act, advance_of_finished hphase]
      exact ih

/-- A source that was loaded before is started again. -/
theorem restart_of_load (hsource : d.source = some source) (hload : I.load source = .ok s) :
    d.restart I = (.ok (), (d.start I source).2) := by
  rw [restart, hsource]
  simp only [start_of_load I d hload]

end Debugger

/-! ### Transcripts -/

/-- What a command does, as far as it is seen. -/
inductive Mark
  /-- Opens a session. -/
  | opened
  /-- Shows a line of the console. -/
  | entry (line : String)
  /-- Has shown what was seen of a session. -/
  | reported (o : Observation)
  /-- Writes what is no line of the console. -/
  | other (output : Output)

/-- What is written. -/
def Mark.outputs : Mark → List Output
  | opened | reported _ => []
  | entry line => [.outLine line]
  | other output => [output]

/-- What was shown since a session was opened. -/
structure Account where
  lines : List String
  last : Option Observation

namespace Account

/-- Nothing was shown. -/
def empty : Account := ⟨[], none⟩

/-- What was shown, with one mark more. -/
def note (a : Account) : Mark → Account
  | .opened => empty
  | .entry line => ⟨a.lines ++ [line], a.last⟩
  | .reported o => ⟨a.lines, some o⟩
  | .other _ => a

theorem note_entries (a : Account) (lines : List String) :
    (lines.map Mark.entry).foldl note a = ⟨a.lines ++ lines, a.last⟩ := by
  induction lines generalizing a with
  | nil => simp
  | cons line rest ih => simp [note, ih]

theorem note_others (a : Account) (outputs : List Output) :
    (outputs.map Mark.other).foldl note a = a := by
  induction outputs with
  | nil => rfl
  | cons output rest ih => exact ih

end Account

/-- What was shown since the last session was opened. -/
def account (marks : List Mark) : Account :=
  marks.foldl Account.note .empty

theorem outputs_entries (lines : List String) :
    (lines.map Mark.entry).flatMap Mark.outputs = lines.map Output.outLine := by
  induction lines with
  | nil => rfl
  | cons line rest ih => exact congrArg (Output.outLine line :: ·) ih

theorem outputs_others (outputs : List Output) :
    (outputs.map Mark.other).flatMap Mark.outputs = outputs := by
  induction outputs with
  | nil => rfl
  | cons output rest ih => exact congrArg (output :: ·) ih

namespace Viewer

/-- What a report does. -/
def told (v : Viewer) : List Mark :=
  let o := v.debugger.observe
  (o.console.drop v.shown).map .entry ++ (o.status.map .other ++ [.reported o])

/-- The viewer of a session that has gone on from a rest, where its lines were shown. -/
def goOn (v : Viewer) : Viewer :=
  ⟨(v.debugger.advance Script.interpreter .continue_).2, v.debugger.observe.console.length⟩

/-- A run has come to its end at the rest behind `k` others, if not before. -/
def EndsAfter (v : Viewer) (k : ℕ) : Prop :=
  (v.debugger.actAll Script.interpreter (List.replicate k (.advance .continue_))).phase = .finished

/-- What a run does up to the given number of rests. -/
def transcript : (rounds : ℕ) → Viewer → List Mark
  | 0, _ => []
  | rounds + 1, v =>
    v.told ++
      match (v.next false).2 with
      | .inl _ => []
      | .inr next => transcript rounds next

end Viewer

namespace Prompt

/-- What is done on an order. -/
def told (p : Prompt) : Order → List Mark
  | .advance gait =>
    match p.viewer.debugger.advance Script.interpreter gait with
    | (.ok (), debugger) => Viewer.told ⟨debugger, p.viewer.shown⟩
    | (.error r, _) => [.other (.errLine r.message)]
  | .restart =>
    match p.viewer.debugger.restart Script.interpreter with
    | (.ok (), debugger) => .opened :: Viewer.told ⟨debugger, 0⟩
    | (.error (.load e), _) => [.opened, .other (.errLine (p.request.describe p.source e))]
    | (.error (.refused r), _) => [.opened, .other (.errLine r.message)]
  | .print => p.viewer.told
  | order@(.toggle _) | order@.list | order@.quit | order@.help => (p.obey order).1.map .other

/-- What is done on some lines that are typed. -/
def transcript : List String → Prompt → List Mark
  | [], _ => [.other (.out promptText)]
  | line :: rest, p =>
    .other (.out promptText) ::
      match Order.ofLine? line with
      | none => transcript rest p
      | some .quit => []
      | some order => p.told order ++ transcript rest (p.obey order).2

end Prompt

/-- What a command does when some lines are typed at it. Of a run, this is what it does up to the
given number of rests. -/
def Request.transcript (r : Request) (source : String) (lines : List String) (rests : ℕ) :
    List Mark :=
  .other r.announcement ::
    match r.activity, r.open_ source with
    | .disassemble, _ => [.other (r.disassemble source).1]
    | _, .error (output, _) => [.other output]
    | .run, .ok viewer => .opened :: viewer.transcript rests
    | .debug, .ok viewer =>
      .opened :: (viewer.told ++
        Prompt.transcript lines ⟨r, source, (viewer.report false).2⟩)

/-! ### What is written for a transcript -/

namespace Viewer

variable {v : Viewer}

theorem outputs_told (v : Viewer) : v.told.flatMap Mark.outputs = (v.report false).1 := by
  rw [told, List.flatMap_append, List.flatMap_append, outputs_entries, outputs_others]
  simp [report, Mark.outputs]

theorem next_eq (v : Viewer) (json : Bool) :
    v.next json = ((v.report json).1,
      if v.debugger.phase = .finished then .inl (v.report json).2.exit
      else .inr ⟨(v.debugger.advance Script.interpreter .continue_).2,
        v.debugger.observe.console.length⟩) := by
  by_cases hphase : v.debugger.phase = .finished
  · simp only [next, report, hphase, if_true]
  · simp only [next, report, hphase, if_false]

theorem next_of_finished (hphase : v.debugger.phase = .finished) (json : Bool) :
    v.next json = ((v.report json).1, .inl (v.report json).2.exit) := by
  rw [next_eq, if_pos hphase]

theorem next_of_not_finished (hphase : v.debugger.phase ≠ .finished) (json : Bool) :
    v.next json = ((v.report json).1, .inr v.goOn) := by
  rw [next_eq, if_neg hphase]
  rfl

/-- What a run does up to its first rest, and behind it. -/
theorem transcript_of_finished (hphase : v.debugger.phase = .finished) (rests : ℕ) :
    v.transcript (rests + 1) = v.told := by
  rw [transcript, next_of_finished hphase, List.append_nil]

theorem transcript_of_not_finished (hphase : v.debugger.phase ≠ .finished) (rests : ℕ) :
    v.transcript (rests + 1) = v.told ++ v.goOn.transcript rests := by
  rw [transcript, next_of_not_finished hphase]

/-- A run that has come to its end does nothing more. -/
theorem transcript_of_endsAfter {k rests : ℕ} (hends : v.EndsAfter k) (hk : k < rests) :
    v.transcript rests = v.transcript (k + 1) := by
  obtain ⟨rests, rfl⟩ := Nat.exists_eq_add_one_of_ne_zero (Nat.ne_zero_of_lt hk)
  induction k generalizing v rests with
  | zero =>
      have hphase : v.debugger.phase = .finished := hends
      rw [transcript_of_finished hphase, transcript_of_finished hphase]
  | succ k ih =>
      by_cases hphase : v.debugger.phase = .finished
      · rw [transcript_of_finished hphase, transcript_of_finished hphase]
      · obtain ⟨rests, rfl⟩ := Nat.exists_eq_add_one_of_ne_zero
          (Nat.ne_zero_of_lt (Nat.lt_of_succ_lt_succ hk))
        have hlater : v.goOn.EndsAfter k := hends
        rw [transcript_of_not_finished hphase, transcript_of_not_finished hphase,
          ih hlater rests (Nat.lt_of_succ_lt_succ hk)]

/-- A run that has come to its end reports it, and goes on before that. -/
theorem runOut_of_finished (hphase : v.debugger.phase = .finished) (json : Bool)
    (shown : Array Output) :
    runOut json v shown = (shown ++ (v.report json).1, (v.report json).2.exit) := by
  rw [runOut_eq, next_of_finished hphase]

theorem runOut_of_not_finished (hphase : v.debugger.phase ≠ .finished) (json : Bool)
    (shown : Array Output) :
    runOut json v shown = runOut json v.goOn (shown ++ (v.report json).1) := by
  rw [runOut_eq, next_of_not_finished hphase]

theorem outputs_transcript_of_finished (hphase : v.debugger.phase = .finished) (rests : ℕ)
    (shown : Array Output) :
    (runOut false v shown).1.toList =
      shown.toList ++ (v.transcript (rests + 1)).flatMap Mark.outputs := by
  rw [runOut_of_finished hphase, transcript_of_finished hphase, outputs_told]
  simp

/-- **A run that has come to its end** has written what its transcript says. -/
theorem outputs_transcript {k : ℕ} (hends : v.EndsAfter k) (shown : Array Output) :
    (runOut false v shown).1.toList =
      shown.toList ++ (v.transcript (k + 1)).flatMap Mark.outputs := by
  induction k generalizing v shown with
  | zero => exact outputs_transcript_of_finished hends 0 shown
  | succ k ih =>
      by_cases hphase : v.debugger.phase = .finished
      · exact outputs_transcript_of_finished hphase (k + 1) shown
      · have hlater : v.goOn.EndsAfter k := hends
        rw [runOut_of_not_finished hphase, ih hlater, transcript_of_not_finished hphase,
          List.flatMap_append, outputs_told]
        simp

/-- **A run that has not come to its end** goes on behind what its transcript says. -/
theorem runOut_of_not_endsAfter {k : ℕ} (hgoes : ∀ j < k, ¬v.EndsAfter j) (shown : Array Output) :
    runOut false v shown =
      runOut false (goOn^[k] v) (shown ++ (v.transcript k).flatMap Mark.outputs) := by
  induction k generalizing v shown with
  | zero => simp [transcript]
  | succ k ih =>
      have hphase : v.debugger.phase ≠ .finished := hgoes 0 (Nat.succ_pos k)
      have hlater : ∀ j < k, ¬v.goOn.EndsAfter j := fun j hj => hgoes (j + 1) (Nat.succ_lt_succ hj)
      have hjoin : ∀ later : List Output, shown ++ ((v.report false).1 ++ later) =
          shown ++ (v.report false).1 ++ later := fun later => Array.toList_inj.1 (by simp)
      rw [runOut_of_not_finished hphase, transcript_of_not_finished hphase,
        Function.iterate_succ_apply, List.flatMap_append, outputs_told, hjoin]
      exact ih hlater (shown ++ (v.report false).1)

end Viewer

namespace Prompt

variable {p : Prompt}

theorem obey_request (p : Prompt) (order : Order) : (p.obey order).2.request = p.request := by
  cases order with
  | advance gait =>
      rw [obey, advance.eq_def]
      dsimp only
      split <;> rfl
  | restart =>
      rw [obey, restart.eq_def]
      dsimp only
      split <;> rfl
  | print => rfl
  | toggle line =>
      cases line with
      | none => rfl
      | some line =>
          rw [obey, toggle.eq_def]
          dsimp only
          split <;> rfl
  | list => rfl
  | quit => rfl
  | help => rfl

theorem outputs_told (hjson : p.request.options.json = false) (order : Order) :
    (p.told order).flatMap Mark.outputs = (p.obey order).1 := by
  obtain ⟨request, source, ⟨debugger, shown⟩⟩ := p
  have hreport : ∀ v : Viewer, v.told.flatMap Mark.outputs =
      (report ⟨request, source, v⟩).1 := by
    intro v
    rw [Viewer.outputs_told, ← hjson]
    rfl
  cases order with
  | advance gait =>
      rcases hadvance : debugger.advance Script.interpreter gait with ⟨⟨⟩ | ⟨⟩, next⟩
      · simp only [told, obey, advance, hadvance]
        rfl
      · simp only [told, obey, advance, hadvance]
        exact hreport _
  | restart =>
      rcases hrestart : debugger.restart Script.interpreter with ⟨⟨e | r⟩ | ⟨⟩, next⟩
      · simp only [told, obey, restart, hrestart]
        rfl
      · simp only [told, obey, restart, hrestart]
        rfl
      · simp only [told, obey, restart, hrestart]
        exact hreport _
  | print => exact hreport _
  | toggle line => exact outputs_others _
  | list => exact outputs_others _
  | quit => exact outputs_others _
  | help => exact outputs_others _

/-- Orders are obeyed, except the one to end. -/
theorem answer_of_order {line : String} {order : Order} (h : Order.ofLine? line = some order)
    (hquit : order ≠ .quit) : p.answer line = ((p.obey order).1, .inr (p.obey order).2) := by
  rw [answer, h]
  cases order with
  | quit => exact absurd rfl hquit
  | _ => rfl

theorem transcript_of_order {line : String} {order : Order} (h : Order.ofLine? line = some order)
    (hquit : order ≠ .quit) (rest : List String) (p : Prompt) :
    p.transcript (line :: rest) =
      .other (.out promptText) :: (p.told order ++ (p.obey order).2.transcript rest) := by
  rw [transcript, h]
  cases order with
  | quit => exact absurd rfl hquit
  | _ => rfl

theorem outputs_transcript (hjson : p.request.options.json = false) (lines : List String)
    (said : Array Output) :
    (p.dialogue lines said).1.toList =
      said.toList ++ (p.transcript lines).flatMap Mark.outputs := by
  induction lines generalizing p said with
  | nil => simp [dialogue, transcript, Mark.outputs]
  | cons line rest ih =>
      cases horder : Order.ofLine? line with
      | none =>
          have hanswer : p.answer line = ([], .inr p) := by rw [answer, horder]
          rw [dialogue, hanswer]
          simp [transcript, horder, ih hjson, Mark.outputs]
      | some order =>
          by_cases hquit : order = .quit
          · subst hquit
            have hanswer : p.answer line = ([], .inl p.viewer.exit) := by rw [answer, horder]
            rw [dialogue, hanswer]
            simp [transcript, horder, Mark.outputs]
          · have hjson' : (p.obey order).2.request.options.json = false := by
              rw [obey_request, hjson]
            rw [dialogue, answer_of_order horder hquit, transcript_of_order horder hquit]
            simp [ih hjson', outputs_told hjson, Mark.outputs]

end Prompt

/-- The request is no run, or it comes to its end within the given number of rests. -/
def Request.EndsWithin (r : Request) (source : String) (rests : ℕ) : Prop :=
  ∀ viewer, r.activity = .run → r.open_ source = .ok viewer → ∃ k < rests, viewer.EndsAfter k

/-- **A command that comes to its end** writes what its transcript says. -/
theorem Request.outputs_transcript {r : Request} {source : String} {rests : ℕ}
    (hjson : r.options.json = false) (hends : r.EndsWithin source rests) (input : String) :
    (r.perform source input).1.toList =
      (r.transcript source (inputLines input) rests).flatMap Mark.outputs := by
  rw [perform.eq_def, transcript.eq_def]
  cases hactivity : r.activity with
  | disassemble => simp [Mark.outputs]
  | run =>
      cases hopen : r.open_ source with
      | error e => simp [Mark.outputs]
      | ok viewer =>
          obtain ⟨k, hk, hlast⟩ := hends viewer hactivity hopen
          simp [hjson, Viewer.outputs_transcript hlast, Viewer.transcript_of_endsAfter hlast hk,
            Mark.outputs]
  | debug =>
      cases hopen : r.open_ source with
      | error e => simp [Mark.outputs]
      | ok viewer =>
          have hdialogue := Prompt.outputs_transcript
            (p := ⟨r, source, (viewer.report false).2⟩) hjson (inputLines input)
          simp [Prompt.report, hdialogue, hjson, Viewer.outputs_told, Mark.outputs]

/-- **A run that has not come to its end** has written what its transcript says, and goes on. -/
theorem Request.perform_of_not_endsAfter {r : Request} {source : String} {viewer : Viewer} {k : ℕ}
    (hjson : r.options.json = false) (hactivity : r.activity = .run)
    (hopen : r.open_ source = .ok viewer) (hgoes : ∀ j < k, ¬viewer.EndsAfter j)
    (input : String) :
    r.perform source input = runOut false (Viewer.goOn^[k] viewer)
      ((r.transcript source (inputLines input) k).flatMap Mark.outputs).toArray := by
  rw [perform.eq_def, transcript.eq_def]
  simp [hactivity, hopen, hjson, Viewer.runOut_of_not_endsAfter hgoes, Mark.outputs]

/-! ### Accounts stay in step -/

/-- What was shown so far are lines of the session, from the first one on. -/
structure Viewer.Behind (source : String) (s : Machine) (v : Viewer) (a : Account) : Prop where
  source : v.debugger.source = some source
  replays : v.debugger.Replays Script.interpreter s
  lines : a.lines = v.debugger.observe.console.take v.shown

/-- What was shown are all lines of the session, and what was reported last is what is seen now. -/
structure Viewer.Settled (source : String) (s : Machine) (v : Viewer) (a : Account) : Prop
    extends v.Behind source s a where
  shown : v.shown = v.debugger.observe.console.length
  account : a = ⟨v.debugger.observe.console, some v.debugger.observe⟩

namespace Viewer

variable {source : String} {s : Machine} {v : Viewer} {a : Account}

/-- **A report shows what was not shown yet.** -/
theorem Behind.note_told (h : v.Behind source s a) :
    v.told.foldl Account.note a = ⟨v.debugger.observe.console, some v.debugger.observe⟩ := by
  rw [told, List.foldl_append, List.foldl_append, Account.note_entries, Account.note_others,
    h.lines, List.take_append_drop]
  rfl

theorem Behind.settled_report (h : v.Behind source s a) (json : Bool) :
    (v.report json).2.Settled source s (v.told.foldl Account.note a) where
  source := h.source
  replays := h.replays
  lines := by
    rw [h.note_told]
    exact (List.take_length).symm
  shown := rfl
  account := h.note_told

/-- Going on leaves the lines that were shown in front. -/
theorem Settled.advance (h : v.Settled source s a) (gait : Gait) :
    Viewer.Behind source s ⟨(v.debugger.advance Script.interpreter gait).2, v.shown⟩ a where
  source := by
    have hsource := Debugger.source_act (I := Script.interpreter) (d := v.debugger) (.advance gait)
    exact hsource.trans h.source
  replays := Debugger.Replays.act h.replays (a := .advance gait) rfl
  lines := by
    have hprefix := h.replays.console_advance gait
    rw [h.lines, h.shown, List.take_length]
    exact List.prefix_iff_eq_take.1 hprefix

/-- A session that is opened has shown nothing yet. -/
theorem behind_start (d : Debugger Machine) (hload : Script.interpreter.load source = .ok s) :
    Viewer.Behind source s ⟨(d.start Script.interpreter source).2, 0⟩ .empty where
  source := Debugger.source_start source
  replays := Debugger.replays_start d hload
  lines := List.take_zero.symm

/-- A breakpoint that is set or cleared leaves the session as it is. -/
theorem Settled.toggle (h : v.Settled source s a) (line : ℕ) :
    Viewer.Settled source s ⟨(v.debugger.toggle line).2, v.shown⟩ a := by
  have hobserve : (v.debugger.toggle line).2.observe = v.debugger.observe :=
    Debugger.observe_congr (v.debugger.toggle_session line)
  have hsource := Debugger.source_act (I := Script.interpreter) (d := v.debugger) (.toggle line)
  refine ⟨⟨hsource.trans h.source, ?_, ?_⟩, ?_, ?_⟩
  · exact Debugger.Replays.act h.replays (a := .toggle line) rfl
  · rw [hobserve]
    exact h.lines
  · rw [hobserve]
    exact h.shown
  · rw [hobserve]
    exact h.account

end Viewer

namespace Prompt

variable {source : String} {s : Machine} {p : Prompt} {a : Account}

theorem settled_advance (h : p.viewer.Settled source s a) (gait : Gait) :
    (p.advance gait).2.viewer.Settled source s
      ((p.told (.advance gait)).foldl Account.note a) := by
  obtain ⟨request, text, ⟨debugger, shown⟩⟩ := p
  have hnext := h.advance gait
  rcases hadvance : debugger.advance Script.interpreter gait with ⟨⟨r⟩ | ⟨⟩, next⟩
  · have hsame : (debugger.advance Script.interpreter gait).2 = debugger :=
      Debugger.advance_error (by rw [hadvance])
    rw [hadvance] at hsame
    change next = debugger at hsame
    subst hsame
    simp only [told, advance, hadvance]
    exact h
  · simp only [hadvance] at hnext
    simp only [told, advance, hadvance]
    exact hnext.settled_report request.options.json

theorem settled_restart (h : p.viewer.Settled source s a)
    (hload : Script.interpreter.load source = .ok s) :
    p.restart.2.viewer.Settled source s ((p.told .restart).foldl Account.note a) := by
  obtain ⟨request, text, ⟨debugger, shown⟩⟩ := p
  have hrestart := Debugger.restart_of_load h.source hload
  have hnext := Viewer.behind_start debugger hload
  simp only [told, restart, hrestart]
  exact hnext.settled_report request.options.json

/-- **No order disturbs the account.** -/
theorem settled_obey (h : p.viewer.Settled source s a)
    (hload : Script.interpreter.load source = .ok s) (order : Order) :
    (p.obey order).2.viewer.Settled source s ((p.told order).foldl Account.note a) := by
  have hothers : ∀ outputs : List Output, (outputs.map Mark.other).foldl Account.note a = a :=
    a.note_others
  cases order with
  | advance gait => exact settled_advance h gait
  | restart => exact settled_restart h hload
  | print => exact h.toBehind.settled_report p.request.options.json
  | toggle line =>
      rw [told, hothers]
      cases line with
      | none => exact h
      | some line =>
          have hnext := h.toggle line
          obtain ⟨request, text, ⟨debugger, shown⟩⟩ := p
          simp only [obey, toggle]
          rcases htoggle : debugger.toggle line with ⟨⟨r⟩ | ⟨isSet⟩, next⟩
          · simp only [htoggle] at hnext
            exact hnext
          · simp only [htoggle] at hnext
            exact hnext
  | list =>
      rw [told, hothers]
      exact h
  | quit =>
      rw [told, hothers]
      exact h
  | help =>
      rw [told, hothers]
      exact h

/-- **However a dialogue goes on, what was shown is what was reported last.** -/
theorem account_transcript (h : p.viewer.Settled source s a)
    (hload : Script.interpreter.load source = .ok s) (lines : List String) :
    ∃ o, (p.transcript lines).foldl Account.note a = ⟨o.console, some o⟩ := by
  induction lines generalizing p a with
  | nil => exact ⟨_, h.account⟩
  | cons line rest ih =>
      cases horder : Order.ofLine? line with
      | none =>
          have hrest := ih h
          simp only [transcript, horder]
          exact hrest
      | some order =>
          by_cases hquit : order = .quit
          · subst hquit
            simp only [transcript, horder]
            exact ⟨_, h.account⟩
          · rw [transcript_of_order horder hquit, List.foldl_cons, List.foldl_append]
            exact ih (settled_obey h hload order)

end Prompt

/-! ### Runs -/

namespace Viewer

variable {source : String} {s : Machine} {v : Viewer} {a : Account}

/-- **At each rest of a run, what was shown is what the session has written.** -/
theorem account_transcript (h : v.Behind source s a) (k : ℕ) :
    let d := v.debugger.actAll Script.interpreter (List.replicate k (.advance .continue_))
    (v.transcript (k + 1)).foldl Account.note a = ⟨d.observe.console, some d.observe⟩ := by
  induction k generalizing v a with
  | zero =>
      intro d
      by_cases hphase : v.debugger.phase = .finished
      · rw [transcript_of_finished hphase, h.note_told]
        rfl
      · rw [transcript_of_not_finished hphase, List.foldl_append, h.note_told]
        rfl
  | succ k ih =>
      intro d
      by_cases hphase : v.debugger.phase = .finished
      · have hsame : d = v.debugger := Debugger.actAll_of_finished hphase .continue_ (k + 1)
        rw [transcript_of_finished hphase, h.note_told, hsame]
      · have hsettled := h.settled_report false
        rw [transcript_of_not_finished hphase, List.foldl_append]
        exact ih (hsettled.advance .continue_)

end Viewer

/-! ### Commands -/

/-- A request that is carried out has loaded its script. -/
theorem Request.behind_open {r : Request} {source : String} {viewer : Viewer}
    (h : r.open_ source = .ok viewer) :
    ∃ s, Script.interpreter.load source = .ok s ∧ viewer.Behind source s .empty := by
  rw [open_] at h
  split at h
  next => cases h
  next d hd =>
    split at h
    next => cases h
    next e hstart =>
      cases h
      have hok : (d.start Script.interpreter source).1 = .ok () := by rw [hstart]
      obtain ⟨s, hload⟩ := Debugger.load_of_start hok
      have hbehind := Viewer.behind_start d hload
      rw [hstart] at hbehind
      exact ⟨s, hload, hbehind⟩

/-- **Each line of the console is shown once.** A command that does not write documents writes what
its transcript says: up to its end, if it has one, and behind each rest of a run before that. Whatever
is typed at the debugger, the lines of the console that were shown since a session was last opened
are the console of the state that was reported last, and some state was. The lines that a run shows
up to one of its rests are the console at this rest; if it has finished, these are all lines that it
ever shows. A script that cannot be opened shows none. -/
theorem console_shown_once (r : Request) (source : String) (hjson : r.options.json = false) :
    (∀ input rests, r.EndsWithin source rests → (r.perform source input).1.toList =
      (r.transcript source (inputLines input) rests).flatMap Mark.outputs) ∧
    (∀ e lines rests, r.open_ source = .error e →
      account (r.transcript source lines rests) = .empty) ∧
    ∀ viewer, r.open_ source = .ok viewer →
      (r.activity = .debug → ∀ lines rests, ∃ o,
        account (r.transcript source lines rests) = ⟨o.console, some o⟩) ∧
      (r.activity = .run → ∀ k,
        let d := viewer.debugger.actAll Script.interpreter (List.replicate k (.advance .continue_))
        (∀ lines, account (r.transcript source lines (k + 1)) =
          ⟨d.observe.console, some d.observe⟩) ∧
        (viewer.EndsAfter k → ∀ lines, ∀ rests > k,
          account (r.transcript source lines rests) = ⟨d.observe.console, some d.observe⟩) ∧
        ((∀ j < k, ¬viewer.EndsAfter j) → ∀ input,
          r.perform source input = runOut false (Viewer.goOn^[k] viewer)
            ((r.transcript source (inputLines input) k).flatMap Mark.outputs).toArray)) := by
  refine ⟨fun input rests hends => Request.outputs_transcript hjson hends input,
    fun e lines rests hopen => ?_, fun viewer hopen => ?_⟩
  · cases hactivity : r.activity with
    | disassemble =>
        simp only [Request.transcript, hactivity]
        rfl
    | run =>
        simp only [Request.transcript, hactivity, hopen]
        rfl
    | debug =>
        simp only [Request.transcript, hactivity, hopen]
        rfl
  · obtain ⟨s, hload, hbehind⟩ := Request.behind_open hopen
    refine ⟨fun hactivity lines rests => ?_, fun hactivity k => ?_⟩
    · have hdialogue := Prompt.account_transcript (p := ⟨r, source, (viewer.report false).2⟩)
        (hbehind.settled_report false) hload lines
      simp only [Request.transcript, hactivity, hopen]
      rw [account, List.foldl_cons, List.foldl_cons, List.foldl_append]
      exact hdialogue
    · intro d
      have hrest : ∀ lines, account (r.transcript source lines (k + 1)) =
          ⟨d.observe.console, some d.observe⟩ := by
        intro lines
        simp only [Request.transcript, hactivity, hopen]
        exact Viewer.account_transcript hbehind k
      refine ⟨hrest, fun hends lines rests hk => ?_, fun hgoes input =>
        Request.perform_of_not_endsAfter hjson hactivity hopen hgoes input⟩
      rw [← hrest lines]
      simp only [Request.transcript, hactivity, hopen, Viewer.transcript_of_endsAfter hends hk]

/-- A script that is paused, run to its end and started over: its line is shown again, and once.
Where it is only run, it comes to its end behind one rest, with both of its lines. -/
theorem console_shown_once_restarted :
    let r : Request := ⟨.debug, "script.js", { breakpoints := [2] }⟩
    let source := "console.log(true);\ntrue;\nconsole.log(null);"
    let shown := account (r.transcript source ["c", "r", "p"] 0)
    r.options.json = false ∧ shown.lines = ["true"] ∧ (∃ o, shown = ⟨o.console, some o⟩) ∧
    let run : Request := { r with activity := .run }
    run.EndsWithin source 2 ∧
      (∀ input, (run.perform source input).1.toList =
        (run.transcript source (inputLines input) 2).flatMap Mark.outputs) ∧
      (account (run.transcript source [] 2)).lines = ["true", "null"] := by
  intro r source shown
  have hok : (r.open_ source).toOption.isSome = true := by decide +kernel
  cases hopen : r.open_ source with
  | error e =>
      rw [hopen] at hok
      cases hok
  | ok viewer =>
      have hlines : shown.lines = ["true"] := by decide +kernel
      have hshown := ((console_shown_once r source rfl).2.2 viewer hopen).1 rfl ["c", "r", "p"] 0
      have hphase : (r.open_ source).toOption.map (fun v => (v.debugger.actAll Script.interpreter
          (List.replicate 1 (.advance .continue_))).phase) = some .finished := by decide +kernel
      have hends : Request.EndsWithin { r with activity := .run } source 2 := by
        intro v _ hv
        obtain rfl : viewer = v := Except.ok.inj (hopen.symm.trans hv)
        rw [hopen] at hphase
        exact ⟨1, Nat.one_lt_two, Option.some.inj hphase⟩
      exact ⟨rfl, hlines, hshown, hends,
        fun input => (console_shown_once { r with activity := .run } source rfl).1 input 2 hends,
        by decide +kernel⟩

end Tracepoint
