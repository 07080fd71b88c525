/-
The lines at which a machine stands.

A frame runs the program or a function that is compiled from a part of its tree, since no other
functions are ever made.  So the next instruction belongs to a line of the tree, or it is the first
one of the program.  If the code is small enough for its jumps, nothing leads back to that one: up
to the first fault, it is behind the frame of the program once there was a step.

Main definitions:

* `Frame.Led` — what a step makes of the frames, whether or not it fails;
* `Frame.Past` — a frame that does not stand at the first instruction of the program.

Main results:

* `Exec.led_execute`, `Machine.Intact.led` — **what every step does to frames**;
* `Machine.currentLine_machineAfter` — a machine stands at a line of the tree, or at the first line;
* `Machine.currentLine_of_calm` — past its first step it stands **only at lines of the tree**.
-/

import Tracepoint.Proofs.Code.Lines
import Tracepoint.Proofs.Machine.Frames
import Tracepoint.Proofs.Machine.Integrity
import Tracepoint.Proofs.Machine.Locality

set_option relaxedAutoImplicit false
set_option autoImplicit false

namespace Tracepoint

/-! ### What a step makes of the frames -/

/-- What a step makes of the frames, of which the running one has the code `p`, whether or not it
fails. A function that is entered is of a certain kind. -/
inductive Frame.Led (G : Proto → Prop) (p : Proto) (callers : List Frame) : List Frame → Prop
  /-- The running frame goes on. -/
  | on {f : Frame} (same : f.proto = p) : Led G p callers (f :: callers)
  /-- A function is entered, and the running frame waits. -/
  | call {inner f : Frame} (kind : G inner.proto) (same : f.proto = p) :
      Led G p callers (inner :: f :: callers)
  /-- The running frame ends. -/
  | ret : Led G p callers callers
  /-- All frames end. -/
  | halt : Led G p callers []

/-- Two frames in the place of one are a function that was entered and the frame that waits. -/
theorem Frame.Led.kind {G : Proto → Prop} {p : Proto} {callers frames : List Frame}
    {inner waiting : Frame} (h : Frame.Led G p callers frames)
    (hframes : frames = inner :: waiting :: callers) : G inner.proto := by
  have hlength := congrArg List.length hframes
  simp only [List.length_cons] at hlength
  cases h with
  | on same =>
      simp only [List.length_cons] at hlength
      omega
  | call kind same => exact (List.cons.inj hframes).1 ▸ kind
  | ret => omega
  | halt => cases hframes

namespace Exec

variable {α : Type} {G : Proto → Prop} {m : Machine} {f : Frame} {callers : List Frame}

theorem after_then_pure {β : Type} (x : Exec α) (b : β) (m : Machine) :
    after (x >>= fun _ => pure b) m = after x m := by
  simp only [after, Bind.bind, EStateM.bind]
  cases x m with
  | ok a m' => rfl
  | error e m' => rfl

theorem led_of_gentle {x : Exec α} {k : ℕ} (hx : Gentle k x) (hframes : m.frames = f :: callers) :
    Frame.Led G f.proto callers (after x m).frames := by
  have hgentle := hx m
  simp only [after]
  cases hrun : x m with
  | ok a m' =>
      rw [hrun] at hgentle
      obtain ⟨offset, scope, heq⟩ := hgentle.frames f callers hframes
      exact heq ▸ .on rfl
  | error e m' =>
      rw [hrun] at hgentle
      obtain ⟨offset, scope, heq⟩ := hgentle.1.frames f callers hframes
      exact heq ▸ .on rfl

/-- Before a call, operands are taken, which are backed. -/
theorem led_bind {β : Type} {x : Exec α} {g : α → Exec β} {P : Machine → α → Prop} {k : ℕ}
    (hkeeps : Keeps False G m x P) (hgentle : Gentle k x) (hframes : m.frames = f :: callers)
    (hrest : ∀ a m' f', m'.Intact G → P m' a → m'.frames = f' :: callers →
      f'.proto = f.proto → Frame.Led G f'.proto callers (after (g a) m').frames) :
    Frame.Led G f.proto callers (after (x >>= g) m).frames := by
  have hnear := hgentle m
  simp only [Keeps] at hkeeps
  simp only [after, Bind.bind, EStateM.bind] at hrest ⊢
  cases hrun : x m with
  | ok a m' =>
      rw [hrun] at hkeeps hnear
      obtain ⟨offset, scope, heq⟩ := hnear.frames f callers hframes
      exact hrest a m' ⟨f.proto, offset, scope, f.base⟩ hkeeps.1 hkeeps.2.2 heq rfl
  | error e m' =>
      rw [hrun] at hnear
      obtain ⟨offset, scope, heq⟩ := hnear.1.frames f callers hframes
      exact heq ▸ .on rfl

theorem led_enter (hframes : m.frames = f :: callers) {g : Closure} (hg : G g.proto)
    (arguments : List Value) :
    Frame.Led G f.proto callers (after (enter g arguments) m).frames := by
  have hstays : Frame.Led G f.proto callers m.frames := hframes ▸ .on rfl
  by_cases hlimit : callLimit < m.frames.length
  · have hthrow : enter g arguments m = .error .stackOverflow m := by
      change (if callLimit < m.frames.length then throw Fault.stackOverflow else _ : Exec Unit) m = _
      rw [if_pos hlimit]
      rfl
    simp only [after, hthrow]
    exact hstays
  · cases hopen : Act.openCall g.scope g.proto.parameters arguments m.toStore with
    | error e s' => cases hopen
    | ok scope s' =>
        have hrun : enter g arguments m = .ok () ⟨s', ⟨g.proto, 0, scope, m.stack.length⟩ ::
            m.frames, m.stack, m.halted⟩ := by
          simp only [enter, bind, EStateM.bind, get, getThe, MonadStateOf.get, EStateM.get,
            if_neg hlimit, liftM, monadLift, MonadLift.monadLift, hopen]
          rfl
        simp only [after, hrun, hframes]
        exact .call hg rfl

theorem led_call (hm : m.Intact G) (hframes : m.frames = f :: callers) (count : ℕ) :
    Frame.Led G f.proto callers (after (call count) m).frames := by
  refine led_bind (keeps_popMany hm count) (gentle_popMany count) hframes
    fun arguments m₁ f₁ hm₁ _ hframes₁ _ => ?_
  refine led_bind (keeps_pop hm₁) gentle_pop hframes₁ fun callee m₂ f₂ hm₂ hcallee hframes₂ _ => ?_
  cases callee with
  | function g =>
      rw [after_then_pure]
      exact led_enter hframes₂ hcallee.1 arguments
  | native g => exact led_of_gentle (Act.spares_callNative g arguments).writes hframes₂
  | _ => exact (show m₂.frames = _ from hframes₂) ▸ .on rfl

theorem led_ret (hframes : m.frames = f :: callers) :
    Frame.Led G f.proto callers (after ret m).frames := by
  obtain ⟨store, frames, stack, halted⟩ := m
  obtain rfl : frames = f :: callers := hframes
  cases stack with
  | nil => exact .on rfl
  | cons v rest => exact .ret

/-- **What every instruction does to frames.** -/
theorem led_execute (hm : m.Intact G) (hframes : m.frames = f :: callers) (proto : Proto)
    (i : Instr) : Frame.Led G f.proto callers (after (execute proto i) m).frames := by
  by_cases hcall : ∃ w, i = .call w
  · obtain ⟨w, rfl⟩ := hcall
    exact led_call hm hframes w.toNat
  by_cases hret : i = .ret
  · subst hret
    exact after_then_pure ret _ m ▸ led_ret hframes
  by_cases hhalt : i = .halt
  · subst hhalt
    exact .halt
  exact led_of_gentle (gentle_execute proto (fun w hw => hcall ⟨w, hw⟩) hret hhalt) hframes

end Exec

namespace Machine

variable {G : Proto → Prop} {m : Machine}

/-- **What every step does to frames.** -/
theorem Intact.led (hm : m.Intact G) :
    m.step.1.frames = m.frames ∨
      ∃ f callers, m.frames = f :: callers ∧ Frame.Led G f.proto callers m.step.1.frames := by
  rcases m.step_cases with ⟨-, hsame | hend⟩ | ⟨f, callers, i, next, hframes, -, hstep⟩
  · exact .inl (congrArg Machine.frames hsame)
  · exact .inl (by rw [hend])
  · refine .inr ⟨f, callers, hframes, ?_⟩
    rw [hstep]
    exact Exec.led_execute (f := { f with offset := next }) (hm.ahead hframes next) rfl f.proto i

/-- What can be said of the code of all frames can be said of it behind a step, if it can be said
of all functions. -/
theorem Intact.frames_step (hm : m.Intact G) {P : Proto → Prop} (hG : ∀ p, G p → P p)
    (hframes : ∀ f ∈ m.frames, P f.proto) : ∀ f ∈ m.step.1.frames, P f.proto := by
  rcases hm.led with hsame | ⟨f, callers, hrunning, hled⟩
  · rwa [hsame]
  rw [hrunning] at hframes
  obtain ⟨hf, hcallers⟩ := List.forall_mem_cons.1 hframes
  generalize m.step.1.frames = frames at hled
  cases hled with
  | on same => exact List.forall_mem_cons.2 ⟨same ▸ hf, hcallers⟩
  | call kind same =>
      exact List.forall_mem_cons.2 ⟨hG _ kind, List.forall_mem_cons.2 ⟨same ▸ hf, hcallers⟩⟩
  | ret => exact hcallers
  | halt => exact List.forall_mem_nil _

/-- A function that is entered is of a certain kind. -/
theorem Intact.kind_of_entered (hm : m.Intact G) {f inner waiting : Frame} {callers : List Frame}
    (hframes : m.frames = f :: callers) (hstep : m.step.1.frames = inner :: waiting :: callers) :
    G inner.proto := by
  rcases hm.led with hsame | ⟨f', callers', hframes', hled⟩
  · have hlength := congrArg List.length (hstep.symm.trans (hsame.trans hframes))
    simp only [List.length_cons] at hlength
    omega
  · obtain ⟨rfl, rfl⟩ := List.cons.inj (hframes.symm.trans hframes')
    exact hled.kind hstep

end Machine

/-! ### Frames of a run -/

section

variable {L : ℕ → Prop} {program : Program}

/-- The code of all frames is that of the program or of a part of it. -/
theorem drawn_machineAfter (hplaced : stmtsPlaced false false program)
    (hlined : stmtsLined L program) (n : ℕ) :
    (machineAfter program n).Intact (Proto.Drawn L) ∧
      ∀ f ∈ (machineAfter program n).frames,
        f.proto = compileProgram program ∨ f.proto.Drawn L := by
  obtain ⟨-, -, -, hfunctions⟩ := emitted_compileProgram hplaced hlined
  induction n with
  | zero =>
      refine ⟨Machine.intact_start hfunctions, fun f hf => .inl ?_⟩
      rw [List.mem_singleton.1 hf]
  | succ n ih =>
      obtain ⟨hintact, hframes⟩ := ih
      rw [machineAfter_succ]
      exact ⟨(hintact.step fun _ hp => hp.inner).1,
        hintact.frames_step (P := fun p => p = compileProgram program ∨ p.Drawn L)
          (fun _ => .inr) hframes⟩

/-- The frame does not stand at the first instruction of the program. -/
def Frame.Past (L : ℕ → Prop) (program : Program) (f : Frame) : Prop :=
  f.proto.Drawn L ∨ f.proto = compileProgram program ∧ 0 < f.offset

/-- A frame that goes on, or waits behind its call, is past the first instruction. -/
theorem Frame.past_of_pos {f : Frame} (hf : f.proto = compileProgram program ∨ f.proto.Drawn L)
    {target base : ℕ} {scope : ScopeId}
    (hpos : f.proto = compileProgram program → 0 < target) :
    Frame.Past L program ⟨f.proto, target, scope, base⟩ := by
  rcases hf with hprogram | hdrawn
  · exact .inr ⟨hprogram, hpos hprogram⟩
  · exact .inl hdrawn

/-- **A step leaves the first instruction behind**, and nothing leads back. -/
theorem past_of_step (hlies : programLies program) (hplaced : stmtsPlaced false false program)
    (hlined : stmtsLined L program) (n : ℕ)
    (hcalm : ∀ k < n + 1, ∀ e, (machineAfter program k).step.2.2 ≠ .fault e)
    (hbelow : ∀ f ∈ (machineAfter program n).frames.tail, f.Past L program) :
    ∀ f ∈ (machineAfter program (n + 1)).frames, f.Past L program := by
  obtain ⟨hintact, hkinds⟩ := drawn_machineAfter hplaced hlined n
  obtain ⟨hrooted, horderly⟩ :=
    orderly_machineAfter hlies n fun k hk => hcalm k (Nat.lt_succ_of_lt hk)
  rw [machineAfter_succ]
  cases hhalted : (machineAfter program n).halted with
  | true =>
      rw [Machine.step_of_halted hhalted]
      cases horderly with
      | running running _ =>
          rw [hhalted] at running
          cases running
      | halted _ frames _ =>
          rw [frames]
          exact List.forall_mem_nil _
  | false =>
      obtain ⟨f, callers, entry, below, σ, i, next, -, hhas, hprepared, -, -, -, hmoves⟩ :=
        horderly.moves hlies hrooted hhalted (hcalm n (Nat.lt_succ_self n))
      have hframes := hprepared.frames
      rw [hframes] at hkinds hbelow
      have hf := hkinds f List.mem_cons_self
      cases hmoves with
      | on leads frames height turns running =>
          rw [frames]
          refine List.forall_mem_cons.2 ⟨Frame.past_of_pos hf fun hprogram => ?_, hbelow⟩
          exact (hprogram ▸ hhas.gives).pos_of_successor hlies (hprogram ▸ hprepared.lies) leads
      | call isCall frames compiled first base height running =>
          have hkind := hintact.kind_of_entered hframes frames
          rw [frames]
          refine List.forall_mem_cons.2 ⟨.inl hkind, List.forall_mem_cons.2
            ⟨Frame.past_of_pos hf fun _ => ?_, hbelow⟩⟩
          rw [hprepared.lies.stop_eq]
          exact Nat.add_pos_right _ i.size_pos
      | ret isRet frames height running => exact frames ▸ hbelow
      | halt isHalt frames stack halted =>
          rw [frames]
          exact List.forall_mem_nil _

/-- Behind its first step a program never comes back to its first instruction, up to the first
fault. -/
theorem past_machineAfter (hlies : programLies program) (hplaced : stmtsPlaced false false program)
    (hlined : stmtsLined L program) (n : ℕ)
    (hcalm : ∀ k < n + 1, ∀ e, (machineAfter program k).step.2.2 ≠ .fault e) :
    ∀ f ∈ (machineAfter program (n + 1)).frames, f.Past L program := by
  induction n with
  | zero =>
      -- At the start there is one frame only.
      have hstart : (machineAfter program 0).frames.tail = [] := rfl
      refine past_of_step hlies hplaced hlined 0 hcalm ?_
      rw [hstart]
      exact List.forall_mem_nil _
  | succ n ih =>
      have hframes := ih fun k hk => hcalm k (Nat.lt_succ_of_lt hk)
      exact past_of_step hlies hplaced hlined (n + 1) hcalm fun f hf =>
        hframes f (List.mem_of_mem_tail hf)

/-! ### Lines -/

namespace Machine

variable {line : ℕ}

/-- The line of a machine is that of its running frame. -/
theorem exists_frame_of_currentLine {m : Machine} (h : m.currentLine = some line) :
    ∃ f ∈ m.frames, f.proto.chunk.lineAt f.offset = some line ∧ 0 < line := by
  rw [currentLine] at h
  split at h
  · cases h
  · split at h
    next => cases h
    next f callers hframes =>
      obtain ⟨hline, hpos⟩ := Option.filter_eq_some_iff.1 h
      exact ⟨f, hframes ▸ List.mem_cons_self, hline, of_decide_eq_true hpos⟩

/-- A machine stands at a line of the tree, or at the first line. -/
theorem currentLine_machineAfter (hplaced : stmtsPlaced false false program)
    (hlined : stmtsLined L program) {n : ℕ}
    (h : (machineAfter program n).currentLine = some line) : L line ∨ line = 1 := by
  obtain ⟨f, hf, hline, hpos⟩ := exists_frame_of_currentLine h
  rcases (drawn_machineAfter hplaced hlined n).2 f hf with hprogram | hdrawn
  · rw [hprogram] at hline
    rcases lineAt_compileProgram hplaced hlined hline with ⟨-, hfirst⟩ | hmem | hzero
    · exact .inr hfirst
    · exact .inl hmem
    · omega
  · exact .inl (hdrawn.lineAt hline)

/-- **Past its first step a machine stands only at lines of the tree**, up to the first fault. -/
theorem currentLine_of_calm (hlies : programLies program)
    (hplaced : stmtsPlaced false false program) (hlined : stmtsLined L program) {n : ℕ}
    (hcalm : ∀ k < n + 1, ∀ e, (machineAfter program k).step.2.2 ≠ .fault e)
    (h : (machineAfter program (n + 1)).currentLine = some line) : L line := by
  obtain ⟨f, hf, hline, hpos⟩ := exists_frame_of_currentLine h
  rcases past_machineAfter hlies hplaced hlined n hcalm f hf with hdrawn | ⟨hprogram, hoffset⟩
  · exact hdrawn.lineAt hline
  · rw [hprogram] at hline
    rcases lineAt_compileProgram hplaced hlined hline with ⟨hfirst, -⟩ | hmem | hzero
    · omega
    · exact hmem
    · omega

end Machine

end

end Tracepoint
