/-
What the frames of a run have.

Up to its first fault, the run of a compiled program keeps to the layout of its code: every frame
has as many operands of its own, and as many scopes opened since it was entered, as the code gives
to its offset.  A frame that waits for a call is at the offset behind that call, and lacks the
operand that the call will leave there.

Main definitions:

* `Frame.Has`, `Stacked` — frames that keep to the layout of their code;
* `entered`, `entriesAfter` — the scopes that the frames were entered with;
* `Machine.Orderly` — a machine keeps to the layout, or has ended.

Main results:

* `Instr.Turns.above` — what an instruction does to the way outwards;
* `Stacked.prepared` — frames that keep to the layout have what the next instruction needs;
* `Stacked.moves` — **a move leads to frames that keep to the layout**;
* `orderly_machineAfter` — **so does the whole run**, up to its first fault.
-/

import Tracepoint.Proofs.Code.Routine
import Tracepoint.Proofs.Evaluation.Safety
import Tracepoint.Proofs.Machine.Moves

set_option relaxedAutoImplicit false
set_option autoImplicit false

namespace Tracepoint

/-! ### The way outwards -/

theorem Instr.scopes_of_successors {i : Instr} {next target : ℕ} {σ σ' : Shape}
    (h : (target, σ') ∈ i.successors next σ) : σ'.scopes = i.scopesAfter σ.scopes := by
  have hafter : ∀ g ∈ [(next, i.after σ)], g.2.scopes = i.scopesAfter σ.scopes := by
    intro g hg
    obtain rfl := List.mem_singleton.1 hg
    rfl
  cases i with
  | halt => cases h
  | ret => cases h
  | jump kind distance =>
      cases kind with
      | always =>
          obtain ⟨-, rfl⟩ := Prod.mk.inj (List.mem_singleton.1 h)
          rfl
      | _ =>
          rcases List.mem_cons.1 h with h | h
          · obtain ⟨-, rfl⟩ := Prod.mk.inj h
            rfl
          · obtain ⟨-, rfl⟩ := Prod.mk.inj (List.mem_singleton.1 h)
            rfl
  | _ => exact hafter _ h

/-- What an instruction does to the way from the current scope outwards, seen from inside `k` of
the scopes of the frame. -/
theorem Instr.Turns.above {a a' : Arena Value} {i : Instr} {k next target : ℕ} {σ σ' : Shape}
    {before after outer : ScopeId} (hturns : i.Turns a' before after) (hsame : a.SameParents a')
    (hleads : (target, σ') ∈ i.successors next σ) (hpush : i = .pushScope → k ≤ σ.scopes)
    (hpop : i = .popScope → 0 < σ.scopes) (hk : k ≤ σ'.scopes)
    (habove : k ≤ σ.scopes → a.Above (σ.scopes - k) before outer) :
    a'.Above (σ'.scopes - k) after outer := by
  have hscopes := Instr.scopes_of_successors hleads
  cases i with
  | pushScope =>
      have hle := hpush rfl
      have hcount : σ'.scopes - k = σ.scopes - k + 1 := by
        rw [hscopes, Instr.scopesAfter]
        omega
      rw [hcount]
      exact ⟨before, hturns, (habove hle).mono hsame⟩
  | popScope =>
      have hpos := hpop rfl
      rw [Instr.scopesAfter] at hscopes
      have hcount : σ.scopes - k = σ'.scopes - k + 1 := by omega
      have hold := (habove (by omega)).mono hsame
      rw [hcount] at hold
      obtain ⟨middle, hmiddle, hrest⟩ := hold
      obtain rfl : after = middle := Option.some.inj (hturns.symm.trans hmiddle)
      exact hrest
  | _ =>
      obtain rfl : after = before := hturns
      have hsame' : σ'.scopes = σ.scopes := hscopes
      rw [hsame'] at hk ⊢
      exact (habove hk).mono hsame

/-! ### Frames -/

/-- A frame has what its code gives to its offset. Its operands end at `height`, and it was entered
with the scope `entry`. -/
structure Frame.Has (a : Arena Value) (height : ℕ) (entry : ScopeId) (σ : Shape) (f : Frame) :
    Prop where
  gives : f.proto.Gives f.offset σ
  height : height = f.base + σ.operands
  above : a.Above σ.scopes f.scope entry

theorem Frame.Has.mono {a a' : Arena Value} {height : ℕ} {entry : ScopeId} {σ : Shape} {f : Frame}
    (hsame : a.SameParents a') (h : f.Has a height entry σ) : f.Has a' height entry σ :=
  ⟨h.gives, h.height, h.above.mono hsame⟩

/-- Frames keep to the layout of their code. Below a frame ends what the frame below has, apart
from the operand that it waits for. -/
inductive Stacked (program : Program) (a : Arena Value) : ℕ → List Frame → List ScopeId → Prop
  | program {f : Frame} {height : ℕ} {σ : Shape} (isProgram : f.proto = compileProgram program)
      (base : f.base = 0) (has : f.Has a height Arena.global σ) :
      Stacked program a height [f] [Arena.global]
  | function {f : Frame} {callers : List Frame} {height : ℕ} {entry : ScopeId}
      {entries : List ScopeId} {σ : Shape} (compiled : f.proto.Compiled)
      (has : f.Has a height entry σ) (below : Stacked program a (f.base + 1) callers entries)
      (under : ∀ g rest, callers = g :: rest → g.base ≤ f.base) :
      Stacked program a height (f :: callers) (entry :: entries)

namespace Stacked

variable {program : Program} {a a' : Arena Value} {height : ℕ} {frames callers : List Frame}
  {entries : List ScopeId} {f : Frame}

theorem mono (hsame : a.SameParents a') (h : Stacked program a height frames entries) :
    Stacked program a' height frames entries := by
  induction h with
  | program isProgram base has => exact .program isProgram base (has.mono hsame)
  | function compiled has _ under ih => exact .function compiled (has.mono hsame) ih under

theorem ne_nil (h : Stacked program a height frames entries) : frames ≠ [] := by
  cases h with
  | program _ _ _ => exact List.cons_ne_nil _ _
  | function _ _ _ _ => exact List.cons_ne_nil _ _

/-- The running frame has what its code gives to its offset. -/
theorem top (h : Stacked program a height (f :: callers) entries) :
    ∃ entry below σ, entries = entry :: below ∧ f.Has a height entry σ := by
  cases h with
  | program _ _ has => exact ⟨_, _, _, rfl, has⟩
  | function _ has _ _ => exact ⟨_, _, _, rfl, has⟩

/-- Another frame in place of the running one. -/
theorem replace {g : Frame} {entry : ScopeId} {σ : Shape} {height' : ℕ}
    (h : Stacked program a height (f :: callers) (entry :: entries)) (hsame : a.SameParents a')
    (hproto : g.proto = f.proto) (hbase : g.base = f.base) (hhas : g.Has a' height' entry σ) :
    Stacked program a' height' (g :: callers) (entry :: entries) := by
  cases h with
  | program isProgram base _ =>
      exact .program (hproto.trans isProgram) (hbase.trans base) hhas
  | function compiled _ below under =>
      exact .function (hproto ▸ compiled) hhas (hbase ▸ below.mono hsame) (hbase ▸ under)

/-! #### What comes next -/

/-- The code of the running frame, as a routine. Only the last frame does not run a function. -/
theorem routine (h : Stacked program a height (f :: callers) entries)
    (hlies : programLies program) :
    ∃ r : Routine, r.Lies ∧ r.proto = f.proto ∧ (r.inFunction = true ↔ callers ≠ []) ∧
      (callers = [] →
        f.proto = compileProgram program ∧ f.base = 0 ∧ entries = [Arena.global]) := by
  cases h with
  | program isProgram base _ =>
      exact ⟨.program program, hlies, isProgram.symm, ⟨fun h => (nomatch h), fun h => absurd rfl h⟩,
        fun _ => ⟨isProgram, base, rfl⟩⟩
  | function compiled _ below _ =>
      obtain ⟨decl, hdecl, hproto⟩ := compiled
      exact ⟨.function decl, hdecl, hproto.symm, ⟨fun _ => below.ne_nil, fun _ => rfl⟩,
        fun hnil => absurd hnil below.ne_nil⟩

variable {m : Machine} {entry : ScopeId} {σ : Shape} {i : Instr} {next : ℕ}

/-- **Frames that keep to the layout have what the next instruction needs.** -/
theorem prepared (h : Stacked program m.scopes m.stack.length m.frames entries)
    (hlies : programLies program) (hrunning : m.halted = false) (hframes : m.frames = f :: callers)
    (hhas : f.Has m.scopes m.stack.length entry σ) (hat : f.proto.chunk.At f.offset i next) :
    f.Prepared callers σ i next m := by
  rw [hframes] at h
  obtain ⟨r, hr, hproto, hinFunction, -⟩ := h.routine hlies
  obtain ⟨slot, rfl, rfl, hobeys⟩ := hhas.gives.obeys hat hr hproto
  have hsuits := hobeys.suits
  refine ⟨hframes, hrunning, hat, hhas.height, hobeys.enough, hobeys.finds, ?_, ?_, ?_⟩
  · rintro kind distance rfl
    exact hsuits
  · rintro rfl
    have habove := hhas.above
    rw [← Nat.succ_pred_eq_of_pos hsuits] at habove
    obtain ⟨outer, houter, -⟩ := habove
    exact ⟨outer, houter⟩
  · rintro rfl
    exact ⟨hsuits.2, hinFunction.1 hsuits.1⟩

/-- At the end of a program nothing is left but its frame, in the global scope. -/
theorem last (h : Stacked program a height (f :: callers) entries) (hlies : programLies program)
    (hhas : f.Has a height entry σ) (hentry : entries.head? = some entry)
    (hat : f.proto.chunk.At f.offset .halt next) :
    height = 0 ∧ callers = [] ∧ f.proto = compileProgram program ∧ f.scope = Arena.global := by
  obtain ⟨r, hr, hproto, hinFunction, hbottom⟩ := h.routine hlies
  obtain ⟨slot, hshape, -, hobeys⟩ := hhas.gives.obeys hat hr hproto
  obtain ⟨hprogram, hslot⟩ := hobeys.suits
  obtain rfl : σ = ⟨0, 0⟩ := hshape.symm.trans hslot
  have hcallers : callers = [] := by
    by_contra hne
    rw [hinFunction.2 hne] at hprogram
    cases hprogram
  obtain ⟨hcompiled, hbase, rfl⟩ := hbottom hcallers
  obtain rfl : Arena.global = entry := Option.some.inj hentry
  exact ⟨hhas.height.trans hbase, hcallers, hcompiled, hhas.above⟩

end Stacked

/-! ### Moves -/

/-- The scopes that the frames behind a step were entered with, if those in front of it were entered
with `entries`. A frame is entered with the scope that it has when it appears. -/
def entered (before after : Machine) (entries : List ScopeId) : List ScopeId :=
  if before.frames.length < after.frames.length then after.currentScope :: entries
  else entries.drop (before.frames.length - after.frames.length)

section

variable {program : Program} {m m' : Machine} {f : Frame} {callers : List Frame} {σ : Shape}
  {i : Instr} {next : ℕ} {entry : ScopeId} {entries : List ScopeId}

theorem entered_same (h : m.frames.length = m'.frames.length) :
    entered m m' entries = entries := by
  rw [entered, if_neg (Nat.not_lt.2 (Nat.le_of_eq h.symm)), h, Nat.sub_self, List.drop_zero]

theorem entered_more (h : m'.frames.length = m.frames.length + 1) :
    entered m m' entries = m'.currentScope :: entries := by
  rw [entered, if_pos (by omega)]

theorem entered_less (h : m.frames.length = m'.frames.length + 1) :
    entered m m' (entry :: entries) = entries := by
  rw [entered, if_neg (by omega), h, Nat.add_sub_cancel_left, List.drop_one, List.tail_cons]

/-- A machine whose frames keep to the layout, or that has ended. -/
inductive Machine.Orderly (program : Program) (m : Machine) (entries : List ScopeId) : Prop
  | running (running : m.halted = false)
      (stacked : Stacked program m.scopes m.stack.length m.frames entries)
  | halted (halted : m.halted = true) (frames : m.frames = []) (stack : m.stack = [])

/-- The frame that goes on has what its code gives to the offset that it goes on to. -/
theorem Frame.Has.on {a' : Arena Value} {height target : ℕ} {σ' : Shape} {scope : ScopeId}
    (h : f.Has m.scopes m.stack.length entry σ) (hat : f.proto.chunk.At f.offset i next)
    (hsame : m.scopes.SameParents a') (hleads : (target, σ') ∈ i.successors next σ)
    (hheight : height = f.base + σ'.operands) (hturns : i.Turns a' f.scope scope)
    (hpop : i = .popScope → 0 < σ.scopes) :
    Frame.Has a' height entry σ' ⟨f.proto, target, scope, f.base⟩ :=
  ⟨h.gives.successor hat hleads, hheight, hturns.above hsame hleads (fun _ => Nat.zero_le _) hpop
    (Nat.zero_le _) fun _ => h.above⟩

/-- **A move leads to frames that keep to the layout.** -/
theorem Stacked.moves
    (h : Stacked program m.scopes m.stack.length m.frames (entry :: entries))
    (hhas : f.Has m.scopes m.stack.length entry σ) (hprepared : f.Prepared callers σ i next m)
    (hsame : m.scopes.SameParents m'.scopes) (hmoves : f.Moves callers σ i next m') :
    m'.Orderly program (entered m m' (entry :: entries)) := by
  have hframes := hprepared.frames
  have hpop := hhas.gives.pops hprepared.lies
  rw [hframes] at h
  cases hmoves with
  | on leads frames height turns running =>
      have hon := hhas.on hprepared.lies hsame leads height turns hpop
      rw [entered_same (by rw [hframes, frames]; rfl)]
      exact .running running (frames ▸ h.replace hsame rfl rfl hon)
  | @call w inner isCall frames compiled first base height running =>
      subst isCall
      have henough : (Instr.call w).takes ≤ σ.operands := hprepared.enough
      have hleads : (next, (Instr.call w).after σ) ∈ (Instr.call w).successors next σ :=
        List.mem_cons_self
      -- The frame that waits counts the operand that the call will leave.
      have hheight : inner.base + 1 = f.base + ((Instr.call w).after σ).operands := by
        change inner.base + 1 = f.base + (σ.operands - (Instr.call w).takes + 1)
        omega
      have hwaiting := hhas.on hprepared.lies hsame hleads hheight rfl hpop
      have hcurrent : m'.currentScope = inner.scope := by
        rw [Machine.currentScope, frames]
      have hinner : inner.Has m'.scopes m'.stack.length inner.scope ⟨0, 0⟩ := by
        obtain ⟨decl, hdecl, hproto⟩ := id compiled
        refine ⟨?_, base.symm, rfl⟩
        rw [first, hproto]
        exact Proto.Gives.zero (r := .function decl) hdecl
      rw [entered_more (by rw [hframes, frames]; rfl), hcurrent]
      refine .running running ?_
      rw [frames]
      refine .function compiled hinner (h.replace hsame rfl rfl hwaiting) fun g rest heq => ?_
      obtain ⟨rfl, -⟩ := List.cons.inj heq
      change f.base ≤ inner.base
      omega
  | ret isRet frames height running =>
      rw [entered_less (by rw [hframes, frames]; rfl)]
      refine .running running ?_
      have hcallers := (hprepared.returns isRet).2
      cases h with
      | program _ _ _ => exact absurd rfl hcallers
      | function _ _ below _ =>
          rw [frames, height]
          exact below.mono hsame
  | halt isHalt frames stack halted => exact .halted halted frames stack

end

/-! ### Runs -/

/-- The scopes that the frames were entered with, after a number of steps. -/
def entriesAfter (program : Program) : ℕ → List ScopeId
  | 0 => [Arena.global]
  | n + 1 =>
    entered (machineAfter program n) (machineAfter program (n + 1)) (entriesAfter program n)

/-- A machine that keeps to the layout has what its next instruction needs. -/
theorem Machine.Orderly.prepared {program : Program} {m : Machine} {entries : List ScopeId}
    (h : m.Orderly program entries) (hlies : programLies program) (hrunning : m.halted = false) :
    ∃ (f : Frame) (callers : List Frame) (entry : ScopeId) (below : List ScopeId) (σ : Shape)
      (i : Instr) (next : ℕ), entries = entry :: below ∧
      f.Has m.scopes m.stack.length entry σ ∧ f.Prepared callers σ i next m ∧
      Stacked program m.scopes m.stack.length m.frames entries := by
  cases h with
  | halted halted _ _ =>
      rw [hrunning] at halted
      cases halted
  | running _ stacked =>
      obtain ⟨f, callers, hframes⟩ := List.exists_cons_of_ne_nil stacked.ne_nil
      obtain ⟨entry, below, σ, hentries, hhas⟩ := (hframes ▸ stacked).top
      obtain ⟨i, next, hat⟩ := hhas.gives.instruction
      have hprepared := stacked.prepared hlies hrunning hframes hhas hat
      exact ⟨f, callers, entry, below, σ, i, next, hentries, hhas, hprepared, stacked⟩

/-- The next step of a machine that keeps to the layout, as a move. -/
theorem Machine.Orderly.moves {program : Program} {m : Machine} {entries : List ScopeId}
    (h : m.Orderly program entries) (hlies : programLies program) (hrooted : m.Rooted)
    (hrunning : m.halted = false) (hcalm : ∀ e, m.step.2.2 ≠ .fault e) :
    ∃ f callers entry below σ i next, entries = entry :: below ∧
      f.Has m.scopes m.stack.length entry σ ∧ f.Prepared callers σ i next m ∧
      Stacked program m.scopes m.stack.length m.frames entries ∧
      Frame.Prepared.Next f callers σ i next m := by
  obtain ⟨f, callers, entry, below, σ, i, next, hentries, hhas, hprepared, hstacked⟩ :=
    h.prepared hlies hrunning
  exact ⟨f, callers, entry, below, σ, i, next, hentries, hhas, hprepared, hstacked,
    hprepared.moves hrooted hcalm⟩

/-- **Up to its first fault the run of a program keeps to the layout of its code.** -/
theorem orderly_machineAfter {program : Program} (hlies : programLies program) (n : ℕ)
    (hcalm : ∀ k < n, ∀ e, (machineAfter program k).step.2.2 ≠ .fault e) :
    (machineAfter program n).Rooted ∧
      (machineAfter program n).Orderly program (entriesAfter program n) := by
  induction n with
  | zero =>
      have hfirst : (compileProgram program).Gives 0 ⟨0, 0⟩ :=
        Proto.Gives.zero (r := .program program) hlies
      exact ⟨Machine.rooted_start _, .running rfl (.program rfl rfl ⟨hfirst, rfl, rfl⟩)⟩
  | succ n ih =>
      obtain ⟨hrooted, horderly⟩ := ih fun k hk => hcalm k (Nat.lt_succ_of_lt hk)
      have hstill := hcalm n (Nat.lt_succ_self n)
      rw [entriesAfter, machineAfter_succ]
      cases hhalted : (machineAfter program n).halted with
      | true =>
          rw [Machine.step_of_halted hhalted]
          cases horderly with
          | running running _ =>
              rw [hhalted] at running
              cases running
          | halted halted frames stack => exact ⟨hrooted, .halted halted frames stack⟩
      | false =>
          obtain ⟨f, callers, entry, below, σ, i, next, hentries, hhas, hprepared, hstacked,
            hrooted', hbefore, hmoves⟩ := horderly.moves hlies hrooted hhalted hstill
          rw [hentries] at hstacked ⊢
          exact ⟨hrooted', hstacked.moves hhas hprepared hbefore.grows.scopes hmoves⟩

end Tracepoint
