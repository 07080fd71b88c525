/-
The discipline of stack and scopes.

What a frame has of its own can be told from the offset it is at.  So a statement that starts
without operands is left without operands, however that comes about; and the scope that it is left
in is the one it was started in, for the scopes that were opened in between have been closed, and
nothing else has been.

Main definitions:

* `ownOperands` — the operands that frames have of their own;
* `Machine.Disciplined` — the discipline at one point of a run;
* `Region.Passes` — a statement is started, and left later, with its frame inside its code all the
  time;
* `Region.Guards` — what is kept while a frame is inside the code of a statement.

Main results:

* `Stacked.own` — what the frames of a run have of their own;
* `Region.Guards.step`, `Region.Passes.guards` — what one step and a whole visit keep;
* `compiled_keeps_discipline` — **compiled programs keep the discipline of stack and scopes**.
-/

import Tracepoint.Proofs.Machine.Frames

set_option relaxedAutoImplicit false
set_option autoImplicit false

namespace Tracepoint

/-! ### Operands of frames -/

/-- The operands that frames have of their own, each up to the base of the frame above, and the
first up to `height`. -/
def ownOperands : (height : ℕ) → List Frame → List ℕ
  | _, [] => []
  | height, f :: callers => (height - f.base) :: ownOperands f.base callers

/-- What the frames of a run have of their own. The first lacks `pending` operands that its code
gives to its offset, and all others lack the one that they wait for. -/
theorem Stacked.own {program : Program} {a : Arena Value} {total height pending : ℕ}
    {frames : List Frame} {entries : List ScopeId} (h : Stacked program a total frames entries)
    (htotal : total = height + pending) (hle : ∀ f rest, frames = f :: rest → f.base ≤ height)
    {k : ℕ} {f : Frame} (hf : frames[k]? = some f) :
    ∃ entry own σ, entries[k]? = some entry ∧ (ownOperands height frames)[k]? = some own ∧
      f.proto.Gives f.offset σ ∧ own + (if k = 0 then pending else 1) = σ.operands ∧
      a.Above σ.scopes f.scope entry := by
  induction h generalizing height pending k with
  | @program top total σ isProgram base has =>
      cases k with
      | zero =>
          obtain rfl := Option.some.inj hf
          have hbase := hle top [] rfl
          have hheight := has.height
          refine ⟨_, _, σ, rfl, rfl, has.gives, ?_, has.above⟩
          rw [if_pos rfl]
          omega
      | succ k => cases hf
  | @function top callers total entry entries σ compiled has below under ih =>
      cases k with
      | zero =>
          obtain rfl := Option.some.inj hf
          have hbase := hle top callers rfl
          have hheight := has.height
          refine ⟨_, _, σ, rfl, rfl, has.gives, ?_, has.above⟩
          rw [if_pos rfl]
          omega
      | succ k =>
          obtain ⟨entry, own, σ, hentry, hown, hgives, hcount, habove⟩ := ih rfl under hf
          rw [ite_self] at hcount
          exact ⟨entry, own, σ, hentry, hown, hgives, hcount, habove⟩

/-! ### Machines -/

/-- Every frame has what the layout of its code gives to its offset, and at certain offsets that
is nothing. -/
structure Machine.Disciplined (program : Program) (m : Machine) (entries : List ScopeId) :
    Prop where
  /-- Each frame runs a program or a function. How many operands it has and how many steps lead
  outwards to the scope that it was entered with can be told from its code and its offset. Frames
  that wait for a call lack the operand that it will leave. -/
  frames : ∀ k f, m.frames[k]? = some f → (∃ r : Routine, r.Lies ∧ r.proto = f.proto) ∧
    ∃ entry own, entries[k]? = some entry ∧ (ownOperands m.stack.length m.frames)[k]? = some own ∧
      own + (if k = 0 then 0 else 1) = (f.proto.layout f.offset).operands ∧
      ∀ count, m.scopes.Above count f.scope entry ↔ count = (f.proto.layout f.offset).scopes
  /-- Where a statement starts, the frame has no operands. -/
  statements : ∀ f, m.frames.head? = some f → ∀ r : Routine, r.Lies → r.proto = f.proto →
    ∀ R ∈ r.regions, f.offset = R.start → m.stack.length = f.base
  /-- At its end, the program has no operands, no calls and no scopes. -/
  last : m.nextInstr? = some .halt → m.stack = [] ∧
    ∃ f, m.frames = [f] ∧ f.proto = compileProgram program ∧ f.scope = Arena.global

section

variable {program : Program} {m : Machine} {entries : List ScopeId}

/-- A machine that keeps to the layout is disciplined. -/
theorem Machine.Orderly.disciplined (h : m.Orderly program entries) (hlies : programLies program)
    (hrooted : m.Rooted) : m.Disciplined program entries := by
  cases h with
  | halted halted frames stack =>
      refine ⟨fun k f hf => ?_, fun f hf => ?_, fun hnext => ?_⟩
      · rw [frames] at hf
        cases hf
      · rw [frames] at hf
        cases hf
      · rw [Machine.nextInstr?, if_pos halted] at hnext
        cases hnext
  | running running stacked =>
      obtain ⟨f, callers, hframes⟩ := List.exists_cons_of_ne_nil stacked.ne_nil
      obtain ⟨entry, below, σ, hentries, hhas⟩ := (hframes ▸ stacked).top
      have hheight := hhas.height
      refine ⟨fun k g hg => ?_, fun g hg r hr hproto R hR hstart => ?_, fun hnext => ?_⟩
      · have hle : ∀ g rest, m.frames = g :: rest → g.base ≤ m.stack.length := by
          intro g rest hg
          obtain ⟨rfl, -⟩ := List.cons.inj (hframes.symm.trans hg)
          omega
        obtain ⟨entry, own, σ, hentry, hown, hgives, hcount, habove⟩ :=
          stacked.own (Nat.add_zero _).symm hle hg
        refine ⟨hgives.routine, entry, own, hentry, hown, ?_, fun count => ?_⟩
        · rw [hgives.layout_eq]
          exact hcount
        · rw [hgives.layout_eq]
          constructor
          · exact fun hother => hother.unique hrooted.store.nested habove
          · rintro rfl
            exact habove
      · rw [hframes] at hg
        obtain rfl := Option.some.inj hg
        have hshape := (hhas.gives.shaped r hr hproto).unique (hstart ▸ r.shaped_start hR)
        rw [hheight, hshape]
        rfl
      · obtain ⟨i, next, hat⟩ := hhas.gives.instruction
        have hprepared := stacked.prepared hlies running hframes hhas hat
        have heq := hprepared.eq_machine
        rw [heq, nextInstr?_of_at hprepared.at_site] at hnext
        obtain rfl := Option.some.inj hnext
        obtain ⟨hheight, hcallers, hcompiled, hscope⟩ :=
          (hframes ▸ stacked).last hlies hhas (by rw [hentries]; rfl) hat
        exact ⟨List.eq_nil_of_length_eq_zero hheight, f, hcallers ▸ hframes, hcompiled, hscope⟩

end

/-! ### Visits -/

/-- A statement is started in the frame `f` after `i` steps, and after `j` steps the frame, which is
`g` by then, is where the statement is left. In between it has not returned, and whenever it was
running it was inside the code of the statement. There are `depth` frames up to it. -/
structure Region.Passes (R : Region) (run : ℕ → Machine) (depth i j : ℕ) (f g : Frame) : Prop where
  le : i ≤ j
  start : (run i).frames.head? = some f ∧ (run i).frames.length = depth ∧ f.offset = R.start
  stays : ∀ t, i ≤ t → t < j → depth ≤ (run t).frames.length ∧
    ∀ h, (run t).frames.head? = some h → (run t).frames.length = depth →
      R.start ≤ h.offset ∧ h.offset < R.stop
  stop : (run j).frames.head? = some g ∧ (run j).frames.length = depth ∧ g.offset = R.exit

/-- What is kept while a frame is inside a statement: where the scopes around the statement are
still open, so many steps as were opened since lead outwards to the one it was started in. -/
def Region.Guards (R : Region) (f : Frame) (callers : List Frame) (m : Machine) : Prop :=
  ∃ g σ, (g :: callers) <:+ m.frames ∧ g.proto = f.proto ∧ g.base = f.base ∧
    g.proto.Gives g.offset σ ∧
    (R.scopes ≤ σ.scopes → m.scopes.Above (σ.scopes - R.scopes) g.scope f.scope)

namespace Region.Guards

variable {R : Region} {r : Routine} {program : Program} {f : Frame} {callers : List Frame}
  {m : Machine} {entries : List ScopeId}

/-- A frame that waits keeps what it has. -/
theorem waits {m' : Machine} {g : Frame} {σ : Shape} (hsuffix : (g :: callers) <:+ m'.frames)
    (hproto : g.proto = f.proto) (hbase : g.base = f.base) (hgives : g.proto.Gives g.offset σ)
    (habove : R.scopes ≤ σ.scopes → m.scopes.Above (σ.scopes - R.scopes) g.scope f.scope)
    (hsame : m.scopes.SameParents m'.scopes) : R.Guards f callers m' :=
  ⟨g, σ, hsuffix, hproto, hbase, hgives, fun hle => (habove hle).mono hsame⟩

/-- **One step inside a statement.** -/
theorem step (h : R.Guards f callers m) (hr : r.Lies) (hproto : r.proto = f.proto)
    (hR : R ∈ r.regions) (hlies : programLies program) (horderly : m.Orderly program entries)
    (hrooted : m.Rooted) (hcalm : ∀ e, m.step.2.2 ≠ .fault e)
    (hinside : ∀ g, m.frames = g :: callers → R.start ≤ g.offset ∧ g.offset < R.stop)
    (hopen : callers.length < m.step.1.frames.length) : R.Guards f callers m.step.1 := by
  obtain ⟨g, σ, hsuffix, hg, hbase, hgives, habove⟩ := h
  have hrunning : m.halted = false := by
    cases horderly with
    | running running _ => exact running
    | halted _ frames _ =>
        rw [frames] at hsuffix
        exact absurd (List.suffix_nil.1 hsuffix) (List.cons_ne_nil _ _)
  obtain ⟨top, below, entry, others, σ', i, next, -, hhas, hprepared, -, -, hbefore, hmoves⟩ :=
    horderly.moves hlies hrooted hrunning hcalm
  have hsame := hbefore.grows.scopes
  have hframes := hprepared.frames
  rw [hframes] at hsuffix
  rcases List.suffix_cons_iff.1 hsuffix with heq | hbelow
  -- The frame itself is running.
  · obtain ⟨rfl, rfl⟩ := List.cons.inj heq
    obtain rfl := hhas.gives.unique hgives
    have hat := hprepared.lies
    cases hmoves with
    | @on target σ' scope leads frames height turns running =>
        refine ⟨⟨g.proto, target, scope, g.base⟩, σ', frames ▸ List.suffix_rfl, hg, hbase,
          hgives.successor hat leads, fun hle => ?_⟩
        refine turns.above hsame leads ?_ (hgives.pops hat) hle habove
        rintro rfl
        obtain ⟨hstart, hstop⟩ := hinside g hframes
        have hcode := hproto.trans hg.symm
        exact r.deep_region hr hR (hcode ▸ hat) (hgives.shaped r hr hcode) hstart hstop
    | @call w inner isCall frames compiled first base height running =>
        subst isCall
        have hleads : (next, (Instr.call w).after σ') ∈ (Instr.call w).successors next σ' :=
          List.mem_cons_self
        exact waits (g := ⟨g.proto, next, g.scope, g.base⟩) (frames ▸ List.suffix_cons _ _) hg hbase
          (hgives.successor hat hleads) habove hsame
    | ret isRet frames height running => exact absurd hopen (by rw [frames]; exact Nat.lt_irrefl _)
    | halt isHalt frames stack halted =>
        exact absurd hopen (by rw [frames]; exact Nat.not_lt_zero _)
  -- It waits, and the frames from it on stay as they are.
  · cases hmoves with
    | on leads frames height turns running =>
        exact waits (frames ▸ hbelow.trans (List.suffix_cons _ _)) hg hbase hgives habove hsame
    | call isCall frames compiled first base height running =>
        refine waits ?_ hg hbase hgives habove hsame
        exact frames ▸ (hbelow.trans (List.suffix_cons _ _)).trans (List.suffix_cons _ _)
    | ret isRet frames height running =>
        exact waits (frames ▸ hbelow) hg hbase hgives habove hsame
    | halt isHalt frames stack halted =>
        exact absurd hopen (by rw [frames]; exact Nat.not_lt_zero _)

end Region.Guards

/-- The operand stack ends at the base of a frame that has no operands. -/
theorem Machine.Orderly.height_of_shaped {program : Program} {m : Machine} {entries : List ScopeId}
    (h : m.Orderly program entries) {f : Frame} (hf : m.frames.head? = some f) {r : Routine}
    (hr : r.Lies) (hproto : r.proto = f.proto) {scopes : ℕ}
    (hshaped : r.plan.Shaped f.offset ⟨0, scopes⟩) :
    m.stack.length = f.base ∧ f.proto.Gives f.offset ⟨0, scopes⟩ := by
  cases h with
  | halted halted frames stack =>
      rw [frames] at hf
      cases hf
  | running running stacked =>
      obtain ⟨callers, hframes⟩ := List.head?_eq_some_iff.1 hf
      obtain ⟨entry, below, σ, hentries, hhas⟩ := (hframes ▸ stacked).top
      obtain rfl := (hhas.gives.shaped r hr hproto).unique hshaped
      exact ⟨hhas.height, hhas.gives⟩

section

variable {program : Program} {r : Routine} {R : Region} {depth i j : ℕ} {f g : Frame}

/-- **A whole visit.** As long as the frame is inside the statement, the scopes that it closes are
the ones that it has opened there. -/
theorem Region.Passes.guards (h : R.Passes (machineAfter program) depth i j f g)
    (hlies : programLies program) (hr : r.Lies) (hproto : r.proto = f.proto) (hR : R ∈ r.regions)
    (hcalm : ∀ k < j, ∀ e, (machineAfter program k).step.2.2 ≠ .fault e) :
    ∃ callers, callers.length + 1 = depth ∧
      ∀ t, i ≤ t → t ≤ j → R.Guards f callers (machineAfter program t) := by
  obtain ⟨hhead, hdepth, hoffset⟩ := h.start
  obtain ⟨callers, hframes⟩ := List.head?_eq_some_iff.1 hhead
  rw [hframes, List.length_cons] at hdepth
  refine ⟨callers, hdepth, fun t hle => ?_⟩
  have horderly : ∀ t ≤ j, (machineAfter program t).Rooted ∧
      (machineAfter program t).Orderly program (entriesAfter program t) := fun t ht =>
    orderly_machineAfter hlies t fun k hk => hcalm k (Nat.lt_of_lt_of_le hk ht)
  induction t, hle using Nat.le_induction with
  | base =>
      intro hj
      obtain ⟨-, hgives⟩ := (horderly i hj).2.height_of_shaped hhead hr hproto
        (hoffset ▸ r.shaped_start hR)
      refine ⟨f, ⟨0, R.scopes⟩, hframes ▸ List.suffix_rfl, rfl, rfl, hgives, fun _ => ?_⟩
      rw [Nat.sub_self]
      rfl
  | succ t hle ih =>
      intro hj
      obtain ⟨hopen, hinside⟩ := h.stays t hle hj
      obtain ⟨hrooted, hnow⟩ := horderly t (Nat.le_of_lt hj)
      -- The frame is still there after the step, whether or not this was the last one.
      have hstill : depth ≤ (machineAfter program (t + 1)).frames.length := by
        rcases Nat.lt_or_ge (t + 1) j with hlt | hge
        · exact (h.stays (t + 1) (Nat.le_succ_of_le hle) hlt).1
        · obtain rfl := Nat.le_antisymm hj hge
          exact Nat.le_of_eq h.stop.2.1.symm
      rw [machineAfter_succ] at hstill ⊢
      refine (ih (Nat.le_of_lt hj)).step hr hproto hR hlies hnow hrooted (hcalm t hj)
        (fun k hk => ?_) (by omega)
      exact hinside k (by rw [hk]; rfl) (by rw [hk]; exact hdepth)

end

/-- **Compiled programs keep the discipline of stack and scopes.** Up to its first fault the machine
is disciplined. And where a statement is left that was started earlier, behind its code or for the
next round of its loop, its frame has no operands and is in the scope it was in at the start. -/
theorem compiled_keeps_discipline {source : String} {program : Program}
    (hparse : parse source = .ok program) (hfits : (compileProgram program).Fits) (n : ℕ)
    (hcalm : ∀ k < n, ∀ e, (machineAfter program k).step.2.2 ≠ .fault e) :
    (machineAfter program n).Disciplined program (entriesAfter program n) ∧
      ∀ (r : Routine) (R : Region) (depth i : ℕ) (f g : Frame), r.Lies → r.proto = f.proto →
        R ∈ r.regions → R.Passes (machineAfter program) depth i n f g →
        (machineAfter program n).stack.length = g.base ∧ g.base = f.base ∧ g.scope = f.scope := by
  have hlies := lies_compileProgram hfits (placed_of_parse hparse)
  obtain ⟨hrooted, horderly⟩ := orderly_machineAfter hlies n hcalm
  refine ⟨horderly.disciplined hlies hrooted, fun r R depth i f g hr hproto hR hpasses => ?_⟩
  obtain ⟨callers, hdepth, hguards⟩ := hpasses.guards hlies hr hproto hR hcalm
  obtain ⟨k, σ, hsuffix, hk, hbase, hgives, habove⟩ := hguards n hpasses.le (Nat.le_refl n)
  obtain ⟨hhead, hlength, hexit⟩ := hpasses.stop
  obtain ⟨rest, hframes⟩ := List.head?_eq_some_iff.1 hhead
  -- There are as many frames as at the start, so the running one is the one that was inside.
  have heq : k :: callers = g :: rest := by
    rw [hframes] at hsuffix hlength
    exact hsuffix.eq_of_length (hdepth.trans hlength.symm)
  obtain ⟨rfl, -⟩ := List.cons.inj heq
  obtain ⟨hheight, hnothing⟩ := horderly.height_of_shaped hhead hr (hproto.trans hk.symm)
    (hexit ▸ r.shaped_exit hR)
  obtain rfl := hgives.unique hnothing
  have hsame := habove (Nat.le_refl _)
  rw [Nat.sub_self] at hsame
  exact ⟨hheight, hbase, hsame⟩

/-- A loop that is left in its first round. -/
def leftAtOnce : Stmt :=
  .whileLoop (.atom (.bool true) ⟨7, 4⟩ 1) (.block [.breakLoop 1] 1) 1

theorem compiled_keeps_discipline_loop :
    ∃ program, parse "while (true) \x7b break; \x7d" = .ok program ∧ (compileProgram program).Fits ∧
      (∀ k < 6, ∀ e, (machineAfter program k).step.2.2 ≠ .fault e) ∧
      (machineAfter program 6).Disciplined program (entriesAfter program 6) ∧
      ∃ (r : Routine) (R : Region) (f g : Frame), r.Lies ∧ r.proto = f.proto ∧ R ∈ r.regions ∧
        R.Passes (machineAfter program) 1 1 6 f g ∧
        (machineAfter program 6).stack.length = g.base ∧ g.base = f.base ∧ g.scope = f.scope := by
  have hparse : parse "while (true) \x7b break; \x7d" = .ok [leftAtOnce] := by cbv
  have hfits : (compileProgram [leftAtOnce]).Fits := .mk (by decide) fun q hq => by cases hq
  have hmore : ∀ k < 6, (machineAfter [leftAtOnce] k).step.2.2 = .more := by decide
  have hcalm : ∀ k < 6, ∀ e, (machineAfter [leftAtOnce] k).step.2.2 ≠ .fault e := by
    intro k hk e
    rw [hmore k hk]
    exact Status.noConfusion
  have hfirst : (machineAfter [leftAtOnce] 1).frames =
    [⟨compileProgram [leftAtOnce], 1, Arena.global, 0⟩] := rfl
  have hlast : (machineAfter [leftAtOnce] 6).frames =
    [⟨compileProgram [leftAtOnce], 24, Arena.global, 0⟩] := rfl
  have hstays : ∀ t < 5, (machineAfter [leftAtOnce] (1 + t)).frames.length = 1 ∧
      ∀ h ∈ (machineAfter [leftAtOnce] (1 + t)).frames, 1 ≤ h.offset ∧ h.offset < 24 := by decide
  -- The loop starts behind the first instruction, and `break` leads behind it.
  have hpasses : (leftAtOnce.region true none 0 1).Passes (machineAfter [leftAtOnce]) 1 1 6
      ⟨compileProgram [leftAtOnce], 1, Arena.global, 0⟩
      ⟨compileProgram [leftAtOnce], 24, Arena.global, 0⟩ := by
    constructor
    · decide
    · rw [hfirst]
      exact ⟨rfl, rfl, rfl⟩
    · intro t hle hlt
      obtain ⟨t, rfl⟩ := Nat.exists_eq_add_of_le hle
      obtain ⟨hlength, hinside⟩ := hstays t (by omega)
      exact ⟨Nat.le_of_eq hlength.symm, fun h hh _ => hinside h (List.mem_of_mem_head? hh)⟩
    · rw [hlast]
      exact ⟨rfl, rfl, rfl⟩
  have hlies : (Routine.program [leftAtOnce]).Lies :=
    lies_compileProgram hfits (placed_of_parse hparse)
  have hregion : leftAtOnce.region true none 0 1 ∈ (Routine.program [leftAtOnce]).regions :=
    List.mem_cons_self
  obtain ⟨hdisciplined, hvisits⟩ := compiled_keeps_discipline hparse hfits 6 hcalm
  exact ⟨[leftAtOnce], hparse, hfits, hcalm, hdisciplined, _, _, _, _, hlies, rfl, hregion, hpasses,
    hvisits _ _ 1 1 _ _ hlies rfl hregion hpasses⟩

end Tracepoint
