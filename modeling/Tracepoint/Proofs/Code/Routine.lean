/-
Functions and programs as a whole.

A routine is what a frame runs: a program or a function.  Its plan says what the frame has in front
of every instruction, and the code obeys it.  Different routines may have the same code; but what a
plan says about an offset can be told from the code alone, for where all of them start they say the
same, and an instruction leads all of them to the same.

Main definitions:

* `Routine`, `Routine.plan`, `Routine.regions` — programs and functions alike;
* `Routine.LiesTo` — the code of a routine and the offset where its plan ends;
* `Plan.Shaped` — the shape that a plan gives to an offset;
* `Proto.Gives`, `Proto.layout` — the shape that all routines with some code give to an offset.

Main results:

* `Routine.lies_region` — every region of a routine is the code of its statement;
* `Routine.obeys` — where a routine gives a shape, there is an instruction that obeys it;
* `Proto.Gives.successor` — **an instruction leads to offsets that have the shapes it leaves**;
* `Routine.shaped_start`, `Routine.shaped_exit`, `Routine.deep_region` — what a routine says about
  the code of its statements.
-/

import Tracepoint.Proofs.Code.Flow
import Tracepoint.Proofs.Code.Regions

set_option relaxedAutoImplicit false
set_option autoImplicit false

namespace Tracepoint

/-! ### The code of statements -/

/-- A region is the code of its statement. -/
def Region.Lies (p : Proto) (inFunction : Bool) (R : Region) : Prop :=
  ∃ exits, R.stmt.Lies p exits inFunction R.hoisted R.start R.stop

section

variable {p : Proto} {inFunction : Bool} {exits : Option Exits} {start stop d : ℕ}

theorem lies_region {s : Stmt} {hoisted : Bool}
    (hlies : s.Lies p exits inFunction hoisted start stop) (hdepth : Reachable exits d) :
    (s.region hoisted (exits.map Exits.depth) d start).Lies p inFunction := by
  have hsize := (leads_stmt p inFunction s start stop d exits hoisted hlies hdepth).size
  subst hsize
  exact ⟨exits, hlies⟩

theorem lies_hoistRegions {body : List Stmt} (hlies : hoistLies p body start stop) :
    ∀ R ∈ hoistRegions d start body, R.Lies p inFunction := by
  induction body generalizing start with
  | nil => exact fun R hR => nomatch hR
  | cons s rest ih =>
      cases s with
      | function decl =>
          obtain ⟨hdecl, a, hbinds, hrest⟩ := hlies
          have hown : (Stmt.function decl).Lies p none inFunction false start a := ⟨hdecl, hbinds⟩
          have hbind : (decl.bindPlan d).Leads p inFunction start a fun S => S a ⟨0, d⟩ :=
            leads_binds d hdecl hbinds
          intro R hR
          rcases List.mem_cons.1 hR with rfl | hR
          · exact lies_region hown (reachable_none d)
          · exact ih (hbind.size ▸ hrest) R hR
      | _ => exact ih hlies

end

mutual

/-- Every part of a statement is the code of its statement. -/
theorem lies_parts (p : Proto) (inFunction : Bool) : ∀ (s : Stmt) (start stop d : ℕ)
    (exits : Option Exits) (hoisted : Bool), s.Lies p exits inFunction hoisted start stop →
    Reachable exits d → ∀ R ∈ s.parts (exits.map Exits.depth) d start, R.Lies p inFunction
  | .block body _, start, stop, d, exits, hoisted, hlies, hdepth => by
      obtain ⟨a, b, c, hopen, hbindings, hbody, -⟩ := hlies
      obtain rfl := hopen.stop_eq
      have hhoist : (hoistPlan (d + 1) body).Leads p inFunction _ b fun S => S b ⟨0, d + 1⟩ :=
        leads_hoist (d + 1) hbindings
      obtain rfl := hhoist.size
      intro R hR
      rw [Stmt.parts, map_depth_deeper] at hR
      rcases List.mem_append.1 hR with hR | hR
      · exact lies_hoistRegions hbindings R hR
      · exact lies_stmtsRegions p inFunction body _ c (d + 1) _ hbody hdepth.deeper R hR
  | .conditional condition success none _, start, stop, d, exits, hoisted, hlies, hdepth => by
      obtain ⟨a, b, hcondition, ⟨distance, hskip, -⟩, hsuccess⟩ := hlies
      obtain rfl := (leads_expr p inFunction condition start a 0 d hcondition).size
      obtain rfl := hskip.stop_eq
      intro R hR
      rw [Stmt.parts] at hR
      exact lies_whole p inFunction success _ stop d exits false hsuccess hdepth R hR
  | .conditional condition success (some failure) _, start, stop, d, exits, hoisted, hlies,
      hdepth => by
      obtain ⟨a, b, c, e, hcondition, ⟨distance, hskip, -⟩, hsuccess, ⟨distance', hpass, -⟩,
        hfailure⟩ := hlies
      obtain rfl := (leads_expr p inFunction condition start a 0 d hcondition).size
      obtain rfl := hskip.stop_eq
      obtain rfl := (leads_stmt p inFunction success _ c d exits false hsuccess hdepth).size
      obtain rfl := hpass.stop_eq
      intro R hR
      rw [Stmt.parts] at hR
      rcases List.mem_append.1 hR with hR | hR
      · exact lies_whole p inFunction success _ _ d exits false hsuccess hdepth R hR
      · exact lies_whole p inFunction failure _ stop d exits false hfailure hdepth R hR
  | .whileLoop condition body _, start, stop, d, exits, hoisted, hlies, _ => by
      obtain ⟨a, b, c, hcondition, ⟨distance, hskip, -⟩, hbody, -⟩ := hlies
      obtain rfl := (leads_expr p inFunction condition start a 0 d hcondition).size
      obtain rfl := hskip.stop_eq
      have hwhole := lies_whole p inFunction body _ c d _ false hbody (reachable_loop _ d)
      intro R hR
      rw [Stmt.parts] at hR
      rcases List.mem_cons.1 hR with rfl | hR
      -- The same code, left for the next round.
      · exact hwhole (body.region false (some 0) d _) List.mem_cons_self
      · exact hwhole R hR
  | .forLoop first condition increment body _, start, stop, d, exits, hoisted, hlies, _ => by
      obtain ⟨a, b, c, d', e, f, hopen, hfirst, hcondition, hbody, -⟩ := hlies
      obtain rfl := hopen.stop_eq
      obtain rfl := (leads_start p inFunction first _ b (d + 1) hfirst).size
      have htest : (testPlan (d + 1) condition).Leads p inFunction _ c _ :=
        leads_test (d + 1) hcondition
      obtain rfl := htest.size
      intro R hR
      rw [Stmt.parts] at hR
      rcases List.mem_append.1 hR with hR | hR
      · exact lies_startRegions p inFunction first _ _ (d + 1) hfirst R hR
      · exact lies_whole p inFunction body _ d' (d + 1) _ false hbody (reachable_loop _ (d + 1)) R hR
  | .declare _ _ _ _, _, _, _, _, _, _, _ | .function _, _, _, _, _, _, _, _
  | .expression _ _, _, _, _, _, _, _, _ | .returnValue _ _, _, _, _, _, _, _, _
  | .breakLoop _, _, _, _, _, _, _, _ | .continueLoop _, _, _, _, _, _, _, _
  | .empty _, _, _, _, _, _, _, _ => by
      intro R hR
      exact nomatch (show R ∈ ([] : List Region) from hR)

theorem lies_whole (p : Proto) (inFunction : Bool) (s : Stmt) (start stop d : ℕ)
    (exits : Option Exits) (hoisted : Bool) (hlies : s.Lies p exits inFunction hoisted start stop)
    (hdepth : Reachable exits d) :
    ∀ R ∈ s.region hoisted (exits.map Exits.depth) d start ::
      s.parts (exits.map Exits.depth) d start, R.Lies p inFunction := by
  intro R hR
  rcases List.mem_cons.1 hR with rfl | hR
  · exact lies_region hlies hdepth
  · exact lies_parts p inFunction s start stop d exits hoisted hlies hdepth R hR

theorem lies_stmtsRegions (p : Proto) (inFunction : Bool) : ∀ (body : List Stmt)
    (start stop d : ℕ) (exits : Option Exits), stmtsLie p exits inFunction body start stop →
    Reachable exits d → ∀ R ∈ stmtsRegions (exits.map Exits.depth) d start body,
      R.Lies p inFunction
  | [], _, _, _, _, _, _ => by
      intro R hR
      rw [stmtsRegions] at hR
      cases hR
  | s :: rest, start, stop, d, exits, hlies, hdepth => by
      obtain ⟨a, hs, hrest⟩ := hlies
      obtain rfl := (leads_stmt p inFunction s start a d exits true hs hdepth).size
      intro R hR
      rw [stmtsRegions] at hR
      rcases List.mem_append.1 hR with hR | hR
      · exact lies_whole p inFunction s start _ d exits true hs hdepth R hR
      · exact lies_stmtsRegions p inFunction rest _ stop d exits hrest hdepth R hR

theorem lies_startRegions (p : Proto) (inFunction : Bool) : ∀ (first : Option Stmt)
    (start stop d : ℕ), startLies p inFunction first start stop →
    ∀ R ∈ startRegions d start first, R.Lies p inFunction
  | none, _, _, _, _ => by
      intro R hR
      rw [startRegions] at hR
      cases hR
  | some s, start, stop, d, hlies => by
      intro R hR
      rw [startRegions] at hR
      exact lies_whole p inFunction s start stop d none true hlies (reachable_none d) R hR

end

/-! ### Routines -/

/-- What a frame runs. -/
inductive Routine
  | program (statements : Program)
  | function (decl : FunctionDecl)

namespace Routine

/-- The code. -/
def proto : Routine → Proto
  | program statements => compileProgram statements
  | function decl => compileFunction decl

/-- Values are returned from functions only. -/
def inFunction : Routine → Bool
  | program _ => false
  | function _ => true

def body : Routine → List Stmt
  | program statements => statements
  | function decl => decl.body

/-- The instructions in front of the body. -/
def head : Routine → Plan
  | program _ => [.narrow 0 0]
  | function _ => []

/-- The instructions behind the body. -/
def foot : Routine → Plan
  | program _ => [.narrow 0 0]
  | function _ => [.wide 0 0, .narrow 1 0]

/-- The instructions up to the end of the body. -/
def inner (r : Routine) : Plan :=
  r.head ++ (hoistPlan 0 r.body ++ stmtsPlan none 0 r.body)

/-- The instructions of a whole routine. -/
def plan (r : Routine) : Plan :=
  r.inner ++ r.foot

/-- The code of all statements. -/
def regions (r : Routine) : List Region :=
  hoistRegions 0 r.head.size r.body ++
    stmtsRegions none 0 (r.head.size + (hoistPlan 0 r.body).size) r.body

/-- The routine lies in its code. -/
def Lies : Routine → Prop
  | program statements => programLies statements
  | function decl => decl.Lies

/-- The routine lies in its code, up to an offset. -/
def LiesTo (stop : ℕ) : Routine → Prop
  | program statements =>
    let p := compileProgram statements
    ∃ a b c, p.chunk.At 0 .enter a ∧ hoistLies p statements a b ∧
      stmtsLie p none false statements b c ∧ p.chunk.At c .halt stop
  | function decl =>
    let p := compileFunction decl
    ∃ a b c, hoistLies p decl.body 0 a ∧ stmtsLie p none true decl.body a b ∧
      p.Pushes .undefined b c ∧ p.chunk.At c .ret stop

theorem Lies.exists_liesTo {r : Routine} (h : r.Lies) : ∃ stop, r.LiesTo stop := by
  cases r with
  | program statements =>
      obtain ⟨a, b, c, stop, hall⟩ := h
      exact ⟨stop, a, b, c, hall⟩
  | function decl =>
      cases decl with
      | mk name parameters body line =>
          obtain ⟨a, b, c, stop, hall⟩ := h
          exact ⟨stop, a, b, c, hall⟩

theorem begins_foot (r : Routine) : r.foot.Begins ⟨0, 0⟩ := by
  cases r with
  | program _ => exact Plan.begins_cons _ _
  | function _ => exact Plan.begins_cons _ _

theorem begins_plan (r : Routine) : r.plan.Begins ⟨0, 0⟩ := by
  have hbody := (starts_hoistPlan 0 r.body).append (starts_stmtsPlan none 0 r.body)
  cases r with
  | program _ => exact Plan.begins_cons _ _
  | function _ => exact hbody.append_begins (Plan.begins_cons _ _)

/-- Where a routine lies, so do its body and what is around it. -/
theorem lies_around {r : Routine} {stop : ℕ} (h : r.LiesTo stop) :
    ∃ a b, r.head.Leads r.proto r.inFunction 0 r.head.size (fun S => S r.head.size ⟨0, 0⟩) ∧
      hoistLies r.proto r.body r.head.size a ∧ stmtsLie r.proto none r.inFunction r.body a b ∧
      r.foot.Leads r.proto r.inFunction b stop fun _ => True := by
  cases r with
  | program statements =>
      obtain ⟨a, b, c, henter, hbindings, hbody, hhalt⟩ := h
      obtain rfl := henter.stop_eq
      refine ⟨b, c, ?_, hbindings, hbody, ?_⟩
      · exact .plain henter rfl rfl (Nat.zero_le _) trivial rfl
      · exact .single hhalt rfl (Nat.zero_le _) trivial ⟨rfl, rfl⟩ fun _ _ g hg => nomatch hg
  | function decl =>
      obtain ⟨a, b, c, hbindings, hbody, hvalue, hret⟩ := h
      refine ⟨a, b, .nil 0 _, hbindings, hbody, ?_⟩
      refine (leads_pushes 0 0 hvalue).append (.single hret rfl (Nat.le_refl 1) trivial
        ⟨rfl, rfl⟩ fun _ _ g hg => nomatch hg) fun S hS _ => ?_
      exact (Plan.begins_cons _ _).within hS

/-- What lies behind the first instructions of a routine is obeyed on its own. -/
theorem leads_behind {r : Routine} {stop : ℕ} (h : r.LiesTo stop) :
    Plan.Leads r.proto r.inFunction
      ((hoistPlan 0 r.body ++ stmtsPlan none 0 r.body) ++ r.foot) r.head.size stop
      fun _ => True := by
  obtain ⟨a, b, -, hbindings, hbody, hfoot⟩ := lies_around h
  have hstmts := leads_stmts r.proto r.inFunction r.body a b 0 none hbody (reachable_none 0)
  have hwhole := (leads_hoist 0 hbindings).append hstmts
    (hstmts.enter (starts_stmtsPlan none 0 r.body) fun _ h => h.1)
  exact hwhole.append hfoot fun _ hS _ => leaves_none (r.begins_foot.within hS)

/-- **Where a routine lies, its plan is obeyed.** -/
theorem leads_plan {r : Routine} {stop : ℕ} (h : r.LiesTo stop) :
    r.plan.Leads r.proto r.inFunction 0 stop fun _ => True := by
  obtain ⟨a, b, hhead, -⟩ := lies_around h
  have hbody := (starts_hoistPlan 0 r.body).append (starts_stmtsPlan none 0 r.body)
  rw [plan, inner, List.append_assoc]
  exact hhead.append (leads_behind h) fun _ hS _ => (hbody.append_begins r.begins_foot).within hS

/-- Every region of a routine is the code of its statement. -/
theorem lies_region {r : Routine} (h : r.Lies) : ∀ R ∈ r.regions, R.Lies r.proto r.inFunction := by
  obtain ⟨stop, hstop⟩ := h.exists_liesTo
  obtain ⟨a, b, -, hbindings, hbody, -⟩ := lies_around hstop
  have hhoist : (hoistPlan 0 r.body).Leads r.proto r.inFunction r.head.size a _ :=
    leads_hoist 0 hbindings
  obtain rfl := hhoist.size
  intro R hR
  rcases List.mem_append.1 hR with hR | hR
  · exact lies_hoistRegions hbindings R hR
  · exact lies_stmtsRegions r.proto r.inFunction r.body _ b 0 none hbody (reachable_none 0) R hR

theorem fits_regions (r : Routine) : ∀ R ∈ r.regions, R.Fits r.inner 0 ⟨0, 0⟩ := by
  intro R hR
  refine Region.Fits.tail r.head ?_
  rw [Nat.zero_add]
  rcases List.mem_append.1 hR with hR | hR
  · exact (fits_hoistRegions 0 r.body _ R hR).head_starts (starts_stmtsPlan none 0 r.body)
  · exact (fits_stmtsRegions r.body none 0 _ R hR).tail _

end Routine

/-! ### Shapes at offsets -/

/-- The plan gives a shape to an offset. -/
def Plan.Shaped (plan : Plan) (offset : ℕ) (σ : Shape) : Prop :=
  ∃ slot, (offset, slot) ∈ plan.spots 0 ∧ slot.shape = σ

theorem Plan.within_shaped (plan : Plan) : plan.Within plan.Shaped 0 :=
  fun x hx => ⟨x.2, hx, rfl⟩

theorem Plan.Shaped.unique {plan : Plan} {offset : ℕ} {σ σ' : Shape} (h : plan.Shaped offset σ)
    (h' : plan.Shaped offset σ') : σ = σ' := by
  obtain ⟨slot, hslot, rfl⟩ := h
  obtain ⟨slot', hslot', rfl⟩ := h'
  exact congrArg (fun x : ℕ × Slot => x.2.shape) (Plan.spot_unique hslot hslot' rfl)

/-- There is one instruction at an offset. -/
theorem Chunk.At.unique {c : Chunk} {offset next next' : ℕ} {i i' : Instr}
    (h : c.At offset i next) (h' : c.At offset i' next') : i = i' ∧ next = next' := by
  have heq := h.symm.trans h'
  simp only [Except.ok.injEq, Option.some.injEq, Prod.mk.injEq] at heq
  exact heq

namespace Routine

variable {r : Routine} {R : Region} {offset : ℕ} {σ : Shape}

/-- Where a routine gives a shape, there is an instruction that obeys it. -/
theorem obeys (h : r.Lies) (hσ : r.plan.Shaped offset σ) :
    ∃ slot i, (offset, slot) ∈ r.plan.spots 0 ∧ slot.shape = σ ∧
      r.proto.Obeys r.inFunction r.plan.Shaped offset slot i := by
  obtain ⟨stop, hstop⟩ := h.exists_liesTo
  obtain ⟨slot, hslot, hshape⟩ := hσ
  obtain ⟨i, hi⟩ := (leads_plan hstop).obeyed r.plan.Shaped r.plan.within_shaped trivial _ hslot
  exact ⟨slot, i, hslot, hshape, hi⟩

theorem shaped_zero (r : Routine) : r.plan.Shaped 0 ⟨0, 0⟩ :=
  r.begins_plan.within r.plan.within_shaped

/-- In the plan of a routine, the body is followed by what comes behind it. -/
theorem within_inner (r : Routine) :
    r.inner.Within r.plan.Shaped 0 ∧ r.plan.Shaped (0 + r.inner.size) ⟨0, 0⟩ := by
  obtain ⟨hinner, hfoot⟩ := Plan.within_append.1 r.plan.within_shaped
  exact ⟨hinner, r.begins_foot.within hfoot⟩

/-- Where a statement starts, there are no operands. -/
theorem shaped_start (hR : R ∈ r.regions) : r.plan.Shaped R.start ⟨0, R.scopes⟩ :=
  (r.fits_regions R hR).entry _ r.within_inner.1 r.within_inner.2

/-- Where a statement is left, the frame has what it had where the statement started. -/
theorem shaped_exit (hR : R ∈ r.regions) : r.plan.Shaped R.exit ⟨0, R.scopes⟩ :=
  (r.fits_regions R hR).exit _ r.within_inner.1 r.within_inner.2

/-- A statement opens scopes only inside the ones around it. -/
theorem deep_region (h : r.Lies) (hR : R ∈ r.regions) {next : ℕ}
    (hat : r.proto.chunk.At offset .pushScope next) (hσ : r.plan.Shaped offset σ)
    (hstart : R.start ≤ offset) (hstop : offset < R.stop) : R.scopes ≤ σ.scopes := by
  have hfits : R.Fits r.plan 0 ⟨0, 0⟩ := (r.fits_regions R hR).head_begins r.begins_foot
  obtain ⟨slot, i, hslot, rfl, hobeys⟩ := obeys h hσ
  obtain ⟨rfl, -⟩ := hobeys.lies.unique hat
  exact hfits.deep _ hslot hstart hstop hobeys.suits

end Routine

namespace Proto

/-- There are routines with this code, and all of them give the same shape to an offset. -/
structure Gives (p : Proto) (offset : ℕ) (σ : Shape) : Prop where
  routine : ∃ r : Routine, r.Lies ∧ r.proto = p
  shaped : ∀ r : Routine, r.Lies → r.proto = p → r.plan.Shaped offset σ

/-- What a frame has at an offset, as far as that can be told from the code. -/
noncomputable def layout (p : Proto) (offset : ℕ) : Shape :=
  open Classical in if h : ∃ σ, p.Gives offset σ then h.choose else ⟨0, 0⟩

namespace Gives

variable {p : Proto} {offset next : ℕ} {σ σ' : Shape} {i : Instr}

theorem unique (h : p.Gives offset σ) (h' : p.Gives offset σ') : σ = σ' := by
  obtain ⟨r, hr, hp⟩ := h.routine
  exact (h.shaped r hr hp).unique (h'.shaped r hr hp)

theorem layout_eq (h : p.Gives offset σ) : p.layout offset = σ := by
  have hsome : ∃ σ, p.Gives offset σ := ⟨σ, h⟩
  rw [layout, dif_pos hsome]
  exact hsome.choose_spec.unique h

/-- All code starts with nothing of its own. -/
theorem zero {r : Routine} (h : r.Lies) : r.proto.Gives 0 ⟨0, 0⟩ :=
  ⟨⟨r, h, rfl⟩, fun r _ _ => r.shaped_zero⟩

/-- There is an instruction. -/
theorem instruction (h : p.Gives offset σ) : ∃ i next, p.chunk.At offset i next := by
  obtain ⟨r, hr, rfl⟩ := h.routine
  obtain ⟨slot, i, -, -, hobeys⟩ := r.obeys hr (h.shaped r hr rfl)
  exact ⟨i, _, hobeys.lies⟩

/-- The instruction obeys the plan of every routine with this code. -/
theorem obeys (h : p.Gives offset σ) (hat : p.chunk.At offset i next) {r : Routine} (hr : r.Lies)
    (hp : r.proto = p) :
    ∃ slot, slot.shape = σ ∧ next = offset + slot.size ∧
      p.Obeys r.inFunction r.plan.Shaped offset slot i := by
  subst hp
  obtain ⟨slot, i', -, hshape, hobeys⟩ := r.obeys hr (h.shaped r hr rfl)
  obtain ⟨rfl, rfl⟩ := hobeys.lies.unique hat
  exact ⟨slot, hshape, rfl, hobeys⟩

/-- **An instruction leads to offsets that have the shapes it leaves.** -/
theorem successor (h : p.Gives offset σ) (hat : p.chunk.At offset i next) {g : ℕ × Shape}
    (hg : g ∈ i.successors next σ) : p.Gives g.1 g.2 := by
  refine ⟨h.routine, fun r hr hp => ?_⟩
  obtain ⟨slot, rfl, rfl, hobeys⟩ := h.obeys hat hr hp
  exact hobeys.leads g hg

/-- A scope is closed only where one has been opened. -/
theorem pops (h : p.Gives offset σ) (hat : p.chunk.At offset i next) (hi : i = .popScope) :
    0 < σ.scopes := by
  subst hi
  obtain ⟨r, hr, hp⟩ := h.routine
  obtain ⟨slot, rfl, -, hobeys⟩ := h.obeys hat hr hp
  exact hobeys.suits

end Gives

end Proto

end Tracepoint
