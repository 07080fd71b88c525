/-
The code of statements.

In the plan of a statement lies the code of every statement inside it.  This file finds it, and
shows what the frame has where such a statement starts and where it is left.

Main definitions:

* `Region` — the code of one statement, and an offset at which the statement is left;
* `Stmt.parts`, `stmtsRegions` and their companions — the code of all statements inside another;
* `Region.Fits` — a region is part of a plan, has no operands at both ends, and opens scopes only
  inside the ones around it.

Main results:

* `fits_region`, `fits_parts`, `fits_stmtsRegions` — **every statement fits into the plan of the
  statements around it**.
-/

import Tracepoint.Proofs.Code.Plan

set_option relaxedAutoImplicit false
set_option autoImplicit false

namespace Tracepoint

/-! ### The code of statements -/

/-- The code of a statement, and where it is left. -/
structure Region where
  stmt : Stmt
  hoisted : Bool
  /-- The scopes that the frame has opened around the statement. -/
  scopes : ℕ
  start : ℕ
  stop : ℕ
  /-- Where the statement is left: behind its code. The body of a loop is also left for the next
  round. -/
  exit : ℕ

/-- The code of a statement that starts at an offset. -/
def Stmt.region (hoisted : Bool) (loop : Option ℕ) (scopes start : ℕ) (s : Stmt) : Region :=
  let stop := start + (s.plan hoisted loop scopes).size
  ⟨s, hoisted, scopes, start, stop, stop⟩

/-- The code of the functions that are bound at the head of a list of statements. -/
def hoistRegions (scopes start : ℕ) : List Stmt → List Region
  | [] => []
  | .function decl :: rest =>
    (Stmt.function decl).region false none scopes start ::
      hoistRegions scopes (start + (decl.bindPlan scopes).size) rest
  | _ :: rest => hoistRegions scopes start rest

mutual

/-- The code of the statements inside a statement. -/
def Stmt.parts (loop : Option ℕ) (scopes start : ℕ) : Stmt → List Region
  | .block body _ =>
    hoistRegions (scopes + 1) (start + 1) body ++
      stmtsRegions (loop.map (· + 1)) (scopes + 1)
        (start + 1 + (hoistPlan (scopes + 1) body).size) body
  | .conditional condition success none _ =>
    let yes := start + (condition.plan 0 scopes).size + Instr.wideSize
    success.region false loop scopes yes :: success.parts loop scopes yes
  | .conditional condition success (some failure) _ =>
    let yes := start + (condition.plan 0 scopes).size + Instr.wideSize
    let no := yes + (success.plan false loop scopes).size + Instr.wideSize
    success.region false loop scopes yes :: success.parts loop scopes yes ++
      failure.region false loop scopes no :: failure.parts loop scopes no
  | .whileLoop condition body _ =>
    let round := start + (condition.plan 0 scopes).size + Instr.wideSize
    { body.region false (some 0) scopes round with exit := start } ::
      body.region false (some 0) scopes round :: body.parts (some 0) scopes round
  -- The next round of a counting loop starts right behind the body.
  | .forLoop first condition _ body _ =>
    let test := start + 1 + (startPlan (scopes + 1) first).size
    let round := test + (testPlan (scopes + 1) condition).size
    startRegions (scopes + 1) (start + 1) first ++
      body.region false (some 0) (scopes + 1) round :: body.parts (some 0) (scopes + 1) round
  | _ => []

/-- The code of statements and of all statements inside them. -/
def stmtsRegions (loop : Option ℕ) (scopes start : ℕ) : List Stmt → List Region
  | [] => []
  | s :: rest =>
    s.region true loop scopes start :: s.parts loop scopes start ++
      stmtsRegions loop scopes (start + (s.plan true loop scopes).size) rest

/-- The code of what a counting loop does first. -/
def startRegions (scopes start : ℕ) : Option Stmt → List Region
  | some s => s.region true none scopes start :: s.parts none scopes start
  | none => []

end

/-- A region is part of a plan, behind which the frame has the shape `last`. -/
structure Region.Fits (R : Region) (plan : Plan) (start : ℕ) (last : Shape) : Prop where
  lower : start ≤ R.start
  upper : R.stop ≤ start + plan.size
  /-- Where the statement starts and where it is left, there are no operands. -/
  entry : ∀ S, plan.Within S start → S (start + plan.size) last → S R.start ⟨0, R.scopes⟩
  exit : ∀ S, plan.Within S start → S (start + plan.size) last → S R.exit ⟨0, R.scopes⟩
  deep : ∀ x ∈ plan.spots start, R.start ≤ x.1 → x.1 < R.stop → x.2.opens = true →
    R.scopes ≤ x.2.shape.scopes

namespace Region.Fits

variable {R : Region} {body : Plan} {start : ℕ} {σ last : Shape}

/-- What is part of a plan is part of a longer one that ends in the same way. -/
theorem tail (before : Plan) (h : R.Fits body (start + before.size) last) :
    R.Fits (before ++ body) start last := by
  have hlower := h.lower
  have hupper := h.upper
  have hsize : start + before.size + body.size = start + (before ++ body).size := by
    rw [Plan.size_append, Nat.add_assoc]
  refine ⟨by omega, by omega, ?_, ?_, ?_⟩
  · intro S hS hlast
    exact h.entry S (Plan.within_append.1 hS).2 (hsize ▸ hlast)
  · intro S hS hlast
    exact h.exit S (Plan.within_append.1 hS).2 (hsize ▸ hlast)
  · intro x hx hstart hstop hopens
    rw [Plan.spots_append, List.mem_append] at hx
    rcases hx with hx | hx
    -- The slots in front have smaller offsets.
    · have hbounds := Plan.bounds_of_mem hx
      rw [Slot.size] at hbounds
      omega
    · exact h.deep x hx hstart hstop hopens

theorem cons (slot : Slot) (h : R.Fits body (start + slot.size) last) :
    R.Fits (slot :: body) start last :=
  tail [slot] h

/-- What is part of a plan is part of a longer one that begins in the same way, if the frame comes
out of the shorter one with the shape that it has there. -/
theorem head {after : Plan} (h : R.Fits body start σ)
    (hend : ∀ S, after.Within S (start + body.size) →
      S (start + body.size + after.size) last → S (start + body.size) σ) :
    R.Fits (body ++ after) start last := by
  have hupper := h.upper
  have hsize : start + (body ++ after).size = start + body.size + after.size := by
    rw [Plan.size_append, Nat.add_assoc]
  have hleave : ∀ S, Plan.Within S start (body ++ after) → S (start + (body ++ after).size) last →
      body.Within S start ∧ S (start + body.size) σ := by
    intro S hS hlast
    obtain ⟨hbody, hafter⟩ := Plan.within_append.1 hS
    exact ⟨hbody, hend S hafter (hsize ▸ hlast)⟩
  refine ⟨h.lower, by omega, ?_, ?_, ?_⟩
  · intro S hS hlast
    obtain ⟨hbody, hσ⟩ := hleave S hS hlast
    exact h.entry S hbody hσ
  · intro S hS hlast
    obtain ⟨hbody, hσ⟩ := hleave S hS hlast
    exact h.exit S hbody hσ
  · intro x hx hstart hstop hopens
    rw [Plan.spots_append, List.mem_append] at hx
    rcases hx with hx | hx
    · exact h.deep x hx hstart hstop hopens
    -- The slots behind have greater offsets.
    · have hbounds := Plan.bounds_of_mem hx
      omega

theorem head_begins {after : Plan} (h : R.Fits body start σ) (hafter : after.Begins σ) :
    R.Fits (body ++ after) start last :=
  h.head fun _ hS _ => hafter.within hS

theorem head_starts {after : Plan} (h : R.Fits body start last) (hafter : after.Starts last) :
    R.Fits (body ++ after) start last :=
  h.head fun _ hS hlast => hafter.within hS hlast

end Region.Fits

/-- The code of a statement is part of itself. -/
theorem fits_region (hoisted : Bool) (loop : Option ℕ) (scopes start : ℕ) (s : Stmt) :
    (s.region hoisted loop scopes start).Fits (s.plan hoisted loop scopes) start ⟨0, scopes⟩ where
  lower := Nat.le_refl _
  upper := Nat.le_refl _
  entry := fun _ hS hlast => (starts_stmtPlan hoisted loop scopes s).within hS hlast
  exit := fun _ _ hlast => hlast
  deep := fun x hx _ _ hopens =>
    deep_stmtPlan s hoisted loop scopes x.2 (Plan.mem_of_spot hx) hopens

theorem fits_hoistRegions (scopes : ℕ) (body : List Stmt) (start : ℕ) :
    ∀ R ∈ hoistRegions scopes start body, R.Fits (hoistPlan scopes body) start ⟨0, scopes⟩ := by
  induction body generalizing start with
  | nil => exact fun R hR => nomatch hR
  | cons s rest ih =>
      cases s with
      | function decl =>
          intro R hR
          rcases List.mem_cons.1 hR with rfl | hR
          · have hown := fits_region false none scopes start (.function decl)
            rw [Stmt.plan, if_neg Bool.false_ne_true] at hown
            exact hown.head_starts (starts_hoistPlan scopes rest)
          · exact (ih _ R hR).tail _
      | _ => exact ih start

mutual

/-- **Every part of a statement fits into its plan.** -/
theorem fits_parts : ∀ (s : Stmt) (hoisted : Bool) (loop : Option ℕ) (scopes start : ℕ),
    ∀ R ∈ s.parts loop scopes start, R.Fits (s.plan hoisted loop scopes) start ⟨0, scopes⟩
  | .block body _, _, loop, scopes, start => by
      intro R hR
      rw [Stmt.parts] at hR
      rw [Stmt.plan]
      have hend := Plan.begins_cons (.narrow 0 (scopes + 1)) []
      rcases List.mem_append.1 hR with hR | hR
      · have hhoist := fits_hoistRegions (scopes + 1) body (start + 1) R hR
        exact ((hhoist.head_starts (starts_stmtsPlan _ _ body)).head_begins hend).cons _
      · have hbody := fits_stmtsRegions body _ _ _ R hR
        exact ((hbody.tail _).head_begins hend).cons _
  | .conditional condition success none _, _, loop, scopes, start => by
      intro R hR
      rw [Stmt.parts] at hR
      rw [Stmt.plan]
      rcases List.mem_cons.1 hR with rfl | hR
      · exact ((fits_region false loop scopes _ success).cons (.wide 1 scopes)).tail _
      · exact ((fits_parts success false loop scopes _ R hR).cons (.wide 1 scopes)).tail _
  | .conditional condition success (some failure) _, _, loop, scopes, start => by
      intro R hR
      rw [Stmt.parts] at hR
      rw [Stmt.plan]
      have hpass := Plan.begins_cons (.wide 0 scopes) (failure.plan false loop scopes)
      have hyes : ∀ R' : Region, R'.Fits (success.plan false loop scopes)
          (start + (condition.plan 0 scopes).size + Instr.wideSize) ⟨0, scopes⟩ →
            R'.Fits _ start ⟨0, scopes⟩ :=
        fun R' hR' => ((hR'.head_begins hpass).cons (.wide 1 scopes)).tail (condition.plan 0 scopes)
      have hno : ∀ R' : Region, R'.Fits (failure.plan false loop scopes)
          (start + (condition.plan 0 scopes).size + Instr.wideSize +
            (success.plan false loop scopes).size + Instr.wideSize) ⟨0, scopes⟩ →
            R'.Fits _ start ⟨0, scopes⟩ :=
        fun R' hR' => (((hR'.cons (.wide 0 scopes)).tail (success.plan false loop scopes)).cons
          (.wide 1 scopes)).tail (condition.plan 0 scopes)
      rcases List.mem_append.1 hR with hR | hR
      · rcases List.mem_cons.1 hR with rfl | hR
        · exact hyes _ (fits_region false loop scopes _ success)
        · exact hyes R (fits_parts success false loop scopes _ R hR)
      · rcases List.mem_cons.1 hR with rfl | hR
        · exact hno _ (fits_region false loop scopes _ failure)
        · exact hno R (fits_parts failure false loop scopes _ R hR)
  | .whileLoop condition body line, hoisted, loop, scopes, start => by
      intro R hR
      rw [Stmt.parts] at hR
      have hback := Plan.begins_cons (.wide 0 scopes) []
      have hround : ∀ R' : Region, R'.Fits (body.plan false (some 0) scopes)
          (start + (condition.plan 0 scopes).size + Instr.wideSize) ⟨0, scopes⟩ →
          R'.Fits ((Stmt.whileLoop condition body line).plan hoisted loop scopes) start
            ⟨0, scopes⟩ := by
        intro R' hR'
        rw [Stmt.plan]
        exact ((hR'.head_begins hback).cons (.wide 1 scopes)).tail _
      rcases List.mem_cons.1 hR with rfl | hR
      -- The next round starts where the loop does.
      · have hown := hround _ (fits_region false (some 0) scopes _ body)
        refine ⟨hown.lower, hown.upper, hown.entry, fun S hS _ => ?_, hown.deep⟩
        rw [Stmt.plan] at hS
        exact ((begins_exprPlan 0 scopes condition).append _).within hS
      rcases List.mem_cons.1 hR with rfl | hR
      · exact hround _ (fits_region false (some 0) scopes _ body)
      · exact hround R (fits_parts body false (some 0) scopes _ R hR)
  | .forLoop first condition increment body _, _, loop, scopes, start => by
      intro R hR
      rw [Stmt.parts] at hR
      rw [Stmt.plan]
      have hclose := Plan.begins_cons (.narrow 0 (scopes + 1)) []
      have hnext : Plan.Begins ⟨0, scopes + 1⟩ (incrementPlan (scopes + 1) increment ++
          [.wide 0 (scopes + 1)]) :=
        (starts_incrementPlan _ increment).append_begins (Plan.begins_cons _ _)
      rcases List.mem_append.1 hR with hR | hR
      · have htest := (starts_testPlan (scopes + 1) condition).append_begins
          ((starts_stmtPlan false (some 0) (scopes + 1) body).append_begins hnext)
        exact ((fits_startRegions first (scopes + 1) _ R hR).head_begins (htest.append _)).cons _
      · have hround : ∀ R' : Region, R'.Fits (body.plan false (some 0) (scopes + 1))
            (start + 1 + (startPlan (scopes + 1) first).size +
              (testPlan (scopes + 1) condition).size) ⟨0, scopes + 1⟩ →
            R'.Fits _ start ⟨0, scopes⟩ :=
          fun R' hR' => ((((hR'.head_begins hnext).tail (testPlan (scopes + 1) condition)).head_begins
            hclose).tail (startPlan (scopes + 1) first)).cons (.opening scopes)
        rcases List.mem_cons.1 hR with rfl | hR
        · exact hround _ (fits_region false (some 0) (scopes + 1) _ body)
        · exact hround R (fits_parts body false (some 0) (scopes + 1) _ R hR)
  | .declare _ _ _ _, _, _, _, _ | .function _, _, _, _, _ | .expression _ _, _, _, _, _
  | .returnValue _ _, _, _, _, _ | .breakLoop _, _, _, _, _ | .continueLoop _, _, _, _, _
  | .empty _, _, _, _, _ => by
      intro R hR
      exact nomatch (show R ∈ ([] : List Region) from hR)

theorem fits_stmtsRegions : ∀ (body : List Stmt) (loop : Option ℕ) (scopes start : ℕ),
    ∀ R ∈ stmtsRegions loop scopes start body, R.Fits (stmtsPlan loop scopes body) start ⟨0, scopes⟩
  | [], _, _, _ => by
      intro R hR
      rw [stmtsRegions] at hR
      cases hR
  | s :: rest, loop, scopes, start => by
      intro R hR
      rw [stmtsRegions] at hR
      rw [stmtsPlan]
      have hrest := starts_stmtsPlan loop scopes rest
      rcases List.mem_append.1 hR with hR | hR
      · rcases List.mem_cons.1 hR with rfl | hR
        · exact (fits_region true loop scopes start s).head_starts hrest
        · exact (fits_parts s true loop scopes start R hR).head_starts hrest
      · exact (fits_stmtsRegions rest loop scopes _ R hR).tail _

theorem fits_startRegions : ∀ (first : Option Stmt) (scopes start : ℕ),
    ∀ R ∈ startRegions scopes start first, R.Fits (startPlan scopes first) start ⟨0, scopes⟩
  | none, _, _ => by
      intro R hR
      rw [startRegions] at hR
      cases hR
  | some s, scopes, start => by
      intro R hR
      rw [startRegions] at hR
      rw [startPlan]
      rcases List.mem_cons.1 hR with rfl | hR
      · exact fits_region true none scopes start s
      · exact fits_parts s true none scopes start R hR

end

end Tracepoint
