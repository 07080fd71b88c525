/-
What a frame has where.

From a tree alone it can be told which instructions its code will have, one behind the other: how
long each of them is, and what the running frame has of its own when that instruction comes next.
This file computes that plan.

Main definitions:

* `Shape` — what a frame has of its own: operands, and scopes opened since it was entered;
* `Slot`, `Plan`, `Plan.spots` — instructions to be, in order, and at their offsets;
* `Expr.plan`, `Stmt.plan` and their companions — the plans of trees.

Main results:

* `Plan.spot_unique` — at one offset there is one slot;
* `begins_exprPlan`, `starts_stmtPlan` — a tree finds the frame as it was left to it;
* `deep_stmtPlan` — a statement opens scopes only inside the ones around it.
-/

import Mathlib.Data.Nat.Notation
import Tracepoint.Compile

set_option relaxedAutoImplicit false
set_option autoImplicit false

namespace Tracepoint

/-! ### Plans -/

/-- What a frame has of its own. -/
structure Shape where
  /-- The operands above its base. -/
  operands : ℕ
  /-- The scopes from the current one up to the one that the frame was entered with. -/
  scopes : ℕ
  deriving Repr, DecidableEq

/-- An instruction to be. -/
structure Slot where
  /-- The bytes behind the first one. -/
  operand : ℕ
  /-- What the frame has when the instruction comes next. -/
  shape : Shape
  /-- It opens a scope. -/
  opens : Bool := false
  deriving Repr, DecidableEq

namespace Slot

/-- The number of bytes. -/
def size (s : Slot) : ℕ :=
  s.operand + 1

/-- An instruction without operand. -/
def narrow (operands scopes : ℕ) : Slot :=
  ⟨0, ⟨operands, scopes⟩, false⟩

/-- An instruction with a word. -/
def wide (operands scopes : ℕ) : Slot :=
  ⟨4, ⟨operands, scopes⟩, false⟩

/-- A declaration. -/
def declaring (scopes : ℕ) : Slot :=
  ⟨5, ⟨1, scopes⟩, false⟩

/-- An instruction that opens a scope. -/
def opening (scopes : ℕ) : Slot :=
  ⟨0, ⟨0, scopes⟩, true⟩

end Slot

/-- Instructions to be, one behind the other. -/
abbrev Plan := List Slot

namespace Plan

/-- The number of bytes. -/
def size : Plan → ℕ
  | [] => 0
  | s :: rest => s.size + size rest

/-- The slots with their offsets, the first one at `start`. -/
def spots (start : ℕ) : Plan → List (ℕ × Slot)
  | [] => []
  | s :: rest => (start, s) :: spots (start + s.size) rest

/-- The offsets of the slots have the shapes that are planned for them. -/
def Within (S : ℕ → Shape → Prop) (start : ℕ) (plan : Plan) : Prop :=
  ∀ x ∈ plan.spots start, S x.1 x.2.shape

@[simp] theorem size_nil : size [] = 0 := rfl

@[simp] theorem size_cons (s : Slot) (rest : Plan) : size (s :: rest) = s.size + rest.size := rfl

@[simp] theorem size_append (first second : Plan) :
    size (first ++ second) = first.size + second.size := by
  induction first with
  | nil => simp
  | cons s rest ih => simp [ih, Nat.add_assoc]

theorem spots_append (start : ℕ) (first second : Plan) :
    spots start (first ++ second) = first.spots start ++ second.spots (start + first.size) := by
  induction first generalizing start with
  | nil => rfl
  | cons s rest ih => simp [spots, ih, Nat.add_assoc]

section

variable {start : ℕ} {plan : Plan} {x y : ℕ × Slot}

/-- A slot lies inside its plan. -/
theorem bounds_of_mem (hx : x ∈ plan.spots start) :
    start ≤ x.1 ∧ x.1 + x.2.size ≤ start + plan.size := by
  induction plan generalizing start with
  | nil => cases hx
  | cons s rest ih =>
      rw [size_cons]
      rcases List.mem_cons.1 hx with rfl | hx
      · exact ⟨Nat.le_refl _, by simp only; omega⟩
      · have hrest := ih hx
        omega

theorem mem_of_spot (hx : x ∈ plan.spots start) : x.2 ∈ plan := by
  induction plan generalizing start with
  | nil => cases hx
  | cons s rest ih =>
      rcases List.mem_cons.1 hx with rfl | hx
      · exact List.mem_cons_self
      · exact List.mem_cons_of_mem _ (ih hx)

/-- At one offset there is one slot. -/
theorem spot_unique (hx : x ∈ plan.spots start) (hy : y ∈ plan.spots start) (h : x.1 = y.1) :
    x = y := by
  induction plan generalizing start with
  | nil => cases hx
  | cons s rest ih =>
      rcases List.mem_cons.1 hx with hx | hx
      · rcases List.mem_cons.1 hy with hy | hy
        · rw [hx, hy]
        -- The slots behind the first one have greater offsets.
        · have hbehind := (bounds_of_mem hy).1
          rw [← h, hx, Slot.size] at hbehind
          simp only at hbehind
          omega
      · rcases List.mem_cons.1 hy with hy | hy
        · have hbehind := (bounds_of_mem hx).1
          rw [h, hy, Slot.size] at hbehind
          simp only at hbehind
          omega
        · exact ih hx hy

end

section

variable {S : ℕ → Shape → Prop} {start : ℕ}

theorem within_cons {s : Slot} {rest : Plan} :
    Within S start (s :: rest) ↔ S start s.shape ∧ Within S (start + s.size) rest := by
  simp [Within, spots]

theorem within_append {first second : Plan} :
    Within S start (first ++ second) ↔
      Within S start first ∧ Within S (start + first.size) second := by
  simp only [Within, spots_append, List.mem_append]
  constructor
  · intro h
    exact ⟨fun x hx => h x (Or.inl hx), fun x hx => h x (Or.inr hx)⟩
  · rintro ⟨hfirst, hsecond⟩ x (hx | hx)
    · exact hfirst x hx
    · exact hsecond x hx

end

/-- The first slot has a shape. -/
def Begins (σ : Shape) (plan : Plan) : Prop :=
  ∃ s rest, plan = s :: rest ∧ s.shape = σ

/-- The first slot has a shape, if there is one. -/
def Starts (σ : Shape) (plan : Plan) : Prop :=
  plan = [] ∨ plan.Begins σ

theorem begins_cons (s : Slot) (rest : Plan) : Begins s.shape (s :: rest) :=
  ⟨s, rest, rfl, rfl⟩

theorem Begins.append {σ : Shape} {plan : Plan} (h : plan.Begins σ) (rest : Plan) :
    Begins σ (plan ++ rest) := by
  obtain ⟨s, others, rfl, hs⟩ := h
  exact ⟨s, others ++ rest, rfl, hs⟩

theorem Starts.append {σ : Shape} {first second : Plan} (hfirst : first.Starts σ)
    (hsecond : second.Starts σ) : Starts σ (first ++ second) := by
  rcases hfirst with rfl | hfirst
  · exact hsecond
  · exact Or.inr (hfirst.append second)

theorem Starts.append_begins {σ : Shape} {first second : Plan} (hfirst : first.Starts σ)
    (hsecond : second.Begins σ) : Begins σ (first ++ second) := by
  rcases hfirst with rfl | hfirst
  · exact hsecond
  · exact hfirst.append second

theorem Begins.within {S : ℕ → Shape → Prop} {start : ℕ} {σ : Shape} {plan : Plan}
    (h : plan.Begins σ) (hwithin : plan.Within S start) : S start σ := by
  obtain ⟨s, rest, rfl, rfl⟩ := h
  exact (within_cons.1 hwithin).1

theorem Starts.within {S : ℕ → Shape → Prop} {start : ℕ} {σ : Shape} {plan : Plan}
    (h : plan.Starts σ) (hwithin : plan.Within S start) (hstop : S (start + plan.size) σ) :
    S start σ := by
  rcases h with rfl | h
  · exact hstop
  · exact h.within hwithin

end Plan

/-! ### Trees -/

mutual

/-- The instructions that push the value of an expression. -/
def Expr.plan (operands scopes : ℕ) : Expr → Plan
  | .atom _ _ _ => [.wide operands scopes]
  | .group inner => inner.plan operands scopes
  | .unary _ operand => operand.plan operands scopes ++ [.narrow (operands + 1) scopes]
  | .binary op left right =>
    left.plan operands scopes ++ right.plan (operands + 1) scopes ++
      .narrow (operands + 2) scopes :: op.instrs.tail.map fun _ => .narrow (operands + 1) scopes
  | .logical _ left right =>
    left.plan operands scopes ++ .wide (operands + 1) scopes :: right.plan operands scopes
  | .assignName _ value => value.plan operands scopes ++ [.wide (operands + 1) scopes]
  | .assignProperty object _ value =>
    object.plan operands scopes ++ value.plan (operands + 1) scopes ++ [.wide (operands + 2) scopes]
  | .assignIndex object index value =>
    object.plan operands scopes ++ index.plan (operands + 1) scopes ++
      value.plan (operands + 2) scopes ++ [.narrow (operands + 3) scopes]
  | .call callee arguments =>
    callee.plan operands scopes ++ exprsPlan (operands + 1) scopes arguments ++
      [.wide (operands + 1 + arguments.length) scopes]
  | .property object _ => object.plan operands scopes ++ [.wide (operands + 1) scopes]
  | .index object index =>
    object.plan operands scopes ++ index.plan (operands + 1) scopes ++
      [.narrow (operands + 2) scopes]
  | .array elements =>
    exprsPlan operands scopes elements ++ [.wide (operands + elements.length) scopes]
  | .object entries =>
    entriesPlan operands scopes entries ++ [.wide (operands + 2 * entries.length) scopes]
  | .function _ => [.wide operands scopes]

/-- The instructions that push the values of expressions. -/
def exprsPlan (operands scopes : ℕ) : List Expr → Plan
  | [] => []
  | e :: rest => e.plan operands scopes ++ exprsPlan (operands + 1) scopes rest

/-- The instructions that push keys and values. -/
def entriesPlan (operands scopes : ℕ) : List (String × Expr) → Plan
  | [] => []
  | (_, e) :: rest =>
    .wide operands scopes ::
      (e.plan (operands + 1) scopes ++ entriesPlan (operands + 2) scopes rest)

end

/-- The instructions that push a value, given or not. -/
def valuePlan (scopes : ℕ) : Option Expr → Plan
  | some e => e.plan 0 scopes
  | none => [.wide 0 scopes]

/-- The instructions that test a condition, if there is one. -/
def testPlan (scopes : ℕ) : Option Expr → Plan
  | some e => e.plan 0 scopes ++ [.wide 1 scopes]
  | none => []

/-- The instructions behind each round of a counting loop. -/
def incrementPlan (scopes : ℕ) : Option Expr → Plan
  | some e => e.plan 0 scopes ++ [.narrow 1 scopes]
  | none => []

/-- The instructions that bind a declared function. -/
def FunctionDecl.bindPlan (scopes : ℕ) (decl : FunctionDecl) : Plan :=
  if decl.name.isSome then [.wide 0 scopes, .declaring scopes] else []

/-- The instructions that bind the functions declared in a list of statements. -/
def hoistPlan (scopes : ℕ) : List Stmt → Plan
  | [] => []
  | .function decl :: rest => decl.bindPlan scopes ++ hoistPlan scopes rest
  | _ :: rest => hoistPlan scopes rest

/-- The instructions that close a number of scopes. -/
def closingPlan (scopes : ℕ) : ℕ → Plan
  | 0 => []
  | count + 1 => .narrow 0 scopes :: closingPlan (scopes - 1) count

/-- The instructions that leave a loop, or its round. -/
def leavingPlan (scopes : ℕ) : Option ℕ → Plan
  | none => []
  | some depth => closingPlan scopes depth ++ [.wide 0 (scopes - depth)]

mutual

/-- The instructions of a statement. In a loop, `loop` scopes have been opened since its body. -/
def Stmt.plan (hoisted : Bool) (loop : Option ℕ) (scopes : ℕ) : Stmt → Plan
  | .declare _ _ initial _ => valuePlan scopes initial ++ [.declaring scopes]
  | .function decl => if hoisted then [] else decl.bindPlan scopes
  | .expression e _ => e.plan 0 scopes ++ [.narrow 1 scopes]
  | .block body _ =>
    .opening scopes :: (hoistPlan (scopes + 1) body ++
      stmtsPlan (loop.map (· + 1)) (scopes + 1) body ++ [.narrow 0 (scopes + 1)])
  | .conditional condition success none _ =>
    condition.plan 0 scopes ++ .wide 1 scopes :: success.plan false loop scopes
  | .conditional condition success (some failure) _ =>
    condition.plan 0 scopes ++ .wide 1 scopes :: (success.plan false loop scopes ++
      .wide 0 scopes :: failure.plan false loop scopes)
  | .whileLoop condition body _ =>
    condition.plan 0 scopes ++ .wide 1 scopes :: (body.plan false (some 0) scopes ++
      [.wide 0 scopes])
  | .forLoop first condition increment body _ =>
    .opening scopes :: (startPlan (scopes + 1) first ++ (testPlan (scopes + 1) condition ++
      (body.plan false (some 0) (scopes + 1) ++ (incrementPlan (scopes + 1) increment ++
        [.wide 0 (scopes + 1)])) ++ [.narrow 0 (scopes + 1)]))
  | .returnValue value _ => valuePlan scopes value ++ [.narrow 1 scopes]
  | .breakLoop _ => leavingPlan scopes loop
  | .continueLoop _ => leavingPlan scopes loop
  | .empty _ => []

/-- The instructions of statements. -/
def stmtsPlan (loop : Option ℕ) (scopes : ℕ) : List Stmt → Plan
  | [] => []
  | s :: rest => s.plan true loop scopes ++ stmtsPlan loop scopes rest

/-- The instructions of what a counting loop does first. -/
def startPlan (scopes : ℕ) : Option Stmt → Plan
  | some s => s.plan true none scopes
  | none => []

end

/-! ### How plans begin -/

theorem begins_exprPlan (operands scopes : ℕ) :
    ∀ e : Expr, (e.plan operands scopes).Begins ⟨operands, scopes⟩
  | .atom _ _ _ | .function _ => by
      rw [Expr.plan]
      exact Plan.begins_cons _ _
  | .group inner => by
      rw [Expr.plan]
      exact begins_exprPlan operands scopes inner
  | .unary _ operand => by
      rw [Expr.plan]
      exact (begins_exprPlan operands scopes operand).append _
  | .binary _ left _ => by
      rw [Expr.plan, List.append_assoc]
      exact (begins_exprPlan operands scopes left).append _
  | .logical _ left _ => by
      rw [Expr.plan]
      exact (begins_exprPlan operands scopes left).append _
  | .assignName _ value => by
      rw [Expr.plan]
      exact (begins_exprPlan operands scopes value).append _
  | .assignProperty object _ _ => by
      rw [Expr.plan, List.append_assoc]
      exact (begins_exprPlan operands scopes object).append _
  | .assignIndex object _ _ => by
      rw [Expr.plan, List.append_assoc, List.append_assoc]
      exact (begins_exprPlan operands scopes object).append _
  | .call callee _ => by
      rw [Expr.plan, List.append_assoc]
      exact (begins_exprPlan operands scopes callee).append _
  | .property object _ => by
      rw [Expr.plan]
      exact (begins_exprPlan operands scopes object).append _
  | .index object _ => by
      rw [Expr.plan, List.append_assoc]
      exact (begins_exprPlan operands scopes object).append _
  | .array elements => by
      rw [Expr.plan]
      cases elements with
      | nil =>
          rw [exprsPlan]
          exact Plan.begins_cons _ _
      | cons e rest =>
          rw [exprsPlan, List.append_assoc]
          exact (begins_exprPlan operands scopes e).append _
  | .object entries => by
      rw [Expr.plan]
      cases entries with
      | nil =>
          rw [entriesPlan]
          exact Plan.begins_cons _ _
      | cons entry rest =>
          rw [entriesPlan]
          exact Plan.begins_cons _ _

/-- Behind expressions comes an instruction that takes their values. -/
theorem begins_exprsPlan (operands scopes : ℕ) (es : List Expr) :
    Plan.Begins ⟨operands, scopes⟩
      (exprsPlan operands scopes es ++ [.wide (operands + es.length) scopes]) := by
  cases es with
  | nil => exact Plan.begins_cons _ _
  | cons e rest =>
      rw [exprsPlan, List.append_assoc]
      exact (begins_exprPlan operands scopes e).append _

theorem begins_valuePlan (scopes : ℕ) (value : Option Expr) :
    (valuePlan scopes value).Begins ⟨0, scopes⟩ := by
  cases value with
  | some e => exact begins_exprPlan 0 scopes e
  | none => exact Plan.begins_cons _ _

theorem starts_testPlan (scopes : ℕ) (condition : Option Expr) :
    (testPlan scopes condition).Starts ⟨0, scopes⟩ := by
  cases condition with
  | some e => exact Or.inr ((begins_exprPlan 0 scopes e).append _)
  | none => exact Or.inl rfl

theorem starts_incrementPlan (scopes : ℕ) (increment : Option Expr) :
    (incrementPlan scopes increment).Starts ⟨0, scopes⟩ := by
  cases increment with
  | some e => exact Or.inr ((begins_exprPlan 0 scopes e).append _)
  | none => exact Or.inl rfl

theorem starts_bindPlan (scopes : ℕ) (decl : FunctionDecl) :
    (decl.bindPlan scopes).Starts ⟨0, scopes⟩ := by
  unfold FunctionDecl.bindPlan
  split
  · exact Or.inr (Plan.begins_cons _ _)
  · exact Or.inl rfl

theorem starts_hoistPlan (scopes : ℕ) (body : List Stmt) :
    (hoistPlan scopes body).Starts ⟨0, scopes⟩ := by
  induction body with
  | nil => exact Or.inl rfl
  | cons s rest ih =>
      cases s with
      | function decl => exact (starts_bindPlan scopes decl).append ih
      | _ => exact ih

theorem starts_leavingPlan (scopes : ℕ) (loop : Option ℕ) :
    (leavingPlan scopes loop).Starts ⟨0, scopes⟩ := by
  cases loop with
  | none => exact Or.inl rfl
  | some depth =>
      cases depth with
      | zero => exact Or.inr (Plan.begins_cons _ _)
      | succ depth => exact Or.inr (Plan.begins_cons _ _)

theorem starts_stmtPlan (hoisted : Bool) (loop : Option ℕ) (scopes : ℕ) (s : Stmt) :
    (s.plan hoisted loop scopes).Starts ⟨0, scopes⟩ := by
  cases s with
  | declare _ _ initial _ =>
      rw [Stmt.plan]
      exact Or.inr ((begins_valuePlan scopes initial).append _)
  | function decl =>
      rw [Stmt.plan]
      split
      · exact Or.inl rfl
      · exact starts_bindPlan scopes decl
  | expression e _ =>
      rw [Stmt.plan]
      exact Or.inr ((begins_exprPlan 0 scopes e).append _)
  | block _ _ =>
      rw [Stmt.plan]
      exact Or.inr (Plan.begins_cons _ _)
  | conditional condition _ failure _ =>
      cases failure with
      | none =>
          rw [Stmt.plan]
          exact Or.inr ((begins_exprPlan 0 scopes condition).append _)
      | some _ =>
          rw [Stmt.plan]
          exact Or.inr ((begins_exprPlan 0 scopes condition).append _)
  | whileLoop condition _ _ =>
      rw [Stmt.plan]
      exact Or.inr ((begins_exprPlan 0 scopes condition).append _)
  | forLoop _ _ _ _ _ =>
      rw [Stmt.plan]
      exact Or.inr (Plan.begins_cons _ _)
  | returnValue value _ =>
      rw [Stmt.plan]
      exact Or.inr ((begins_valuePlan scopes value).append _)
  | breakLoop _ =>
      rw [Stmt.plan]
      exact starts_leavingPlan scopes loop
  | continueLoop _ =>
      rw [Stmt.plan]
      exact starts_leavingPlan scopes loop
  | empty _ =>
      rw [Stmt.plan]
      exact Or.inl rfl

theorem starts_stmtsPlan (loop : Option ℕ) (scopes : ℕ) (body : List Stmt) :
    (stmtsPlan loop scopes body).Starts ⟨0, scopes⟩ := by
  induction body with
  | nil =>
      rw [stmtsPlan]
      exact Or.inl rfl
  | cons s rest ih =>
      rw [stmtsPlan]
      exact (starts_stmtPlan true loop scopes s).append ih

theorem starts_startPlan (scopes : ℕ) (first : Option Stmt) :
    (startPlan scopes first).Starts ⟨0, scopes⟩ := by
  cases first with
  | some s =>
      rw [startPlan]
      exact starts_stmtPlan true none scopes s
  | none =>
      rw [startPlan]
      exact Or.inl rfl

/-! ### Where scopes are opened -/

/-- Scopes are opened only inside so many others. -/
def Plan.Deep (scopes : ℕ) (plan : Plan) : Prop :=
  ∀ s ∈ plan, s.opens = true → scopes ≤ s.shape.scopes

namespace Plan

variable {n : ℕ}

theorem deep_nil : Deep n [] := by
  simp [Deep]

theorem deep_append {first second : Plan} :
    Deep n (first ++ second) ↔ first.Deep n ∧ second.Deep n := by
  simp [Deep, or_imp, forall_and]

theorem deep_cons {s : Slot} {rest : Plan} :
    Deep n (s :: rest) ↔ (s.opens = true → n ≤ s.shape.scopes) ∧ rest.Deep n := by
  simp [Deep]

theorem deep_narrow (operands scopes : ℕ) {rest : Plan} :
    Deep n (.narrow operands scopes :: rest) ↔ rest.Deep n := by
  simp [deep_cons, Slot.narrow]

theorem deep_wide (operands scopes : ℕ) {rest : Plan} :
    Deep n (.wide operands scopes :: rest) ↔ rest.Deep n := by
  simp [deep_cons, Slot.wide]

theorem deep_declaring (scopes : ℕ) {rest : Plan} :
    Deep n (.declaring scopes :: rest) ↔ rest.Deep n := by
  simp [deep_cons, Slot.declaring]

theorem deep_opening {scopes : ℕ} {rest : Plan} :
    Deep n (.opening scopes :: rest) ↔ n ≤ scopes ∧ rest.Deep n := by
  simp [deep_cons, Slot.opening]

theorem deep_map_narrow {α : Type} (operands scopes : ℕ) (xs : List α) :
    Deep n (xs.map fun _ => .narrow operands scopes) := by
  induction xs with
  | nil => exact deep_nil
  | cons x rest ih => exact (deep_narrow operands scopes).2 ih

theorem Deep.mono {m : ℕ} {plan : Plan} (h : plan.Deep m) (hle : n ≤ m) : plan.Deep n :=
  fun s hs hopens => Nat.le_trans hle (h s hs hopens)

end Plan

section

open Plan

mutual

/-- Expressions open no scopes. -/
theorem deep_exprPlan (n : ℕ) : ∀ (e : Expr) (operands scopes : ℕ),
    (e.plan operands scopes).Deep n
  | .atom _ _ _, _, _ | .function _, _, _ => by
      rw [Expr.plan, deep_wide]
      exact deep_nil
  | .group inner, operands, scopes => by
      rw [Expr.plan]
      exact deep_exprPlan n inner operands scopes
  | .unary _ operand, operands, scopes => by
      rw [Expr.plan, deep_append, deep_narrow]
      exact ⟨deep_exprPlan n operand _ _, deep_nil⟩
  | .binary _ left right, operands, scopes => by
      rw [Expr.plan, deep_append, deep_append, deep_narrow]
      exact ⟨⟨deep_exprPlan n left _ _, deep_exprPlan n right _ _⟩, deep_map_narrow _ _ _⟩
  | .logical _ left right, operands, scopes => by
      rw [Expr.plan, deep_append, deep_wide]
      exact ⟨deep_exprPlan n left _ _, deep_exprPlan n right _ _⟩
  | .assignName _ value, operands, scopes => by
      rw [Expr.plan, deep_append, deep_wide]
      exact ⟨deep_exprPlan n value _ _, deep_nil⟩
  | .assignProperty object _ value, operands, scopes => by
      rw [Expr.plan, deep_append, deep_append, deep_wide]
      exact ⟨⟨deep_exprPlan n object _ _, deep_exprPlan n value _ _⟩, deep_nil⟩
  | .assignIndex object index value, operands, scopes => by
      rw [Expr.plan, deep_append, deep_append, deep_append, deep_narrow]
      exact ⟨⟨⟨deep_exprPlan n object _ _, deep_exprPlan n index _ _⟩, deep_exprPlan n value _ _⟩,
        deep_nil⟩
  | .call callee arguments, operands, scopes => by
      rw [Expr.plan, deep_append, deep_append, deep_wide]
      exact ⟨⟨deep_exprPlan n callee _ _, deep_exprsPlan n arguments _ _⟩, deep_nil⟩
  | .property object _, operands, scopes => by
      rw [Expr.plan, deep_append, deep_wide]
      exact ⟨deep_exprPlan n object _ _, deep_nil⟩
  | .index object index, operands, scopes => by
      rw [Expr.plan, deep_append, deep_append, deep_narrow]
      exact ⟨⟨deep_exprPlan n object _ _, deep_exprPlan n index _ _⟩, deep_nil⟩
  | .array elements, operands, scopes => by
      rw [Expr.plan, deep_append, deep_wide]
      exact ⟨deep_exprsPlan n elements _ _, deep_nil⟩
  | .object entries, operands, scopes => by
      rw [Expr.plan, deep_append, deep_wide]
      exact ⟨deep_entriesPlan n entries _ _, deep_nil⟩

theorem deep_exprsPlan (n : ℕ) : ∀ (es : List Expr) (operands scopes : ℕ),
    (exprsPlan operands scopes es).Deep n
  | [], _, _ => by
      rw [exprsPlan]
      exact deep_nil
  | e :: rest, operands, scopes => by
      rw [exprsPlan, deep_append]
      exact ⟨deep_exprPlan n e _ _, deep_exprsPlan n rest _ _⟩

theorem deep_entriesPlan (n : ℕ) : ∀ (entries : List (String × Expr)) (operands scopes : ℕ),
    (entriesPlan operands scopes entries).Deep n
  | [], _, _ => by
      rw [entriesPlan]
      exact deep_nil
  | (_, e) :: rest, operands, scopes => by
      rw [entriesPlan, deep_wide, deep_append]
      exact ⟨deep_exprPlan n e _ _, deep_entriesPlan n rest _ _⟩

end

variable (n scopes : ℕ)

theorem deep_valuePlan (value : Option Expr) : (valuePlan scopes value).Deep n := by
  cases value with
  | some e => exact deep_exprPlan n e 0 scopes
  | none => exact (deep_wide 0 scopes).2 deep_nil

theorem deep_testPlan (condition : Option Expr) : (testPlan scopes condition).Deep n := by
  cases condition with
  | some e => exact deep_append.2 ⟨deep_exprPlan n e 0 scopes, (deep_wide 1 scopes).2 deep_nil⟩
  | none => exact deep_nil

theorem deep_incrementPlan (increment : Option Expr) :
    (incrementPlan scopes increment).Deep n := by
  cases increment with
  | some e => exact deep_append.2 ⟨deep_exprPlan n e 0 scopes, (deep_narrow 1 scopes).2 deep_nil⟩
  | none => exact deep_nil

theorem deep_bindPlan (decl : FunctionDecl) : (decl.bindPlan scopes).Deep n := by
  unfold FunctionDecl.bindPlan
  split
  · rw [deep_wide, deep_declaring]
    exact deep_nil
  · exact deep_nil

theorem deep_hoistPlan (body : List Stmt) : (hoistPlan scopes body).Deep n := by
  induction body with
  | nil => exact deep_nil
  | cons s rest ih =>
      cases s with
      | function decl => exact deep_append.2 ⟨deep_bindPlan n scopes decl, ih⟩
      | _ => exact ih

theorem deep_leavingPlan (loop : Option ℕ) : (leavingPlan scopes loop).Deep n := by
  have hclosing : ∀ count scopes, (closingPlan scopes count).Deep n := by
    intro count
    induction count with
    | zero => exact fun _ => deep_nil
    | succ count ih => exact fun scopes => (deep_narrow 0 scopes).2 (ih (scopes - 1))
  cases loop with
  | none => exact deep_nil
  | some depth => exact deep_append.2 ⟨hclosing depth scopes, (deep_wide 0 _).2 deep_nil⟩

end

section

open Plan

mutual

/-- Statements open scopes inside the ones around them. -/
theorem deep_stmtPlan : ∀ (s : Stmt) (hoisted : Bool) (loop : Option ℕ) (scopes : ℕ),
    (s.plan hoisted loop scopes).Deep scopes
  | .declare _ _ initial _, _, _, scopes => by
      rw [Stmt.plan, deep_append, deep_declaring]
      exact ⟨deep_valuePlan scopes scopes initial, deep_nil⟩
  | .function decl, hoisted, _, scopes => by
      rw [Stmt.plan]
      split
      · exact deep_nil
      · exact deep_bindPlan scopes scopes decl
  | .expression e _, _, _, scopes => by
      rw [Stmt.plan, deep_append, deep_narrow]
      exact ⟨deep_exprPlan scopes e 0 scopes, deep_nil⟩
  | .block body _, _, loop, scopes => by
      rw [Stmt.plan, deep_opening, deep_append, deep_append, deep_narrow]
      have hbody := deep_stmtsPlan body (loop.map (· + 1)) (scopes + 1)
      exact ⟨Nat.le_refl _, ⟨deep_hoistPlan _ _ body, hbody.mono (Nat.le_succ _)⟩, deep_nil⟩
  | .conditional condition success none _, _, loop, scopes => by
      rw [Stmt.plan, deep_append, deep_wide]
      exact ⟨deep_exprPlan scopes condition 0 scopes, deep_stmtPlan success false loop scopes⟩
  | .conditional condition success (some failure) _, _, loop, scopes => by
      rw [Stmt.plan, deep_append, deep_wide, deep_append, deep_wide]
      exact ⟨deep_exprPlan scopes condition 0 scopes, deep_stmtPlan success false loop scopes,
        deep_stmtPlan failure false loop scopes⟩
  | .whileLoop condition body _, _, _, scopes => by
      rw [Stmt.plan, deep_append, deep_wide, deep_append, deep_wide]
      exact ⟨deep_exprPlan scopes condition 0 scopes, deep_stmtPlan body false (some 0) scopes,
        deep_nil⟩
  | .forLoop first condition increment body _, _, _, scopes => by
      rw [Stmt.plan, deep_opening, deep_append, deep_append, deep_append, deep_append, deep_append,
        deep_wide, deep_narrow]
      have hfirst := deep_startPlan first (scopes + 1)
      have hbody := deep_stmtPlan body false (some 0) (scopes + 1)
      exact ⟨Nat.le_refl _, hfirst.mono (Nat.le_succ _), ⟨deep_testPlan _ _ condition,
        hbody.mono (Nat.le_succ _), deep_incrementPlan _ _ increment, deep_nil⟩, deep_nil⟩
  | .returnValue value _, _, _, scopes => by
      rw [Stmt.plan, deep_append, deep_narrow]
      exact ⟨deep_valuePlan scopes scopes value, deep_nil⟩
  | .breakLoop _, _, loop, scopes | .continueLoop _, _, loop, scopes => by
      rw [Stmt.plan]
      exact deep_leavingPlan scopes scopes loop
  | .empty _, _, _, _ => by
      rw [Stmt.plan]
      exact deep_nil

theorem deep_stmtsPlan : ∀ (body : List Stmt) (loop : Option ℕ) (scopes : ℕ),
    (stmtsPlan loop scopes body).Deep scopes
  | [], _, _ => by
      rw [stmtsPlan]
      exact deep_nil
  | s :: rest, loop, scopes => by
      rw [stmtsPlan, deep_append]
      exact ⟨deep_stmtPlan s true loop scopes, deep_stmtsPlan rest loop scopes⟩

theorem deep_startPlan : ∀ (first : Option Stmt) (scopes : ℕ),
    (startPlan scopes first).Deep scopes
  | none, _ => by
      rw [startPlan]
      exact deep_nil
  | some s, scopes => by
      rw [startPlan]
      exact deep_stmtPlan s true none scopes

end

end

end Tracepoint
