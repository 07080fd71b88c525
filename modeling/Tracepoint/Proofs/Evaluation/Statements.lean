/-
Statements on the machine.

Where the code of a statement lies, the machine carries it out and arrives where the statement
ends: behind its code, at one of the two exits of the loop around it with the scopes opened in
between closed again, or in the frame below with the value that is returned.

Main definitions:

* `Site.arrive`, `Completion.Allowed` — where a statement ends, and how it may;
* `Leads` — the exits of a loop, seen from a scope inside it;
* `Stmt.Simulated`, `stmtsSimulated` — statements are simulated.

Main results:

* `simulated_block`, `simulated_conditional`, `simulated_break` and the like;
* `simulates_loop` — the rounds of a loop, by induction on how many there may be;
* `simulated_stmt`, `simulated_stmts` — all statements are simulated.
-/

import Tracepoint.Proofs.Evaluation.Expressions

set_option relaxedAutoImplicit false
set_option autoImplicit false

namespace Tracepoint

/-! ### Scopes around a place -/

/-- Scopes are closed one by one. -/
theorem Site.runs_closes (site : Site) {s : Store} {stack : List Value} {count start stop : ℕ}
    {outer : ScopeId} (hcloses : site.proto.chunk.Closes count start stop)
    (habove : s.scopes.Above count site.scope outer) :
    (site.machine s start stack).Runs count [] ((site.within outer).machine s stop stack) := by
  induction count generalizing site start with
  | zero =>
      cases hcloses
      cases habove
      exact .refl _
  | succ count ih =>
      obtain ⟨next, hi, hcloses⟩ := hcloses
      obtain ⟨middle, hmiddle, habove⟩ := habove
      exact .step (Site.step_popScope hi hmiddle) (ih (site.within middle) hcloses habove)

/-! ### How statements end -/

/-- Where the machine arrives after a statement that lies in front of `stop`. -/
def Site.arrive (site : Site) (targets : Targets) (outer : ScopeId) (stop : ℕ)
    (stack : List Value) (w : World) : Completion → Machine
  | .normal => site.machine w.toStore stop stack
  | .broken => (site.within outer).machine w.toStore targets.breakTo stack
  | .continued => (site.within outer).machine w.toStore targets.continueTo stack
  | .returned v => ⟨w.toStore, site.callers, v :: stack, false⟩

/-- A loop is left only from inside it, and so is a function. -/
def Completion.Allowed (inLoop inFunction : Bool) (w : World) : Completion → Prop
  | .normal => True
  | .broken | .continued => inLoop = true
  | .returned v => inFunction = true ∧ w.Knows v

/-- The frame has no operands of its own, and inside a function there is a frame below. -/
structure Site.Ready (site : Site) (depth : ℕ) (inFunction : Bool) (stack : List Value) :
    Prop where
  depth : site.callers.length + 1 = depth
  base : stack.length = site.base
  callers : inFunction = true → site.callers ≠ []

/-- The exits of the loop around a scope lead to the targets and to the scope of the loop. -/
def Leads (w : World) (exits : Option Exits) (targets : Targets) (inner outer : ScopeId) : Prop :=
  ∀ e, exits = some e → e.toTargets = targets ∧ w.scopes.Above e.depth inner outer

theorem Leads.mono {w w' : World} {exits : Option Exits} {targets : Targets}
    {inner outer : ScopeId} (hgrows : w.Grows w') (h : Leads w exits targets inner outer) :
    Leads w' exits targets inner outer :=
  fun e he => ⟨(h e he).1, (h e he).2.mono hgrows.store.scopes⟩

/-- Outside of loops there is nothing to lead to. -/
theorem leads_none {w : World} {targets : Targets} {inner outer : ScopeId} :
    Leads w none targets inner outer := by
  intro e he
  cases he

section

variable {call : Closure → List Value → Eval Value} {fuel depth : ℕ}

/-- Where a statement lies, it is carried out. -/
def Stmt.Simulated (call : Closure → List Value → Eval Value) (fuel depth : ℕ) (s : Stmt) : Prop :=
  ∀ (site : Site) (stack : List Value) (start stop : ℕ) (w : World) (exits : Option Exits)
    (targets : Targets) (outer : ScopeId) (inFunction hoisted : Bool),
    site.Ready depth inFunction stack → s.Lies site.proto exits inFunction hoisted start stop →
    w.Valid → Leads w exits targets site.scope outer →
    Simulates fuel (site.machine w.toStore start stack) w
      (Eval.evalStmt call fuel hoisted site.scope s) (site.arrive targets outer stop stack)
      (Completion.Allowed exits.isSome inFunction)

/-- Where statements lie, they are carried out in order. -/
def stmtsSimulated (call : Closure → List Value → Eval Value) (fuel depth : ℕ)
    (body : List Stmt) : Prop :=
  ∀ (site : Site) (stack : List Value) (start stop : ℕ) (w : World) (exits : Option Exits)
    (targets : Targets) (outer : ScopeId) (inFunction : Bool),
    site.Ready depth inFunction stack → stmtsLie site.proto exits inFunction body start stop →
    w.Valid → Leads w exits targets site.scope outer →
    Simulates fuel (site.machine w.toStore start stack) w
      (Eval.evalStmts call fuel site.scope body) (site.arrive targets outer stop stack)
      (Completion.Allowed exits.isSome inFunction)

/-! ### Parts of statements -/

section

variable {site : Site} {w : World} {start stop : ℕ} (stack : List Value)

theorem simulates_value (hcall : CallsSimulated call fuel depth) {value : Option Expr}
    (hdepth : site.callers.length + 1 = depth) (hw : w.Valid)
    (hlies : valueLies site.proto value start stop) :
    Simulates fuel (site.machine w.toStore start stack) w (Eval.evalValue call site.scope value)
      (fun w' v => site.machine w'.toStore stop (v :: stack)) World.Knows := by
  cases value with
  | none => exact simulates_pushes stack hw hlies
  | some e => exact simulated_expr hcall e site stack start stop w hdepth hlies hw

theorem simulates_openScope (hw : w.Valid) (hi : site.proto.chunk.At start .pushScope stop) :
    Simulates fuel (site.machine w.toStore start stack) w
      (liftM (Act.openScope site.scope) : Eval ScopeId)
      (fun w' inner => (site.within inner).machine w'.toStore stop stack)
      fun w' inner => w'.scopes.parent? inner = some site.scope := by
  have hsound := Act.sound_openScope site.scope hw.store
  have hact : Act.openScope site.scope w.toStore =
      .ok (w.scopes.newScope site.scope).1
        { w.toStore with scopes := (w.scopes.newScope site.scope).2 } := rfl
  simp only [Act.Sound, hact] at hsound
  obtain ⟨hs, hgrows, hparent⟩ := hsound
  obtain ⟨hvalid, hgrows'⟩ := hw.withStore hs hgrows
  have hstep := Site.step_pushScope stack hi hact
  simp only [Simulates, liftM, monadLift, MonadLift.monadLift, hact]
  exact ⟨⟨1, [], .single hstep, (List.append_nil _).symm⟩, hvalid, hgrows', hparent⟩

/-- An operand that nobody needs is taken off. -/
theorem step_pop {s : Store} (v : Value) (hi : site.proto.chunk.At start .pop stop) :
    (site.machine s start (v :: stack)).step = (site.machine s stop stack, [], .more) :=
  Site.step_of_performs stack hi (Site.performs_pop (v := v)) rfl

end

/-- Behind its end, a statement may have to lead on to another place, maybe in another scope. -/
theorem Simulates.onward {site : Site} {inner outer : ScopeId} {targets : Targets}
    {middle stop bound : ℕ} {stack : List Value} {m : Machine} {w : World} {x : Eval Completion}
    {P : World → Completion → Prop}
    (h : Simulates bound m w x ((site.within inner).arrive targets outer middle stack) P)
    (honward : ∀ w', w.Grows w' → ((site.within inner).machine w'.toStore middle stack).step =
      (site.machine w'.toStore stop stack, [], .more)) :
    Simulates bound m w x (site.arrive targets outer stop stack) P := by
  refine h.extend fun c w' _ hgrows hc => ?_
  cases c with
  | normal => exact ⟨1, .single (honward w' hgrows), hc⟩
  | broken => exact ⟨0, .refl _, hc⟩
  | continued => exact ⟨0, .refl _, hc⟩
  | returned v => exact ⟨0, .refl _, hc⟩

/-! ### Forms of statements -/

theorem simulated_declare (hcall : CallsSimulated call fuel depth) {kind : VariableKind}
    {name : String} {initial : Option Expr} {line : ℕ} :
    (Stmt.declare kind name initial line).Simulated call fuel depth := by
  rintro site stack start stop w exits targets outer inFunction hoisted hready
    ⟨a, hvalue, word, hi, htext⟩ hw -
  refine (simulates_value stack hcall hready.depth hw hvalue).bind fun v w₁ hw₁ _ hv => ?_
  have hdeclare := Act.sound_declare site.scope name hw₁.store kind.binding hv
  refine (Simulates.act [v] stack hi (Site.performs_declare htext) hw₁
    (P := fun _ _ => True) hdeclare).bind fun _ w₂ hw₂ _ _ => ?_
  exact .pure hw₂ rfl trivial

theorem simulated_function {decl : FunctionDecl} :
    (Stmt.function decl).Simulated call fuel depth := by
  intro site stack start stop w exits targets outer inFunction hoisted _ hlies hw _
  cases hoisted with
  | true =>
      cases hlies
      exact .pure hw rfl trivial
  | false =>
      obtain ⟨hdecl, hbinds⟩ := hlies
      refine (simulates_bindFunction hw hbinds hdecl).bind fun _ w' hw' _ _ => ?_
      exact .pure hw' rfl trivial

theorem simulated_expression (hcall : CallsSimulated call fuel depth) {e : Expr} {line : ℕ} :
    (Stmt.expression e line).Simulated call fuel depth := by
  rintro site stack start stop w exits targets outer inFunction hoisted hready
    ⟨a, hlies, hpop⟩ hw -
  refine (simulated_expr hcall e site stack start a w hready.depth hlies hw).bind
    fun v w' hw' _ _ => ?_
  exact .after_step (step_pop stack v hpop) (.pure hw' rfl trivial)

theorem simulated_block {body : List Stmt} {line : ℕ} (h : stmtsSimulated call fuel depth body) :
    (Stmt.block body line).Simulated call fuel depth := by
  rintro site stack start stop w exits targets outer inFunction hoisted hready
    ⟨a, b, c, hpush, hhoist, hbody, hpop⟩ hw hleads
  refine (simulates_openScope stack hw hpush).bind fun inner w₁ hw₁ hgrows₁ hparent => ?_
  refine (simulates_hoist (site.within inner) stack hw₁ hhoist).bind fun _ w₂ hw₂ hgrows₂ _ => ?_
  have hinner : w₂.scopes.parent? inner = some site.scope := hgrows₂.store.scopes _ _ hparent
  -- From the new scope one more step leads outwards.
  have hdeeper : Leads w₂ (exits.map Exits.deeper) targets inner outer := by
    intro e he
    obtain ⟨e', he', rfl⟩ := Option.map_eq_some_iff.1 he
    obtain ⟨htargets, habove⟩ := (hleads.mono (hgrows₁.trans hgrows₂)) e' he'
    exact ⟨htargets, site.scope, hinner, habove⟩
  have hready' : (site.within inner).Ready depth inFunction stack :=
    ⟨hready.depth, hready.base, hready.callers⟩
  have hrest := h (site.within inner) stack b c w₂ _ targets outer inFunction hready' hbody hw₂
    hdeeper
  rw [Option.isSome_map] at hrest
  exact hrest.onward fun w' hgrows => Site.step_popScope hpop (hgrows.store.scopes _ _ hinner)

theorem simulated_conditional (hcall : CallsSimulated call fuel depth) {condition : Expr}
    {success : Stmt} {line : ℕ} (h : success.Simulated call fuel depth) :
    (Stmt.conditional condition success none line).Simulated call fuel depth := by
  rintro site stack start stop w exits targets outer inFunction hoisted hready
    ⟨a, b, hcondition, hjumps, hsuccess⟩ hw hleads
  refine (simulated_expr hcall condition site stack start a w hready.depth hcondition hw).bind
    fun v w' hw' hgrows _ => ?_
  refine .after_step (Site.step_jumpIfFalse hjumps) ?_
  by_cases htruthy : v.isTruthy
  · rw [if_pos htruthy, if_pos htruthy]
    exact h site stack b stop w' exits targets outer inFunction false hready hsuccess hw'
      (hleads.mono hgrows)
  · rw [if_neg htruthy, if_neg htruthy]
    exact .pure hw' rfl trivial

theorem simulated_alternative (hcall : CallsSimulated call fuel depth) {condition : Expr}
    {success failure : Stmt} {line : ℕ} (hs : success.Simulated call fuel depth)
    (hf : failure.Simulated call fuel depth) :
    (Stmt.conditional condition success (some failure) line).Simulated call fuel depth := by
  rintro site stack start stop w exits targets outer inFunction hoisted hready
    ⟨a, b, c, d, hcondition, hjumps, hsuccess, hskip, hfailure⟩ hw hleads
  refine (simulated_expr hcall condition site stack start a w hready.depth hcondition hw).bind
    fun v w' hw' hgrows _ => ?_
  refine .after_step (Site.step_jumpIfFalse hjumps) ?_
  have hleads' := hleads.mono hgrows
  by_cases htruthy : v.isTruthy
  · rw [if_pos htruthy, if_pos htruthy]
    have hrest := hs site stack b c w' exits targets outer inFunction false hready hsuccess hw'
      hleads'
    exact hrest.onward fun _ _ => Site.step_goto hskip
  · rw [if_neg htruthy, if_neg htruthy]
    exact hf site stack d stop w' exits targets outer inFunction false hready hfailure hw' hleads'

theorem simulated_return (hcall : CallsSimulated call fuel depth) {value : Option Expr} {line : ℕ} :
    (Stmt.returnValue value line).Simulated call fuel depth := by
  rintro site stack start stop w exits targets outer inFunction hoisted hready
    ⟨hfunction, a, hvalue, hret⟩ hw -
  refine (simulates_value stack hcall hready.depth hw hvalue).bind fun v w' hw' _ hv => ?_
  -- No operands of the frame are left, so the value is all that the caller finds.
  have hstep := Site.step_ret hret hready.base (hready.callers hfunction) (v := v)
    (s := w'.toStore)
  exact .after_step hstep (.pure hw' rfl ⟨hfunction, hv⟩)

/-- The scopes opened since the body of the loop are closed before the jump out of it. -/
theorem simulates_leave {site : Site} {w : World} {stack : List Value}
    {count start middle stop target : ℕ} {outer : ScopeId} {completion : Completion}
    {arrive : World → Completion → Machine} {P : World → Completion → Prop} (hw : w.Valid)
    (hcloses : site.proto.chunk.Closes count start middle)
    (habove : w.scopes.Above count site.scope outer)
    (hjumps : site.proto.chunk.Jumps middle .always target stop)
    (harrive : (site.within outer).machine w.toStore target stack = arrive w completion)
    (hP : P w completion) :
    Simulates fuel (site.machine w.toStore start stack) w (pure completion) arrive P := by
  have hjump : ((site.within outer).machine w.toStore middle stack).step =
      ((site.within outer).machine w.toStore target stack, [], .more) := Site.step_goto hjumps
  have hruns := (Site.runs_closes site hcloses habove).trans (.single hjump)
  exact Simulates.mono (.of_runs hruns (.pure hw harrive hP)) (Nat.le_add_right fuel _)

theorem simulated_break {line : ℕ} : (Stmt.breakLoop line).Simulated call fuel depth := by
  rintro site stack start stop w exits targets outer inFunction hoisted -
    ⟨e, a, hexits, hcloses, hjumps⟩ hw hleads
  obtain ⟨rfl, habove⟩ := hleads e hexits
  have hallowed : exits.isSome = true := hexits ▸ rfl
  exact simulates_leave hw hcloses habove hjumps rfl hallowed

theorem simulated_continue {line : ℕ} : (Stmt.continueLoop line).Simulated call fuel depth := by
  rintro site stack start stop w exits targets outer inFunction hoisted -
    ⟨e, a, hexits, hcloses, hjumps⟩ hw hleads
  obtain ⟨rfl, habove⟩ := hleads e hexits
  have hallowed : exits.isSome = true := hexits ▸ rfl
  exact simulates_leave hw hcloses habove hjumps rfl hallowed

/-! ### Loops -/

section

variable {site : Site} {w : World} {head inside behind back exit continueTo bound : ℕ}
  {inLoop inFunction : Bool} {targets : Targets} {outer : ScopeId} {condition increment : Option Expr}
  {body : Stmt} {again : Eval Completion} (stack : List Value)

/-- A condition that is given takes at least one step. -/
theorem simulates_test (hcall : CallsSimulated call fuel depth)
    (hdepth : site.callers.length + 1 = depth) (hw : w.Valid) {e : Expr}
    (hlies : testLies site.proto exit (some e) head inside) (hbound : bound < fuel)
    {rest : Bool → Eval Completion} {arrive : World → Completion → Machine}
    {P : World → Completion → Prop}
    (htrue : ∀ w', w'.Valid →
      Simulates bound (site.machine w'.toStore inside stack) w' (rest true) arrive P)
    (hfalse : ∀ w', w'.Valid →
      Simulates bound (site.machine w'.toStore exit stack) w' (rest false) arrive P) :
    Simulates (bound + 1) (site.machine w.toStore head stack) w
      (Eval.evalTest call site.scope (some e) >>= rest) arrive P := by
  obtain ⟨a, he, hjumps⟩ := hlies
  rw [Eval.evalTest, bind_assoc]
  have hvalue := simulated_expr hcall e site stack head a w hdepth he hw
  refine (hvalue.mono hbound).bind fun v w' hw' _ _ => ?_
  rw [pure_bind]
  refine .of_step (Site.step_jumpIfFalse hjumps) ?_
  cases v.isTruthy with
  | true => exact htrue w' hw'
  | false => exact hfalse w' hw'

/-- Behind the body comes the increment, and then the jump back, which is a step. -/
theorem simulates_next (hcall : CallsSimulated call fuel depth)
    (hdepth : site.callers.length + 1 = depth) (hw : w.Valid)
    (hlies : incrementLies site.proto increment behind back)
    (hback : site.proto.chunk.Jumps back .always head exit) (hbound : bound < fuel)
    {arrive : World → Completion → Machine} {P : World → Completion → Prop}
    (hagain : ∀ w', w'.Valid →
      Simulates bound (site.machine w'.toStore head stack) w' again arrive P) :
    Simulates (bound + 1) (site.machine w.toStore behind stack) w
      (Eval.evalIncrement call site.scope increment >>= fun _ => again) arrive P := by
  cases increment with
  | none =>
      cases hlies
      rw [Eval.evalIncrement, pure_bind]
      exact .of_step (Site.step_goto hback) (hagain w hw)
  | some e =>
      obtain ⟨a, he, hpop⟩ := hlies
      rw [Eval.evalIncrement, bind_assoc]
      have hvalue := simulated_expr hcall e site stack behind a w hdepth he hw
      refine (hvalue.mono hbound).bind fun v w' hw' _ _ => ?_
      rw [pure_bind]
      exact .after_step (step_pop stack v hpop) (.of_step (Site.step_goto hback) (hagain w' hw'))

/-- One round: the body, and what is done after it. -/
theorem simulates_round (hbody : body.Simulated call fuel depth)
    (hready : site.Ready depth inFunction stack) (hw : w.Valid)
    (hlies : body.Lies site.proto (some ⟨⟨exit, continueTo⟩, 0⟩) inFunction false inside behind)
    (hbound : bound ≤ fuel)
    (hbehind : ∀ w', w'.Valid → Simulates bound (site.machine w'.toStore behind stack) w' again
      (site.arrive targets outer exit stack) (Completion.Allowed inLoop inFunction))
    (hcontinue : ∀ w', w'.Valid → Simulates bound (site.machine w'.toStore continueTo stack) w'
      again (site.arrive targets outer exit stack) (Completion.Allowed inLoop inFunction)) :
    Simulates bound (site.machine w.toStore inside stack) w
      (do
        match ← Eval.evalStmt call fuel false site.scope body with
        | .broken => return .normal
        | .returned v => return .returned v
        | .normal | .continued => again)
      (site.arrive targets outer exit stack) (Completion.Allowed inLoop inFunction) := by
  have hleads : Leads w (some ⟨⟨exit, continueTo⟩, 0⟩) ⟨exit, continueTo⟩ site.scope
      site.scope := by
    rintro e ⟨⟩
    exact ⟨rfl, rfl⟩
  have hround := hbody site stack inside behind w _ _ _ inFunction false hready hlies hw hleads
  refine (hround.mono hbound).bind fun completion w' hw' _ hallowed => ?_
  cases completion with
  | normal => exact hbehind w' hw'
  | broken => exact .pure hw' rfl trivial
  | continued => exact hcontinue w' hw'
  | returned v => exact .pure hw' rfl hallowed

/-- **The rounds of a loop.** A round that is continued goes on behind the body, or at the head
if there is nothing to do behind it; in the latter case the step that counts is the test. -/
theorem simulates_loop (hcall : CallsSimulated call fuel depth)
    (hbody : body.Simulated call fuel depth) (hready : site.Ready depth inFunction stack)
    (htest : testLies site.proto exit condition head inside)
    (hlies : body.Lies site.proto (some ⟨⟨exit, continueTo⟩, 0⟩) inFunction false inside behind)
    (hnext : incrementLies site.proto increment behind back)
    (hback : site.proto.chunk.Jumps back .always head exit)
    (hcontinue : continueTo = behind ∨
      continueTo = head ∧ condition.isSome ∧ increment = none) :
    ∀ rounds ≤ fuel, ∀ w : World, w.Valid →
      Simulates rounds (site.machine w.toStore head stack) w
        (Eval.loop (Eval.evalTest call site.scope condition)
          (Eval.evalStmt call fuel false site.scope body)
          (Eval.evalIncrement call site.scope increment) rounds)
        (site.arrive targets outer exit stack) (Completion.Allowed inLoop inFunction) := by
  intro rounds
  induction rounds with
  | zero => exact fun _ w _ => .exhausted
  | succ rounds ih =>
      intro hle w hw
      have hlt : rounds < fuel := hle
      have hagain := ih (Nat.le_of_lt hlt)
      rw [Eval.loop]
      cases condition with
      | none =>
          obtain rfl : continueTo = behind := hcontinue.resolve_right fun h => by cases h.2.1
          -- Without a condition it is the jump back that is counted.
          cases htest
          rw [Eval.evalTest, pure_bind, if_pos rfl]
          have hbehind := fun w' hw' =>
            simulates_next stack hcall hready.depth (w := w') hw' hnext hback hlt hagain
          exact simulates_round stack hbody hready hw hlies hle hbehind hbehind
      | some e =>
          -- The test is counted, so what follows it may do with one step less.
          refine simulates_test stack hcall hready.depth hw htest hlt (fun w' hw' => ?_)
            fun w' hw' => .pure hw' rfl trivial
          have hbehind := fun w' hw' => Simulates.mono
            (simulates_next stack hcall hready.depth (w := w') hw' hnext hback hlt hagain)
            (Nat.le_succ rounds)
          rw [if_pos rfl]
          refine simulates_round stack hbody hready hw' hlies (Nat.le_of_lt hlt) hbehind ?_
          rcases hcontinue with rfl | ⟨rfl, -, rfl⟩
          · exact hbehind
          · intro w'' hw''
            rw [Eval.evalIncrement, pure_bind]
            exact hagain w'' hw''

/-- What a counting loop does first cannot be left by a jump. -/
theorem simulates_start (targets : Targets) (outer : ScopeId) {first : Option Stmt}
    {start stop : ℕ}
    (hfirst : ∀ s ∈ first, s.Simulated call fuel depth)
    (hready : site.Ready depth inFunction stack) (hw : w.Valid)
    (hlies : startLies site.proto inFunction first start stop) :
    Simulates fuel (site.machine w.toStore start stack) w
      (Eval.evalStart call fuel site.scope first) (site.arrive targets outer stop stack)
      (Completion.Allowed false inFunction) := by
  cases first with
  | none =>
      cases hlies
      exact .pure hw rfl trivial
  | some s =>
      exact hfirst s rfl site stack start stop w none targets outer inFunction true hready hlies hw
        leads_none

end

theorem simulated_while (hcall : CallsSimulated call fuel depth) {condition : Expr} {body : Stmt}
    {line : ℕ} (h : body.Simulated call fuel depth) :
    (Stmt.whileLoop condition body line).Simulated call fuel depth := by
  rintro site stack start stop w exits targets outer inFunction hoisted hready
    ⟨a, b, c, hcondition, hjumps, hbody, hback⟩ hw -
  have htest : testLies site.proto stop (some condition) start b := ⟨a, hcondition, hjumps⟩
  have hnext : incrementLies site.proto none c c := rfl
  exact simulates_loop stack hcall h hready htest hbody hnext hback (.inr ⟨rfl, rfl, rfl⟩) fuel
    (Nat.le_refl fuel) w hw

theorem simulated_for (hcall : CallsSimulated call fuel depth) {first : Option Stmt}
    {condition increment : Option Expr} {body : Stmt} {line : ℕ}
    (hfirst : ∀ s ∈ first, s.Simulated call fuel depth) (h : body.Simulated call fuel depth) :
    (Stmt.forLoop first condition increment body line).Simulated call fuel depth := by
  rintro site stack start stop w exits targets outer inFunction hoisted hready
    ⟨a, b, c, d, e, f, hpush, hstart, htest, hbody, hnext, hback, hpop⟩ hw -
  refine (simulates_openScope stack hw hpush).bind fun inner w₁ hw₁ _ hparent => ?_
  have hready' : (site.within inner).Ready depth inFunction stack :=
    ⟨hready.depth, hready.base, hready.callers⟩
  refine (simulates_start stack targets outer hfirst hready' hw₁ hstart).bind
    fun completion w₂ hw₂ hgrows₂ hallowed => ?_
  cases completion with
  | normal =>
      refine Simulates.onward (simulates_loop stack hcall h hready' htest hbody hnext hback
        (.inl rfl) fuel (Nat.le_refl fuel) w₂ hw₂) fun w' hgrows => Site.step_popScope hpop ?_
      exact (hgrows₂.trans hgrows).store.scopes _ _ hparent
  -- The first part stands outside of the loop and cannot be broken.
  | broken => cases hallowed
  | continued => cases hallowed
  | returned v => exact .pure hw₂ rfl hallowed

/-! ### All statements -/

theorem simulated_stmts_nil : stmtsSimulated call fuel depth [] := by
  intro site stack start stop w exits targets outer inFunction _ hlies hw _
  cases hlies
  exact .pure hw rfl trivial

theorem simulated_stmts_cons {s : Stmt} {rest : List Stmt} (hs : s.Simulated call fuel depth)
    (hrest : stmtsSimulated call fuel depth rest) : stmtsSimulated call fuel depth (s :: rest) := by
  rintro site stack start stop w exits targets outer inFunction hready ⟨a, hlies, hlieRest⟩ hw hleads
  refine (hs site stack start a w exits targets outer inFunction true hready hlies hw hleads).bind
    fun completion w' hw' hgrows hallowed => ?_
  cases completion with
  | normal =>
      exact hrest site stack a stop w' exits targets outer inFunction hready hlieRest hw'
        (hleads.mono hgrows)
  | broken => exact .pure hw' rfl hallowed
  | continued => exact .pure hw' rfl hallowed
  | returned v => exact .pure hw' rfl hallowed

mutual

/-- **Every statement is simulated.** -/
theorem simulated_stmt (hcall : CallsSimulated call fuel depth) :
    ∀ s : Stmt, s.Simulated call fuel depth
  | .declare _ _ _ _ => simulated_declare hcall
  | .function _ => simulated_function
  | .expression _ _ => simulated_expression hcall
  | .block body _ => simulated_block (simulated_stmts hcall body)
  | .conditional _ success none _ => simulated_conditional hcall (simulated_stmt hcall success)
  | .conditional _ success (some failure) _ =>
      simulated_alternative hcall (simulated_stmt hcall success) (simulated_stmt hcall failure)
  | .whileLoop _ body _ => simulated_while hcall (simulated_stmt hcall body)
  | .forLoop none _ _ body _ =>
      simulated_for hcall (fun _ h => by cases h) (simulated_stmt hcall body)
  | .forLoop (some first) _ _ body _ => by
      have hfirst := simulated_stmt hcall first
      refine simulated_for hcall (fun s h => ?_) (simulated_stmt hcall body)
      cases h
      exact hfirst
  | .returnValue _ _ => simulated_return hcall
  | .breakLoop _ => simulated_break
  | .continueLoop _ => simulated_continue
  | .empty _ => by
      intro site stack start stop w exits targets outer inFunction hoisted _ hlies hw _
      cases hlies
      exact .pure hw rfl trivial

theorem simulated_stmts (hcall : CallsSimulated call fuel depth) :
    ∀ body : List Stmt, stmtsSimulated call fuel depth body
  | [] => simulated_stmts_nil
  | s :: rest => simulated_stmts_cons (simulated_stmt hcall s) (simulated_stmts hcall rest)

end

end

end Tracepoint
