/-
Expressions on the machine.

Where the code of an expression lies, the machine evaluates it and leaves its value on the operand
stack; nothing below that is touched.  Of functions of the script it is assumed here that calling
them is simulated.

Main definitions:

* `CallsSimulated` — calls of functions of the script are simulated;
* `Expr.Simulated`, `exprsSimulated`, `entriesSimulated` — so are expressions.

Main results:

* `simulated_binary`, `simulated_logical`, `simulated_call` and one such lemma for every form of
  expression;
* `simulated_expr` — every expression is simulated.
-/

import Tracepoint.Proofs.Evaluation.Simulation

set_option relaxedAutoImplicit false
set_option autoImplicit false

namespace Tracepoint

/-- Calls of functions of the script are simulated, from a site with `depth` frames. -/
def CallsSimulated (call : Closure → List Value → Eval Value) (fuel depth : ℕ) : Prop :=
  ∀ (site : Site) (stack : List Value) (offset next : ℕ) (count : UInt32) (w : World) (f : Closure)
    (arguments : List Value), site.callers.length + 1 = depth →
    site.proto.chunk.At offset (.call count) next → count.toNat = arguments.length → w.Valid →
    w.Knows (.function f) → (∀ v ∈ arguments, w.Knows v) →
    Simulates fuel (site.machine w.toStore offset (arguments.reverse ++ .function f :: stack)) w
      (call f arguments) (fun w' v => site.machine w'.toStore next (v :: stack)) World.Knows

section

variable {call : Closure → List Value → Eval Value} {fuel depth : ℕ}

/-! ### Parts of expressions -/

section

variable {site : Site} {w : World} {start stop : ℕ} (stack : List Value)

theorem simulates_pushes {c : Constant} (hw : w.Valid)
    (hpushes : site.proto.Pushes c start stop) :
    Simulates fuel (site.machine w.toStore start stack) w
      (liftM (pure c.toValue : Act Value) : Eval Value)
      (fun w' v => site.machine w'.toStore stop (v :: stack)) World.Knows := by
  obtain ⟨word, hi, hc⟩ := hpushes
  exact .act [] stack hi (Site.performs_constant hc) hw (.pure hw.store (c.known_toValue _ _))

theorem simulates_atom {a : Atom} (hw : w.Valid) (hlies : a.Lies site.proto start stop) :
    Simulates fuel (site.machine w.toStore start stack) w (Eval.evalAtom site.scope a)
      (fun w' v => site.machine w'.toStore stop (v :: stack)) World.Knows := by
  cases a with
  | name text =>
      obtain ⟨word, hi, htext⟩ := hlies
      exact .act [] stack hi (Site.performs_get htext) hw (Act.sound_read site.scope text hw.store)
  | number x => exact simulates_pushes stack hw hlies
  | bool b => exact simulates_pushes stack hw hlies
  | null => exact simulates_pushes stack hw hlies
  | undefined => exact simulates_pushes stack hw hlies
  | string text => exact simulates_pushes stack hw hlies

theorem simulates_unaryOp (op : UnaryOp) {v : Value} (hw : w.Valid)
    (hi : site.proto.chunk.At start op.instr stop) :
    Simulates fuel (site.machine w.toStore start (v :: stack)) w
      (liftM (op.evaluate v) : Eval Value)
      (fun w' u => site.machine w'.toStore stop (u :: stack)) World.Knows := by
  cases op with
  | not => exact .act [v] stack hi Site.performs_not hw (.pure hw.store trivial)
  | negate => exact .act [v] stack hi Site.performs_negate hw (Act.sound_negate hw.store v)

theorem simulates_operate (op : Operation) {v u : Value} (hw : w.Valid)
    (hi : site.proto.chunk.At start (.operate op) stop) :
    Simulates fuel (site.machine w.toStore start (u :: v :: stack)) w
      (liftM (Act.operate op v u) : Eval Value)
      (fun w' r => site.machine w'.toStore stop (r :: stack)) World.Knows :=
  .act [u, v] stack hi (Site.performs_operate op) hw (Act.sound_operate hw.store op v u)

/-- Two instructions for one operator. -/
theorem simulates_operate_not (op : Operation) {v u : Value} {middle : ℕ} (hw : w.Valid)
    (hi : site.proto.chunk.At start (.operate op) middle)
    (hnot : site.proto.chunk.At middle .not stop) :
    Simulates fuel (site.machine w.toStore start (u :: v :: stack)) w
      ((liftM (Act.operate op v u) : Eval Value) >>= fun r => liftM (UnaryOp.not.evaluate r))
      (fun w' r => site.machine w'.toStore stop (r :: stack)) World.Knows :=
  (simulates_operate stack op hw hi).bind fun _ _ hw' _ _ =>
    simulates_unaryOp stack .not hw' hnot

theorem evaluate_notEqual (v u : Value) :
    (liftM (BinaryOp.notEqual.evaluate v u) : Eval Value) =
      (liftM (Act.operate .equals v u) >>= fun r => liftM (UnaryOp.not.evaluate r)) := by
  have htruthy : (Value.bool (v.looseEquals u)).isTruthy = v.looseEquals u := by
    cases v.looseEquals u <;> rfl
  funext w
  change EStateM.Result.ok (Value.bool !v.looseEquals u) w =
    .ok (.bool !(Value.bool (v.looseEquals u)).isTruthy) w
  rw [htruthy]

theorem evaluate_strictNotEqual (v u : Value) :
    (liftM (BinaryOp.strictNotEqual.evaluate v u) : Eval Value) =
      (liftM (Act.operate .strictEquals v u) >>= fun r => liftM (UnaryOp.not.evaluate r)) := by
  have htruthy : (Value.bool (v.strictEquals u)).isTruthy = v.strictEquals u := by
    cases v.strictEquals u <;> rfl
  funext w
  change EStateM.Result.ok (Value.bool !v.strictEquals u) w =
    .ok (.bool !(Value.bool (v.strictEquals u)).isTruthy) w
  rw [htruthy]

theorem simulates_binaryOp {op : BinaryOp} {v u : Value} (hw : w.Valid)
    (hlies : site.proto.chunk.Sequence op.instrs start stop) :
    Simulates fuel (site.machine w.toStore start (u :: v :: stack)) w
      (liftM (op.evaluate v u) : Eval Value)
      (fun w' r => site.machine w'.toStore stop (r :: stack)) World.Knows := by
  cases op with
  -- Two operators have no instruction of their own: they are the negation of another one.
  | notEqual =>
      obtain ⟨middle, hequals, _, hnot, rfl⟩ := hlies
      rw [evaluate_notEqual]
      exact simulates_operate_not stack .equals hw hequals hnot
  | strictNotEqual =>
      obtain ⟨middle, hequals, _, hnot, rfl⟩ := hlies
      rw [evaluate_strictNotEqual]
      exact simulates_operate_not stack .strictEquals hw hequals hnot
  | equal =>
      obtain ⟨_, hi, rfl⟩ := hlies
      exact simulates_operate stack .equals hw hi
  | strictEqual =>
      obtain ⟨_, hi, rfl⟩ := hlies
      exact simulates_operate stack .strictEquals hw hi
  | _ =>
      obtain ⟨_, hi, rfl⟩ := hlies
      exact simulates_operate stack _ hw hi

theorem step_logical {op : LogicalOp} (s : Store) (v : Value) {target : ℕ}
    (hjumps : site.proto.chunk.Jumps start op.jumpKind target stop) :
    (site.machine s start (v :: stack)).step =
      (if op.decides v then site.machine s target (v :: stack) else site.machine s stop stack,
        [], .more) := by
  cases op with
  | and =>
      rw [Site.step_jumpIfFalseOrPop hjumps]
      cases htruthy : v.isTruthy with
      | true =>
          simp only [LogicalOp.decides, htruthy, Bool.not_true, Bool.false_eq_true, if_true,
            if_false]
      | false =>
          simp only [LogicalOp.decides, htruthy, Bool.not_false, Bool.false_eq_true, if_true,
            if_false]
  | or => exact Site.step_jumpIfTrueOrPop hjumps

/-- The right operand is evaluated only if the left one does not decide. -/
theorem simulates_decides {op : LogicalOp} {v : Value} {target : ℕ} (hw : w.Valid)
    (hv : w.Knows v) (hjumps : site.proto.chunk.Jumps start op.jumpKind target stop)
    {right : Eval Value}
    (hright : Simulates fuel (site.machine w.toStore stop stack) w right
      (fun w' u => site.machine w'.toStore target (u :: stack)) World.Knows) :
    Simulates fuel (site.machine w.toStore start (v :: stack)) w
      (if op.decides v then pure v else right)
      (fun w' u => site.machine w'.toStore target (u :: stack)) World.Knows := by
  have hstep := step_logical stack w.toStore v hjumps
  by_cases hdecides : op.decides v
  · rw [if_pos hdecides] at hstep ⊢
    exact .after_step hstep (.pure hw rfl hv)
  · rw [if_neg hdecides] at hstep ⊢
    exact .after_step hstep hright

theorem simulates_native {count : UInt32} {f : Native} {arguments : List Value} (hw : w.Valid)
    (hi : site.proto.chunk.At start (.call count) stop) (hcount : count.toNat = arguments.length)
    (hf : w.Knows (.native f)) (harguments : ∀ v ∈ arguments, w.Knows v) :
    Simulates fuel (site.machine w.toStore start (arguments.reverse ++ .native f :: stack)) w
      (Eval.apply call (.native f) arguments)
      (fun w' v => site.machine w'.toStore stop (v :: stack)) World.Knows := by
  have hsound := Act.sound_callNative hw.store hf harguments
  simp only [Act.Sound] at hsound
  cases hact : Act.callNative f arguments w.toStore with
  | ok result s =>
      obtain ⟨v, lines⟩ := result
      rw [hact] at hsound
      obtain ⟨hs, hgrows, hv⟩ := hsound
      obtain ⟨hvalid, hgrows'⟩ := hw.withStore hs hgrows
      have heval : Eval.apply call (.native f) arguments w =
          .ok v { w with toStore := s, printed := w.printed ++ lines } := by
        simp only [Eval.apply, Bind.bind, EStateM.bind, liftM, monadLift, MonadLift.monadLift, hact]
        rfl
      have hstep := Site.step_call_native stack hi hcount hact
      simp only [Simulates, heval]
      exact ⟨⟨1, lines, .single hstep, rfl⟩, ⟨hvalid.store, hvalid.fresh⟩,
        ⟨hgrows'.store, hgrows'.functions⟩, hv⟩
  | error e s =>
      rw [hact] at hsound
      have heval : Eval.apply call (.native f) arguments w =
          .error (.fault e) { w with toStore := s } := by
        simp only [Eval.apply, Bind.bind, EStateM.bind, liftM, monadLift, MonadLift.monadLift, hact]
      have hstops := Site.stops_call_native stack hi hcount hact
      simp only [Simulates, heval]
      exact ⟨⟨0, [], _, .refl _, (List.append_nil _).symm, hstops⟩, hsound⟩

/-- A call of any value. -/
theorem simulates_apply (hcall : CallsSimulated call fuel depth) {count : UInt32} {callee : Value}
    {arguments : List Value} (hdepth : site.callers.length + 1 = depth) (hw : w.Valid)
    (hi : site.proto.chunk.At start (.call count) stop) (hcount : count.toNat = arguments.length)
    (hcallee : w.Knows callee) (harguments : ∀ v ∈ arguments, w.Knows v) :
    Simulates fuel (site.machine w.toStore start (arguments.reverse ++ callee :: stack)) w
      (Eval.apply call callee arguments)
      (fun w' v => site.machine w'.toStore stop (v :: stack)) World.Knows := by
  cases callee with
  | function f =>
      exact hcall site stack start stop count w f arguments hdepth hi hcount hw hcallee harguments
  | native f => exact simulates_native stack hw hi hcount hcallee harguments
  | _ =>
      refine .fault (Site.stops_call_other stack hi hcount ?_ ?_) id
      · rintro f ⟨⟩
      · rintro f ⟨⟩

end

/-! ### Forms of expressions -/

/-- Where an expression lies, its value is left on the operand stack. -/
def Expr.Simulated (call : Closure → List Value → Eval Value) (fuel depth : ℕ) (e : Expr) : Prop :=
  ∀ (site : Site) (stack : List Value) (start stop : ℕ) (w : World),
    site.callers.length + 1 = depth → e.Lies site.proto start stop → w.Valid →
    Simulates fuel (site.machine w.toStore start stack) w (Eval.evalExpr call site.scope e)
      (fun w' v => site.machine w'.toStore stop (v :: stack)) World.Knows

/-- Where expressions lie, their values are left on the operand stack, the last one on top. -/
def exprsSimulated (call : Closure → List Value → Eval Value) (fuel depth : ℕ)
    (es : List Expr) : Prop :=
  ∀ (site : Site) (stack : List Value) (start stop : ℕ) (w : World),
    site.callers.length + 1 = depth → exprsLie site.proto es start stop → w.Valid →
    Simulates fuel (site.machine w.toStore start stack) w (Eval.evalExprs call site.scope es)
      (fun w' vs => site.machine w'.toStore stop (vs.reverse ++ stack))
      fun w' vs => vs.length = es.length ∧ ∀ v ∈ vs, w'.Knows v

/-- Where entries lie, their keys and values are left on the operand stack. -/
def entriesSimulated (call : Closure → List Value → Eval Value) (fuel depth : ℕ)
    (entries : List (String × Expr)) : Prop :=
  ∀ (site : Site) (stack : List Value) (start stop : ℕ) (w : World),
    site.callers.length + 1 = depth → entriesLie site.proto entries start stop → w.Valid →
    Simulates fuel (site.machine w.toStore start stack) w
      (Eval.evalEntries call site.scope entries)
      (fun w' vs => site.machine w'.toStore stop (vs.reverse ++ stack))
      fun w' vs => 2 * entries.length = vs.length ∧ ∀ v ∈ vs, w'.Knows v

theorem simulated_unary {op : UnaryOp} {operand : Expr}
    (h : operand.Simulated call fuel depth) : (Expr.unary op operand).Simulated call fuel depth := by
  rintro site stack start stop w hdepth ⟨a, hoperand, hi⟩ hw
  refine (h site stack start a w hdepth hoperand hw).bind fun v w' hw' _ _ => ?_
  exact simulates_unaryOp stack op hw' hi

theorem simulated_binary {op : BinaryOp} {left right : Expr}
    (hl : left.Simulated call fuel depth) (hr : right.Simulated call fuel depth) :
    (Expr.binary op left right).Simulated call fuel depth := by
  rintro site stack start stop w hdepth ⟨a, b, hleft, hright, hop⟩ hw
  refine (hl site stack start a w hdepth hleft hw).bind fun v w₁ hw₁ _ _ => ?_
  refine (hr site (v :: stack) a b w₁ hdepth hright hw₁).bind fun u w₂ hw₂ _ _ => ?_
  exact simulates_binaryOp stack hw₂ hop

theorem simulated_logical {op : LogicalOp} {left right : Expr}
    (hl : left.Simulated call fuel depth) (hr : right.Simulated call fuel depth) :
    (Expr.logical op left right).Simulated call fuel depth := by
  rintro site stack start stop w hdepth ⟨a, b, hleft, hjumps, hright⟩ hw
  refine (hl site stack start a w hdepth hleft hw).bind fun v w' hw' _ hv => ?_
  exact simulates_decides stack hw' hv hjumps (hr site stack b stop w' hdepth hright hw')

theorem simulated_assignName {name : String} {value : Expr}
    (h : value.Simulated call fuel depth) :
    (Expr.assignName name value).Simulated call fuel depth := by
  rintro site stack start stop w hdepth ⟨a, hvalue, word, hi, htext⟩ hw
  refine (h site stack start a w hdepth hvalue hw).bind fun v w' hw' _ hv => ?_
  have hassign := Act.sound_assign site.scope name hw'.store hv
  refine (Simulates.act [v] stack hi (Site.performs_set htext) hw'
    (P := fun _ _ => True) hassign).bind fun _ w'' hw'' hgrows _ => ?_
  exact .pure hw'' rfl (hgrows.knows hv)

theorem simulated_assignProperty {object value : Expr} {name : String}
    (ho : object.Simulated call fuel depth) (hv : value.Simulated call fuel depth) :
    (Expr.assignProperty object name value).Simulated call fuel depth := by
  rintro site stack start stop w hdepth ⟨a, b, hobject, hvalue, word, hi, htext⟩ hw
  refine (ho site stack start a w hdepth hobject hw).bind fun o w₁ hw₁ _ ho₁ => ?_
  refine (hv site (o :: stack) a b w₁ hdepth hvalue hw₁).bind fun v w₂ hw₂ hgrows₂ hv₂ => ?_
  have hset := Act.sound_setProperty hw₂.store (hgrows₂.knows ho₁) name hv₂
  refine (Simulates.act [v, o] stack hi (Site.performs_setProperty htext) hw₂
    (P := fun _ _ => True) hset).bind fun _ w₃ hw₃ hgrows₃ _ => ?_
  exact .pure hw₃ rfl (hgrows₃.knows hv₂)

theorem simulated_assignIndex {object index value : Expr}
    (ho : object.Simulated call fuel depth) (hi : index.Simulated call fuel depth)
    (hv : value.Simulated call fuel depth) :
    (Expr.assignIndex object index value).Simulated call fuel depth := by
  rintro site stack start stop w hdepth ⟨a, b, c, hobject, hindex, hvalue, hset⟩ hw
  refine (ho site stack start a w hdepth hobject hw).bind fun o w₁ hw₁ _ ho₁ => ?_
  refine (hi site (o :: stack) a b w₁ hdepth hindex hw₁).bind fun i w₂ hw₂ hgrows₂ _ => ?_
  refine (hv site (i :: o :: stack) b c w₂ hdepth hvalue hw₂).bind
    fun v w₃ hw₃ hgrows₃ hv₃ => ?_
  have hknown := hgrows₃.knows (hgrows₂.knows ho₁)
  refine (Simulates.act [v, i, o] stack hset Site.performs_setIndex hw₃ (P := fun _ _ => True)
    (Act.sound_setIndex hw₃.store hknown i hv₃)).bind fun _ w₄ hw₄ hgrows₄ _ => ?_
  exact .pure hw₄ rfl (hgrows₄.knows hv₃)

theorem simulated_call (hcall : CallsSimulated call fuel depth) {callee : Expr}
    {arguments : List Expr} (hf : callee.Simulated call fuel depth)
    (ha : exprsSimulated call fuel depth arguments) :
    (Expr.call callee arguments).Simulated call fuel depth := by
  rintro site stack start stop w hdepth ⟨a, b, hcallee, harguments, count, hi, hcount⟩ hw
  refine (hf site stack start a w hdepth hcallee hw).bind fun f w₁ hw₁ _ hf₁ => ?_
  refine (ha site (f :: stack) a b w₁ hdepth harguments hw₁).bind
    fun values w₂ hw₂ hgrows₂ hvalues => ?_
  exact simulates_apply stack hcall hdepth hw₂ hi (hcount.trans hvalues.1.symm)
    (hgrows₂.knows hf₁) hvalues.2

theorem simulated_property {object : Expr} {name : String}
    (h : object.Simulated call fuel depth) :
    (Expr.property object name).Simulated call fuel depth := by
  rintro site stack start stop w hdepth ⟨a, hobject, word, hi, htext⟩ hw
  refine (h site stack start a w hdepth hobject hw).bind fun o w' hw' _ ho => ?_
  exact .act [o] stack hi (Site.performs_getProperty htext) hw'
    (Act.sound_getProperty hw'.store ho name)

theorem simulated_index {object index : Expr} (ho : object.Simulated call fuel depth)
    (hi : index.Simulated call fuel depth) :
    (Expr.index object index).Simulated call fuel depth := by
  rintro site stack start stop w hdepth ⟨a, b, hobject, hindex, hget⟩ hw
  refine (ho site stack start a w hdepth hobject hw).bind fun o w₁ hw₁ _ ho₁ => ?_
  refine (hi site (o :: stack) a b w₁ hdepth hindex hw₁).bind fun i w₂ hw₂ hgrows₂ _ => ?_
  exact .act [i, o] stack hget Site.performs_getIndex hw₂
    (Act.sound_getIndex hw₂.store (hgrows₂.knows ho₁) i)

theorem simulated_array {elements : List Expr} (h : exprsSimulated call fuel depth elements) :
    (Expr.array elements).Simulated call fuel depth := by
  rintro site stack start stop w hdepth ⟨a, helements, count, hi, hcount⟩ hw
  refine (h site stack start a w hdepth helements hw).bind fun values w' hw' _ hvalues => ?_
  exact .act values.reverse stack hi (Site.performs_makeArray (hcount.trans hvalues.1.symm)) hw'
    (Act.sound_newArray hw'.store hvalues.2)

theorem simulated_object {entries : List (String × Expr)}
    (h : entriesSimulated call fuel depth entries) :
    (Expr.object entries).Simulated call fuel depth := by
  rintro site stack start stop w hdepth ⟨a, hentries, count, hi, hcount⟩ hw
  refine (h site stack start a w hdepth hentries hw).bind fun values w' hw' _ hvalues => ?_
  have hlength : 2 * count.toNat = values.length := hcount ▸ hvalues.1
  exact .act values.reverse stack hi (Site.performs_makeObject hlength) hw'
    (Act.sound_newObject hw'.store hvalues.2)

theorem simulated_exprs_cons {e : Expr} {rest : List Expr} (he : e.Simulated call fuel depth)
    (hrest : exprsSimulated call fuel depth rest) :
    exprsSimulated call fuel depth (e :: rest) := by
  rintro site stack start stop w hdepth ⟨a, hlies, hlieRest⟩ hw
  refine (he site stack start a w hdepth hlies hw).bind fun v w₁ hw₁ _ hv => ?_
  refine (hrest site (v :: stack) a stop w₁ hdepth hlieRest hw₁).bind
    fun values w₂ hw₂ hgrows₂ hvalues => ?_
  -- The first value was pushed first, so it lies deepest.
  refine .pure hw₂ ?_ ⟨congrArg (· + 1) hvalues.1, fun u hu => ?_⟩
  · simp only [List.reverse_cons, List.append_assoc, List.singleton_append]
  · rcases List.mem_cons.1 hu with rfl | hu
    · exact hgrows₂.knows hv
    · exact hvalues.2 u hu

theorem simulated_entries_cons {key : String} {e : Expr} {rest : List (String × Expr)}
    (he : e.Simulated call fuel depth) (hrest : entriesSimulated call fuel depth rest) :
    entriesSimulated call fuel depth ((key, e) :: rest) := by
  rintro site stack start stop w hdepth ⟨a, b, ⟨word, hi, hc⟩, hlies, hlieRest⟩ hw
  -- Evaluation does nothing for a key, the machine pushes it.
  have hstep := Site.step_of_performs stack hi (Site.performs_constant hc) (s := w.toStore) rfl
  refine .after_step hstep ?_
  refine (he site (.string key :: stack) a b w hdepth hlies hw).bind fun v w₁ hw₁ _ hv => ?_
  refine (hrest site (v :: .string key :: stack) b stop w₁ hdepth hlieRest hw₁).bind
    fun values w₂ hw₂ hgrows₂ hvalues => ?_
  refine .pure hw₂ ?_ ⟨?_, fun u hu => ?_⟩
  · simp only [List.reverse_cons, List.append_assoc, List.cons_append, List.nil_append]
  · have hlength := hvalues.1
    simp only [List.length_cons]
    omega
  · rcases List.mem_cons.1 hu with rfl | hu
    · trivial
    rcases List.mem_cons.1 hu with rfl | hu
    · exact hgrows₂.knows hv
    · exact hvalues.2 u hu

/-! ### All expressions -/

mutual

/-- **Every expression is simulated.** -/
theorem simulated_expr (hcall : CallsSimulated call fuel depth) :
    ∀ e : Expr, e.Simulated call fuel depth
  | .atom a span line => by
      intro site stack start stop w _ hlies hw
      exact simulates_atom stack hw hlies
  | .group inner => by
      intro site stack start stop w hdepth hlies hw
      exact simulated_expr hcall inner site stack start stop w hdepth hlies hw
  | .unary _ operand => simulated_unary (simulated_expr hcall operand)
  | .binary _ left right =>
      simulated_binary (simulated_expr hcall left) (simulated_expr hcall right)
  | .logical _ left right =>
      simulated_logical (simulated_expr hcall left) (simulated_expr hcall right)
  | .assignName _ value => simulated_assignName (simulated_expr hcall value)
  | .assignProperty object _ value =>
      simulated_assignProperty (simulated_expr hcall object) (simulated_expr hcall value)
  | .assignIndex object index value =>
      simulated_assignIndex (simulated_expr hcall object) (simulated_expr hcall index)
        (simulated_expr hcall value)
  | .call callee arguments =>
      simulated_call hcall (simulated_expr hcall callee) (simulated_exprs hcall arguments)
  | .property object _ => simulated_property (simulated_expr hcall object)
  | .index object index =>
      simulated_index (simulated_expr hcall object) (simulated_expr hcall index)
  | .array elements => simulated_array (simulated_exprs hcall elements)
  | .object entries => simulated_object (simulated_entries hcall entries)
  | .function decl => by
      intro site stack start stop w _ hlies hw
      exact simulates_newFunction hw hlies.1 hlies.2

theorem simulated_exprs (hcall : CallsSimulated call fuel depth) :
    ∀ es : List Expr, exprsSimulated call fuel depth es
  | [] => by
      intro site stack start stop w _ hlies hw
      cases hlies
      exact .pure hw rfl ⟨rfl, fun _ hv => by cases hv⟩
  | e :: rest => simulated_exprs_cons (simulated_expr hcall e) (simulated_exprs hcall rest)

theorem simulated_entries (hcall : CallsSimulated call fuel depth) :
    ∀ entries : List (String × Expr), entriesSimulated call fuel depth entries
  | [] => by
      intro site stack start stop w _ hlies hw
      cases hlies
      exact .pure hw rfl ⟨rfl, fun _ hv => by cases hv⟩
  | (_, e) :: rest =>
      simulated_entries_cons (simulated_expr hcall e) (simulated_entries hcall rest)

end

end

end Tracepoint
