/-
Steps of the machine.

A site is all of a running frame that instructions leave alone, with the frames below it.  Most
instructions take some operands, do one thing to the store and leave other operands; where they
stop, the frame has moved behind them and nothing else has changed.

Main definitions:

* `Machine.Runs` — steps in a row, none of them the last;
* `Site`, `Site.machine` — where the machine is;
* `Site.Performs` — an instruction carries out an action on the store.

Main results:

* `Site.step_of_performs`, `Site.stops_of_performs` — such a step as a whole;
* `Site.performs_get`, `Site.performs_operate` and one such lemma for every such instruction;
* `Site.step_goto`, `Site.step_call_function`, `Site.step_ret`, `Site.step_popScope` and the like —
  steps that lead to another place or another site.
-/

import Tracepoint.Machine.Step
import Tracepoint.Proofs.Code.Image

set_option relaxedAutoImplicit false
set_option autoImplicit false

namespace Tracepoint

/-! ### Runs -/

namespace Machine

/-- Steps in a row, each of them leaving more to do, with the lines that they wrote. -/
inductive Runs : Machine → ℕ → List String → Machine → Prop
  | refl (m : Machine) : Runs m 0 [] m
  | step {m m' m'' : Machine} {printed out : List String} {n : ℕ}
      (first : m.step = (m', printed, .more)) (rest : Runs m' n out m'') :
      Runs m (n + 1) (printed ++ out) m''

/-- The next step fails. -/
def Stops (m : Machine) (e : Fault) (s : Store) : Prop :=
  ∃ m' line, m.step = (m', [], .fault ⟨e, line⟩) ∧ m'.toStore = s

theorem Runs.single {m m' : Machine} {printed : List String}
    (h : m.step = (m', printed, .more)) : m.Runs 1 printed m' := by
  have hrun := Runs.step h (.refl m')
  rw [List.append_nil] at hrun
  exact hrun

theorem Runs.trans {m m' m'' : Machine} {n n' : ℕ} {out out' : List String}
    (h : m.Runs n out m') (h' : m'.Runs n' out' m'') : m.Runs (n + n') (out ++ out') m'' := by
  induction h with
  | refl m =>
      rw [Nat.zero_add]
      exact h'
  | step first _ ih =>
      rw [Nat.add_right_comm, List.append_assoc]
      exact .step first (ih h')

/-- A run goes through a machine after every smaller number of steps. -/
theorem Runs.split {m m' : Machine} {n k : ℕ} {out : List String} (h : m.Runs (n + k) out m') :
    ∃ middle out₁ out₂, m.Runs n out₁ middle ∧ middle.Runs k out₂ m' ∧ out = out₁ ++ out₂ := by
  induction n generalizing m out with
  | zero =>
      rw [Nat.zero_add] at h
      exact ⟨m, [], out, .refl m, h, rfl⟩
  | succ n ih =>
      rw [Nat.succ_add] at h
      cases h with
      | step first rest =>
          obtain ⟨middle, out₁, out₂, h₁, h₂, rfl⟩ := ih rest
          exact ⟨middle, _, out₂, .step first h₁, h₂, (List.append_assoc ..).symm⟩

/-- The machine after a number of steps is determined. -/
theorem Runs.eq {m m₁ m₂ : Machine} {n : ℕ} {out₁ out₂ : List String} (h₁ : m.Runs n out₁ m₁)
    (h₂ : m.Runs n out₂ m₂) : m₁ = m₂ ∧ out₁ = out₂ := by
  induction h₁ generalizing out₂ with
  | refl m =>
      cases h₂
      exact ⟨rfl, rfl⟩
  | step first _ ih =>
      cases h₂ with
      | step first' rest' =>
          rw [first] at first'
          cases first'
          obtain ⟨rfl, rfl⟩ := ih rest'
          exact ⟨rfl, rfl⟩

end Machine

/-! ### Sites -/

/-- A running frame up to its offset, with the frames below it. -/
structure Site where
  proto : Proto
  scope : ScopeId
  /-- The height of the operand stack below the frame. -/
  base : ℕ
  callers : List Frame

namespace Site

/-- The machine at a site. -/
def machine (site : Site) (s : Store) (offset : ℕ) (stack : List Value) : Machine :=
  ⟨s, ⟨site.proto, offset, site.scope, site.base⟩ :: site.callers, stack, false⟩

/-- The site in another scope. -/
def within (site : Site) (scope : ScopeId) : Site :=
  { site with scope }

variable {site : Site} {s : Store} {offset next : ℕ} {stack : List Value} {i : Instr}

theorem step_of_execute {printed : List String} {m' : Machine}
    (hi : site.proto.chunk.At offset i next)
    (hexecute : execute site.proto i (site.machine s next stack) = .ok printed m')
    (hhalted : m'.halted = false) :
    (site.machine s offset stack).step = (m', printed, .more) := by
  simp only [Chunk.At] at hi
  simp only [machine] at hexecute
  simp [Machine.step, machine, hi, hexecute, hhalted]

theorem stops_of_execute {e : Fault} {m' : Machine} {s' : Store}
    (hi : site.proto.chunk.At offset i next)
    (hexecute : execute site.proto i (site.machine s next stack) = .error e m')
    (hstore : m'.toStore = s') : (site.machine s offset stack).Stops e s' := by
  simp only [Chunk.At] at hi
  simp only [machine] at hexecute
  refine ⟨m', Frame.line ⟨site.proto, offset, site.scope, site.base⟩, ?_, hstore⟩
  simp [Machine.step, machine, hi, hexecute]

/-! ### Actions -/

/-- An instruction carries out an action on the store. It takes operands and leaves others. -/
def Performs {α : Type} (site : Site) (i : Instr) (taken : List Value) (act : Act α)
    (left : α → List Value) : Prop :=
  ∀ s next stack,
    match act s with
    | .ok a s' =>
      execute site.proto i (site.machine s next (taken ++ stack)) =
        .ok [] (site.machine s' next (left a ++ stack))
    | .error e s' =>
      ∃ stack', execute site.proto i (site.machine s next (taken ++ stack)) =
        .error e (site.machine s' next stack')

section

variable {α : Type} {taken : List Value} {act : Act α} {left : α → List Value}

theorem step_of_performs (stack : List Value) {a : α} {s' : Store}
    (hi : site.proto.chunk.At offset i next)
    (hperforms : site.Performs i taken act left) (hact : act s = .ok a s') :
    (site.machine s offset (taken ++ stack)).step =
      (site.machine s' next (left a ++ stack), [], .more) := by
  have hexecute := hperforms s next stack
  rw [hact] at hexecute
  exact step_of_execute hi hexecute rfl

theorem stops_of_performs (stack : List Value) {e : Fault} {s' : Store}
    (hi : site.proto.chunk.At offset i next)
    (hperforms : site.Performs i taken act left) (hact : act s = .error e s') :
    (site.machine s offset (taken ++ stack)).Stops e s' := by
  have hexecute := hperforms s next stack
  rw [hact] at hexecute
  obtain ⟨stack', hexecute⟩ := hexecute
  exact stops_of_execute hi hexecute rfl

end

/-! #### What a step is made of -/

section

variable {α : Type}

theorem run_get (f : Machine → Exec α) (m : Machine) : (get >>= f) m = f m m :=
  rfl

theorem run_scope (f : ScopeId → Exec α) :
    (Exec.currentScope >>= f) (site.machine s next stack) =
      f site.scope (site.machine s next stack) :=
  rfl

theorem run_popMany (f : List Value → Exec α) {count : ℕ} {values : List Value}
    (hcount : values.length = count) :
    (Exec.popMany count >>= f) (site.machine s next (values.reverse ++ stack)) =
      f values (site.machine s next stack) := by
  have hlength : values.reverse.length = count := (List.length_reverse ..).trans hcount
  have hpop : Exec.popMany count (site.machine s next (values.reverse ++ stack)) =
      .ok values (site.machine s next stack) := by
    have henough : ¬(site.machine s next (values.reverse ++ stack)).stack.length < count := by
      have happend : (values.reverse ++ stack).length = _ := List.length_append
      simp only [machine]
      omega
    simp only [Exec.popMany]
    rw [if_neg henough]
    simp only [machine]
    rw [← hlength, List.take_left, List.drop_left, List.reverse_reverse]
  simp only [Bind.bind, EStateM.bind, hpop]

theorem run_lift {β : Type} (act : Act β) (f : β → Exec α) :
    ((liftM act : Exec β) >>= f) (site.machine s next stack) =
      match act s with
      | .ok b s' => f b (site.machine s' next stack)
      | .error e s' => .error e (site.machine s' next stack) := by
  simp only [Bind.bind, EStateM.bind, liftM, monadLift, MonadLift.monadLift, machine]
  cases act s <;> rfl

end

/-! #### Instructions -/

section

variable {w : UInt32} {name : String} {v : Value}

theorem run_name {α : Type} {m : Machine} (hname : site.proto.chunk.pool.text? w.toNat = some name)
    (f : String → Exec α) : (Exec.nameAt site.proto w >>= f) m = f name m := by
  simp only [Exec.nameAt, hname]
  rfl

/-- An instruction that takes operands, does one thing to the store and then leaves operands. -/
theorem performs_of_lift {α : Type} {taken : List Value} (kept : List Value) {act : Act α}
    {rest : α → Exec (List String)} {left : α → List Value}
    (hrest : ∀ a s next stack, rest a (site.machine s next (kept ++ stack)) =
      .ok [] (site.machine s next (left a ++ stack)))
    (h : ∀ s next stack, execute site.proto i (site.machine s next (taken ++ stack)) =
      ((liftM act : Exec α) >>= rest) (site.machine s next (kept ++ stack))) :
    site.Performs i taken act left := by
  intro s next stack
  have hrun := (h s next stack).trans (run_lift act rest)
  cases hact : act s with
  | ok a s' =>
      rw [hact] at hrun
      exact hrun.trans (hrest a s' next stack)
  | error e s' =>
      rw [hact] at hrun
      exact ⟨kept ++ stack, hrun⟩

theorem performs_constant {c : Constant}
    (hc : site.proto.chunk.pool.get? w.toNat = some c) :
    site.Performs (.constant w) [] (pure c.toValue) fun v => [v] := by
  intro s next stack
  simp only [execute, hc]
  rfl

theorem performs_pop : site.Performs .pop [v] (pure ()) fun _ => [] :=
  fun _ _ _ => rfl

theorem performs_not : site.Performs .not [v] (pure (.bool !v.isTruthy)) fun v => [v] :=
  fun _ _ _ => rfl

theorem performs_get (hname : site.proto.chunk.pool.text? w.toNat = some name) :
    site.Performs (.get w) [] (Act.read site.scope name) fun v => [v] :=
  performs_of_lift [] (fun _ _ _ _ => rfl) fun _ _ _ => run_name hname _

theorem performs_set (hname : site.proto.chunk.pool.text? w.toNat = some name) :
    site.Performs (.set w) [v] (Act.assign site.scope name v) fun _ => [v] :=
  performs_of_lift [v] (fun _ _ _ _ => rfl) fun _ _ _ => run_name hname _

theorem performs_declare {kind : BindingKind}
    (hname : site.proto.chunk.pool.text? w.toNat = some name) :
    site.Performs (.declare w kind) [v] (Act.declare site.scope name v kind) fun _ => [] :=
  performs_of_lift [] (fun _ _ _ _ => rfl) fun _ _ _ => run_name hname _

theorem performs_getProperty (hname : site.proto.chunk.pool.text? w.toNat = some name) :
    site.Performs (.getProperty w) [v] (Act.getProperty v name) fun v => [v] :=
  performs_of_lift [] (fun _ _ _ _ => rfl) fun _ _ _ => run_name hname _

theorem performs_setProperty {object : Value}
    (hname : site.proto.chunk.pool.text? w.toNat = some name) :
    site.Performs (.setProperty w) [v, object] (Act.setProperty object name v) fun _ => [v] :=
  performs_of_lift [] (fun _ _ _ _ => rfl) fun _ _ _ => run_name hname _

theorem performs_getIndex {index : Value} :
    site.Performs .getIndex [index, v] (Act.getIndex v index) fun v => [v] :=
  performs_of_lift [] (fun _ _ _ _ => rfl) fun _ _ _ => rfl

theorem performs_setIndex {object index : Value} :
    site.Performs .setIndex [v, index, object] (Act.setIndex object index v) fun _ => [v] :=
  performs_of_lift [] (fun _ _ _ _ => rfl) fun _ _ _ => rfl

theorem performs_makeArray {values : List Value} (hcount : w.toNat = values.length) :
    site.Performs (.makeArray w) values.reverse (Act.newArray values) fun v => [v] :=
  performs_of_lift [] (fun _ _ _ _ => rfl) fun _ _ _ => run_popMany _ hcount.symm

theorem performs_makeObject {values : List Value} (hcount : 2 * w.toNat = values.length) :
    site.Performs (.makeObject w) values.reverse (Act.newObject values) fun v => [v] :=
  performs_of_lift [] (fun _ _ _ _ => rfl) fun _ _ _ => run_popMany _ hcount.symm

theorem performs_closure {p : Proto} (hp : site.proto.functions[w.toNat]? = some p) :
    site.Performs (.closure w) [] (Act.newFunction p site.scope) fun v => [v] := by
  have hexecute : ∀ s next stack, execute site.proto (.closure w) (site.machine s next stack) =
      ((liftM (Act.newFunction p site.scope) : Exec Value) >>= fun v => do
        Exec.push v
        return []) (site.machine s next stack) := by
    intro s next stack
    simp only [execute, hp]
    rfl
  exact performs_of_lift [] (fun _ _ _ _ => rfl) hexecute

theorem performs_operate (op : Operation) {left right : Value} :
    site.Performs (.operate op) [right, left] (Act.operate op left right) fun v => [v] :=
  performs_of_lift [] (fun _ _ _ _ => rfl) fun _ _ _ => rfl

theorem performs_negate : site.Performs .negate [v] (Act.negate v) fun v => [v] :=
  performs_of_lift [] (fun _ _ _ _ => rfl) fun _ _ _ => rfl

end

/-! ### Other sites -/

section

variable {v : Value} {target : ℕ} {kind : JumpKind}

theorem run_jump {α : Type} {distance : Int32} (h : (next : Int) + distance.toInt = target)
    (f : Unit → Exec α) : (Exec.jump distance >>= f) (site.machine s next stack) =
      f () (site.machine s target stack) := by
  have hpos : ¬(next : Int) + distance.toInt < 0 := by omega
  have htarget : ((next : Int) + distance.toInt).toNat = target := by omega
  simp only [Exec.jump, Exec.onFrame, Bind.bind, EStateM.bind, machine, if_neg hpos, htarget]

theorem run_jumpOrPop {α : Type} (condition : Bool) {distance : Int32}
    (h : (next : Int) + distance.toInt = target) (f : Unit → Exec α) :
    (Exec.jumpOrPop condition distance >>= f) (site.machine s next (v :: stack)) =
      f () (if condition then site.machine s target (v :: stack)
        else site.machine s next stack) := by
  cases condition with
  | true => exact run_jump h f
  | false => rfl

/-- A jump that is always taken. -/
theorem step_goto (h : site.proto.chunk.Jumps offset .always target next) :
    (site.machine s offset stack).step = (site.machine s target stack, [], .more) := by
  obtain ⟨distance, hi, hlead⟩ := h
  exact step_of_execute hi (run_jump hlead _) rfl

/-- A jump behind a condition. -/
theorem step_jumpIfFalse (h : site.proto.chunk.Jumps offset .ifFalse target next) :
    (site.machine s offset (v :: stack)).step =
      (site.machine s (if v.isTruthy then next else target) stack, [], .more) := by
  obtain ⟨distance, hi, hlead⟩ := h
  refine step_of_execute hi ?_ rfl
  change ((if !v.isTruthy then Exec.jump distance else pure ()) >>= fun _ => pure [])
    (site.machine s next stack) = _
  cases v.isTruthy with
  | true => rfl
  | false => exact run_jump hlead _

/-- A jump that keeps the operand that counts as false. -/
theorem step_jumpIfFalseOrPop (h : site.proto.chunk.Jumps offset .ifFalseOrPop target next) :
    (site.machine s offset (v :: stack)).step =
      (if v.isTruthy then site.machine s next stack else site.machine s target (v :: stack),
        [], .more) := by
  obtain ⟨distance, hi, hlead⟩ := h
  have hexecute : execute site.proto (.jump .ifFalseOrPop distance)
      (site.machine s next (v :: stack)) = _ := run_jumpOrPop (!v.isTruthy) hlead _
  cases htruthy : v.isTruthy with
  | true =>
      rw [htruthy] at hexecute
      exact step_of_execute hi hexecute rfl
  | false =>
      rw [htruthy] at hexecute
      exact step_of_execute hi hexecute rfl

/-- A jump that keeps the operand that counts as true. -/
theorem step_jumpIfTrueOrPop (h : site.proto.chunk.Jumps offset .ifTrueOrPop target next) :
    (site.machine s offset (v :: stack)).step =
      (if v.isTruthy then site.machine s target (v :: stack) else site.machine s next stack,
        [], .more) := by
  obtain ⟨distance, hi, hlead⟩ := h
  have hexecute : execute site.proto (.jump .ifTrueOrPop distance)
      (site.machine s next (v :: stack)) = _ := run_jumpOrPop v.isTruthy hlead _
  exact step_of_execute hi hexecute (by split <;> rfl)

theorem step_enter (h : site.proto.chunk.At offset .enter next) :
    (site.machine s offset stack).step = (site.machine s next stack, [], .more) :=
  step_of_execute h rfl rfl

theorem step_pushScope (stack : List Value) {inner : ScopeId} {s' : Store}
    (h : site.proto.chunk.At offset .pushScope next)
    (hopen : Act.openScope site.scope s = .ok inner s') :
    (site.machine s offset stack).step =
      ((site.within inner).machine s' next stack, [], .more) := by
  refine step_of_execute h ?_ rfl
  simp only [execute, run_scope, run_lift, hopen]
  rfl

theorem step_popScope {outer : ScopeId} (h : site.proto.chunk.At offset .popScope next)
    (hparent : s.scopes.parent? site.scope = some outer) :
    (site.machine s offset stack).step = ((site.within outer).machine s next stack, [], .more) := by
  refine step_of_execute h ?_ rfl
  have hfound : (site.machine s next stack).scopes.parent?
      (site.machine s next stack).currentScope = some outer := hparent
  simp only [execute, run_get, hfound]
  rfl

/-- Returning to the frame below. -/
theorem step_ret (h : site.proto.chunk.At offset .ret next) (hbase : stack.length = site.base)
    (hcallers : site.callers ≠ []) :
    (site.machine s offset (v :: stack)).step =
      (⟨s, site.callers, v :: stack, false⟩, [], .more) := by
  refine step_of_execute h ?_ rfl
  have hexecute : execute site.proto .ret (site.machine s next (v :: stack)) =
      .ok [] ⟨s, site.callers, v :: stack.drop (stack.length - site.base),
        false || site.callers.isEmpty⟩ := rfl
  have hmore : site.callers.isEmpty = false := by
    cases hempty : site.callers with
    | nil => exact absurd hempty hcallers
    | cons frame rest => rfl
  rw [hexecute, hbase, Nat.sub_self, hmore]
  rfl

/-- The end of a program. -/
theorem step_halt (h : site.proto.chunk.At offset .halt next) :
    (site.machine s offset stack).step = (⟨s, [], [], true⟩, [], .done) := by
  simp only [Chunk.At] at h
  simp only [Machine.step, machine, h]
  rfl

end

/-! ### Calls -/

section

variable {w : UInt32} {arguments : List Value}

/-- The running frame when the function that it calls has been entered. -/
def waiting (site : Site) (next : ℕ) : Frame :=
  ⟨site.proto, next, site.scope, site.base⟩

/-- Where a function that is called from a site runs. -/
def entered (site : Site) (f : Closure) (scope : ScopeId) (next base : ℕ) : Site :=
  ⟨f.proto, scope, base, site.waiting next :: site.callers⟩

theorem run_call (site : Site) (s : Store) (next : ℕ) (stack : List Value) (callee : Value)
    (hcount : w.toNat = arguments.length) :
    execute site.proto (.call w) (site.machine s next (arguments.reverse ++ callee :: stack)) =
      (match callee with
        | .function f => (do
          Exec.enter f arguments
          return [])
        | .native f => (do
          let (v, lines) ← (liftM (Act.callNative f arguments) : Exec (Value × List String))
          Exec.push v
          return lines)
        | v => (throw (Fault.notCallable v.describe) : Exec (List String)))
        (site.machine s next stack) := by
  exact (run_popMany _ hcount.symm).trans rfl

theorem run_enter {f : Closure} {inner : ScopeId} {s' : Store}
    (hlimit : ¬callLimit < site.callers.length + 1)
    (hopen : Act.openCall f.scope f.proto.parameters arguments s = .ok inner s') :
    Exec.enter f arguments (site.machine s next stack) =
      .ok () ((site.entered f inner next stack.length).machine s' 0 stack) := by
  change (if callLimit < site.callers.length + 1 then (_ : Exec Unit) else
    ((liftM (Act.openCall f.scope f.proto.parameters arguments) : Exec ScopeId) >>= _))
      (site.machine s next stack) = _
  rw [if_neg hlimit, run_lift, hopen]
  rfl

/-- Calling a function of the script. -/
theorem step_call_function (stack : List Value) {f : Closure} {inner : ScopeId} {s' : Store}
    (h : site.proto.chunk.At offset (.call w) next) (hcount : w.toNat = arguments.length)
    (hlimit : ¬callLimit < site.callers.length + 1)
    (hopen : Act.openCall f.scope f.proto.parameters arguments s = .ok inner s') :
    (site.machine s offset (arguments.reverse ++ .function f :: stack)).step =
      ((site.entered f inner next stack.length).machine s' 0 stack, [], .more) := by
  refine step_of_execute h ((run_call site s next stack _ hcount).trans ?_) rfl
  simp only [Bind.bind, EStateM.bind, run_enter hlimit hopen]
  rfl

/-- Too many calls are open. Only the callee and its arguments are gone. -/
theorem execute_call_full (s : Store) (stack : List Value) {f : Closure}
    (hcount : w.toNat = arguments.length) (hlimit : callLimit < site.callers.length + 1) :
    execute site.proto (.call w)
      (site.machine s next (arguments.reverse ++ .function f :: stack)) =
        .error .stackOverflow (site.machine s next stack) := by
  have hfull : Exec.enter f arguments (site.machine s next stack) =
      .error .stackOverflow (site.machine s next stack) := by
    change (if callLimit < site.callers.length + 1 then (_ : Exec Unit) else _)
      (site.machine s next stack) = _
    rw [if_pos hlimit]
    rfl
  have hexecute := run_call site s next stack (.function f) hcount
  simp only [Bind.bind, EStateM.bind, hfull] at hexecute
  exact hexecute

theorem stops_call_function (stack : List Value) {f : Closure}
    (h : site.proto.chunk.At offset (.call w) next) (hcount : w.toNat = arguments.length)
    (hlimit : callLimit < site.callers.length + 1) :
    (site.machine s offset (arguments.reverse ++ .function f :: stack)).Stops .stackOverflow s :=
  stops_of_execute h (execute_call_full s stack hcount hlimit) rfl

/-- Calling a function of the machine. -/
theorem step_call_native (stack : List Value) {f : Native} {v : Value} {lines : List String}
    {s' : Store}
    (h : site.proto.chunk.At offset (.call w) next) (hcount : w.toNat = arguments.length)
    (hcall : Act.callNative f arguments s = .ok (v, lines) s') :
    (site.machine s offset (arguments.reverse ++ .native f :: stack)).step =
      (site.machine s' next (v :: stack), lines, .more) := by
  refine step_of_execute h ((run_call site s next stack _ hcount).trans ?_) rfl
  simp only [run_lift, hcall]
  rfl

theorem stops_call_native (stack : List Value) {f : Native} {e : Fault} {s' : Store}
    (h : site.proto.chunk.At offset (.call w) next) (hcount : w.toNat = arguments.length)
    (hcall : Act.callNative f arguments s = .error e s') :
    (site.machine s offset (arguments.reverse ++ .native f :: stack)).Stops e s' := by
  have hexecute := run_call site s next stack (.native f) hcount
  simp only [run_lift, hcall] at hexecute
  exact stops_of_execute h hexecute rfl

/-- Calling something that is no function. -/
theorem stops_call_other (stack : List Value) {callee : Value}
    (h : site.proto.chunk.At offset (.call w) next) (hcount : w.toNat = arguments.length)
    (hfunction : ∀ f, callee ≠ .function f) (hnative : ∀ f, callee ≠ .native f) :
    (site.machine s offset (arguments.reverse ++ callee :: stack)).Stops
      (.notCallable callee.describe) s := by
  have hexecute := run_call site s next stack callee hcount
  cases callee with
  | function f => exact absurd rfl (hfunction f)
  | native f => exact absurd rfl (hnative f)
  | _ => exact stops_of_execute h hexecute rfl

end

end Site

end Tracepoint
