/-
What an instruction leaves alone, whether or not it fails.

Apart from calls, returns and the end of the program, an instruction moves the running frame and
touches the operands that it takes.  The frames below and the operands below stay as they are, also
where the instruction fails; and it never fails because too many calls are open.

Main definitions:

* `Spares` — an action that never ends in the fault for too many calls;
* `Machine.Near` — machines that differ in the running frame and the operands on top;
* `Exec.Gentle` — a part of a step that leads to a machine nearby, in whatever it ends.

Main results:

* `Act.spares_declare`, `Act.spares_setIndex` and one such lemma for every other action;
* `Exec.Gentle.bind` — gentle parts make up gentle steps;
* `gentle_execute` — **all instructions are gentle that neither call nor end anything**.
-/

import Tracepoint.Machine.Step
import Tracepoint.Proofs.Code.Flow

set_option relaxedAutoImplicit false
set_option autoImplicit false

namespace Tracepoint

/-- Never ends in the fault for too many calls, whatever it starts from. -/
def Spares {α : Type} (act : Act α) : Prop :=
  ∀ s s', act s ≠ .error .stackOverflow s'

namespace Spares

variable {α β : Type} {act : Act α}

theorem pure (a : α) : Spares (pure a : Act α) := by
  intro s s' h
  cases h

theorem throw {e : Fault} (he : e ≠ .stackOverflow) : Spares (throw e : Act α) := by
  intro s s' h
  cases h
  exact he rfl

theorem get : Spares (get : Act Store) := by
  intro s s' h
  cases h

theorem modifyGet (f : Store → α × Store) : Spares (modifyGet f : Act α) := by
  intro s s' h
  cases h

theorem bind {f : α → Act β} (hact : Spares act) (hf : ∀ a, Spares (f a)) :
    Spares (act >>= f) := by
  intro s s'' h
  simp only [Bind.bind, EStateM.bind] at h
  cases hrun : act s with
  | error e s' =>
      rw [hrun] at h
      cases h
      exact hact s s'' hrun
  | ok a s' =>
      rw [hrun] at h
      exact hf a s' s'' h

end Spares

/-! ### Operators -/

theorem Value.negate_ne_overflow (v : Value) : v.negate ≠ .error .stackOverflow := by
  intro h
  cases v <;> cases h

theorem Value.add_ne_overflow (heap : Heap Value) (v w : Value) :
    v.add heap w ≠ .error .stackOverflow := by
  intro h
  unfold Value.add at h
  split at h <;> cases h

theorem Value.arithmetic_ne_overflow (operator : String) (f : Float → Float → Float)
    (v w : Value) : v.arithmetic operator f w ≠ .error .stackOverflow := by
  intro h
  unfold Value.arithmetic at h
  split at h <;> cases h

theorem Value.compare_ne_overflow (operator : String) (numbers : Float → Float → Bool)
    (strings : String → String → Bool) (v w : Value) :
    v.compare operator numbers strings w ≠ .error .stackOverflow := by
  intro h
  unfold Value.compare at h
  split at h <;> cases h

theorem Operation.apply_ne_overflow (op : Operation) (heap : Heap Value) (v w : Value) :
    op.apply heap v w ≠ .error .stackOverflow := by
  cases op with
  | add => exact v.add_ne_overflow heap w
  | equals => exact fun h => nomatch h
  | strictEquals => exact fun h => nomatch h
  | less => exact v.compare_ne_overflow _ _ _ w
  | lessEqual => exact v.compare_ne_overflow _ _ _ w
  | greater => exact v.compare_ne_overflow _ _ _ w
  | greaterEqual => exact v.compare_ne_overflow _ _ _ w
  | _ => exact v.arithmetic_ne_overflow _ _ w

/-! ### Actions -/

namespace Act

variable {α : Type}

theorem spares_defect (d : Defect) : Spares (defect d : Act α) :=
  .throw Fault.noConfusion

theorem spares_orFault {r : Except Fault α} (h : r ≠ .error .stackOverflow) :
    Spares (orFault r) := by
  cases r with
  | ok a => exact .pure a
  | error e => exact .throw fun he => h (congrArg _ he)

theorem spares_onScopes (f : Arena Value → α × Arena Value) : Spares (onScopes f) :=
  .modifyGet _

theorem spares_onHeap (f : Heap Value → α × Heap Value) : Spares (onHeap f) :=
  .modifyGet _

variable (scope : ScopeId) (name : String) (v : Value)

theorem spares_read : Spares (read scope name) := by
  refine .bind .get fun s => ?_
  split
  · exact .pure _
  · exact .throw Fault.noConfusion

theorem spares_declare (kind : BindingKind) : Spares (declare scope name v kind) := by
  refine .bind (spares_onScopes _) fun result => ?_
  split
  · exact .pure _
  · exact .throw Fault.noConfusion

theorem spares_assign : Spares (assign scope name v) := by
  refine .bind (spares_onScopes _) fun result => ?_
  split
  · exact .pure _
  · exact .throw Fault.noConfusion
  · exact .throw Fault.noConfusion

theorem spares_openScope : Spares (openScope scope) :=
  spares_onScopes _

theorem spares_newArray (items : List Value) : Spares (newArray items) :=
  .bind (spares_onHeap _) fun _ => .pure _

theorem spares_newObject (values : List Value) : Spares (newObject values) :=
  .bind (spares_onHeap _) fun _ => .pure _

theorem spares_newFunction (proto : Proto) : Spares (newFunction proto scope) :=
  .bind (.modifyGet _) fun _ => .pure _

theorem spares_operate (op : Operation) (left right : Value) : Spares (operate op left right) :=
  .bind .get fun s => spares_orFault (op.apply_ne_overflow s.heap left right)

theorem spares_negate : Spares (negate v) :=
  spares_orFault v.negate_ne_overflow

theorem spares_callNative (f : Native) (arguments : List Value) :
    Spares (callNative f arguments) := by
  cases f with
  | console name => exact .bind .get fun s => .pure _
  | push identity target =>
      refine .bind (spares_onHeap _) fun _ => .bind .get fun s => ?_
      split
      · exact spares_defect _
      · exact .pure _

theorem spares_itemAt (r : Ref) (position : ℕ) : Spares (itemAt r position) :=
  .bind .get fun _ => .pure _

theorem spares_getProperty : Spares (getProperty v name) := by
  cases v with
  | undefined => exact .throw Fault.noConfusion
  | null => exact .throw Fault.noConfusion
  | object r => exact .bind .get fun _ => .pure _
  | array r =>
      simp only [getProperty]
      split
      · exact .bind .get fun _ => .pure _
      · split
        · exact .bind (.modifyGet _) fun _ => .pure _
        · split
          · exact spares_itemAt r _
          · exact .pure _
  | _ => exact .pure _

theorem spares_getIndex (index : Value) : Spares (getIndex v index) := by
  refine .bind .get fun s => ?_
  split
  · exact spares_itemAt _ _
  · split
    · exact .pure _
    · exact .pure _
  · exact spares_getProperty _ _

theorem spares_setItem (r : Ref) (position : ℕ) : Spares (setItem r position v) := by
  refine .bind .get fun s => ?_
  split
  · exact spares_defect _
  · split
    · exact .throw Fault.noConfusion
    · exact spares_onHeap _

theorem spares_setProperty (object : Value) : Spares (setProperty object name v) := by
  cases object with
  | object r => exact .modifyGet _
  | array r =>
      simp only [setProperty]
      split
      · exact spares_setItem _ _ _
      · exact .throw Fault.noConfusion
  | _ => exact .throw Fault.noConfusion

theorem spares_setIndex (object index : Value) : Spares (setIndex object index v) := by
  refine .bind .get fun s => ?_
  split
  · exact spares_setItem _ _ _
  · exact .throw Fault.noConfusion
  · exact spares_setProperty _ _ _

end Act

/-! ### Machines nearby -/

/-- The running frame is at another place, the store is another one, and of the operands at most
the `taken` ones on top are others. -/
structure Machine.Near (taken : ℕ) (m m' : Machine) : Prop where
  frames : ∀ f callers, m.frames = f :: callers →
    ∃ offset scope, m'.frames = ⟨f.proto, offset, scope, f.base⟩ :: callers
  stack : m.stack.drop taken <:+ m'.stack

namespace Machine.Near

variable {j k : ℕ} {m m' m'' : Machine}

theorem of_same (hframes : m'.frames = m.frames) (hstack : m.stack.drop k <:+ m'.stack) :
    m.Near k m' :=
  ⟨fun f _ h => ⟨f.offset, f.scope, hframes.trans h⟩, hstack⟩

theorem refl (m : Machine) : m.Near 0 m :=
  .of_same rfl (List.drop_suffix 0 _)

theorem mono (h : m.Near j m') (hle : j ≤ k) : m.Near k m' := by
  refine ⟨h.frames, .trans ?_ h.stack⟩
  rw [← Nat.add_sub_cancel' hle, ← List.drop_drop]
  exact List.drop_suffix _ _

theorem trans (h : m.Near j m') (h' : m'.Near k m'') : m.Near (j + k) m'' := by
  constructor
  · intro f callers hframes
    obtain ⟨offset, scope, hmiddle⟩ := h.frames f callers hframes
    obtain ⟨offset', scope', hlast⟩ := h'.frames _ callers hmiddle
    exact ⟨offset', scope', hlast⟩
  · have hle := h.stack.length_le
    have hdrop : m.stack.drop (j + k) <:+ m'.stack := by
      rw [← List.drop_drop]
      exact (List.drop_suffix k _).trans h.stack
    refine (List.suffix_of_suffix_length_le hdrop (List.drop_suffix k _) ?_).trans h'.stack
    simp only [List.length_drop] at hle ⊢
    omega

end Machine.Near

/-! ### Parts of steps -/

namespace Exec

/-- Leads to a machine nearby, whether or not it fails, and does not fail for too many calls. -/
def Gentle {α : Type} (taken : ℕ) (x : Exec α) : Prop :=
  ∀ m : Machine,
    match x m with
    | .ok _ m' => m.Near taken m'
    | .error e m' => m.Near taken m' ∧ e ≠ .stackOverflow

namespace Gentle

variable {α β : Type} {j k : ℕ} {x : Exec α}

theorem pure (a : α) : Gentle 0 (pure a : Exec α) :=
  fun m => .refl m

theorem defect (d : Defect) : Gentle 0 (defect d : Exec α) :=
  fun m => ⟨.refl m, Fault.noConfusion⟩

theorem get : Gentle 0 (get : Exec Machine) :=
  fun m => .refl m

/-- **Gentle parts make up gentle steps.** -/
theorem bind {f : α → Exec β} (hx : Gentle j x) (hf : ∀ a, Gentle k (f a)) :
    Gentle (j + k) (x >>= f) := by
  intro m
  have hfirst := hx m
  simp only [Bind.bind, EStateM.bind]
  cases hrun : x m with
  | error e m' =>
      rw [hrun] at hfirst
      exact ⟨hfirst.1.mono (Nat.le_add_right j k), hfirst.2⟩
  | ok a m' =>
      rw [hrun] at hfirst
      have hsecond := hf a m'
      change match f a m' with
        | .ok _ m'' => m.Near (j + k) m''
        | .error e m'' => m.Near (j + k) m'' ∧ e ≠ .stackOverflow
      cases hrun' : f a m' with
      | error e m'' =>
          rw [hrun'] at hsecond
          exact ⟨hfirst.trans hsecond.1, hsecond.2⟩
      | ok b m'' =>
          rw [hrun'] at hsecond
          exact hfirst.trans hsecond

theorem then_pure {a : β} (hx : Gentle k x) : Gentle k (x >>= fun _ => Pure.pure a) :=
  hx.bind fun _ => .pure a

theorem mono (hx : Gentle j x) (hle : j ≤ k) : Gentle k x := by
  intro m
  have h := hx m
  split
  next hrun =>
    rw [hrun] at h
    exact h.mono hle
  next hrun =>
    rw [hrun] at h
    exact ⟨h.1.mono hle, h.2⟩

theorem lift {act : Act α} (h : Spares act) : Gentle 0 (liftM act : Exec α) := by
  intro m
  simp only [liftM, monadLift, MonadLift.monadLift]
  cases hact : act m.toStore with
  | ok a s => exact .of_same rfl (List.drop_suffix 0 _)
  | error e s =>
      refine ⟨.of_same rfl (List.drop_suffix 0 _), ?_⟩
      rintro rfl
      exact h _ _ hact

end Gentle

variable {α : Type}

theorem gentle_push (v : Value) : Gentle 0 (push v) :=
  fun _ => .of_same rfl (List.suffix_cons v _)

theorem gentle_pop : Gentle 1 pop := by
  intro m
  unfold pop
  cases hstack : m.stack with
  | nil => exact ⟨(Machine.Near.refl m).mono (Nat.zero_le 1), Fault.noConfusion⟩
  | cons v rest => exact .of_same rfl (by rw [hstack]; exact List.suffix_rfl)

theorem gentle_top : Gentle 0 top := by
  intro m
  unfold top
  cases hstack : m.stack with
  | nil => exact ⟨.refl m, Fault.noConfusion⟩
  | cons v rest => exact .refl m

theorem gentle_popMany (count : ℕ) : Gentle count (popMany count) := by
  intro m
  unfold popMany
  split
  next hrun =>
    split at hrun
    · cases hrun
    · cases hrun
      exact .of_same rfl List.suffix_rfl
  next hrun =>
    split at hrun
    · cases hrun
      exact ⟨(Machine.Near.refl m).mono (Nat.zero_le _), Fault.noConfusion⟩
    · cases hrun

theorem gentle_currentScope : Gentle 0 currentScope :=
  fun m => .refl m

/-- The running frame goes to another place. -/
theorem gentle_onFrame (f : Frame → Frame) (hproto : ∀ frame, (f frame).proto = frame.proto)
    (hbase : ∀ frame, (f frame).base = frame.base) : Gentle 0 (onFrame f) := by
  intro m
  unfold onFrame
  cases hframes : m.frames with
  | nil => exact ⟨.refl m, Fault.noConfusion⟩
  | cons frame callers =>
      refine ⟨fun g below hsame => ?_, List.drop_suffix 0 _⟩
      obtain ⟨rfl, rfl⟩ := List.cons.inj (hframes.symm.trans hsame)
      refine ⟨(f frame).offset, (f frame).scope, ?_⟩
      rw [← hproto, ← hbase]

theorem gentle_nameAt (proto : Proto) (position : UInt32) : Gentle 0 (nameAt proto position) := by
  unfold nameAt
  split
  · exact .pure _
  · exact .defect _

theorem gentle_jump (distance : Int32) : Gentle 0 (jump distance) :=
  gentle_onFrame _ (fun _ => rfl) fun _ => rfl

theorem gentle_jumpOrPop (condition : Bool) (distance : Int32) :
    Gentle 1 (jumpOrPop condition distance) := by
  unfold jumpOrPop
  split
  · exact (gentle_jump distance).mono (Nat.zero_le 1)
  · exact gentle_pop.then_pure

/-- The operands that a jump may take. -/
theorem gentle_jumpWhen (kind : JumpKind) (distance : Int32) :
    Gentle (Instr.jump kind distance).takes (jumpWhen kind distance) := by
  cases kind with
  | always => exact gentle_jump distance
  | ifFalse =>
      refine gentle_pop.bind fun v => (?_ : Gentle 0 _)
      split
      · exact gentle_jump distance
      · exact .pure _
  | ifFalseOrPop => exact gentle_top.bind fun v => gentle_jumpOrPop _ distance
  | ifTrueOrPop => exact gentle_top.bind fun v => gentle_jumpOrPop _ distance

end Exec

open Exec

/-- An action that leaves its result. -/
theorem Spares.yields {act : Act Value} (h : Spares act) :
    Gentle 0 (do
      let v ← (liftM act : Exec Value)
      push v
      return ([] : List String)) :=
  (Gentle.lift h).bind fun v => (gentle_push v).then_pure

/-- An action with an operand that is left behind it. -/
theorem Spares.keeps {act : Act Unit} (h : Spares act) (v : Value) :
    Gentle 0 (do
      (liftM act : Exec Unit)
      push v
      return ([] : List String)) :=
  (Gentle.lift h).bind fun _ => (gentle_push v).then_pure

/-- An action that leaves its result and writes to the console. -/
theorem Spares.writes {act : Act (Value × List String)} (h : Spares act) :
    Gentle 0 (do
      let (v, lines) ← (liftM act : Exec (Value × List String))
      push v
      return lines) :=
  (Gentle.lift h).bind fun result => (gentle_push result.1).then_pure

/-- **All instructions are gentle that neither call nor end anything.** -/
theorem gentle_execute (proto : Proto) {i : Instr} (hcall : ∀ w, i ≠ .call w) (hret : i ≠ .ret)
    (hhalt : i ≠ .halt) : Gentle i.takes (execute proto i) := by
  cases i with
  | enter => exact .pure _
  | halt => exact absurd rfl hhalt
  | constant position =>
      simp only [execute]
      split
      · exact (gentle_push _).then_pure
      · exact (Gentle.defect _).then_pure
  | pop => exact gentle_pop.then_pure
  | declare name kind =>
      exact (gentle_nameAt proto name).bind fun name => gentle_pop.bind fun v =>
        gentle_currentScope.bind fun scope =>
          (Gentle.lift (Act.spares_declare scope name v kind)).then_pure
  | get name =>
      exact (gentle_nameAt proto name).bind fun name => gentle_currentScope.bind fun scope =>
        (Act.spares_read scope name).yields
  | set name =>
      exact ((gentle_nameAt proto name).bind fun name => gentle_top.bind fun v =>
        gentle_currentScope.bind fun scope =>
          (Gentle.lift (Act.spares_assign scope name v)).then_pure).mono (Nat.zero_le 1)
  | getProperty name =>
      exact (gentle_nameAt proto name).bind fun name => gentle_pop.bind fun object =>
        (Act.spares_getProperty name object).yields
  | setProperty name =>
      exact (gentle_nameAt proto name).bind fun name => gentle_pop.bind fun v =>
        gentle_pop.bind fun object => (Act.spares_setProperty name v object).keeps v
  | getIndex =>
      exact gentle_pop.bind fun index => gentle_pop.bind fun object =>
        (Act.spares_getIndex object index).yields
  | setIndex =>
      exact gentle_pop.bind fun v => gentle_pop.bind fun index => gentle_pop.bind fun object =>
        (Act.spares_setIndex v object index).keeps v
  | makeArray count =>
      exact (gentle_popMany _).bind fun items => (Act.spares_newArray items).yields
  | makeObject count =>
      exact (gentle_popMany _).bind fun values => (Act.spares_newObject values).yields
  | closure function =>
      simp only [execute]
      split
      · exact gentle_currentScope.bind fun scope => (Act.spares_newFunction scope _).yields
      · exact (Gentle.defect _).then_pure
  | call count => exact absurd rfl (hcall count)
  | ret => exact absurd rfl hret
  | operate op =>
      exact gentle_pop.bind fun right => gentle_pop.bind fun left =>
        (Act.spares_operate op left right).yields
  | negate => exact gentle_pop.bind fun v => (Act.spares_negate v).yields
  | not => exact gentle_pop.bind fun v => (gentle_push _).then_pure
  | jump kind distance => exact (gentle_jumpWhen kind distance).then_pure
  | pushScope =>
      exact gentle_currentScope.bind fun scope => (Gentle.lift (Act.spares_openScope scope)).bind
        fun inner => (gentle_onFrame (fun frame => { frame with scope := inner }) (fun _ => rfl)
          fun _ => rfl).then_pure
  | popScope =>
      refine Gentle.get.bind fun m => (?_ : Gentle 0 _)
      split
      next outer _ =>
        exact (gentle_onFrame (fun frame => { frame with scope := outer }) (fun _ => rfl)
          fun _ => rfl).then_pure
      · exact (Gentle.defect _).then_pure

end Tracepoint
