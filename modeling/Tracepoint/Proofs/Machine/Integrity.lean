/-
What every step keeps.

In whatever state a machine is on the run of a program, all values that it holds stand, and so do
its frames.  Every instruction keeps this true, whether or not it ends in a fault; so it stays true
however often a machine goes on behind a fault.

Main definitions:

* `Machine.Intact` — all values and all frames of a machine stand;
* `Machine.Leads` — a later machine;
* `Exec.Keeps` — a part of a step leads from an intact machine to an intact one;
* `Instr.Quiet` — the instruction neither declares anything nor leaves its scope or its frame.

Main results:

* `keeps_execute` — what every instruction keeps;
* `Machine.step_cases` — what a step leads to;
* `Machine.Intact.step`, `intact_machineAfter` — what every step keeps, and every run.
-/

import Tracepoint.Proofs.Evaluation.Safety
import Tracepoint.Proofs.Store.References

set_option relaxedAutoImplicit false
set_option autoImplicit false

namespace Tracepoint

/-! ### Machines -/

/-- The scope of a frame is there, and the functions made in its code are of a certain kind. -/
def Frame.Stands (G : Proto → Prop) (size : ℕ) (f : Frame) : Prop :=
  f.scope.index < size ∧ ∀ q ∈ f.proto.functions, G q

/-- The functions that are made in code of a certain kind are of this kind. -/
def Inherited (G : Proto → Prop) : Prop :=
  ∀ p, G p → ∀ q ∈ p.functions, G q

/-- A frame without its place in the code. -/
def Frame.still (f : Frame) : Frame :=
  { f with offset := 0 }

namespace Machine

variable {quiet : Prop} {G : Proto → Prop} {m m' m'' : Machine}

/-- All values and all frames of a machine stand. -/
structure Intact (G : Proto → Prop) (m : Machine) : Prop where
  store : m.toStore.Intact G
  stack : ∀ v ∈ m.stack, m.Backs G v
  frames : ∀ f ∈ m.frames, f.Stands G m.scopes.size

/-- A machine later on. If nothing was declared and no scope was left in between, scopes bind the
same names, and frames are the same but for their place in the code. -/
structure Leads (quiet : Prop) (m m' : Machine) : Prop where
  store : m.toStore.Leads quiet m'.toStore
  frames : quiet → m'.frames.map Frame.still = m.frames.map Frame.still

theorem Leads.refl (quiet : Prop) (m : Machine) : m.Leads quiet m :=
  ⟨.refl quiet _, fun _ => rfl⟩

theorem Leads.trans (h : m.Leads quiet m') (h' : m'.Leads quiet m'') : m.Leads quiet m'' :=
  ⟨h.store.trans h'.store, fun hquiet => (h'.frames hquiet).trans (h.frames hquiet)⟩

theorem Leads.mono {quiet' : Prop} (h : m.Leads quiet m') (hquiet : quiet' → quiet) :
    m.Leads quiet' m' :=
  ⟨h.store.mono hquiet, fun h' => h.frames (hquiet h')⟩

theorem Leads.backs (h : m.Leads quiet m') {v : Value} (hv : m.Backs G v) : m'.Backs G v :=
  h.store.backs hv

theorem intact_start {program : Proto} (hG : ∀ q ∈ program.functions, G q) :
    (start program).Intact G where
  store := Store.intact_start G
  stack := fun v hv => by cases hv
  frames := by
    intro f hf
    cases List.mem_singleton.1 hf
    exact ⟨Nat.one_pos, hG⟩

theorem Intact.withStack (hm : m.Intact G) {stack : List Value}
    (hstack : ∀ v ∈ stack, m.Backs G v) : Intact G { m with stack } :=
  ⟨hm.store, hstack, hm.frames⟩

theorem Intact.withFrames (hm : m.Intact G) {frames : List Frame}
    (hframes : ∀ f ∈ frames, f.Stands G m.scopes.size) : Intact G { m with frames } :=
  ⟨hm.store, hm.stack, hframes⟩

/-- The scope of the running frame is there. -/
theorem Intact.currentScope (hm : m.Intact G) : m.currentScope.index < m.scopes.size := by
  rw [Machine.currentScope]
  split
  · exact hm.store.global
  next frame callers hframes =>
    exact (hm.frames frame (hframes ▸ List.mem_cons_self ..)).1

end Machine

/-! ### Parts of steps -/

namespace Exec

variable {α β : Type} {quiet : Prop} {G : Proto → Prop} {m : Machine}

/-- The machine behind a part of a step is intact and comes after the old one, also if the part
ends in a fault; and of its result `P` holds there. -/
def Keeps (quiet : Prop) (G : Proto → Prop) (m : Machine) (x : Exec α)
    (P : Machine → α → Prop) : Prop :=
  match x m with
  | .ok a m' => m'.Intact G ∧ m.Leads quiet m' ∧ P m' a
  | .error _ m' => m'.Intact G ∧ m.Leads quiet m'

/-- The machine behind a part of a step, in whatever it ends. -/
def after (x : Exec α) (m : Machine) : Machine :=
  match x m with
  | .ok _ m' => m'
  | .error _ m' => m'

namespace Keeps

variable {x : Exec α} {f : α → Exec β} {P : Machine → α → Prop} {Q : Machine → β → Prop}

theorem bind (hx : Keeps quiet G m x P)
    (hf : ∀ a m', m'.Intact G → m.Leads quiet m' → P m' a → Keeps quiet G m' (f a) Q) :
    Keeps quiet G m (x >>= f) Q := by
  simp only [Keeps, Bind.bind, EStateM.bind] at hx ⊢
  cases hrun : x m with
  | error e m' =>
      rw [hrun] at hx
      exact hx
  | ok a m' =>
      rw [hrun] at hx
      obtain ⟨hintact, hleads, hP⟩ := hx
      have hrest := hf a m' hintact hleads hP
      simp only [Keeps] at hrest ⊢
      cases hrun' : f a m' with
      | error e m'' =>
          rw [hrun'] at hrest
          exact ⟨hrest.1, hleads.trans hrest.2⟩
      | ok b m'' =>
          rw [hrun'] at hrest
          exact ⟨hrest.1, hleads.trans hrest.2.1, hrest.2.2⟩

theorem pure (hm : m.Intact G) {a : α} (h : P m a) : Keeps quiet G m (pure a) P :=
  ⟨hm, .refl quiet m, h⟩

theorem throw (hm : m.Intact G) (e : Fault) : Keeps quiet G m (throw e) P :=
  ⟨hm, .refl quiet m⟩

theorem modify {g : Machine → Machine} (hm : (g m).Intact G) (hleads : m.Leads quiet (g m)) :
    Keeps quiet G m (modify g) fun _ _ => True :=
  ⟨hm, hleads, trivial⟩

theorem get_bind {f : Machine → Exec β} (h : Keeps quiet G m (f m) Q) :
    Keeps quiet G m (get >>= f) Q :=
  h

theorem then_pure {a : β} (hx : Keeps quiet G m x P) :
    Keeps quiet G m (x >>= fun _ => Pure.pure a) fun _ _ => True :=
  hx.bind fun _ _ hm _ _ => .pure hm trivial

theorem mono {quiet' : Prop} (hx : Keeps quiet G m x P) (hquiet : quiet' → quiet) :
    Keeps quiet' G m x P := by
  simp only [Keeps] at hx ⊢
  split at hx
  · exact ⟨hx.1, hx.2.1.mono hquiet, hx.2.2⟩
  · exact ⟨hx.1, hx.2.mono hquiet⟩

theorem after (hx : Keeps quiet G m x P) :
    (Exec.after x m).Intact G ∧ m.Leads quiet (Exec.after x m) := by
  simp only [Keeps, Exec.after] at hx ⊢
  split at hx
  · exact ⟨hx.1, hx.2.1⟩
  · exact hx

/-- An action on the store of a machine. -/
theorem lift (hm : m.Intact G) {act : Act α} {P : Store → α → Prop}
    (h : Act.Keeps quiet G m.toStore act P) :
    Keeps quiet G m (liftM act : Exec α) fun m' a => P m'.toStore a := by
  have hintact : ∀ s', s'.Intact G → m.toStore.Leads quiet s' →
      Machine.Intact G ⟨s', m.frames, m.stack, m.halted⟩ := fun s' hs' hleads =>
    ⟨hs', fun v hv => hleads.backs (hm.stack v hv), fun f hf =>
      ⟨Nat.lt_of_lt_of_le (hm.frames f hf).1 hleads.scopes.size_le, (hm.frames f hf).2⟩⟩
  simp only [Act.Keeps] at h
  simp only [Keeps, liftM, monadLift, MonadLift.monadLift]
  cases hact : act m.toStore with
  | ok a s' =>
      rw [hact] at h
      exact ⟨hintact s' h.1 h.2.1, ⟨h.2.1, fun _ => rfl⟩, h.2.2⟩
  | error e s' =>
      rw [hact] at h
      exact ⟨hintact s' h.1 h.2, ⟨h.2, fun _ => rfl⟩⟩

end Keeps

/-! #### Operands -/

theorem keeps_push (hm : m.Intact G) {v : Value} (hv : m.Backs G v) :
    Keeps quiet G m (push v) fun _ _ => True := by
  refine ⟨hm.withStack fun w hw => ?_, ⟨.refl quiet _, fun _ => rfl⟩, trivial⟩
  rcases List.mem_cons.1 hw with rfl | hw
  · exact hv
  · exact hm.stack w hw

theorem keeps_pop (hm : m.Intact G) :
    Keeps quiet G m pop fun m' v => m'.Backs G v := by
  unfold Keeps pop
  cases hstack : m.stack with
  | nil => exact ⟨hm, .refl quiet m⟩
  | cons v rest =>
      have hall := hm.stack
      rw [hstack] at hall
      exact ⟨hm.withStack fun w hw => hall w (List.mem_cons_of_mem _ hw),
        ⟨.refl quiet _, fun _ => rfl⟩, hall v (List.mem_cons_self ..)⟩

theorem keeps_top (hm : m.Intact G) :
    Keeps quiet G m top fun m' v => m'.Backs G v := by
  unfold Keeps top
  cases hstack : m.stack with
  | nil => exact ⟨hm, .refl quiet m⟩
  | cons v rest => exact ⟨hm, .refl quiet m, hm.stack v (hstack ▸ List.mem_cons_self ..)⟩

theorem keeps_popMany (hm : m.Intact G) (count : ℕ) :
    Keeps quiet G m (popMany count) fun m' vs => ∀ v ∈ vs, m'.Backs G v := by
  simp only [Keeps, popMany]
  by_cases hlt : m.stack.length < count
  · rw [if_pos hlt]
    exact ⟨hm, .refl quiet m⟩
  · rw [if_neg hlt]
    exact ⟨hm.withStack fun v hv => hm.stack v (List.mem_of_mem_drop hv),
      ⟨.refl quiet _, fun _ => rfl⟩,
      fun v hv => hm.stack v (List.mem_of_mem_take (List.mem_reverse.1 hv))⟩

theorem keeps_nameAt (hm : m.Intact G) (proto : Proto) (position : UInt32) :
    Keeps quiet G m (nameAt proto position) fun _ _ => True := by
  unfold nameAt
  split
  · exact .pure hm trivial
  · exact .throw hm _

/-! #### Frames -/

theorem keeps_currentScope (hm : m.Intact G) :
    Keeps quiet G m currentScope fun m' scope => scope.index < m'.scopes.size :=
  ⟨hm, .refl quiet m, hm.currentScope⟩

/-- The running frame goes to another scope that is there, or just to another place. -/
theorem keeps_onFrame (hm : m.Intact G) {f : Frame → Frame}
    (hscope : ∀ frame : Frame, frame.scope.index < m.scopes.size →
      (f frame).scope.index < m.scopes.size)
    (hproto : ∀ frame, (f frame).proto = frame.proto)
    (hstill : quiet → ∀ frame, (f frame).still = frame.still) :
    Keeps quiet G m (onFrame f) fun _ _ => True := by
  unfold Keeps onFrame
  cases hframes : m.frames with
  | nil => exact ⟨hm, .refl quiet m⟩
  | cons frame callers =>
      have hall := hm.frames
      rw [hframes] at hall
      refine ⟨hm.withFrames fun g hg => ?_, ⟨.refl quiet _, fun hquiet => ?_⟩, trivial⟩
      · rcases List.mem_cons.1 hg with rfl | hg
        · obtain ⟨hindex, hfunctions⟩ := hall frame (List.mem_cons_self ..)
          exact ⟨hscope frame hindex, hproto frame ▸ hfunctions⟩
        · exact hall g (List.mem_cons_of_mem _ hg)
      · rw [hframes, List.map_cons, List.map_cons, hstill hquiet]

theorem keeps_jump (hm : m.Intact G) (distance : Int32) :
    Keeps quiet G m (jump distance) fun _ _ => True :=
  keeps_onFrame hm (fun _ h => h) (fun _ => rfl) fun _ _ => rfl

theorem keeps_jumpOrPop (hm : m.Intact G) (condition : Bool) (distance : Int32) :
    Keeps quiet G m (jumpOrPop condition distance) fun _ _ => True := by
  unfold jumpOrPop
  split
  · exact keeps_jump hm distance
  · exact (keeps_pop hm).then_pure

theorem keeps_jumpWhen (hm : m.Intact G) (kind : JumpKind) (distance : Int32) :
    Keeps quiet G m (jumpWhen kind distance) fun _ _ => True := by
  cases kind with
  | always => exact keeps_jump hm distance
  | ifFalse =>
      refine (keeps_pop hm).bind fun v m' hm' _ _ => ?_
      split
      · exact keeps_jump hm' distance
      · exact .pure hm' trivial
  | ifFalseOrPop => exact (keeps_top hm).bind fun v m' hm' _ _ => keeps_jumpOrPop hm' _ distance
  | ifTrueOrPop => exact (keeps_top hm).bind fun v m' hm' _ _ => keeps_jumpOrPop hm' _ distance

/-! #### Calls -/

/-- A frame is opened, in a scope of its own. -/
theorem keeps_enter (hm : m.Intact G) (hG : Inherited G) {f : Closure}
    (hf : f.Rooted G m.scopes.size) {arguments : List Value}
    (harguments : ∀ v ∈ arguments, m.Backs G v) :
    Keeps False G m (enter f arguments) fun _ _ => True := by
  refine .get_bind ?_
  split
  · exact .throw hm _
  · refine (Keeps.lift hm (Act.keeps_openCall hm.store hf.2 f.proto.parameters harguments)).bind
      fun scope m' hm' _ hscope => .modify (hm'.withFrames fun g hg => ?_)
        ⟨.refl False _, False.elim⟩
    rcases List.mem_cons.1 hg with rfl | hg
    · exact ⟨hscope, hG f.proto hf.1⟩
    · exact hm'.frames g hg

/-- A call is quiet if there are no functions of the script. -/
theorem keeps_call (hm : m.Intact G) (hG : Inherited G) (count : ℕ) :
    Keeps (∀ p, ¬G p) G m (call count) fun _ _ => True := by
  refine (keeps_popMany hm count).bind fun arguments m₁ hm₁ _ harguments =>
    (keeps_pop hm₁).bind fun callee m₂ hm₂ hleads hcallee => ?_
  have harguments : ∀ v ∈ arguments, m₂.Backs G v := fun v hv => hleads.backs (harguments v hv)
  split
  next f =>
    exact ((keeps_enter hm₂ hG hcallee harguments).then_pure).mono fun h => h f.proto hcallee.1
  next f =>
    exact (Keeps.lift hm₂ (Act.keeps_callNative hm₂.store f harguments)).bind
      fun result m₃ hm₃ _ hresult => (keeps_push hm₃ hresult).then_pure
  next => exact .throw hm₂ _

theorem keeps_ret (hm : m.Intact G) : Keeps False G m ret fun _ _ => True := by
  refine (keeps_pop hm).bind fun v m' hm' _ hv => .get_bind ?_
  split
  · exact .throw hm' _
  next frame callers hframes =>
    refine ⟨⟨hm'.store, fun w hw => ?_, fun f hf => ?_⟩, ⟨.refl False _, False.elim⟩, trivial⟩
    · rcases List.mem_cons.1 hw with rfl | hw
      · exact hv
      · exact hm'.stack w (List.mem_of_mem_drop hw)
    · exact hm'.frames f (hframes ▸ List.mem_cons_of_mem _ hf)

end Exec

/-! ### Instructions -/

open Exec

section

variable {quiet : Prop} {G : Proto → Prop} {m : Machine}

/-- An action that leaves its result. -/
theorem Act.Keeps.yields (hm : m.Intact G) {act : Act Value}
    (h : act.Keeps quiet G m.toStore (Store.Backs G)) :
    Exec.Keeps quiet G m (do
      let v ← (liftM act : Exec Value)
      push v
      return ([] : List String)) fun _ _ => True :=
  (Exec.Keeps.lift hm h).bind fun _ _ hm' _ hv => (keeps_push hm' hv).then_pure

/-- An action with an operand that is left behind it. -/
theorem Act.Keeps.leaves (hm : m.Intact G) {act : Act Unit} {v : Value} (hv : m.Backs G v)
    (h : act.Keeps quiet G m.toStore fun _ _ => True) :
    Exec.Keeps quiet G m (do
      (liftM act : Exec Unit)
      push v
      return ([] : List String)) fun _ _ => True :=
  (Exec.Keeps.lift hm h).bind fun _ _ hm' hleads _ => (keeps_push hm' (hleads.backs hv)).then_pure

/-- The instruction neither declares anything nor leaves its scope or its frame. A call is one of
these if there are no functions of the script. -/
def Instr.Quiet (G : Proto → Prop) : Instr → Prop
  | .declare _ _ | .pushScope | .popScope | .ret | .halt => False
  | .call _ => ∀ p, ¬G p
  | _ => True

/-- **What every instruction keeps.** -/
theorem keeps_execute (hm : m.Intact G) (hG : Inherited G) {proto : Proto}
    (hproto : ∀ q ∈ proto.functions, G q) (i : Instr) :
    Exec.Keeps (i.Quiet G) G m (execute proto i) fun _ _ => True := by
  cases i with
  | enter => exact .pure hm trivial
  | halt =>
      have hend : Machine.Intact G { m with frames := [], stack := [], halted := true } :=
        ⟨hm.store, fun _ hv => (nomatch hv), fun _ hf => (nomatch hf)⟩
      exact (Keeps.modify hend ⟨.refl _ _, False.elim⟩).then_pure
  | constant position =>
      simp only [execute]
      split
      next c _ => exact (keeps_push hm (c.isScalar_toValue.stands _ _)).then_pure
      next => exact .throw hm _
  | pop => exact (keeps_pop hm).then_pure
  | declare name kind =>
      exact (keeps_nameAt hm proto name).bind fun name m₁ hm₁ _ _ =>
        (keeps_pop hm₁).bind fun v m₂ hm₂ _ hv =>
          (keeps_currentScope hm₂).bind fun scope m₃ hm₃ hleads _ =>
            (Keeps.lift hm₃
              (Act.keeps_declare scope name hm₃.store (hleads.backs hv) kind)).then_pure
  | get name =>
      exact (keeps_nameAt hm proto name).bind fun name m₁ hm₁ _ _ =>
        (keeps_currentScope hm₁).bind fun scope m₂ hm₂ _ _ =>
          (Act.keeps_read scope name hm₂.store).yields hm₂
  | set name =>
      exact (keeps_nameAt hm proto name).bind fun name m₁ hm₁ _ _ =>
        (keeps_top hm₁).bind fun v m₂ hm₂ _ hv =>
          (keeps_currentScope hm₂).bind fun scope m₃ hm₃ hleads _ =>
            (Keeps.lift hm₃ (Act.keeps_assign scope name hm₃.store (hleads.backs hv))).then_pure
  | getProperty name =>
      exact (keeps_nameAt hm proto name).bind fun name m₁ hm₁ _ _ =>
        (keeps_pop hm₁).bind fun object m₂ hm₂ _ hobject =>
          (Act.keeps_getProperty hm₂.store hobject name).yields hm₂
  | setProperty name =>
      exact (keeps_nameAt hm proto name).bind fun name m₁ hm₁ _ _ =>
        (keeps_pop hm₁).bind fun v m₂ hm₂ _ hv =>
          (keeps_pop hm₂).bind fun object m₃ hm₃ hleads _ =>
            (Act.keeps_setProperty hm₃.store object name (hleads.backs hv)).leaves hm₃
              (hleads.backs hv)
  | getIndex =>
      exact (keeps_pop hm).bind fun index m₁ hm₁ _ _ =>
        (keeps_pop hm₁).bind fun object m₂ hm₂ _ hobject =>
          (Act.keeps_getIndex hm₂.store hobject index).yields hm₂
  | setIndex =>
      exact (keeps_pop hm).bind fun v m₁ hm₁ _ hv =>
        (keeps_pop hm₁).bind fun index m₂ hm₂ hleads₂ _ =>
          (keeps_pop hm₂).bind fun object m₃ hm₃ hleads₃ _ =>
            have hv := hleads₃.backs (hleads₂.backs hv)
            (Act.keeps_setIndex hm₃.store object index hv).leaves hm₃ hv
  | makeArray count =>
      exact (keeps_popMany hm _).bind fun items m₁ hm₁ _ hitems =>
        (Act.keeps_newArray hm₁.store hitems).yields hm₁
  | makeObject count =>
      exact (keeps_popMany hm _).bind fun values m₁ hm₁ _ hvalues =>
        (Act.keeps_newObject hm₁.store hvalues).yields hm₁
  | closure function =>
      simp only [execute]
      split
      next inner hinner =>
        exact (keeps_currentScope hm).bind fun scope m₁ hm₁ _ hscope =>
          (Act.keeps_newFunction hm₁.store (hproto inner (List.mem_of_getElem? hinner))
            hscope).yields hm₁
      next => exact .throw hm _
  | call count => exact keeps_call hm hG count.toNat
  | ret => exact (keeps_ret hm).then_pure
  | operate op =>
      exact (keeps_pop hm).bind fun right m₁ hm₁ _ _ =>
        (keeps_pop hm₁).bind fun left m₂ hm₂ _ _ =>
          (Act.keeps_operate hm₂.store op left right).yields hm₂
  | negate =>
      exact (keeps_pop hm).bind fun v m₁ hm₁ _ _ => (Act.keeps_negate hm₁.store v).yields hm₁
  | not =>
      exact (keeps_pop hm).bind fun v m₁ hm₁ _ _ =>
        (keeps_push (v := .bool !v.isTruthy) hm₁ trivial).then_pure
  | jump kind distance => exact (keeps_jumpWhen hm kind distance).then_pure
  | pushScope =>
      exact (keeps_currentScope hm).bind fun scope m₁ hm₁ _ hscope =>
        (Keeps.lift hm₁ (Act.keeps_openScope hm₁.store hscope)).bind fun inner m₂ hm₂ _ hinner =>
          (keeps_onFrame (f := fun frame => { frame with scope := inner }) hm₂
            (fun _ _ => hinner) (fun _ => rfl) False.elim).then_pure
  | popScope =>
      refine .get_bind ?_
      split
      next outer houter =>
        have hlt := Nat.lt_trans (hm.store.nested _ _ houter) hm.currentScope
        exact (keeps_onFrame (f := fun frame => { frame with scope := outer }) hm
          (fun _ _ => hlt) (fun _ => rfl) False.elim).then_pure
      next => exact .throw hm _

end

/-! ### Steps and runs -/

namespace Machine

variable {G : Proto → Prop} {m : Machine}

/-- What a step leads to: to nothing but an end, or to where its instruction leads from behind
it, whether or not that ends in a fault. -/
theorem step_cases (m : Machine) :
    (m.nextInstr? = none ∧ (m.step.1 = m ∨ m.step.1 = { m with halted := true })) ∨
      ∃ frame callers i next, m.frames = frame :: callers ∧ m.nextInstr? = some i ∧
        m.step.1 = Exec.after (execute frame.proto i)
          { m with frames := { frame with offset := next } :: callers } := by
  by_cases hhalted : m.halted
  · refine .inl ⟨?_, .inl ?_⟩
    · simp only [nextInstr?, if_pos hhalted]
    · rw [step_of_halted hhalted]
  cases hframes : m.frames with
  | nil =>
      refine .inl ⟨?_, .inr ?_⟩
      · simp only [nextInstr?, if_neg hhalted, hframes]
      · simp only [step, if_neg hhalted, hframes]
  | cons frame callers =>
      cases hdecode : frame.proto.chunk.decodeAt frame.offset with
      | error e =>
          refine .inl ⟨?_, .inl ?_⟩
          · simp only [nextInstr?, if_neg hhalted, hframes, hdecode]
          · simp only [step, if_neg hhalted, hframes, hdecode]
      | ok result =>
          cases result with
          | none =>
              refine .inl ⟨?_, .inr ?_⟩
              · simp only [nextInstr?, if_neg hhalted, hframes, hdecode]
              · simp only [step, if_neg hhalted, hframes, hdecode]
          | some pair =>
              refine .inr ⟨frame, callers, pair.1, pair.2, rfl, ?_, ?_⟩
              · simp only [nextInstr?, if_neg hhalted, hframes, hdecode]
              · simp only [step, if_neg hhalted, hframes, hdecode, Exec.after]
                split
                next hrun => rw [hrun]
                next hrun => rw [hrun]

/-- The instruction that the machine carries out next, if there is one, is quiet. -/
def Quiet (G : Proto → Prop) (m : Machine) : Prop :=
  ∀ i, m.nextInstr? = some i → i.Quiet G

/-- The running frame moves behind its instruction. -/
theorem Intact.ahead (hm : m.Intact G) {frame : Frame} {callers : List Frame}
    (hframes : m.frames = frame :: callers) (next : ℕ) :
    Intact G { m with frames := { frame with offset := next } :: callers } := by
  have hall := hm.frames
  rw [hframes] at hall
  refine hm.withFrames fun f hf => ?_
  rcases List.mem_cons.1 hf with rfl | hf
  · exact hall frame (List.mem_cons_self ..)
  · exact hall f (List.mem_cons_of_mem _ hf)

/-- What every step keeps, also one that ends in a fault. -/
theorem Intact.step (hm : m.Intact G) (hG : Inherited G) :
    m.step.1.Intact G ∧ m.Leads (m.Quiet G) m.step.1 := by
  rcases m.step_cases with ⟨-, hsame | hend⟩ | ⟨frame, callers, i, next, hframes, hnext, hstep⟩
  · rw [hsame]
    exact ⟨hm, .refl _ m⟩
  · rw [hend]
    exact ⟨⟨hm.store, hm.stack, hm.frames⟩, ⟨.refl _ _, fun _ => rfl⟩⟩
  · have hframe := hm.frames frame (hframes ▸ List.mem_cons_self ..)
    -- The frame moves behind the instruction first.
    have hahead := hm.ahead hframes next
    have hleads : m.Leads (i.Quiet G)
        { m with frames := { frame with offset := next } :: callers } :=
      ⟨.refl _ _, fun _ => by rw [hframes]; rfl⟩
    obtain ⟨hintact, hafter⟩ := (keeps_execute hahead hG hframe.2 i).after
    rw [hstep]
    exact ⟨hintact, (hleads.trans hafter).mono fun hquiet => hquiet i hnext⟩

end Machine

/-- However far a machine has gone on the run of a program, it is intact. -/
theorem intact_machineAfter (program : Program) (n : ℕ) :
    (machineAfter program n).Intact fun _ => True := by
  induction n with
  | zero => exact Machine.intact_start fun _ _ => trivial
  | succ n ih =>
      rw [machineAfter_succ]
      exact (ih.step fun _ _ _ _ => trivial).1

/-- A machine on the run of a program is followed by later ones. -/
theorem leads_machineAfter (program : Program) {k n : ℕ} (hle : k ≤ n) :
    (machineAfter program k).Leads False (machineAfter program n) := by
  induction n, hle using Nat.le_induction with
  | base => exact .refl False _
  | succ n _ ih =>
      rw [machineAfter_succ]
      exact ih.trans (((intact_machineAfter program n).step fun _ _ _ _ => trivial).2.mono
        False.elim)

end Tracepoint
