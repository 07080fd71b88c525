/-
Calls are bracketed.

A call of a function of the script opens a frame on top of the one that calls, with the operand
stack as its base.  From then on until this frame returns, neither the frame that waits nor any
operand below the base changes, however many calls are made and left in between and wherever the
function returns from; and what is added in the end is one operand.

Main definitions:

* `Frame.Leaves` — what a step leaves alone, whether or not it fails;
* `Machine.Layered` — the bases of the frames rise along the operand stack, and the frames are few;
* `Machine.Calls`, `Machine.InCall`, `Machine.Returned` — a call, from the step that makes it to the
  one that leaves it.

Main results:

* `Frame.Prepared.leaves` — **a step reaches no further down than its frame**;
* `Machine.overflows_iff` — the only fault for too many calls;
* `Machine.InCall.step`, `InCall.machineAfter` — a call after one step and after many;
* `compiled_brackets_calls` — **calls are bracketed** in the run of every compiled program.
-/

import Mathlib
import Tracepoint.Proofs.Machine.Frames
import Tracepoint.Proofs.Machine.Locality

set_option relaxedAutoImplicit false
set_option autoImplicit false

namespace Tracepoint

/-! ### What a step leaves alone -/

/-- What a step leaves alone, whether or not it fails. The running frame is `f`. -/
inductive Frame.Leaves (f : Frame) (callers : List Frame) (i : Instr) (m m' : Machine) : Prop
  /-- The frames below the running one, and the operands below those that are taken. -/
  | near (near : m.Near i.takes m')
  /-- The running frame as it waits, and the operands below the function that is called. -/
  | call {w : UInt32} {next : ℕ} {g : Closure} {arguments rest : List Value} {inner : Frame}
      (isCall : i = .call w) (stack : m.stack = arguments.reverse ++ .function g :: rest)
      (count : w.toNat = arguments.length) (limit : m.frames.length ≤ callLimit)
      (frames : m'.frames = inner :: ⟨f.proto, next, f.scope, f.base⟩ :: callers)
      (base : inner.base = rest.length) (stack' : m'.stack = rest)
  /-- The frames below the running one, and the operands up to its base. -/
  | ret {v : Value} {rest : List Value} (stack : m.stack = v :: rest) (base : rest.length = f.base)
      (frames : m'.frames = callers) (stack' : m'.stack = v :: rest)
  /-- Nothing: the program has ended. -/
  | halt (isHalt : i = .halt) (frames : m'.frames = [])

namespace Frame.Prepared

variable {f : Frame} {callers : List Frame} {σ : Shape} {i : Instr} {next : ℕ} {m : Machine}

/-- A step carries out the next instruction with the running frame behind it. -/
theorem step_eq (h : f.Prepared callers σ i next m) :
    m.step = match execute f.proto i ((f.site callers).machine m.toStore next m.stack) with
      | .ok printed m' => (m', printed, if m'.halted then .done else .more)
      | .error e m' => (m', [], .fault ⟨e, f.line⟩) := by
  have hat : f.proto.chunk.decodeAt f.offset = .ok (some (i, next)) := h.lies
  have hstep : ((f.site callers).machine m.toStore f.offset m.stack).step =
      match execute f.proto i ((f.site callers).machine m.toStore next m.stack) with
      | .ok printed m' => (m', printed, if m'.halted then .done else .more)
      | .error e m' => (m', [], .fault ⟨e, f.line⟩) := by
    simp only [Machine.step, Site.machine, site, hat]
    rfl
  exact h.eq_machine ▸ hstep

/-- The frame has moved, and nothing else has happened yet. -/
theorem near_ahead (h : f.Prepared callers σ i next m) {stack : List Value} {k : ℕ}
    (hstack : m.stack.drop k <:+ stack) :
    m.Near k ((f.site callers).machine m.toStore next stack) := by
  refine ⟨fun g below hframes => ?_, hstack⟩
  obtain ⟨rfl, rfl⟩ := List.cons.inj (h.frames.symm.trans hframes)
  exact ⟨next, f.scope, rfl⟩

/-- A step that goes on in a gentle way when some operands are taken. -/
theorem near_of_execute {j k : ℕ} {x : Exec (List String)} {stack : List Value}
    (h : f.Prepared callers σ i next m)
    (hexecute : execute f.proto i ((f.site callers).machine m.toStore next m.stack) =
      x ((f.site callers).machine m.toStore next stack))
    (hstack : m.stack.drop j <:+ stack) (hx : x.Gentle k) :
    m.Near (j + k) m.step.1 ∧ ∀ line, m.step.2.2 ≠ .fault ⟨.stackOverflow, line⟩ := by
  have hahead := h.near_ahead hstack
  have hgentle := hx ((f.site callers).machine m.toStore next stack)
  rw [h.step_eq, hexecute]
  cases hrun : x ((f.site callers).machine m.toStore next stack) with
  | ok printed m' =>
      rw [hrun] at hgentle
      refine ⟨hahead.trans hgentle, fun line => ?_⟩
      dsimp only
      split <;> exact Status.noConfusion
  | error e m' =>
      rw [hrun] at hgentle
      refine ⟨hahead.trans hgentle.1, fun line hfault => ?_⟩
      cases hfault
      exact hgentle.2 rfl

/-! #### Calls -/

section

variable {w : UInt32} {arguments rest : List Value}

theorem drop_call {callee : Value} (hcount : w.toNat = arguments.length) :
    (arguments.reverse ++ callee :: rest).drop (Instr.call w).takes = rest := by
  change (arguments.reverse ++ callee :: rest).drop (w.toNat + 1) = rest
  rw [hcount, ← List.length_reverse, List.drop_append, List.drop_of_length_le (by omega),
    Nat.add_sub_cancel_left]
  rfl

/-- What is called is no function of the script. -/
theorem near_of_other {callee : Value} (h : f.Prepared callers σ (.call w) next m)
    (hstack : m.stack = arguments.reverse ++ callee :: rest) (hcount : w.toNat = arguments.length)
    (hcallee : ∀ g, callee ≠ .function g) :
    m.Near (Instr.call w).takes m.step.1 ∧
      ∀ line, m.step.2.2 ≠ .fault ⟨.stackOverflow, line⟩ := by
  have hdrop : m.stack.drop (Instr.call w).takes <:+ rest := by
    rw [hstack, drop_call hcount]
  have hexecute := Site.run_call (f.site callers) m.toStore next rest callee hcount
  rw [← hstack] at hexecute
  cases callee with
  | function g => exact absurd rfl (hcallee g)
  | native g =>
      exact h.near_of_execute (j := (Instr.call w).takes) (k := 0) hexecute hdrop
        (Act.spares_callNative g arguments).writes
  | _ =>
      exact h.near_of_execute (j := (Instr.call w).takes) (k := 0) hexecute hdrop
        fun m => ⟨.refl m, Fault.noConfusion⟩

/-- A function of the script is entered while there is room. -/
theorem enters {g : Closure} (h : f.Prepared callers σ (.call w) next m)
    (hstack : m.stack = arguments.reverse ++ .function g :: rest)
    (hcount : w.toNat = arguments.length) (hlimit : m.frames.length ≤ callLimit) :
    m.step.2.2 = .more ∧ ∃ inner, inner.proto = g.proto ∧ inner.base = rest.length ∧
      m.step.1.frames = inner :: { f with offset := next } :: callers ∧ m.step.1.stack = rest := by
  have heq : m = (f.site callers).machine m.toStore f.offset _ := hstack ▸ h.eq_machine
  have hroom : ¬callLimit < (f.site callers).callers.length + 1 := by
    rw [h.frames, List.length_cons] at hlimit
    exact Nat.not_lt.2 hlimit
  cases hopen : Act.openCall g.scope g.proto.parameters arguments m.toStore with
  | error e s' => cases hopen
  | ok scope s' =>
      have hstep := Site.step_call_function rest h.at_site hcount hroom hopen
      rw [← heq] at hstep
      rw [hstep]
      exact ⟨rfl, ⟨g.proto, 0, scope, rest.length⟩, rfl, rfl, rfl, rfl⟩

/-- There is no room for another call. -/
theorem overflows {g : Closure} (h : f.Prepared callers σ (.call w) next m)
    (hstack : m.stack = arguments.reverse ++ .function g :: rest)
    (hcount : w.toNat = arguments.length) (hlimit : callLimit < m.frames.length) :
    m.Near (Instr.call w).takes m.step.1 ∧ ∃ line, m.step.2.2 = .fault ⟨.stackOverflow, line⟩ := by
  have hfull : callLimit < (f.site callers).callers.length + 1 := by
    rw [h.frames, List.length_cons] at hlimit
    exact hlimit
  have hexecute : execute f.proto (.call w) ((f.site callers).machine m.toStore next
      (arguments.reverse ++ .function g :: rest)) = _ :=
    Site.execute_call_full m.toStore rest hcount hfull
  have hstep := h.step_eq
  rw [hstack, hexecute] at hstep
  rw [hstep]
  refine ⟨h.near_ahead ?_, f.line, rfl⟩
  rw [hstack, drop_call hcount]

end

/-! #### Other instructions -/

/-- An instruction that neither calls nor ends anything. -/
theorem near_of_gentle (h : f.Prepared callers σ i next m) (hcall : ∀ w, i ≠ .call w)
    (hret : i ≠ .ret) (hhalt : i ≠ .halt) :
    m.Near i.takes m.step.1 ∧ ∀ line, m.step.2.2 ≠ .fault ⟨.stackOverflow, line⟩ := by
  obtain ⟨hnear, hfault⟩ := h.near_of_execute (j := 0) rfl (List.drop_suffix 0 _)
    (gentle_execute f.proto hcall hret hhalt)
  exact ⟨hnear.mono (Nat.le_of_eq (Nat.zero_add _)), hfault⟩

theorem returns_top (h : f.Prepared callers σ .ret next m) :
    m.step.2.2 = .more ∧ ∃ v rest, m.stack = v :: rest ∧ rest.length = f.base ∧
      m.step.1.frames = callers ∧ m.step.1.stack = v :: rest := by
  obtain ⟨hone, hcallers⟩ := h.returns rfl
  have hheight := h.height
  obtain ⟨v, rest, hstack, heq⟩ := h.exists_top Nat.zero_lt_one
  rw [hstack, List.length_cons, hone] at hheight
  have hbase : rest.length = f.base := Nat.succ.inj hheight
  have hstep := Site.step_ret (s := m.toStore) (v := v) h.at_site hbase hcallers
  rw [← heq] at hstep
  rw [hstep]
  exact ⟨rfl, v, rest, hstack, hbase, rfl, rfl⟩

theorem ends (h : f.Prepared callers σ .halt next m) :
    m.step.2.2 = .done ∧ m.step.1.frames = [] := by
  have hstep : ((f.site callers).machine m.toStore f.offset m.stack).step = _ :=
    Site.step_halt h.at_site
  rw [← h.eq_machine] at hstep
  rw [hstep]
  exact ⟨rfl, rfl⟩

/-- **A step reaches no further down than its frame**, whether or not it fails. -/
theorem leaves (h : f.Prepared callers σ i next m) : f.Leaves callers i m m.step.1 := by
  cases i with
  | call w =>
      obtain ⟨arguments, callee, rest, hstack, hcount⟩ := h.exists_callee
      by_cases hcallee : ∀ g, callee ≠ .function g
      · exact .near (h.near_of_other hstack hcount hcallee).1
      obtain ⟨g, rfl⟩ := not_forall_not.1 hcallee
      rcases Nat.lt_or_ge callLimit m.frames.length with hfull | hlimit
      · exact .near (h.overflows hstack hcount hfull).1
      · obtain ⟨-, inner, -, hbase, hframes, hrest⟩ := h.enters hstack hcount hlimit
        exact .call rfl hstack hcount hlimit hframes hbase hrest
  | ret =>
      obtain ⟨-, v, rest, hstack, hbase, hframes, hstack'⟩ := h.returns_top
      exact .ret hstack hbase hframes hstack'
  | halt => exact .halt rfl h.ends.2
  | _ => exact .near (h.near_of_gentle (fun _ hw => nomatch hw) nofun nofun).1

/-- Only a call of a function of the script finds too many calls open. -/
theorem call_of_overflow (h : f.Prepared callers σ i next m) {line : Option ℕ}
    (hfault : m.step.2.2 = .fault ⟨.stackOverflow, line⟩) :
    ∃ (w : UInt32) (g : Closure) (arguments rest : List Value), i = .call w ∧
      m.stack = arguments.reverse ++ .function g :: rest ∧ w.toNat = arguments.length ∧
        callLimit < m.frames.length := by
  cases i with
  | call w =>
      obtain ⟨arguments, callee, rest, hstack, hcount⟩ := h.exists_callee
      by_cases hcallee : ∀ g, callee ≠ .function g
      · exact absurd hfault ((h.near_of_other hstack hcount hcallee).2 line)
      obtain ⟨g, rfl⟩ := not_forall_not.1 hcallee
      refine ⟨w, g, arguments, rest, rfl, hstack, hcount, ?_⟩
      by_contra hlimit
      rw [(h.enters hstack hcount (Nat.not_lt.1 hlimit)).1] at hfault
      cases hfault
  | ret =>
      rw [h.returns_top.1] at hfault
      cases hfault
  | halt =>
      rw [h.ends.1] at hfault
      cases hfault
  | _ => exact absurd hfault ((h.near_of_gentle (fun _ hw => nomatch hw) nofun nofun).2 line)

end Frame.Prepared

/-! ### Layers -/

namespace Machine

/-- The bases of the frames rise along the operand stack, which ends above all of them, and there
are no more frames than calls and the program itself. -/
structure Layered (m : Machine) : Prop where
  rising : m.frames.Pairwise fun inner outer => outer.base ≤ inner.base
  height : ∀ f ∈ m.frames, f.base ≤ m.stack.length
  depth : m.frames.length ≤ callLimit + 1

theorem layered_start (program : Proto) : (start program).Layered := by
  refine ⟨List.pairwise_singleton _ _, fun f hf => ?_, ?_⟩
  · obtain rfl := List.mem_singleton.1 hf
    exact Nat.le_refl 0
  · exact Nat.le_add_left 1 callLimit

variable {m m' : Machine} {f : Frame} {callers : List Frame} {i : Instr}

/-- **A step keeps the layers.** -/
theorem Layered.leaves (h : m.Layered) (hframes : m.frames = f :: callers)
    (henough : f.base + i.takes ≤ m.stack.length) (hleaves : f.Leaves callers i m m') :
    m'.Layered := by
  obtain ⟨hrising, hheight, hdepth⟩ := h
  rw [hframes] at hrising hheight hdepth
  obtain ⟨hbelow, hcallers⟩ := List.pairwise_cons.1 hrising
  cases hleaves with
  | near near =>
      obtain ⟨offset, scope, hframes'⟩ := near.frames f callers hframes
      have hlength := near.stack.length_le
      rw [List.length_drop] at hlength
      refine ⟨?_, fun g hg => ?_, ?_⟩
      · rw [hframes']
        exact List.pairwise_cons.2 ⟨hbelow, hcallers⟩
      · rw [hframes'] at hg
        have hbase : g.base ≤ f.base := by
          rcases List.mem_cons.1 hg with rfl | hg
          · exact Nat.le_refl _
          · exact hbelow g hg
        omega
      · rw [hframes']
        exact hdepth
  | @call w next g arguments rest inner isCall stack count limit frames base stack' =>
      subst isCall
      have hwaits : f.base ≤ inner.base := by
        rw [stack, List.length_append, List.length_reverse, List.length_cons, ← count] at henough
        change f.base + (w.toNat + 1) ≤ _ at henough
        omega
      have hlower : ∀ k ∈ ⟨f.proto, next, f.scope, f.base⟩ :: callers, k.base ≤ inner.base := by
        intro k hk
        rcases List.mem_cons.1 hk with rfl | hk
        · exact hwaits
        · exact Nat.le_trans (hbelow k hk) hwaits
      refine ⟨?_, fun k hk => ?_, ?_⟩
      · rw [frames]
        exact List.pairwise_cons.2 ⟨hlower, List.pairwise_cons.2 ⟨hbelow, hcallers⟩⟩
      · rw [stack', ← base]
        rw [frames] at hk
        rcases List.mem_cons.1 hk with rfl | hk
        · exact Nat.le_refl _
        · exact hlower k hk
      · rw [hframes, List.length_cons] at limit
        rw [frames, List.length_cons, List.length_cons]
        omega
  | ret stack base frames stack' =>
      rw [List.length_cons] at hdepth
      refine ⟨frames ▸ hcallers, fun g hg => ?_, by rw [frames]; omega⟩
      have hle := hbelow g (frames ▸ hg)
      rw [stack', List.length_cons]
      omega
  | halt isHalt frames =>
      refine ⟨frames ▸ .nil, fun g hg => ?_, by rw [frames]; exact Nat.zero_le _⟩
      rw [frames] at hg
      cases hg

/-! ### Calls -/

/-- A function of the script is about to be called, with the operands `rest` below it. The frame
that calls it is `waiting` from then on, above `callers`, at the instruction behind the call. -/
def Calls (m : Machine) (g : Closure) (waiting : Frame) (callers : List Frame)
    (rest : List Value) : Prop :=
  ∃ (f : Frame) (w : UInt32) (next : ℕ) (arguments : List Value),
    m.halted = false ∧ m.frames = f :: callers ∧ f.proto.chunk.At f.offset (.call w) next ∧
      waiting = { f with offset := next } ∧
      m.stack = arguments.reverse ++ .function g :: rest ∧ w.toNat = arguments.length

/-- The called function has not returned. Its frame is on top of the one that waits, and its base
is on top of the operands that were there. -/
def InCall (m : Machine) (g : Closure) (waiting : Frame) (callers : List Frame)
    (rest : List Value) : Prop :=
  ∃ (above : List Frame) (callee : Frame), m.frames = above ++ callee :: waiting :: callers ∧
    callee.proto = g.proto ∧ callee.base = rest.length ∧ rest <:+ m.stack

/-- The called function has returned. The frame that waited is running, with one operand more. -/
def Returned (m : Machine) (waiting : Frame) (callers : List Frame) (rest : List Value) : Prop :=
  m.frames = waiting :: callers ∧ ∃ v, m.stack = v :: rest

variable {program : Program} {entries : List ScopeId} {g : Closure} {waiting : Frame}
  {rest : List Value}

/-- Operands below what is taken stay where they are. -/
theorem suffix_of_drop {k : ℕ} {stack stack' : List Value} (hrest : rest <:+ stack)
    (henough : rest.length + k ≤ stack.length) (hdrop : stack.drop k <:+ stack') :
    rest <:+ stack' := by
  refine (List.suffix_of_suffix_length_le hrest (List.drop_suffix k stack) ?_).trans hdrop
  rw [List.length_drop]
  omega

/-- **One step of a call.** -/
theorem InCall.leaves (h : m.InCall g waiting callers rest) {below : List Frame}
    (hlayered : m.Layered) (hframes : m.frames = f :: below)
    (henough : f.base + i.takes ≤ m.stack.length) (hend : i = .halt → below = [])
    (hleaves : f.Leaves below i m m') :
    m'.InCall g waiting callers rest ∨ m'.Returned waiting callers rest := by
  obtain ⟨above, callee, hcall, hproto, hbase, hrest⟩ := h
  have hrising := hlayered.rising
  rw [hframes] at hcall hrising
  -- The running frame starts no further down than the one that was called.
  have hle : rest.length ≤ f.base := by
    rw [← hbase]
    cases above with
    | nil =>
        obtain ⟨rfl, -⟩ := List.cons.inj hcall
        exact Nat.le_refl _
    | cons k above =>
        obtain ⟨rfl, rfl⟩ := List.cons.inj hcall
        exact (List.pairwise_cons.1 hrising).1 callee
          (List.mem_append_right _ List.mem_cons_self)
  cases hleaves with
  | near near =>
      obtain ⟨offset, scope, hframes'⟩ := near.frames f below hframes
      have hrest' := suffix_of_drop hrest (by omega) near.stack
      cases above with
      | nil =>
          obtain ⟨rfl, rfl⟩ := List.cons.inj hcall
          exact Or.inl ⟨[], _, hframes', hproto, hbase, hrest'⟩
      | cons k above =>
          obtain ⟨rfl, rfl⟩ := List.cons.inj hcall
          exact Or.inl ⟨_ :: above, callee, hframes', hproto, hbase, hrest'⟩
  | @call w next g' arguments rest' inner isCall stack count limit frames base stack' =>
      subst isCall
      have hrest' : rest <:+ m'.stack := by
        refine suffix_of_drop (k := (Instr.call w).takes) hrest (by omega) ?_
        rw [stack, stack', Frame.Prepared.drop_call count]
      cases above with
      | nil =>
          obtain ⟨rfl, rfl⟩ := List.cons.inj hcall
          exact Or.inl ⟨[inner], _, frames, hproto, hbase, hrest'⟩
      | cons k above =>
          obtain ⟨rfl, rfl⟩ := List.cons.inj hcall
          exact Or.inl ⟨inner :: _ :: above, callee, frames, hproto, hbase, hrest'⟩
  | @ret v own stack base frames stack' =>
      cases above with
      | nil =>
          obtain ⟨rfl, rfl⟩ := List.cons.inj hcall
          -- Below its result the function leaves what is below its base.
          have hsame : rest = own := by
            have hsuffix : own <:+ m.stack := stack ▸ List.suffix_cons v own
            have hlength : rest.length = own.length := hbase.symm.trans base.symm
            exact (List.suffix_of_suffix_length_le hrest hsuffix hlength.le).eq_of_length hlength
          exact Or.inr ⟨frames, v, hsame ▸ stack'⟩
      | cons k above =>
          obtain ⟨rfl, rfl⟩ := List.cons.inj hcall
          exact Or.inl ⟨above, callee, frames, hproto, hbase, stack'.trans stack.symm ▸ hrest⟩
  | halt isHalt frames =>
      obtain rfl := hend isHalt
      cases above with
      | nil => cases hcall
      | cons k above =>
          obtain ⟨-, habove⟩ := List.cons.inj hcall
          exact absurd habove.symm (List.append_ne_nil_of_right_ne_nil _ (List.cons_ne_nil _ _))

/-- A machine that keeps to the layout, and what its next step leaves alone. -/
theorem Orderly.leaves (h : m.Orderly program entries) (hlies : programLies program)
    (hrunning : m.halted = false) :
    ∃ (f : Frame) (callers : List Frame) (σ : Shape) (i : Instr) (next : ℕ),
      f.Prepared callers σ i next m ∧ f.base + i.takes ≤ m.stack.length ∧
        (i = .halt → callers = []) ∧ f.Leaves callers i m m.step.1 := by
  obtain ⟨f, callers, entry, others, σ, i, next, rfl, hhas, hprepared, hstacked⟩ :=
    h.prepared hlies hrunning
  have hheight := hprepared.height
  have henough := hprepared.enough
  refine ⟨f, callers, σ, i, next, hprepared, by omega, ?_, hprepared.leaves⟩
  rintro rfl
  exact ((hprepared.frames ▸ hstacked).last hlies hhas rfl hprepared.lies).2.1

/-- The call that is about to be made. -/
theorem Calls.prepared (h : m.Calls g waiting callers rest) (horderly : m.Orderly program entries)
    (hlies : programLies program) :
    ∃ (f : Frame) (σ : Shape) (w : UInt32) (next : ℕ) (arguments : List Value),
      f.Prepared callers σ (.call w) next m ∧ waiting = { f with offset := next } ∧
        m.stack = arguments.reverse ++ .function g :: rest ∧ w.toNat = arguments.length := by
  obtain ⟨f, w, next, arguments, hrunning, hframes, hat, hwaiting, hstack, hcount⟩ := h
  obtain ⟨f', callers', σ, i, next', hprepared, -, -, -⟩ := horderly.leaves hlies hrunning
  obtain ⟨rfl, rfl⟩ := List.cons.inj (hframes.symm.trans hprepared.frames)
  obtain ⟨rfl, rfl⟩ := hat.unique hprepared.lies
  exact ⟨f, σ, w, next, arguments, hprepared, hwaiting, hstack, hcount⟩

/-- **The step that makes a call.** -/
theorem Calls.enters (h : m.Calls g waiting callers rest) (horderly : m.Orderly program entries)
    (hlies : programLies program) (hcalm : ∀ e, m.step.2.2 ≠ .fault e) :
    m.step.1.InCall g waiting callers rest := by
  obtain ⟨f, σ, w, next, arguments, hprepared, rfl, hstack, hcount⟩ := h.prepared horderly hlies
  rcases Nat.lt_or_ge callLimit m.frames.length with hfull | hlimit
  · obtain ⟨-, line, hfault⟩ := hprepared.overflows hstack hcount hfull
    exact absurd hfault (hcalm _)
  · obtain ⟨-, inner, hproto, hbase, hframes, hrest⟩ := hprepared.enters hstack hcount hlimit
    exact ⟨[], inner, hframes, hproto, hbase, hrest ▸ List.suffix_rfl⟩

/-- **The only fault for too many calls** is that of a call of a function of the script with as many
frames as there can be. -/
theorem overflows_iff (horderly : m.Orderly program entries) (hlies : programLies program)
    (hlayered : m.Layered) :
    (∃ line, m.step.2.2 = .fault ⟨.stackOverflow, line⟩) ↔
      (∃ g waiting callers rest, m.Calls g waiting callers rest) ∧
        m.frames.length = callLimit + 1 := by
  constructor
  · rintro ⟨line, hfault⟩
    have hrunning : m.halted = false := by
      by_contra hhalted
      rw [step_of_halted (Bool.not_eq_false _ ▸ hhalted)] at hfault
      cases hfault
    obtain ⟨f, callers, σ, i, next, hprepared, -, -, -⟩ := horderly.leaves hlies hrunning
    have hcall := hprepared.call_of_overflow hfault
    obtain ⟨w, g, arguments, rest, rfl, hstack, hcount, hfull⟩ := hcall
    refine ⟨⟨g, _, callers, rest, f, w, next, arguments, hrunning, hprepared.frames,
      hprepared.lies, rfl, hstack, hcount⟩, ?_⟩
    exact Nat.le_antisymm hlayered.depth hfull
  · rintro ⟨⟨g, waiting, callers, rest, hcalls⟩, hfull⟩
    obtain ⟨f, σ, w, next, arguments, hprepared, -, hstack, hcount⟩ :=
      hcalls.prepared horderly hlies
    exact (hprepared.overflows hstack hcount (by omega)).2

/-! ### Runs -/

theorem Layered.step (h : m.Layered) (horderly : m.Orderly program entries)
    (hlies : programLies program) : m.step.1.Layered := by
  cases hhalted : m.halted with
  | true => rwa [step_of_halted hhalted]
  | false =>
      obtain ⟨f, callers, σ, i, next, hprepared, henough, -, hleaves⟩ :=
        horderly.leaves hlies hhalted
      exact h.leaves hprepared.frames henough hleaves

theorem InCall.step (h : m.InCall g waiting callers rest) (hlayered : m.Layered)
    (horderly : m.Orderly program entries) (hlies : programLies program) :
    m.step.1.InCall g waiting callers rest ∨ m.step.1.Returned waiting callers rest := by
  have hrunning : m.halted = false := by
    cases horderly with
    | running running _ => exact running
    | halted _ frames _ =>
        obtain ⟨above, callee, hcall, -⟩ := h
        rw [frames] at hcall
        exact absurd hcall.symm (List.append_ne_nil_of_right_ne_nil _ (List.cons_ne_nil _ _))
  obtain ⟨f, below, σ, i, next, hprepared, henough, hend, hleaves⟩ :=
    horderly.leaves hlies hrunning
  exact h.leaves hlayered hprepared.frames henough hend hleaves

end Machine

section

variable {program : Program} {n : ℕ}
  (hlies : programLies program)
  (hcalm : ∀ k < n, ∀ e, (machineAfter program k).step.2.2 ≠ .fault e)

include hlies hcalm

theorem orderly_of_le {k : ℕ} (hk : k ≤ n) :
    (machineAfter program k).Orderly program (entriesAfter program k) :=
  (orderly_machineAfter hlies k fun t ht => hcalm t (Nat.lt_of_lt_of_le ht hk)).2

theorem layered_machineAfter {k : ℕ} (hk : k ≤ n + 1) : (machineAfter program k).Layered := by
  induction k with
  | zero => exact Machine.layered_start _
  | succ k ih =>
      rw [machineAfter_succ]
      exact (ih (by omega)).step (orderly_of_le hlies hcalm (by omega)) hlies

/-- **A call as a whole.** The frame that waits is there all the time until it is running again. -/
theorem inCall_machineAfter {i : ℕ} {g : Closure} {waiting : Frame} {callers : List Frame}
    {rest : List Value} (hcalls : (machineAfter program i).Calls g waiting callers rest)
    (hi : i < n) {j : ℕ} (hle : i + 1 ≤ j) :
    j ≤ n + 1 →
      (∀ k, i < k → k ≤ j → (machineAfter program k).InCall g waiting callers rest) ∨
        ∃ r, i < r ∧ r ≤ j ∧
          (∀ k, i < k → k < r → (machineAfter program k).InCall g waiting callers rest) ∧
            (machineAfter program r).Returned waiting callers rest := by
  induction j, hle using Nat.le_induction with
  | base =>
      intro _
      refine Or.inl fun k hlt hle => ?_
      obtain rfl := Nat.le_antisymm hle hlt
      rw [machineAfter_succ]
      exact hcalls.enters (orderly_of_le hlies hcalm (Nat.le_of_lt hi)) hlies (hcalm i hi)
  | succ j hle ih =>
      intro hj
      rcases ih (by omega) with hinside | ⟨r, hlt, hr, hinside, hreturned⟩
      · have hstep := (hinside j hle (Nat.le_refl j)).step
          (layered_machineAfter hlies hcalm (by omega)) (orderly_of_le hlies hcalm (by omega)) hlies
        rw [← machineAfter_succ] at hstep
        rcases hstep with hstill | hreturned
        · refine Or.inl fun k hlt hk => ?_
          rcases Nat.lt_or_eq_of_le hk with hk | rfl
          · exact hinside k hlt (Nat.le_of_lt_succ hk)
          · exact hstill
        · exact Or.inr ⟨j + 1, Nat.lt_succ_of_lt hle, Nat.le_refl _,
            fun k hlt hk => hinside k hlt (Nat.le_of_lt_succ hk), hreturned⟩
      · exact Or.inr ⟨r, hlt, Nat.le_succ_of_le hr, hinside, hreturned⟩

end

/-- **Calls are bracketed.** Up to the first fault of a run and in the step that raises it, the
frames are layered. A call of a function of the script leaves the frame that makes it and the
operands below alone until it returns, which adds one operand. And only such a call is refused for
the number of frames, when there are as many as there can be. -/
theorem compiled_brackets_calls {source : String} {program : Program}
    (hparse : parse source = .ok program) (hfits : (compileProgram program).Fits) (n : ℕ)
    (hcalm : ∀ k < n, ∀ e, (machineAfter program k).step.2.2 ≠ .fault e) :
    (∀ k ≤ n + 1, (machineAfter program k).Layered) ∧
      ((∃ line, (machineAfter program n).step.2.2 = .fault ⟨.stackOverflow, line⟩) ↔
        (∃ g waiting callers rest, (machineAfter program n).Calls g waiting callers rest) ∧
          (machineAfter program n).frames.length = callLimit + 1) ∧
      ∀ i < n, ∀ (g : Closure) (waiting : Frame) (callers : List Frame) (rest : List Value),
        (machineAfter program i).Calls g waiting callers rest →
          (∀ k, i < k → k ≤ n + 1 → (machineAfter program k).InCall g waiting callers rest) ∨
            ∃ r, i < r ∧ r ≤ n + 1 ∧
              (∀ k, i < k → k < r → (machineAfter program k).InCall g waiting callers rest) ∧
                (machineAfter program r).Returned waiting callers rest := by
  have hlies := lies_compileProgram hfits (placed_of_parse hparse)
  refine ⟨fun k hk => layered_machineAfter hlies hcalm hk, ?_, ?_⟩
  · exact Machine.overflows_iff (orderly_of_le hlies hcalm (Nat.le_refl n)) hlies
      (layered_machineAfter hlies hcalm (Nat.le_succ n))
  · intro i hi g waiting callers rest hcalls
    exact inCall_machineAfter hlies hcalm hcalls hi (by omega) (Nat.le_refl _)

/-- A function that returns the same value for every argument. -/
def constantFunction : FunctionDecl :=
  ⟨some "f", ["a"], [.returnValue (some (.atom (.bool true) ⟨24, 4⟩ 1)) 1], 1⟩

/-- It is called with `null`. -/
def constantCall : Stmt :=
  .expression (.call (.group (.function constantFunction)) [.atom .null ⟨33, 4⟩ 1]) 1

theorem compiled_brackets_calls_constant :
    ∃ program, parse "(function f(a) \x7b return true; \x7d)(null);" = .ok program ∧
      (compileProgram program).Fits ∧
      (∀ k < 6, ∀ e, (machineAfter program k).step.2.2 ≠ .fault e) ∧
      (∀ k ≤ 7, (machineAfter program k).Layered) ∧
      ((∃ line, (machineAfter program 6).step.2.2 = .fault ⟨.stackOverflow, line⟩) ↔
        (∃ g waiting callers rest, (machineAfter program 6).Calls g waiting callers rest) ∧
          (machineAfter program 6).frames.length = callLimit + 1) ∧
      ∃ g waiting, (machineAfter program 3).Calls g waiting [] [] ∧
        ((∀ k, 3 < k → k ≤ 7 → (machineAfter program k).InCall g waiting [] []) ∨
          ∃ r, 3 < r ∧ r ≤ 7 ∧
            (∀ k, 3 < k → k < r → (machineAfter program k).InCall g waiting [] []) ∧
              (machineAfter program r).Returned waiting [] []) := by
  have hparse : parse "(function f(a) \x7b return true; \x7d)(null);" = .ok [constantCall] := by cbv
  have hfits : (compileProgram [constantCall]).Fits := by
    refine .mk (by decide) fun q hq => ?_
    obtain rfl := List.mem_singleton.1 hq
    exact .mk (by decide) fun q hq => by cases hq
  have hmore : ∀ k < 6, (machineAfter [constantCall] k).step.2.2 = .more := by decide
  have hcalm : ∀ k < 6, ∀ e, (machineAfter [constantCall] k).step.2.2 ≠ .fault e := by
    intro k hk e
    rw [hmore k hk]
    exact Status.noConfusion
  have hcalls : (machineAfter [constantCall] 3).Calls
      ⟨0, compileFunction constantFunction, Arena.global⟩
      ⟨compileProgram [constantCall], 16, Arena.global, 0⟩ [] [] :=
    ⟨⟨compileProgram [constantCall], 11, Arena.global, 0⟩, 1, 16, [.null], rfl, rfl, rfl, rfl, rfl,
      rfl⟩
  obtain ⟨hlayered, hoverflow, hbracketed⟩ := compiled_brackets_calls hparse hfits 6 hcalm
  exact ⟨[constantCall], hparse, hfits, hcalm, hlayered, hoverflow, _, _, hcalls,
    hbracketed 3 (by decide) _ _ _ _ hcalls⟩

end Tracepoint
