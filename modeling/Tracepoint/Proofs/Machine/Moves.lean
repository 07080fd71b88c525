/-
What a single step can do.

A step that does not fail moves the running frame on, enters a function, returns from one, or ends
the program.  Whatever it is, the store that it leaves is rooted: every function there was compiled
from a declaration and sees a scope that is there.

Main definitions:

* `Proto.Compiled`, `Machine.Rooted` — what is kept about functions and scopes;
* `Site.Acts` — an instruction takes its operands, does one thing to the store and leaves others;
* `Frame.Prepared` — the running frame has what its next instruction needs;
* `Frame.Moves` — what a step does to the frames.

Main results:

* `Site.acts_of_isPlain` — one case for every instruction that leads to the one behind it;
* `Frame.Prepared.moves` — **every step that does not fail is one of four moves**.
-/

import Tracepoint.Proofs.Code.Flow
import Tracepoint.Proofs.Machine.Steps
import Tracepoint.Proofs.Store.Nesting

set_option relaxedAutoImplicit false
set_option autoImplicit false

namespace Tracepoint

/-! ### Rooted machines -/

/-- The code was compiled from a declared function. -/
def Proto.Compiled (p : Proto) : Prop :=
  ∃ decl : FunctionDecl, decl.Lies ∧ p = compileFunction decl

/-- Functions that the machine holds were compiled, and scopes that are referred to are there. -/
structure Machine.Rooted (m : Machine) : Prop where
  store : m.toStore.Rooted Proto.Compiled
  stack : ∀ v ∈ m.stack, m.toStore.Holds Proto.Compiled v
  frames : ∀ f ∈ m.frames, f.scope.index < m.scopes.size

theorem Machine.rooted_start (program : Proto) : (Machine.start program).Rooted := by
  refine ⟨Store.rooted_start _, ?_, ?_⟩
  · intro v hv
    cases hv
  · intro f hf
    obtain rfl := List.mem_singleton.1 hf
    exact Nat.zero_lt_one

namespace Site

variable {site : Site} {s s' : Store} {offset next : ℕ} {stack : List Value} {i : Instr}

theorem rooted_machine (hs : s.Rooted Proto.Compiled)
    (hstack : ∀ v ∈ stack, s.Holds Proto.Compiled v) (hscope : site.scope.index < s.scopes.size)
    (hcallers : ∀ f ∈ site.callers, f.scope.index < s.scopes.size) :
    (site.machine s offset stack).Rooted := by
  refine ⟨hs, hstack, fun f hf => ?_⟩
  rcases List.mem_cons.1 hf with rfl | hf
  · exact hscope
  · exact hcallers f hf

/-! ### Instructions on the store -/

/-- The instruction takes its operands from the stack, does one thing to the store, and leaves as
many operands as it should. -/
def Acts (site : Site) (i : Instr) (s : Store) (stack : List Value) : Prop :=
  ∃ (α : Type) (taken rest : List Value) (act : Act α) (left : α → List Value),
    stack = taken ++ rest ∧ taken.length = i.takes ∧ site.Performs i taken act left ∧
      Act.Roots Proto.Compiled s act fun s' a =>
        (left a).length = i.leaves ∧ ∀ v ∈ left a, s'.Holds Proto.Compiled v

section

variable {taken rest : List Value}

/-- An instruction that leaves nothing. -/
theorem Acts.clears {α : Type} {act : Act α} (hstack : stack = taken ++ rest)
    (htakes : taken.length = i.takes) (hleaves : i.leaves = 0)
    (hperforms : site.Performs i taken act fun _ => [])
    (hroots : Act.Roots Proto.Compiled s act fun _ _ => True) : site.Acts i s stack := by
  refine ⟨α, taken, rest, act, fun _ => [], hstack, htakes, hperforms, fun a s' hact => ?_⟩
  obtain ⟨hrooted, hbefore, -⟩ := hroots a s' hact
  exact ⟨hrooted, hbefore, hleaves.symm, fun v hv => nomatch hv⟩

/-- An instruction that leaves the result of its action. -/
theorem Acts.yields {act : Act Value} (hstack : stack = taken ++ rest)
    (htakes : taken.length = i.takes) (hleaves : i.leaves = 1)
    (hperforms : site.Performs i taken act fun v => [v])
    (hroots : Act.Roots Proto.Compiled s act fun s' v => s'.Holds Proto.Compiled v) :
    site.Acts i s stack := by
  refine ⟨Value, taken, rest, act, fun v => [v], hstack, htakes, hperforms, fun v s' hact => ?_⟩
  obtain ⟨hrooted, hbefore, hv⟩ := hroots v s' hact
  refine ⟨hrooted, hbefore, hleaves.symm, fun u hu => ?_⟩
  obtain rfl := List.mem_singleton.1 hu
  exact hv

/-- An instruction that leaves one of its operands. -/
theorem Acts.keeps {α : Type} {act : Act α} {v : Value} (hstack : stack = taken ++ rest)
    (htakes : taken.length = i.takes) (hleaves : i.leaves = 1)
    (hperforms : site.Performs i taken act fun _ => [v])
    (hroots : Act.Roots Proto.Compiled s act fun _ _ => True)
    (hv : s.Holds Proto.Compiled v) : site.Acts i s stack := by
  refine ⟨α, taken, rest, act, fun _ => [v], hstack, htakes, hperforms, fun a s' hact => ?_⟩
  obtain ⟨hrooted, hbefore, -⟩ := hroots a s' hact
  refine ⟨hrooted, hbefore, hleaves.symm, fun u hu => ?_⟩
  obtain rfl := List.mem_singleton.1 hu
  exact hbefore.holds hv

end

theorem performs_enter : site.Performs .enter [] (pure ()) fun _ => [] :=
  fun _ _ _ => rfl

theorem exists_values {count : ℕ} (h : count ≤ stack.length) :
    ∃ values rest : List Value, stack = values.reverse ++ rest ∧ count = values.length ∧
      ∀ v ∈ values, v ∈ stack := by
  refine ⟨(stack.take count).reverse, stack.drop count, ?_, ?_, fun v hv => ?_⟩
  · rw [List.reverse_reverse, List.take_append_drop]
  · rw [List.length_reverse, List.length_take, Nat.min_eq_left h]
  · exact List.mem_of_mem_take (List.mem_reverse.1 hv)

/-- **An instruction that leads to the one behind it acts on the store**, calls excepted. -/
theorem acts_of_isPlain (hplain : i.isPlain = true) (hcall : ∀ w, i ≠ .call w)
    (hs : s.Rooted Proto.Compiled) (hstack : ∀ v ∈ stack, s.Holds Proto.Compiled v)
    (hscope : site.scope.index < s.scopes.size) (henough : i.takes ≤ stack.length)
    (hfinds : i.Finds site.proto) : site.Acts i s stack := by
  have hvalid := hs.valid
  cases i with
  | enter => exact .clears rfl rfl rfl performs_enter (.pure hs trivial)
  | constant w =>
      obtain ⟨c, hc⟩ := Option.isSome_iff_exists.1 hfinds
      exact .yields rfl rfl rfl (performs_constant hc) (.pure hs (c.known_toValue _ _))
  | get w =>
      obtain ⟨name, hname⟩ := Option.isSome_iff_exists.1 hfinds
      exact .yields rfl rfl rfl (performs_get hname) (Act.Roots.of_sound hs
        (Act.sound_read _ name hvalid) (Act.keepsScopes_read s _ name)).holds
  | closure w =>
      obtain ⟨decl, hdecl, hp⟩ := hfinds
      exact .yields rfl rfl rfl (performs_closure hp)
        (Act.roots_newFunction hs hscope ⟨decl, hdecl, rfl⟩)
  | pop =>
      match stack, henough with
      | v :: rest, _ => exact .clears rfl rfl rfl performs_pop (.pure hs trivial)
  | declare w kind =>
      obtain ⟨name, hname⟩ := Option.isSome_iff_exists.1 hfinds
      match stack, henough, hstack with
      | v :: rest, _, hstack =>
        have hv := hstack v List.mem_cons_self
        exact .clears rfl rfl rfl (performs_declare hname) (.of_sound hs
          (Act.sound_declare _ name hvalid kind hv) (Act.keepsScopes_declare s _ name v kind))
  | set w =>
      obtain ⟨name, hname⟩ := Option.isSome_iff_exists.1 hfinds
      match stack, henough, hstack with
      | v :: rest, _, hstack =>
        have hv := hstack v List.mem_cons_self
        exact .keeps rfl rfl rfl (performs_set hname) (.of_sound hs
          (Act.sound_assign _ name hvalid hv) (Act.keepsScopes_assign s _ name v)) hv
  | getProperty w =>
      obtain ⟨name, hname⟩ := Option.isSome_iff_exists.1 hfinds
      match stack, henough, hstack with
      | v :: rest, _, hstack =>
        have hv := hstack v List.mem_cons_self
        exact .yields rfl rfl rfl (performs_getProperty hname) (Act.Roots.of_sound hs
          (Act.sound_getProperty hvalid hv name) (Act.keepsScopes_getProperty s v name)).holds
  | negate =>
      match stack, henough with
      | v :: rest, _ =>
        exact .yields rfl rfl rfl performs_negate (Act.Roots.of_sound hs
          (Act.sound_negate hvalid v) (.orFault s _)).holds
  | not =>
      match stack, henough with
      | v :: rest, _ => exact .yields rfl rfl rfl performs_not (.pure hs trivial)
  | setProperty w =>
      obtain ⟨name, hname⟩ := Option.isSome_iff_exists.1 hfinds
      match stack, henough, hstack with
      | v :: object :: rest, _, hstack =>
        have hv := hstack v List.mem_cons_self
        have hobject := hstack object (List.mem_cons_of_mem _ List.mem_cons_self)
        exact .keeps rfl rfl rfl (performs_setProperty hname) (.of_sound hs
          (Act.sound_setProperty hvalid hobject name hv)
          (Act.keepsScopes_setProperty s _ name v)) hv
      | [_], henough, _ => exact absurd henough (Nat.not_succ_le_self 1)
  | getIndex =>
      match stack, henough, hstack with
      | index :: v :: rest, _, hstack =>
        have hv := hstack v (List.mem_cons_of_mem _ List.mem_cons_self)
        exact .yields rfl rfl rfl performs_getIndex (Act.Roots.of_sound hs
          (Act.sound_getIndex hvalid hv index) (Act.keepsScopes_getIndex s v index)).holds
      | [_], henough, _ => exact absurd henough (Nat.not_succ_le_self 1)
  | operate op =>
      match stack, henough with
      | right :: left :: rest, _ =>
        exact .yields rfl rfl rfl (performs_operate op) (Act.Roots.of_sound hs
          (Act.sound_operate hvalid op left right) (Act.keepsScopes_operate s op left right)).holds
      | [_], henough => exact absurd henough (Nat.not_succ_le_self 1)
  | setIndex =>
      match stack, henough, hstack with
      | v :: index :: object :: rest, _, hstack =>
        have hv := hstack v List.mem_cons_self
        have hobject := hstack object
          (List.mem_cons_of_mem _ (List.mem_cons_of_mem _ List.mem_cons_self))
        exact .keeps rfl rfl rfl performs_setIndex (.of_sound hs
          (Act.sound_setIndex hvalid hobject index hv)
          (Act.keepsScopes_setIndex s object index v)) hv
      | [_], henough, _ => exact absurd (Nat.le_of_succ_le henough) (Nat.not_succ_le_self 1)
      | [_, _], henough, _ => exact absurd henough (Nat.not_succ_le_self 2)
  | makeArray w =>
      obtain ⟨values, rest, rfl, hcount, hvalues⟩ := exists_values henough
      exact .yields rfl (List.length_reverse.trans hcount.symm) rfl (performs_makeArray hcount)
        (Act.Roots.of_sound hs (Act.sound_newArray hvalid fun v hv => hstack v (hvalues v hv))
          (Act.keepsScopes_newArray s values)).holds
  | makeObject w =>
      obtain ⟨values, rest, rfl, hcount, hvalues⟩ := exists_values henough
      exact .yields rfl (List.length_reverse.trans hcount.symm) rfl (performs_makeObject hcount)
        (Act.Roots.of_sound hs (Act.sound_newObject hvalid fun v hv => hstack v (hvalues v hv))
          (Act.keepsScopes_newObject s values)).holds
  | call w => exact absurd rfl (hcall w)
  | halt => cases hplain
  | ret => cases hplain
  | jump _ _ => cases hplain
  | pushScope => cases hplain
  | popScope => cases hplain

/-- What an acting instruction does that does not fail. -/
theorem step_of_acts (hat : site.proto.chunk.At offset i next) (hacts : site.Acts i s stack)
    (hcalm : ∀ e, (site.machine s offset stack).step.2.2 ≠ .fault e) :
    ∃ s' stack', (site.machine s offset stack).step = (site.machine s' next stack', [], .more) ∧
      s'.Rooted Proto.Compiled ∧ s.Before s' ∧
      stack'.length + i.takes = stack.length + i.leaves ∧
      ∀ v ∈ stack', v ∈ stack ∨ s'.Holds Proto.Compiled v := by
  obtain ⟨α, taken, rest, act, left, rfl, htaken, hperforms, hroots⟩ := hacts
  cases hact : act s with
  | error e s' =>
      obtain ⟨m', line, hstep, -⟩ := stops_of_performs rest hat hperforms hact
      exact absurd (by rw [hstep]) (hcalm ⟨e, line⟩)
  | ok a s' =>
      obtain ⟨hrooted, hbefore, hleft, hheld⟩ := hroots a s' hact
      have hstep := step_of_performs rest hat hperforms hact
      refine ⟨s', left a ++ rest, hstep, hrooted, hbefore, ?_, ?_⟩
      · rw [List.length_append, List.length_append, hleft, htaken]
        omega
      · intro v hv
        rcases List.mem_append.1 hv with hv | hv
        · exact Or.inr (hheld v hv)
        · exact Or.inl (List.mem_append_right _ hv)

end Site

/-! ### Moves -/

/-- How an instruction changes the scope of the running frame. -/
def Instr.Turns (a : Arena Value) (i : Instr) (before after : ScopeId) : Prop :=
  match i with
  | .pushScope => a.parent? after = some before
  | .popScope => a.parent? before = some after
  | _ => after = before

theorem Instr.turns_of_isPlain {i : Instr} (h : i.isPlain = true) (a : Arena Value)
    (scope : ScopeId) : i.Turns a scope scope := by
  cases i with
  | pushScope => cases h
  | popScope => cases h
  | _ => rfl

theorem Machine.not_stops {m : Machine} (hcalm : ∀ e, m.step.2.2 ≠ .fault e) (e : Fault)
    (s : Store) : ¬m.Stops e s := by
  rintro ⟨m', line, hstep, -⟩
  exact hcalm ⟨e, line⟩ (by rw [hstep])

/-- The running frame has what its next instruction needs. -/
structure Frame.Prepared (f : Frame) (callers : List Frame) (σ : Shape) (i : Instr) (next : ℕ)
    (m : Machine) : Prop where
  frames : m.frames = f :: callers
  running : m.halted = false
  lies : f.proto.chunk.At f.offset i next
  height : m.stack.length = f.base + σ.operands
  enough : i.takes ≤ σ.operands
  finds : i.Finds f.proto
  /-- A jump leads to an offset. -/
  leads : ∀ kind distance, i = .jump kind distance → 0 ≤ (next : Int) + distance.toInt
  /-- A scope that is closed lies inside another one. -/
  inside : i = .popScope → ∃ outer, m.scopes.parent? f.scope = some outer
  /-- A function returns its only operand to the frame below. -/
  returns : i = .ret → σ.operands = 1 ∧ callers ≠ []

/-- What a step does to the frames. -/
inductive Frame.Moves (f : Frame) (callers : List Frame) (σ : Shape) (i : Instr) (next : ℕ)
    (m : Machine) : Prop
  /-- The running frame goes on. -/
  | on {target : ℕ} {σ' : Shape} {scope : ScopeId}
      (leads : (target, σ') ∈ i.successors next σ)
      (frames : m.frames = ⟨f.proto, target, scope, f.base⟩ :: callers)
      (height : m.stack.length = f.base + σ'.operands)
      (turns : i.Turns m.scopes f.scope scope)
      (running : m.halted = false)
  /-- A function is entered. The frame that called it waits. -/
  | call {w : UInt32} {inner : Frame}
      (isCall : i = .call w)
      (frames : m.frames = inner :: ⟨f.proto, next, f.scope, f.base⟩ :: callers)
      (compiled : inner.proto.Compiled)
      (first : inner.offset = 0)
      (base : inner.base = m.stack.length)
      (height : m.stack.length + i.takes = f.base + σ.operands)
      (running : m.halted = false)
  /-- The running frame ends. The one below goes on with one more operand. -/
  | ret (isRet : i = .ret)
      (frames : m.frames = callers)
      (height : m.stack.length = f.base + 1)
      (running : m.halted = false)
  /-- The program ends. -/
  | halt (isHalt : i = .halt)
      (frames : m.frames = [])
      (stack : m.stack = [])
      (halted : m.halted = true)

/-- Where a frame runs. -/
def Frame.site (f : Frame) (callers : List Frame) : Site :=
  ⟨f.proto, f.scope, f.base, callers⟩

namespace Frame.Prepared

variable {f : Frame} {callers : List Frame} {σ : Shape} {i : Instr} {next : ℕ} {m : Machine}

theorem eq_machine (h : f.Prepared callers σ i next m) :
    m = (f.site callers).machine m.toStore f.offset m.stack := by
  obtain ⟨s, frames, stack, halted⟩ := m
  have hframes := h.frames
  have hrunning := h.running
  simp only at hframes hrunning
  subst hframes hrunning
  rfl

/-- What holds after a step: the machine is rooted, and its frames have made a move. -/
def Next (f : Frame) (callers : List Frame) (σ : Shape) (i : Instr) (next : ℕ) (m : Machine) :
    Prop :=
  m.step.1.Rooted ∧ m.toStore.Before m.step.1.toStore ∧ f.Moves callers σ i next m.step.1

/-- What holds after a step that stays in its frame. -/
theorem after_on (h : f.Prepared callers σ i next m) (hm : m.Rooted) {scope : ScopeId} {s' : Store}
    {target : ℕ} {stack' : List Value} {σ' : Shape} {printed : List String}
    (hstep : m.step = (((f.site callers).within scope).machine s' target stack', printed, .more))
    (hs' : s'.Rooted Proto.Compiled) (hbefore : m.toStore.Before s')
    (hstack : ∀ v ∈ stack', v ∈ m.stack ∨ s'.Holds Proto.Compiled v)
    (hscope : scope.index < s'.scopes.size) (hleads : (target, σ') ∈ i.successors next σ)
    (hheight : stack'.length = f.base + σ'.operands)
    (hturns : i.Turns s'.scopes f.scope scope) :
    Next f callers σ i next m := by
  rw [Next, hstep]
  refine ⟨Site.rooted_machine hs' (fun v hv => ?_) hscope fun g hg => ?_, hbefore,
    .on hleads rfl hheight hturns rfl⟩
  · rcases hstack v hv with hold | hnew
    · exact hbefore.holds (hm.stack v hold)
    · exact hnew
  · have hold := hm.frames g (by rw [h.frames]; exact List.mem_cons_of_mem _ hg)
    exact Nat.lt_of_lt_of_le hold hbefore.size

theorem scope_lt (h : f.Prepared callers σ i next m) (hm : m.Rooted) :
    f.scope.index < m.scopes.size :=
  hm.frames f (by rw [h.frames]; exact List.mem_cons_self)

/-- An instruction with operands finds one on top. -/
theorem exists_top (h : f.Prepared callers σ i next m) (htakes : 0 < i.takes) :
    ∃ v rest, m.stack = v :: rest ∧
      m = (f.site callers).machine m.toStore f.offset (v :: rest) := by
  have henough := h.enough
  have hheight := h.height
  obtain ⟨v, rest, hstack⟩ := List.exists_cons_of_length_pos (show 0 < m.stack.length by omega)
  exact ⟨v, rest, hstack, hstack ▸ h.eq_machine⟩

/-- A call finds its arguments on top and the callee below them. -/
theorem exists_callee {w : UInt32} (h : f.Prepared callers σ (.call w) next m) :
    ∃ (arguments : List Value) (callee : Value) (rest : List Value),
      m.stack = arguments.reverse ++ callee :: rest ∧ w.toNat = arguments.length := by
  have hheight := h.height
  have henough : w.toNat + 1 ≤ σ.operands := h.enough
  obtain ⟨arguments, rest, hstack, hcount, -⟩ :=
    Site.exists_values (show w.toNat ≤ m.stack.length by omega)
  have hlength := congrArg List.length hstack
  rw [List.length_append, List.length_reverse, ← hcount] at hlength
  obtain ⟨callee, rest, rfl⟩ := List.exists_cons_of_length_pos (show 0 < rest.length by omega)
  exact ⟨arguments, callee, rest, hstack, hcount⟩

theorem at_site (h : f.Prepared callers σ i next m) :
    (f.site callers).proto.chunk.At f.offset i next :=
  h.lies

/-- The offset that a jump leads to. -/
theorem jumps {kind : JumpKind} {distance : Int32}
    (h : f.Prepared callers σ (.jump kind distance) next m) :
    (f.site callers).proto.chunk.Jumps f.offset kind (Instr.target next distance) next :=
  ⟨distance, h.lies, (Int.toNat_of_nonneg (h.leads kind distance rfl)).symm⟩

section

variable (hm : m.Rooted)

include hm

theorem moves_plain (h : f.Prepared callers σ i next m) (hcalm : ∀ e, m.step.2.2 ≠ .fault e)
    (hplain : i.isPlain = true)
    (hcall : ∀ w, i ≠ .call w) : Next f callers σ i next m := by
  have heq := h.eq_machine
  have henough := h.enough
  have hheight := h.height
  have hscope := h.scope_lt hm
  have hacts : (f.site callers).Acts i m.toStore m.stack :=
    Site.acts_of_isPlain hplain hcall hm.store hm.stack hscope (by omega) h.finds
  obtain ⟨s', stack', hstep, hs', hbefore, hlength, hheld⟩ :=
    Site.step_of_acts h.lies hacts (heq ▸ hcalm)
  rw [← heq] at hstep
  have hleads : (next, i.after σ) ∈ i.successors next σ := by
    rw [i.successors_of_isPlain hplain]
    exact List.mem_cons_self
  refine h.after_on hm hstep hs' hbefore hheld (Nat.lt_of_lt_of_le hscope hbefore.size) hleads ?_
    (i.turns_of_isPlain hplain _ _)
  simp only [Instr.after]
  omega

/-- A step to another offset that at most takes the operand pushed last. -/
theorem moves_within (h : f.Prepared callers σ i next m) {target : ℕ} {stack' : List Value}
    {σ' : Shape} (hstep : m.step = ((f.site callers).machine m.toStore target stack', [], .more))
    (hstack : ∀ v ∈ stack', v ∈ m.stack) (hleads : (target, σ') ∈ i.successors next σ)
    (hheight : stack'.length = f.base + σ'.operands)
    (hturns : i.Turns m.scopes f.scope f.scope) : Next f callers σ i next m :=
  h.after_on hm hstep hm.store (.refl _) (fun v hv => Or.inl (hstack v hv)) (h.scope_lt hm) hleads
    hheight hturns

/-- A jump that takes the operand on top on one way and keeps it on the other. -/
theorem moves_orPop (h : f.Prepared callers σ i next m) {v : Value} {rest : List Value}
    {target : ℕ} (takes : Bool) (hstack : m.stack = v :: rest) (hpos : 0 < σ.operands)
    (hstep : m.step = (if takes then (f.site callers).machine m.toStore next rest
      else (f.site callers).machine m.toStore target (v :: rest), [], .more))
    (hsuccessors : i.successors next σ = [(next, ⟨σ.operands - 1, σ.scopes⟩), (target, σ)])
    (hturns : i.Turns m.scopes f.scope f.scope) : Next f callers σ i next m := by
  have hheight := h.height
  have hlength : rest.length = f.base + (σ.operands - 1) := by
    rw [hstack, List.length_cons] at hheight
    omega
  cases takes with
  | true =>
      have hleads : (next, ⟨σ.operands - 1, σ.scopes⟩) ∈ i.successors next σ :=
        hsuccessors ▸ List.mem_cons_self
      exact h.moves_within hm hstep (fun u hu => hstack ▸ List.mem_cons_of_mem v hu) hleads hlength
        hturns
  | false =>
      have hleads : (target, σ) ∈ i.successors next σ :=
        hsuccessors ▸ List.mem_cons_of_mem _ List.mem_cons_self
      exact h.moves_within hm hstep (fun u hu => hstack ▸ hu) hleads (hstack ▸ hheight) hturns

theorem moves_jump {kind : JumpKind} {distance : Int32}
    (h : f.Prepared callers σ (.jump kind distance) next m) :
    Next f callers σ (.jump kind distance) next m := by
  have hheight := h.height
  have hjumps := h.jumps
  cases kind with
  | always =>
      have hstep : ((f.site callers).machine m.toStore f.offset m.stack).step = _ :=
        Site.step_goto hjumps
      rw [← h.eq_machine] at hstep
      exact h.moves_within hm hstep (fun v hv => hv) List.mem_cons_self hheight rfl
  | ifFalse =>
      obtain ⟨v, rest, hstack, heq⟩ := h.exists_top Nat.zero_lt_one
      have hstep : ((f.site callers).machine m.toStore f.offset (v :: rest)).step = _ :=
        Site.step_jumpIfFalse hjumps
      rw [← heq] at hstep
      have hrest : ∀ u ∈ rest, u ∈ m.stack := fun u hu => hstack ▸ List.mem_cons_of_mem v hu
      have hpos : 1 ≤ σ.operands := h.enough
      have hlength : rest.length = f.base + (σ.operands - 1) := by
        rw [hstack, List.length_cons] at hheight
        omega
      -- Both ways lead on with one operand less.
      cases htruthy : v.isTruthy with
      | true =>
          rw [htruthy] at hstep
          exact h.moves_within hm hstep hrest List.mem_cons_self hlength rfl
      | false =>
          rw [htruthy] at hstep
          exact h.moves_within hm hstep hrest (List.mem_cons_of_mem _ List.mem_cons_self)
            hlength rfl
  | ifFalseOrPop =>
      obtain ⟨v, rest, hstack, heq⟩ := h.exists_top Nat.zero_lt_one
      have hstep : ((f.site callers).machine m.toStore f.offset (v :: rest)).step = _ :=
        Site.step_jumpIfFalseOrPop hjumps
      rw [← heq] at hstep
      exact h.moves_orPop hm v.isTruthy hstack h.enough hstep rfl rfl
  | ifTrueOrPop =>
      obtain ⟨v, rest, hstack, heq⟩ := h.exists_top Nat.zero_lt_one
      have hstep : ((f.site callers).machine m.toStore f.offset (v :: rest)).step = _ :=
        Site.step_jumpIfTrueOrPop hjumps
      rw [← heq] at hstep
      refine h.moves_orPop hm (!v.isTruthy) hstack h.enough ?_ rfl rfl
      rw [hstep]
      cases v.isTruthy <;> rfl

/-! #### Scopes -/

theorem moves_pushScope (h : f.Prepared callers σ .pushScope next m) :
    Next f callers σ .pushScope next m := by
  cases hopen : Act.openScope f.scope m.toStore with
  | error e s' => cases hopen
  | ok inner s' =>
      obtain ⟨hs', hbefore, hparent, hinner⟩ :=
        Act.roots_openScope hm.store (h.scope_lt hm) inner s' hopen
      have hstep := Site.step_pushScope m.stack h.at_site hopen
      rw [← h.eq_machine] at hstep
      exact h.after_on hm hstep hs' hbefore (fun v hv => Or.inl hv) hinner List.mem_cons_self
        h.height hparent

theorem moves_popScope (h : f.Prepared callers σ .popScope next m) :
    Next f callers σ .popScope next m := by
  obtain ⟨outer, houter⟩ := h.inside rfl
  have hstep : ((f.site callers).machine m.toStore f.offset m.stack).step = _ :=
    Site.step_popScope h.at_site houter
  rw [← h.eq_machine] at hstep
  have hlt : outer.index < m.scopes.size :=
    Nat.lt_trans (hm.store.nested _ _ houter) (h.scope_lt hm)
  exact h.after_on hm hstep hm.store (.refl _) (fun v hv => Or.inl hv) hlt List.mem_cons_self
    h.height houter

/-! #### Calls -/

/-- A function of the script is entered. -/
theorem moves_enter {w : UInt32} (h : f.Prepared callers σ (.call w) next m)
    (hcalm : ∀ e, m.step.2.2 ≠ .fault e) {g : Closure} {arguments rest : List Value}
    (hstack : m.stack = arguments.reverse ++ .function g :: rest)
    (hcount : w.toNat = arguments.length) : Next f callers σ (.call w) next m := by
  have hheight := h.height
  have heq : m = (f.site callers).machine m.toStore f.offset _ := hstack ▸ h.eq_machine
  have hheld : ∀ v ∈ arguments.reverse ++ .function g :: rest, m.toStore.Holds Proto.Compiled v :=
    hstack ▸ hm.stack
  obtain ⟨hcompiled, hscope⟩ := hheld _ (List.mem_append_right _ List.mem_cons_self)
  by_cases hlimit : callLimit < (f.site callers).callers.length + 1
  · have hstops := Site.stops_call_function (s := m.toStore) (f := g) rest h.at_site hcount hlimit
    rw [← heq] at hstops
    exact absurd hstops (Machine.not_stops hcalm _ _)
  cases hopen : Act.openCall g.scope g.proto.parameters arguments m.toStore with
  | error e s' => cases hopen
  | ok inner s' =>
      obtain ⟨hs', hbefore, hinner⟩ := Act.roots_openCall hm.store hscope g.proto.parameters
        (fun v hv => hheld v (List.mem_append_left _ (List.mem_reverse.2 hv))) inner s' hopen
      have hstep := Site.step_call_function rest h.at_site hcount hlimit hopen
      rw [← heq] at hstep
      rw [Next, hstep]
      refine ⟨Site.rooted_machine hs' (fun v hv => ?_) hinner fun k hk => ?_, hbefore,
        .call rfl rfl hcompiled rfl rfl ?_ rfl⟩
      · exact hbefore.holds (hheld v (List.mem_append_right _ (List.mem_cons_of_mem _ hv)))
      -- The frame that waits has the scope it had.
      · rcases List.mem_cons.1 hk with rfl | hk
        · exact Nat.lt_of_lt_of_le (h.scope_lt hm) hbefore.size
        · have hold := hm.frames k (by rw [h.frames]; exact List.mem_cons_of_mem _ hk)
          exact Nat.lt_of_lt_of_le hold hbefore.size
      · rw [← hheight, hstack, List.length_append, List.length_reverse, List.length_cons, ← hcount]
        change rest.length + (w.toNat + 1) = w.toNat + (rest.length + 1)
        omega

/-- A function of the machine is called. -/
theorem moves_native {w : UInt32} (h : f.Prepared callers σ (.call w) next m)
    (hcalm : ∀ e, m.step.2.2 ≠ .fault e) {g : Native} {arguments rest : List Value}
    (hstack : m.stack = arguments.reverse ++ .native g :: rest)
    (hcount : w.toNat = arguments.length) : Next f callers σ (.call w) next m := by
  have hheight := h.height
  have henough : w.toNat + 1 ≤ σ.operands := h.enough
  have heq : m = (f.site callers).machine m.toStore f.offset _ := hstack ▸ h.eq_machine
  have hheld : ∀ v ∈ arguments.reverse ++ .native g :: rest, m.toStore.Holds Proto.Compiled v :=
    hstack ▸ hm.stack
  cases hact : Act.callNative g arguments m.toStore with
  | error e s' =>
      have hstops := Site.stops_call_native rest h.at_site hcount hact
      rw [← heq] at hstops
      exact absurd hstops (Machine.not_stops hcalm _ _)
  | ok result s' =>
      have hsound := Act.sound_callNative hm.store.valid
        (hheld _ (List.mem_append_right _ List.mem_cons_self))
        fun v hv => hheld v (List.mem_append_left _ (List.mem_reverse.2 hv))
      obtain ⟨hs', hbefore, hv⟩ := (Act.Roots.of_sound hm.store hsound
        (Act.keepsScopes_callNative _ g arguments)).holds result s' hact
      have hstep := Site.step_call_native rest h.at_site hcount hact
      rw [← heq] at hstep
      have hleads : (next, (Instr.call w).after σ) ∈ (Instr.call w).successors next σ :=
        List.mem_cons_self
      refine h.after_on hm hstep hs' hbefore (fun v hmem => ?_)
        (Nat.lt_of_lt_of_le (h.scope_lt hm) hbefore.size) hleads ?_ rfl
      · rcases List.mem_cons.1 hmem with rfl | hmem
        · exact Or.inr hv
        · exact Or.inl (hstack ▸ List.mem_append_right _ (List.mem_cons_of_mem _ hmem))
      · rw [hstack, List.length_append, List.length_reverse, List.length_cons, ← hcount] at hheight
        change rest.length + 1 = f.base + (σ.operands - (w.toNat + 1) + 1)
        omega

theorem moves_call {w : UInt32} (h : f.Prepared callers σ (.call w) next m)
    (hcalm : ∀ e, m.step.2.2 ≠ .fault e) : Next f callers σ (.call w) next m := by
  obtain ⟨arguments, callee, rest, hstack, hcount⟩ := h.exists_callee
  have heq : m = (f.site callers).machine m.toStore f.offset _ := hstack ▸ h.eq_machine
  have hother (hfunction : ∀ g, callee ≠ .function g) (hnative : ∀ g, callee ≠ .native g) :
      Next f callers σ (.call w) next m := by
    have hstops := Site.stops_call_other (s := m.toStore) rest h.at_site hcount hfunction hnative
    rw [← heq] at hstops
    exact absurd hstops (Machine.not_stops hcalm _ _)
  cases callee with
  | function g => exact h.moves_enter hm hcalm hstack hcount
  | native g => exact h.moves_native hm hcalm hstack hcount
  | _ => exact hother (fun g => Value.noConfusion) fun g => Value.noConfusion

/-! #### Ends -/

theorem moves_ret (h : f.Prepared callers σ .ret next m) : Next f callers σ .ret next m := by
  obtain ⟨hone, hcallers⟩ := h.returns rfl
  have hheight := h.height
  obtain ⟨v, rest, hstack, heq⟩ := h.exists_top Nat.zero_lt_one
  rw [hstack, List.length_cons, hone] at hheight
  have hstep := Site.step_ret (s := m.toStore) (v := v) h.at_site (Nat.succ.inj hheight) hcallers
  rw [← heq] at hstep
  rw [Next, hstep]
  refine ⟨⟨hm.store, fun u hu => hm.stack u (hstack ▸ hu), fun g hg => ?_⟩, .refl _,
    .ret rfl rfl hheight rfl⟩
  exact hm.frames g (by rw [h.frames]; exact List.mem_cons_of_mem _ hg)

theorem moves_halt (h : f.Prepared callers σ .halt next m) : Next f callers σ .halt next m := by
  have hstep : ((f.site callers).machine m.toStore f.offset m.stack).step = _ :=
    Site.step_halt h.at_site
  rw [← h.eq_machine] at hstep
  rw [Next, hstep]
  exact ⟨⟨hm.store, fun v hv => (nomatch hv), fun g hg => (nomatch hg)⟩, .refl _,
    .halt rfl rfl rfl rfl⟩

/-- **Every step that does not fail is one of four moves.** -/
theorem moves (h : f.Prepared callers σ i next m) (hcalm : ∀ e, m.step.2.2 ≠ .fault e) :
    Next f callers σ i next m := by
  cases i with
  | jump kind distance => exact h.moves_jump hm
  | pushScope => exact h.moves_pushScope hm
  | popScope => exact h.moves_popScope hm
  | call w => exact h.moves_call hm hcalm
  | ret => exact h.moves_ret hm
  | halt => exact h.moves_halt hm
  | _ => exact h.moves_plain hm hcalm rfl fun w hw => nomatch hw

end

end Frame.Prepared

end Tracepoint
