/-
The machine simulates direct evaluation.

What a machine does from some point on is compared with an evaluation from the same store.  If the
evaluation yields a result, the machine arrives at the place that goes with it; if it ends in a
fault, the machine fails with the same one; and if it runs out of fuel, the machine takes at least
a step for each unit.  In all three cases the store and the lines written are the same.

The rules of this relation follow the way in which evaluations are put together.

Main definitions:

* `World.Valid`, `World.Grows`, `World.Knows` — worlds in which every function has its tree;
* `Simulates` — the relation.

Main results:

* `Simulates.bind`, `Simulates.of_step`, `Simulates.act` — the rules;
* `simulates_newFunction`, `simulates_hoist` — functions that are made and bound.
-/

import Tracepoint.Proofs.Evaluation.Evaluator
import Tracepoint.Proofs.Machine.Steps
import Tracepoint.Proofs.Store.Soundness

set_option relaxedAutoImplicit false
set_option autoImplicit false

namespace Tracepoint

/-! ### Worlds -/

namespace World

/-- A function is known by its tree, and that tree fills its code. -/
def Made (functions : List (ℕ × FunctionDecl)) (f : Closure) : Prop :=
  ∃ decl, functions.lookup f.identity = some decl ∧ f.proto = compileFunction decl ∧ decl.Lies

/-- What a value refers to is there, in the store or among the functions. -/
def Knows (w : World) (v : Value) : Prop :=
  v.Known (Made w.functions) w.heap

/-- All values in the store are known, and no identity is given twice. -/
structure Valid (w : World) : Prop where
  store : w.toStore.Valid (Made w.functions)
  fresh : ∀ entry ∈ w.functions, entry.1 < w.fresh

/-- A world comes after another one. -/
structure Grows (w w' : World) : Prop where
  store : w.toStore.Grows w'.toStore
  functions : ∀ n decl, w.functions.lookup n = some decl → w'.functions.lookup n = some decl

variable {w w' w'' : World}

theorem Grows.refl (w : World) : w.Grows w :=
  ⟨.refl _, fun _ _ h => h⟩

theorem Grows.trans (h : w.Grows w') (h' : w'.Grows w'') : w.Grows w'' :=
  ⟨h.store.trans h'.store, fun n decl hn => h'.functions n decl (h.functions n decl hn)⟩

theorem Grows.knows (h : w.Grows w') {v : Value} (hv : w.Knows v) : w'.Knows v := by
  refine Value.Known.mono hv ?_ h.store.heap
  rintro f ⟨decl, hlookup, hproto, hlies⟩
  exact ⟨decl, h.functions _ _ hlookup, hproto, hlies⟩

theorem valid_start : start.Valid :=
  ⟨Store.valid_start _, fun _ h => by cases h⟩

/-- After an action on its store a world is as valid as that store. -/
theorem Valid.withStore (hw : w.Valid) {s : Store} (hs : s.Valid (Made w.functions))
    (hgrows : w.toStore.Grows s) :
    Valid { w with toStore := s } ∧ w.Grows { w with toStore := s } := by
  refine ⟨⟨hs, fun entry hentry => ?_⟩, hgrows, fun _ _ h => h⟩
  exact Nat.lt_of_lt_of_le (hw.fresh entry hentry) hgrows.fresh

/-- A world with one more function. -/
def withFunction (w : World) (decl : FunctionDecl) : World :=
  { w with functions := (w.fresh, decl) :: w.functions, fresh := w.fresh + 1 }

theorem Valid.withFunction (hw : w.Valid) (decl : FunctionDecl) :
    (w.withFunction decl).Valid ∧ w.Grows (w.withFunction decl) := by
  have hlookup : ∀ n other, w.functions.lookup n = some other →
      (w.withFunction decl).functions.lookup n = some other := by
    intro n other hn
    obtain ⟨before, behind, hsplit, -⟩ := List.lookup_eq_some_iff.1 hn
    -- An identity that is taken is smaller than the new one, so looking it up goes past the front.
    have hlt := hw.fresh (n, other) (hsplit ▸ List.mem_append_right _ (List.mem_cons_self ..))
    have hne : (n == w.fresh) = false := beq_false_of_ne (Nat.ne_of_lt hlt)
    simp only [World.withFunction, List.lookup_cons, hne]
    exact hn
  have hgrows : w.Grows (w.withFunction decl) :=
    ⟨⟨.refl _, .refl _, Nat.le_succ _⟩, hlookup⟩
  refine ⟨⟨?_, ?_⟩, hgrows⟩
  · have hmade : ∀ f, Made w.functions f → Made (w.withFunction decl).functions f := by
      rintro f ⟨other, hother, hproto, hlies⟩
      exact ⟨other, hlookup _ _ hother, hproto, hlies⟩
    have hstore := hw.store.mono hmade
    exact ⟨hstore.scopes, hstore.heap, hstore.intrinsics⟩
  · intro entry hentry
    rcases List.mem_cons.1 hentry with rfl | hentry
    · exact Nat.lt_succ_self _
    · exact Nat.lt_succ_of_lt (hw.fresh entry hentry)

end World

/-! ### The relation -/

/-- The machine `m` does what the evaluation `x` does in the world `w`. With a result it arrives
at a certain place, and then `P` holds. Without fuel it has taken at least `bound` steps. -/
def Simulates {α : Type} (bound : ℕ) (m : Machine) (w : World) (x : Eval α)
    (arrive : World → α → Machine) (P : World → α → Prop) : Prop :=
  match x w with
  | .ok a w' =>
    (∃ n out, m.Runs n out (arrive w' a) ∧ w'.printed = w.printed ++ out) ∧
      w'.Valid ∧ w.Grows w' ∧ P w' a
  | .error (.fault e) w' =>
    (∃ n out m', m.Runs n out m' ∧ w'.printed = w.printed ++ out ∧ m'.Stops e w'.toStore) ∧
      ¬e.IsDefect
  | .error .exhausted _ => ∃ n out m', m.Runs n out m' ∧ bound ≤ n

namespace Simulates

variable {α β : Type} {bound : ℕ} {m : Machine} {w : World} {x : Eval α}
  {arrive : World → α → Machine} {arrive' : World → β → Machine} {P : World → α → Prop}
  {Q : World → β → Prop}

theorem pure (hw : w.Valid) {a : α} (hm : m = arrive w a) (h : P w a) :
    Simulates bound m w (pure a) arrive P :=
  ⟨⟨0, [], hm ▸ .refl _, (List.append_nil _).symm⟩, hw, .refl w, h⟩

theorem exhausted : Simulates 0 m w (throw .exhausted) arrive P :=
  ⟨0, [], m, .refl m, Nat.le_refl 0⟩

theorem fault {e : Fault} (hstops : m.Stops e w.toStore) (he : ¬e.IsDefect) :
    Simulates bound m w (Eval.fault e) arrive P :=
  ⟨⟨0, [], m, .refl m, (List.append_nil _).symm, hstops⟩, he⟩

theorem congr {y : Eval α} (hx : x w = y w) (h : Simulates bound m w y arrive P) :
    Simulates bound m w x arrive P := by
  simp only [Simulates, hx]
  exact h

theorem mono (h : Simulates bound m w x arrive P) {less : ℕ} (hle : less ≤ bound) :
    Simulates less m w x arrive P := by
  simp only [Simulates] at h ⊢
  split
  next heq =>
    rw [heq] at h
    exact h
  next heq =>
    rw [heq] at h
    exact h
  next heq =>
    rw [heq] at h
    obtain ⟨n, out, m', hruns, hbound⟩ := h
    exact ⟨n, out, m', hruns, Nat.le_trans hle hbound⟩

/-- Steps in front that write nothing. -/
theorem of_runs {m' : Machine} {k : ℕ} (hruns : m.Runs k [] m')
    (h : Simulates bound m' w x arrive P) : Simulates (bound + k) m w x arrive P := by
  simp only [Simulates] at h ⊢
  split
  next heq =>
    rw [heq] at h
    obtain ⟨⟨n, out, hrest, hprinted⟩, hafter⟩ := h
    exact ⟨⟨k + n, out, hruns.trans hrest, hprinted⟩, hafter⟩
  next heq =>
    rw [heq] at h
    obtain ⟨⟨n, out, m'', hrest, hprinted, hstops⟩, he⟩ := h
    exact ⟨⟨k + n, out, m'', hruns.trans hrest, hprinted, hstops⟩, he⟩
  next heq =>
    rw [heq] at h
    obtain ⟨n, out, m'', hrest, hbound⟩ := h
    exact ⟨k + n, out, m'', hruns.trans hrest, by omega⟩

/-- A step in front that writes nothing counts. -/
theorem of_step {m' : Machine} (hstep : m.step = (m', [], .more))
    (h : Simulates bound m' w x arrive P) : Simulates (bound + 1) m w x arrive P :=
  of_runs (.single hstep) h

/-- As `of_step`, where the step need not be counted. -/
theorem after_step {m' : Machine} (hstep : m.step = (m', [], .more))
    (h : Simulates bound m' w x arrive P) : Simulates bound m w x arrive P :=
  (of_step hstep h).mono (Nat.le_succ bound)

/-- **One evaluation after another.** -/
theorem bind {f : α → Eval β} (hx : Simulates bound m w x arrive P)
    (hf : ∀ a w', w'.Valid → w.Grows w' → P w' a →
      Simulates bound (arrive w' a) w' (f a) arrive' Q) :
    Simulates bound m w (x >>= f) arrive' Q := by
  simp only [Simulates, Bind.bind, EStateM.bind] at hx ⊢
  cases hrun : x w with
  | error stop w' =>
      rw [hrun] at hx
      cases stop with
      | fault e => exact hx
      | exhausted => exact hx
  | ok a w' =>
      rw [hrun] at hx
      obtain ⟨⟨n, out, hruns, hprinted⟩, hvalid, hgrows, hP⟩ := hx
      have hrest := hf a w' hvalid hgrows hP
      simp only [Simulates] at hrest ⊢
      -- What follows is said of the world in between; the lines and the steps add up.
      split at hrest
      next b w'' heq =>
        obtain ⟨⟨n', out', hruns', hprinted'⟩, hvalid', hgrows', hQ⟩ := hrest
        refine ⟨⟨n + n', out ++ out', hruns.trans hruns', ?_⟩, hvalid', hgrows.trans hgrows', hQ⟩
        rw [hprinted', hprinted, List.append_assoc]
      next e w'' heq =>
        obtain ⟨⟨n', out', m', hruns', hprinted', hstops⟩, he⟩ := hrest
        refine ⟨⟨n + n', out ++ out', m', hruns.trans hruns', ?_, hstops⟩, he⟩
        rw [hprinted', hprinted, List.append_assoc]
      next w'' heq =>
        obtain ⟨n', out', m', hruns', hbound⟩ := hrest
        exact ⟨n + n', out ++ out', m', hruns.trans hruns', by omega⟩

/-- Steps behind the arrival that write nothing. -/
theorem extend {further : World → α → Machine} {R : World → α → Prop}
    (h : Simulates bound m w x arrive P)
    (hfurther : ∀ a w', w'.Valid → w.Grows w' → P w' a →
      ∃ k, (arrive w' a).Runs k [] (further w' a) ∧ R w' a) :
    Simulates bound m w x further R := by
  simp only [Simulates] at h ⊢
  split
  next a w' heq =>
    rw [heq] at h
    obtain ⟨⟨n, out, hruns, hprinted⟩, hvalid, hgrows, hP⟩ := h
    obtain ⟨k, hruns', hR⟩ := hfurther a w' hvalid hgrows hP
    have hall := hruns.trans hruns'
    rw [List.append_nil] at hall
    exact ⟨⟨n + k, out, hall, hprinted⟩, hvalid, hgrows, hR⟩
  next heq =>
    rw [heq] at h
    exact h
  next heq =>
    rw [heq] at h
    exact h

/-- An instruction that carries out an action. -/
theorem act (taken stack : List Value) {act : Act α} {site : Site} {i : Instr} {offset next : ℕ}
    {left : α → List Value} (hi : site.proto.chunk.At offset i next)
    (hperforms : site.Performs i taken act left) (hw : w.Valid)
    (hsound : Act.Sound (World.Made w.functions) w.toStore act
      fun s a => P { w with toStore := s } a) :
    Simulates bound (site.machine w.toStore offset (taken ++ stack)) w (liftM act)
      (fun w' a => site.machine w'.toStore next (left a ++ stack)) P := by
  simp only [Act.Sound] at hsound
  simp only [Simulates, liftM, monadLift, MonadLift.monadLift]
  cases hact : act w.toStore with
  | ok a s =>
      rw [hact] at hsound
      obtain ⟨hs, hgrows, hP⟩ := hsound
      obtain ⟨hvalid, hgrows'⟩ := hw.withStore hs hgrows
      have hstep := Site.step_of_performs stack hi hperforms hact
      exact ⟨⟨1, [], .single hstep, (List.append_nil _).symm⟩, hvalid, hgrows', hP⟩
  | error e s =>
      rw [hact] at hsound
      have hstops := Site.stops_of_performs stack hi hperforms hact
      exact ⟨⟨0, [], _, .refl _, (List.append_nil _).symm, hstops⟩, hsound⟩

end Simulates

/-! ### Functions that are made and bound -/

section

variable {bound : ℕ} {site : Site} {w : World} {stack : List Value} {start stop : ℕ}

theorem simulates_newFunction {decl : FunctionDecl} (hw : w.Valid)
    (hmakes : site.proto.Makes decl start stop) (hlies : decl.Lies) :
    Simulates bound (site.machine w.toStore start stack) w (Eval.newFunction site.scope decl)
      (fun w' v => site.machine w'.toStore stop (v :: stack)) World.Knows := by
  obtain ⟨word, hi, hfunction⟩ := hmakes
  obtain ⟨hvalid, hgrows⟩ := hw.withFunction decl
  have heval : Eval.newFunction site.scope decl w =
      .ok (.function ⟨w.fresh, compileFunction decl, site.scope⟩) (w.withFunction decl) := rfl
  have hact : Act.newFunction (compileFunction decl) site.scope w.toStore =
      .ok (.function ⟨w.fresh, compileFunction decl, site.scope⟩)
        (w.withFunction decl).toStore := rfl
  -- The machine and evaluation make the same record; only evaluation keeps the tree.
  have hstep := Site.step_of_performs stack hi (Site.performs_closure hfunction) hact
  have hlookup : (w.withFunction decl).functions.lookup w.fresh = some decl :=
    List.lookup_cons_self
  simp only [Simulates, heval]
  exact ⟨⟨1, [], .single hstep, (List.append_nil _).symm⟩, hvalid, hgrows, decl, hlookup, rfl,
    hlies⟩

theorem simulates_bindFunction {decl : FunctionDecl} (hw : w.Valid)
    (hbinds : site.proto.Binds decl start stop) (hlies : decl.name.isSome → decl.Lies) :
    Simulates bound (site.machine w.toStore start stack) w (Eval.bindFunction site.scope decl)
      (fun w' _ => site.machine w'.toStore stop stack) fun _ _ => True := by
  cases hname : decl.name with
  | none =>
      simp only [Proto.Binds, hname] at hbinds
      subst hbinds
      simp only [Eval.bindFunction, hname]
      exact .pure hw rfl trivial
  | some name =>
      simp only [Proto.Binds, hname] at hbinds
      obtain ⟨middle, hmakes, word, hi, htext⟩ := hbinds
      rw [hname] at hlies
      simp only [Eval.bindFunction, hname]
      refine (simulates_newFunction hw hmakes (hlies rfl)).bind fun v w' hw' _ hv => ?_
      exact .act [v] stack hi (Site.performs_declare htext) hw'
        (Act.sound_declare site.scope name hw'.store .function hv)

/-- The functions declared in a list of statements. -/
theorem simulates_hoist (site : Site) (stack : List Value) {body : List Stmt} (hw : w.Valid)
    (hlies : hoistLies site.proto body start stop) :
    Simulates bound (site.machine w.toStore start stack) w (Eval.hoist site.scope body)
      (fun w' _ => site.machine w'.toStore stop stack) fun _ _ => True := by
  induction body generalizing w start with
  | nil =>
      subst hlies
      exact .pure hw rfl trivial
  | cons s rest ih =>
      cases s with
      | function decl =>
          obtain ⟨hdecl, middle, hbinds, hrest⟩ := hlies
          simp only [Eval.hoist]
          exact (simulates_bindFunction hw hbinds hdecl).bind fun _ w' hw' _ _ => ih hw' hrest
      | _ =>
          simp only [hoistLies] at hlies
          simp only [Eval.hoist]
          exact ih hw hlies

end

end Tracepoint
