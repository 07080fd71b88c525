/-
What fails does nothing.

Some actions on a store may fail, and all of them find out before they write: an assignment looks
for the binding and at its kind, a write into an array looks at the position, and so on.  Where an
action does write before the last thing that may fail, what it writes in the failing case is what
was there already.  So behind a failed action the store is the one that the action found.

Main definitions:

* `Act.Atomic` — an action that leaves the store as it is when it fails.

Main results:

* `Act.Atomic.get_bind`, `Act.Atomic.of_ok`, `Act.Atomic.onScopes_bind` — how to see that;
* `Act.atomic_declare`, `Act.atomic_setIndex`, `Act.atomic_callNative` and one such lemma for every
  other action.
-/

import Tracepoint.Proofs.Store.Environment

set_option relaxedAutoImplicit false
set_option autoImplicit false

namespace Tracepoint

/-- Where there is no array, no items are added. -/
theorem Heap.pushItems_of_items?_eq_none {α : Type} {h : Heap α} {r : Ref}
    (hr : h.items? r = none) (values : List α) : h.pushItems r values = h := by
  obtain ⟨cells⟩ := h
  rw [pushItems, modify]
  congr 1
  refine Array.ext_getElem? fun i => ?_
  rw [Array.getElem?_modify]
  split_ifs with hi
  · subst hi
    cases hcell : cells[r.index]? with
    | none => rfl
    | some cell =>
        cases cell with
        | array items =>
            rw [items?, get?, hcell] at hr
            cases hr
        | object entries => rfl
  · rfl

namespace Act

variable {α β : Type} {s : Store}

/-- When the action fails in the store, the store stays as it is. -/
def Atomic (s : Store) (act : Act α) : Prop :=
  ∀ e s', act s = .error e s' → s' = s

theorem run_get (f : Store → Act α) (s : Store) : (get >>= f) s = f s s :=
  rfl

namespace Atomic

theorem throw (s : Store) (e : Fault) : Atomic s (throw e : Act α) := by
  intro e' s' h
  cases h
  rfl

/-- An action that does not fail. -/
theorem of_ok {act : Act α} {a : α} {s' : Store} (h : act s = .ok a s') : Atomic s act := by
  intro e s'' herror
  rw [h] at herror
  cases herror

theorem pure (s : Store) (a : α) : Atomic s (pure a : Act α) :=
  of_ok rfl

theorem get_bind {f : Store → Act α} (hf : Atomic s (f s)) : Atomic s (get >>= f) :=
  hf

theorem orFault (s : Store) (r : Except Fault α) : Atomic s (orFault r) := by
  cases r with
  | ok a => exact .pure s a
  | error e => exact .throw s e

/-- An action that writes first: where it fails behind that, the write has changed nothing. -/
theorem onScopes_bind {g : Arena Value → β × Arena Value} {f : β → Act α}
    (hf : ∀ e s', f (g s.scopes).1 { s with scopes := (g s.scopes).2 } = .error e s' → s' = s) :
    Atomic s (onScopes g >>= f) :=
  hf

theorem onHeap_bind {g : Heap Value → β × Heap Value} {f : β → Act α}
    (hf : ∀ e s', f (g s.heap).1 { s with heap := (g s.heap).2 } = .error e s' → s' = s) :
    Atomic s (onHeap g >>= f) :=
  hf

end Atomic

section

variable (s : Store)

/-! ### Scopes -/

section

variable (scope : ScopeId) (name : String) (v : Value)

theorem atomic_read : Atomic s (read scope name) := by
  refine .get_bind ?_
  split
  · exact .pure s _
  · exact .throw s _

theorem atomic_declare (kind : BindingKind) : Atomic s (declare scope name v kind) := by
  refine .onScopes_bind fun e s' h => ?_
  cases hresult : (s.scopes.declare scope name v kind).1 with
  | ok _ =>
      simp only [hresult] at h
      cases h
  | error refusal =>
      simp only [hresult] at h
      cases h
      rw [Arena.declare_refused hresult]

theorem atomic_assign : Atomic s (assign scope name v) := by
  refine .onScopes_bind fun e s' h => ?_
  cases hresult : (s.scopes.assign scope name v).1 with
  | ok _ =>
      simp only [hresult] at h
      cases h
  | error refusal =>
      simp only [hresult] at h
      rw [Arena.assign_refused hresult] at h
      cases refusal <;> cases h <;> rfl

theorem atomic_openCall (parameters : List String) (arguments : List Value) :
    Atomic s (openCall scope parameters arguments) :=
  .of_ok rfl

end

/-! ### Values -/

theorem atomic_newArray (items : List Value) : Atomic s (newArray items) :=
  .of_ok rfl

theorem atomic_newObject (values : List Value) : Atomic s (newObject values) :=
  .of_ok rfl

theorem atomic_newFunction (proto : Proto) (scope : ScopeId) :
    Atomic s (newFunction proto scope) :=
  .of_ok rfl

theorem atomic_operate (op : Operation) (v w : Value) : Atomic s (operate op v w) :=
  .get_bind (.orFault s _)

theorem atomic_negate (v : Value) : Atomic s (negate v) :=
  .orFault s _

theorem atomic_callNative (f : Native) (arguments : List Value) :
    Atomic s (callNative f arguments) := by
  cases f with
  | console name => exact .get_bind (.pure s _)
  | push identity target =>
      refine .onHeap_bind fun e s' h => ?_
      cases hlength : (s.heap.pushItems target arguments).length? target with
      | some length =>
          rw [run_get] at h
          simp only [hlength] at h
          cases h
      | none =>
          -- There is no length behind the write, so there were no items to add to.
          have hnone : s.heap.items? target = none := by
            cases hitems : s.heap.items? target with
            | none => rfl
            | some items =>
                have hgrown := Heap.extends_pushItems (h := s.heap) target arguments
                have hsome := hgrown.items? (Option.isSome_of_mem hitems)
                rw [← Option.isSome_map, ← Heap.length?, hlength] at hsome
                cases hsome
          rw [run_get] at h
          simp only [hlength] at h
          cases h
          rw [Heap.pushItems_of_items?_eq_none hnone]

/-! ### Properties and items -/

theorem atomic_getProperty (v : Value) (name : String) : Atomic s (getProperty v name) := by
  cases v with
  | undefined => exact .throw s _
  | null => exact .throw s _
  | array r =>
      simp only [getProperty]
      split
      · exact .get_bind (.pure s _)
      split
      · exact .of_ok rfl
      split
      · exact .get_bind (.pure s _)
      · exact .pure s _
  | object r => exact .get_bind (.pure s _)
  | _ => exact .pure s _

theorem atomic_getIndex (v index : Value) : Atomic s (getIndex v index) := by
  refine .get_bind ?_
  split
  · exact .get_bind (.pure s _)
  · split
    · exact .pure s _
    · exact .pure s _
  · exact atomic_getProperty s _ _

theorem atomic_setItem (r : Ref) (position : ℕ) (v : Value) :
    Atomic s (setItem r position v) := by
  refine .get_bind ?_
  split
  · exact .throw s _
  · split
    · exact .throw s _
    · exact .of_ok rfl

theorem atomic_setProperty (object : Value) (name : String) (v : Value) :
    Atomic s (setProperty object name v) := by
  cases object with
  | object r => exact .of_ok rfl
  | array r =>
      simp only [setProperty]
      split
      · exact atomic_setItem s r _ v
      · exact .throw s _
  | _ => exact .throw s _

theorem atomic_setIndex (object index v : Value) : Atomic s (setIndex object index v) := by
  refine .get_bind ?_
  split
  · exact atomic_setItem s _ _ v
  · exact .throw s _
  · exact atomic_setProperty s _ _ v

end

end Act

end Tracepoint
