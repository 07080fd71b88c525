/-
No reference leads nowhere.

On the run of a program all arrays and objects that values refer to are there, and so are the
scopes that functions and frames see.  What a heap does not have would be shown in its own way:
the console has a mark for it, and a debugger would see an empty container.  Neither is ever
written of a value that a machine holds.

Main definitions:

* `Value.inspectMarking` — the inspected text, with another mark for what leads nowhere;
* `Machine.Holds` — a value is held somewhere in a machine;
* `Machine.Consistent` — all references of a machine lead to what they should lead to;
* `Machine.ShowsHeap` — what is shown of the values of a machine is what is in its heap.

Main results:

* `Value.inspectMarking_of_stands` — where all values stand, the mark is never written;
* `references_stand` — **no reference leads nowhere**.
-/

import Tracepoint.Proofs.Machine.Integrity

set_option relaxedAutoImplicit false
set_option autoImplicit false

namespace Tracepoint

/-! ### What is shown of values -/

namespace Value

variable {heap : Heap Value} {outer : List Ref} {r : Ref}

/-- The inspected text of a cell, with another mark for a reference that leads nowhere. -/
def inspectCellMarking (mark : String) (heap : Heap Value) (outer : List Ref) (r : Ref)
    (inside? : Option (Value → String)) : String :=
  if !outer.contains r && (heap.get? r).isNone then mark else inspectCell heap outer r inside?

/-- The inspected text of a value, with another mark for references that lead nowhere. -/
def inspectMarking (mark : String) (heap : Heap Value) :
    (levels : ℕ) → (outer : List Ref) → Value → String
  | _, _, string text => Text.single.quote text
  | 0, outer, array r | 0, outer, object r => inspectCellMarking mark heap outer r none
  | levels + 1, outer, array r | levels + 1, outer, object r =>
    inspectCellMarking mark heap outer r (some (inspectMarking mark heap levels (r :: outer)))
  | _, _, v => v.functionLabel?.getD (v.text heap)

/-- The mark is `[Dangling]`. -/
theorem inspectMarking_dangling (heap : Heap Value) (levels : ℕ) (outer : List Ref) (v : Value) :
    v.inspectMarking "[Dangling]" heap levels outer = v.inspectWithin heap levels outer := by
  have hcell : ∀ outer r inside?, inspectCellMarking "[Dangling]" heap outer r inside? =
      inspectCell heap outer r inside? := by
    intro outer r inside?
    rw [inspectCellMarking, inspectCell]
    by_cases houter : outer.contains r = true
    · rw [if_pos houter, houter]
      rfl
    · rw [if_neg houter]
      cases hget : heap.get? r with
      | none => rw [eq_false_of_ne_true houter]; rfl
      | some cell => rw [eq_false_of_ne_true houter]; rfl
  induction levels generalizing outer v with
  | zero => cases v <;> first | rfl | exact hcell outer _ none
  | succ levels ih =>
      have hinside : ∀ r : Ref, inspectMarking "[Dangling]" heap levels (r :: outer) =
          inspectWithin heap levels (r :: outer) := fun r => funext (ih (r :: outer))
      cases v with
      | array r => rw [inspectMarking, inspectWithin, hcell, hinside]
      | object r => rw [inspectMarking, inspectWithin, hcell, hinside]
      | _ => rfl

/-- What is written inside a cell depends on nothing but the values that it holds. -/
theorem inspectCell_congr {inside inside' : Value → String}
    (h : ∀ cell, heap.get? r = some cell → cell.All fun v => inside v = inside' v) :
    inspectCell heap outer r (some inside) = inspectCell heap outer r (some inside') := by
  unfold inspectCell
  split
  · rfl
  · split
    · rfl
    next items hcell =>
      have hitems := h _ hcell
      dsimp only
      rw [List.map_congr_left fun v hv => hitems v (Array.mem_toList_iff.1 hv)]
    next entries hcell =>
      have hentries := h _ hcell
      dsimp only
      rw [List.map_congr_left fun e he => congrArg (inspectKey e.1 ++ ": " ++ ·) (hentries e he)]

theorem Stands.isSome_get? {F : Closure → Prop} {v : Value} (hv : v.Stands F heap)
    (hr : v = .array r ∨ v = .object r) : (heap.get? r).isSome := by
  rcases hr with rfl | rfl
  · simp only [Stands, Heap.items?] at hv
    split at hv
    next hcell =>
      rw [hcell]
      rfl
    next => cases hv
  · simp only [Stands, Heap.entries?] at hv
    split at hv
    next hcell =>
      rw [hcell]
      rfl
    next => cases hv

/-- Where all values stand, the mark is never written. -/
theorem inspectMarking_of_stands {F : Closure → Prop} (hheap : heap.All (Stands F heap))
    (mark : String) (levels : ℕ) (outer : List Ref) {v : Value} (hv : v.Stands F heap) :
    v.inspectMarking mark heap levels outer = v.inspectWithin heap levels outer := by
  have hcell : ∀ outer r inside?, (heap.get? r).isSome →
      inspectCellMarking mark heap outer r inside? = inspectCell heap outer r inside? := by
    intro outer r inside? hr
    rw [inspectCellMarking, Option.isNone_eq_false_iff.2 hr, Bool.and_false]
    rfl
  induction levels generalizing outer v with
  | zero =>
      cases v with
      | array r => exact hcell outer r none (hv.isSome_get? (.inl rfl))
      | object r => exact hcell outer r none (hv.isSome_get? (.inr rfl))
      | _ => rfl
  | succ levels ih =>
      have hinside : ∀ r cell, heap.get? r = some cell → cell.All fun w =>
          w.inspectMarking mark heap levels (r :: outer) =
            w.inspectWithin heap levels (r :: outer) := by
        intro r cell hget
        have hall := hheap r cell hget
        cases cell with
        | array items => exact fun w hw => ih (r :: outer) (hall w hw)
        | object entries => exact fun e he => ih (r :: outer) (hall e he)
      cases v with
      | array r =>
          rw [inspectMarking, inspectWithin, hcell _ _ _ (hv.isSome_get? (.inl rfl))]
          exact inspectCell_congr (hinside r)
      | object r =>
          rw [inspectMarking, inspectWithin, hcell _ _ _ (hv.isSome_get? (.inr rfl))]
          exact inspectCell_congr (hinside r)
      | _ => rfl

end Value

/-! ### References -/

namespace Machine

variable {G : Proto → Prop} {m : Machine}

/-- A value is held somewhere in a machine. -/
inductive Holds (m : Machine) : Value → Prop
  | operand {v : Value} : v ∈ m.stack → m.Holds v
  | binding {id : ScopeId} {s : Scope Value} {b : Binding Value} :
    m.scopes.scope? id = some s → b ∈ s.bindings → m.Holds b.value
  | item {r : Ref} {items : Array Value} {v : Value} :
    m.heap.get? r = some (.array items) → v ∈ items → m.Holds v
  | entry {r : Ref} {entries : List (String × Value)} {e : String × Value} :
    m.heap.get? r = some (.object entries) → e ∈ entries → m.Holds e.2
  | intrinsic {e : String × Value} : e ∈ m.intrinsics → m.Holds e.2

theorem Intact.backs (hm : m.Intact G) {v : Value} (hv : m.Holds v) : m.Backs G v := by
  cases hv with
  | operand hv => exact hm.stack v hv
  | binding hs hb => exact hm.store.scopes _ _ hs _ hb
  | item hcell hv => exact hm.store.heap _ _ hcell v hv
  | entry hcell he => exact hm.store.heap _ _ hcell _ he
  | intrinsic he => exact hm.store.intrinsics _ he

/-- All references of a machine lead to what they should lead to. -/
structure Consistent (m : Machine) : Prop where
  /-- Values refer to cells of their kind, and functions to scopes. -/
  values : ∀ v, m.Holds v → v.Stands (fun f => f.scope.index < m.scopes.size) m.heap
  frames : ∀ f ∈ m.frames, f.scope.index < m.scopes.size
  /-- The keys of an object are distinct. -/
  keys : ∀ r entries, m.heap.get? r = some (.object entries) → (entries.map Prod.fst).Nodup

/-- What is shown of the values of a machine is what is in its heap. -/
structure ShowsHeap (m : Machine) : Prop where
  /-- Nothing of an inspected text stands for a reference that leads nowhere. -/
  inspect : ∀ v, m.Holds v → ∀ mark,
    v.inspectMarking mark m.heap Value.inspectLevels [] = v.inspect m.heap
  arrays : ∀ r, m.Holds (.array r) →
    ∃ items, m.heap.get? r = some (.array items) ∧
      m.marshal (.array r) = .list r.index items.toList
  objects : ∀ r, m.Holds (.object r) →
    ∃ entries, m.heap.get? r = some (.object entries) ∧
      m.marshal (.object r) = .record r.index entries

theorem Intact.consistent (hm : m.Intact G) : m.Consistent where
  values _ hv := (hm.backs hv).mono (fun _ hf => hf.2) (.refl _)
  frames f hf := (hm.frames f hf).1
  keys r _ hentries := hm.store.keys r _ hentries

/-- An array that stands is seen with the items of its cell. -/
theorem marshal_array_of_backs {r : Ref} (hr : m.Backs G (.array r)) :
    ∃ items, m.heap.get? r = some (.array items) ∧
      m.marshal (.array r) = .list r.index items.toList := by
  obtain ⟨items, hitems⟩ := Option.isSome_iff_exists.1 hr
  refine ⟨items, ?_, by rw [marshal, hitems]; rfl⟩
  rw [Heap.items?] at hitems
  split at hitems
  next hcell =>
    cases hitems
    exact hcell
  next => cases hitems

/-- An object that stands is seen with the entries of its cell. -/
theorem marshal_object_of_backs {r : Ref} (hr : m.Backs G (.object r)) :
    ∃ entries, m.heap.get? r = some (.object entries) ∧
      m.marshal (.object r) = .record r.index entries := by
  obtain ⟨entries, hentries⟩ := Option.isSome_iff_exists.1 hr
  refine ⟨entries, ?_, by rw [marshal, hentries]; rfl⟩
  rw [Heap.entries?] at hentries
  split at hentries
  next hcell =>
    cases hentries
    exact hcell
  next => cases hentries

theorem Intact.showsHeap (hm : m.Intact G) : m.ShowsHeap where
  inspect _ hv mark := Value.inspectMarking_of_stands hm.store.heap mark _ [] (hm.backs hv)
  arrays _ hr := marshal_array_of_backs (hm.backs hr)
  objects _ hr := marshal_object_of_backs (hm.backs hr)

end Machine

/-- **No reference leads nowhere.** However far a machine has gone on the run of a program, also
behind faults, all its references lead to what they should lead to; scopes and cells are never
removed, and a cell stays an array or an object; and what is shown of values is what is in the
heap. -/
theorem references_stand (program : Program) (n : ℕ) :
    (machineAfter program n).Consistent ∧
    (∀ k ≤ n, (machineAfter program k).scopes.Extends (machineAfter program n).scopes ∧
      (machineAfter program k).heap.Extends (machineAfter program n).heap) ∧
    (machineAfter program n).ShowsHeap := by
  have hintact := intact_machineAfter program n
  refine ⟨hintact.consistent, fun k hk => ?_, hintact.showsHeap⟩
  have hleads := leads_machineAfter program hk
  exact ⟨hleads.store.scopes, hleads.store.heap⟩

end Tracepoint
