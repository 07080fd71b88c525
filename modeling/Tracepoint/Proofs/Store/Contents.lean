/-
What scopes and heaps hold.

A property that all values in the scopes have is kept by everything that is done to scopes, and
the same is true of the heap, as long as the values that are put in have it.  A scope never gets
another parent, and an array stays an array.

Main definitions:

* `Arena.All`, `Cell.All`, `Heap.All` — a property of all values that are held;
* `Arena.SameParents`, `Heap.SameArrays` — what later scopes and heaps keep;
* `Arena.Above` — so many steps outwards lead from one scope to another.

Main results:

* `Arena.All.declare`, `Arena.All.assign`, `Arena.All.newScope`, `Arena.All.bindParameters`;
* `Arena.bindParameters_induction` — what every declaration keeps is kept when a call binds its
  parameters;
* `Heap.All.allocate`, `Heap.All.setItem`, `Heap.All.setProperty`, `Heap.All.pushItems`;
* `Arena.parent?_newScope`, `Heap.isSome_items?_newArray` — what is new.
-/

import Mathlib.Data.Nat.Notation
import Tracepoint.Machine.Effect

set_option relaxedAutoImplicit false
set_option autoImplicit false

namespace Tracepoint

/-! ### Scopes -/

namespace Arena

variable {α : Type} {P Q : α → Prop} {a : Arena α}

/-- All values in the scopes have a property. -/
def All (P : α → Prop) (a : Arena α) : Prop :=
  ∀ id s, a.scope? id = some s → ∀ b ∈ s.bindings, P b.value

/-- Scopes with a parent keep it. -/
def SameParents (a a' : Arena α) : Prop :=
  ∀ id parent, a.parent? id = some parent → a'.parent? id = some parent

theorem All.mono (h : a.All P) (hPQ : ∀ v, P v → Q v) : a.All Q := by
  intro id s hs b hb
  exact hPQ _ (h id s hs b hb)

theorem SameParents.refl (a : Arena α) : a.SameParents a :=
  fun _ _ h => h

theorem SameParents.trans {a a' a'' : Arena α} (h : a.SameParents a') (h' : a'.SameParents a'') :
    a.SameParents a'' :=
  fun id parent hp => h' id parent (h id parent hp)

theorem scope?_modify (id other : ScopeId) (f : Scope α → Scope α) :
    (a.modify id f).scope? other =
      if id.index = other.index then (a.scope? other).map f else a.scope? other := by
  simp only [modify, scope?, Array.getElem?_modify]

theorem scope?_newScope (parent id : ScopeId) :
    (a.newScope parent).2.scope? id =
      if id.index = a.size then some ⟨[], some parent⟩ else a.scope? id := by
  simp only [newScope, scope?, size, Array.getElem?_push]
  rfl

/-! #### Scopes around a scope -/

/-- So many steps outwards lead from one scope to another. -/
def Above (a : Arena α) : ℕ → (inner outer : ScopeId) → Prop
  | 0, inner, outer => inner = outer
  | count + 1, inner, outer => ∃ middle, a.parent? inner = some middle ∧ a.Above count middle outer

theorem Above.mono {a a' : Arena α} (hsame : a.SameParents a') {count : ℕ}
    {inner outer : ScopeId} (h : a.Above count inner outer) : a'.Above count inner outer := by
  induction count generalizing inner with
  | zero => exact h
  | succ count ih =>
      obtain ⟨middle, hmiddle, hrest⟩ := h
      exact ⟨middle, hsame _ _ hmiddle, ih hrest⟩

/-! #### New scopes -/

theorem All.newScope (h : a.All P) (parent : ScopeId) : (a.newScope parent).2.All P := by
  intro id s hs b hb
  rw [scope?_newScope] at hs
  split at hs
  · cases hs
    cases hb
  · exact h id s hs b hb

theorem sameParents_newScope (parent : ScopeId) : a.SameParents (a.newScope parent).2 := by
  intro id outer houter
  have hid : id.index ≠ a.size := by
    intro heq
    have hnone : a.scope? id = none := Array.getElem?_eq_none (Nat.le_of_eq heq.symm)
    rw [parent?, hnone] at houter
    cases houter
  rw [parent?, scope?_newScope, if_neg hid]
  exact houter

/-- The scope that was opened lies inside the one it was opened in. -/
theorem parent?_newScope (parent : ScopeId) :
    (a.newScope parent).2.parent? (a.newScope parent).1 = some parent := by
  rw [parent?, scope?_newScope]
  exact congrArg (Option.bind · Scope.parent) (if_pos rfl)

/-! #### Changes of one scope -/

theorem All.modify (h : a.All P) (id : ScopeId) {f : Scope α → Scope α}
    (hf : ∀ s : Scope α, (∀ b ∈ s.bindings, P b.value) → ∀ b ∈ (f s).bindings, P b.value) :
    (a.modify id f).All P := by
  intro other s hs
  rw [scope?_modify] at hs
  split at hs
  · obtain ⟨s', hs', rfl⟩ := Option.map_eq_some_iff.1 hs
    exact hf s' (h other s' hs')
  · exact h other s hs

theorem sameParents_modify (id : ScopeId) {f : Scope α → Scope α}
    (hf : ∀ s, (f s).parent = s.parent) : a.SameParents (a.modify id f) := by
  intro other parent hparent
  rw [parent?, scope?_modify]
  split
  · rw [parent?] at hparent
    cases hs : a.scope? other with
    | none =>
        rw [hs] at hparent
        cases hparent
    | some s =>
        rw [hs] at hparent
        exact (hf s).trans hparent
  · exact hparent

theorem all_overwrite {name : String} {v : α} {bs : List (Binding α)} (hv : P v)
    (h : ∀ b ∈ bs, P b.value) : ∀ b ∈ Binding.overwrite name v bs, P b.value := by
  induction bs with
  | nil =>
      intro b hb
      cases hb
  | cons first rest ih =>
      have hfirst := h first (List.mem_cons_self ..)
      have hrest := fun b hb => h b (List.mem_cons_of_mem _ hb)
      intro b hb
      rw [Binding.overwrite] at hb
      split at hb
      · rcases List.mem_cons.1 hb with rfl | hb
        · exact hv
        · exact hrest b hb
      · rcases List.mem_cons.1 hb with rfl | hb
        · exact hfirst
        · exact ih hrest b hb

theorem all_add {v : α} {name : String} {kind : BindingKind} {bs : List (Binding α)} (hv : P v)
    (h : ∀ b ∈ bs, P b.value) : ∀ b ∈ bs ++ [⟨name, v, kind⟩], P b.value := by
  intro b hb
  rcases List.mem_append.1 hb with hb | hb
  · exact h b hb
  · cases List.mem_singleton.1 hb
    exact hv

section

variable (id : ScopeId) (name : String) (kind : BindingKind) {v : α}

theorem All.declare (h : a.All P) (hv : P v) : (a.declare id name v kind).2.All P := by
  simp only [Arena.declare]
  split
  · exact h
  · split
    · exact h.modify id fun _ hs => all_add hv hs
    · split
      · exact h.modify id fun _ hs => all_overwrite hv hs
      · exact h

theorem sameParents_declare (v : α) : a.SameParents (a.declare id name v kind).2 := by
  simp only [Arena.declare]
  split
  · exact .refl a
  · split
    · exact sameParents_modify id fun _ => rfl
    · split
      · exact sameParents_modify id fun _ => rfl
      · exact .refl a

theorem All.assign (h : a.All P) (hv : P v) : (a.assign id name v).2.All P := by
  simp only [Arena.assign]
  split
  · exact h
  · split
    · exact h
    · exact h.modify _ fun _ hs => all_overwrite hv hs

theorem sameParents_assign (v : α) : a.SameParents (a.assign id name v).2 := by
  simp only [Arena.assign]
  split
  · exact .refl a
  · split
    · exact .refl a
    · exact sameParents_modify _ fun _ => rfl

/-- What is read has the property. -/
theorem All.access (h : a.All P) (haccess : a.access id name = some v) : P v := by
  obtain ⟨⟨holder, b⟩, hresolve, rfl⟩ := Option.map_eq_some_iff.1 haccess
  obtain ⟨other, -, hfound⟩ := List.exists_of_findSome?_eq_some hresolve
  obtain ⟨b', hb', heq⟩ := Option.map_eq_some_iff.1 hfound
  obtain ⟨s, hs, hfind⟩ := Option.bind_eq_some_iff.1 hb'
  cases heq
  exact h holder s hs b (List.mem_of_find?_eq_some hfind)

end

end Arena

/-- To bind parameters is to declare one after the other, each with an argument or with nothing. -/
theorem Arena.bindParameters_induction {motive : Arena Value → Prop} {scope : ScopeId}
    {names : List String} {values : List Value} {a : Arena Value} (start : motive a)
    (declare : ∀ (a : Arena Value) (name : String) (v : Value), v = .undefined ∨ v ∈ values →
      motive a → motive (a.declare scope name v .parameter).2) :
    motive (Act.bindParameters a scope names values) := by
  induction names generalizing values a with
  | nil => exact start
  | cons name names ih =>
      cases values with
      | nil => exact ih (declare a name .undefined (Or.inl rfl) start) declare
      | cons v values =>
          refine ih (declare a name v (Or.inr List.mem_cons_self) start) fun a name w hw => ?_
          exact declare a name w (hw.imp_right (List.mem_cons_of_mem v))

theorem Arena.All.bindParameters {P : Value → Prop} (hundefined : P .undefined)
    (scope : ScopeId) (names : List String) :
    ∀ (values : List Value) (a : Arena Value), a.All P → (∀ v ∈ values, P v) →
      (Act.bindParameters a scope names values).All P := by
  intro values a ha hvalues
  refine bindParameters_induction ha fun b name v hv hb => ?_
  rcases hv with rfl | hv
  · exact hb.declare scope name .parameter hundefined
  · exact hb.declare scope name .parameter (hvalues v hv)

theorem Arena.sameParents_bindParameters (scope : ScopeId) (names : List String) :
    ∀ (values : List Value) (a : Arena Value),
      a.SameParents (Act.bindParameters a scope names values) := by
  intro values a
  refine bindParameters_induction (.refl a) fun b name v _ hb => ?_
  exact hb.trans (sameParents_declare scope name .parameter v)

/-! ### Heaps -/

/-- All values in a cell have a property. -/
def Cell.All {α : Type} (P : α → Prop) : Cell α → Prop
  | .array items => ∀ v ∈ items, P v
  | .object entries => ∀ e ∈ entries, P e.2

namespace Heap

variable {α : Type} {P Q : α → Prop} {h : Heap α}

/-- All values in the cells have a property. -/
def All (P : α → Prop) (h : Heap α) : Prop :=
  ∀ r cell, h.get? r = some cell → cell.All P

/-- Arrays stay arrays. -/
def SameArrays (h h' : Heap α) : Prop :=
  ∀ r, (h.items? r).isSome → (h'.items? r).isSome

theorem All.mono (hall : h.All P) (hPQ : ∀ v, P v → Q v) : h.All Q := by
  intro r cell hcell
  have hP := hall r cell hcell
  cases cell with
  | array items => exact fun v hv => hPQ v (hP v hv)
  | object entries => exact fun e he => hPQ e.2 (hP e he)

theorem SameArrays.refl (h : Heap α) : h.SameArrays h :=
  fun _ hr => hr

theorem SameArrays.trans {h h' h'' : Heap α} (h₁ : h.SameArrays h') (h₂ : h'.SameArrays h'') :
    h.SameArrays h'' :=
  fun r hr => h₂ r (h₁ r hr)

theorem get?_allocate_eq (cell : Cell α) (r : Ref) :
    (h.allocate cell).2.get? r = if r.index = h.size then some cell else h.get? r := by
  simp only [allocate, get?, size, Array.getElem?_push]
  rfl

theorem get?_modify (r other : Ref) (f : Cell α → Cell α) :
    (h.modify r f).get? other =
      if r.index = other.index then (h.get? other).map f else h.get? other := by
  simp only [modify, get?, Array.getElem?_modify]

/-! #### New cells -/

theorem All.allocate (hall : h.All P) {cell : Cell α} (hcell : cell.All P) :
    (h.allocate cell).2.All P := by
  intro r other hother
  rw [get?_allocate_eq] at hother
  split at hother
  · cases hother
    exact hcell
  · exact hall r other hother

theorem sameArrays_allocate (cell : Cell α) : h.SameArrays (h.allocate cell).2 := by
  intro r hr
  have hne : r.index ≠ h.size := by
    intro heq
    have hnone : h.get? r = none := Array.getElem?_eq_none (Nat.le_of_eq heq.symm)
    rw [items?, hnone] at hr
    cases hr
  rw [items?, get?_allocate_eq, if_neg hne]
  exact hr

theorem isSome_items?_newArray (items : Array α) :
    ((h.newArray items).2.items? (h.newArray items).1).isSome := by
  rw [items?, get?_newArray]
  rfl

/-! #### Changes of one cell -/

theorem All.modify (hall : h.All P) (r : Ref) {f : Cell α → Cell α}
    (hf : ∀ cell : Cell α, cell.All P → (f cell).All P) : (h.modify r f).All P := by
  intro other cell hcell
  rw [get?_modify] at hcell
  split at hcell
  · obtain ⟨cell', hcell', rfl⟩ := Option.map_eq_some_iff.1 hcell
    exact hf cell' (hall other cell' hcell')
  · exact hall other cell hcell

theorem sameArrays_modify (r : Ref) {f : Cell α → Cell α}
    (hf : ∀ items, ∃ items', f (.array items) = .array items') : h.SameArrays (h.modify r f) := by
  intro other hother
  rw [items?] at hother ⊢
  cases hcell : h.get? other with
  | none =>
      rw [hcell] at hother
      cases hother
  | some cell =>
      rw [hcell] at hother
      cases cell with
      | object entries => cases hother
      | array items =>
          obtain ⟨items', hitems'⟩ := hf items
          rw [get?_modify, hcell, Option.map_some, hitems']
          by_cases hindex : r.index = other.index
          · rw [if_pos hindex]
            rfl
          · rw [if_neg hindex]
            rfl

theorem all_setEntry {key : String} {v : α} {entries : List (String × α)} (hv : P v)
    (hall : ∀ e ∈ entries, P e.2) : ∀ e ∈ setEntry key v entries, P e.2 := by
  induction entries with
  | nil =>
      intro e he
      cases List.mem_singleton.1 he
      exact hv
  | cons first rest ih =>
      have hfirst := hall first (List.mem_cons_self ..)
      have hrest := fun e he => hall e (List.mem_cons_of_mem _ he)
      intro e he
      rw [setEntry] at he
      split at he
      · rcases List.mem_cons.1 he with rfl | he
        · exact hv
        · exact hrest e he
      · rcases List.mem_cons.1 he with rfl | he
        · exact hfirst
        · exact ih hrest e he

theorem all_setItemAt {fill v : α} {items : Array α} (position : ℕ) (hfill : P fill) (hv : P v)
    (hall : ∀ w ∈ items, P w) : ∀ w ∈ setItemAt fill items position v, P w := by
  intro w hw
  rw [setItemAt] at hw
  split at hw
  · rcases Array.mem_or_eq_of_mem_setIfInBounds hw with hw | rfl
    · exact hall w hw
    · exact hv
  · rcases Array.mem_push.1 hw with hw | rfl
    · rcases Array.mem_append.1 hw with hw | hw
      · exact hall w hw
      · rw [(Array.mem_replicate.1 hw).2]
        exact hfill
    · exact hv

theorem all_foldl_push {items : Array α} {values : List α} (hall : ∀ w ∈ items, P w)
    (hvalues : ∀ v ∈ values, P v) : ∀ w ∈ values.foldl Array.push items, P w := by
  intro w hw
  rw [List.foldl_push_eq_append'] at hw
  rcases Array.mem_append.1 hw with hw | hw
  · exact hall w hw
  · exact hvalues w (List.mem_toArray.1 hw)

section

variable (r : Ref)

theorem All.setProperty (hall : h.All P) (name : String) {v : α} (hv : P v) :
    (h.setProperty r name v).All P := by
  refine hall.modify r fun cell hcell => ?_
  cases cell with
  | array items => exact hcell
  | object entries => exact all_setEntry hv hcell

theorem sameArrays_setProperty (name : String) (v : α) :
    h.SameArrays (h.setProperty r name v) :=
  sameArrays_modify r fun items => ⟨items, rfl⟩

theorem All.setItem (hall : h.All P) {fill : α} (position : ℕ) {v : α} (hfill : P fill)
    (hv : P v) : (h.setItem r fill position v).All P := by
  refine hall.modify r fun cell hcell => ?_
  cases cell with
  | array items => exact all_setItemAt position hfill hv hcell
  | object entries => exact hcell

theorem sameArrays_setItem (fill : α) (position : ℕ) (v : α) :
    h.SameArrays (h.setItem r fill position v) :=
  sameArrays_modify r fun items => ⟨setItemAt fill items position v, rfl⟩

theorem All.pushItems (hall : h.All P) {values : List α} (hvalues : ∀ v ∈ values, P v) :
    (h.pushItems r values).All P := by
  refine hall.modify r fun cell hcell => ?_
  cases cell with
  | array items => exact all_foldl_push hcell hvalues
  | object entries => exact hcell

theorem sameArrays_pushItems (values : List α) : h.SameArrays (h.pushItems r values) :=
  sameArrays_modify r fun items => ⟨values.foldl Array.push items, rfl⟩

/-- What is read from an array has the property. -/
theorem All.item (hall : h.All P) {items : Array α} {position : ℕ} {v : α}
    (hitems : h.items? r = some items) (hv : items[position]? = some v) : P v := by
  rw [items?] at hitems
  split at hitems
  next other hcell =>
    cases hitems
    exact hall r _ hcell v (Array.mem_of_getElem? hv)
  next => cases hitems

theorem all_valueOf? {name : String} {entries : List (String × α)} {v : α}
    (hall : ∀ e ∈ entries, P e.2) (hv : valueOf? name entries = some v) : P v := by
  obtain ⟨e, he, rfl⟩ := Option.map_eq_some_iff.1 hv
  exact hall e (List.mem_of_find?_eq_some he)

/-- What is read from an object has the property. -/
theorem All.property (hall : h.All P) {name : String} {v : α}
    (hv : h.property? r name = some v) : P v := by
  obtain ⟨entries, hentries, hvalue⟩ := Option.bind_eq_some_iff.1 hv
  rw [entries?] at hentries
  split at hentries
  next other hcell =>
    cases hentries
    exact all_valueOf? (hall r _ hcell) hvalue
  next => cases hentries

end

end Heap

end Tracepoint
