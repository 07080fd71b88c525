/-
What stays in scopes and heaps.

Scopes and cells are never removed.  A scope keeps its parent, and every binding in it keeps its
place, its name and its kind; a constant keeps its value too.  A cell stays an array or an object.
No scope binds a name twice, and no object has a key twice.

Main definitions:

* `Scope.Extends`, `Arena.Extends` — a later scope, later scopes;
* `Arena.names`, `Arena.Distinct` — the names bound in a scope; no scope binds a name twice;
* `Cell.SameKind`, `Heap.Extends` — a later heap;
* `Heap.Distinct` — no object has a key twice.

Main results:

* `Arena.extends_declare`, `Arena.extends_assign`, `Arena.extends_bindParameters`;
* `Arena.Distinct.declare`, `Arena.Distinct.assign`, `Arena.Distinct.bindParameters`;
* `Heap.extends_setItem`, `Heap.extends_setProperty`, `Heap.extends_pushItems`;
* `Heap.Distinct.allocate`, `Heap.Distinct.setProperty` — and what else is done to a heap.
-/

import Mathlib.Data.List.Nodup
import Tracepoint.Proofs.Store.Contents

set_option relaxedAutoImplicit false
set_option autoImplicit false

namespace Tracepoint

/-! ### Bindings -/

namespace Binding

variable {α : Type} {b b' b'' : Binding α}

/-- A binding later on: of the same name and kind, and of the same value if it is constant. -/
structure Becomes (b b' : Binding α) : Prop where
  name : b'.name = b.name
  kind : b'.kind = b.kind
  value : b.kind = .const_ → b'.value = b.value

theorem Becomes.refl (b : Binding α) : b.Becomes b :=
  ⟨rfl, rfl, fun _ => rfl⟩

theorem Becomes.trans (h : b.Becomes b') (h' : b'.Becomes b'') : b.Becomes b'' :=
  ⟨h'.name.trans h.name, h'.kind.trans h.kind,
    fun hconst => (h'.value (h.kind.trans hconst)).trans (h.value hconst)⟩

theorem map_name_overwrite (name : String) (v : α) (bs : List (Binding α)) :
    (overwrite name v bs).map Binding.name = bs.map Binding.name := by
  induction bs with
  | nil => rfl
  | cons first rest ih =>
      rw [overwrite]
      split
      · rfl
      · rw [List.map_cons, List.map_cons, ih]

/-- What a binding becomes when the first one of a name is overwritten, which is no constant. -/
theorem becomes_overwrite {name : String} {v : α} {bs : List (Binding α)}
    (hfirst : ∀ b, bs.find? (fun b => b.name == name) = some b → b.kind ≠ .const_) {k : ℕ}
    (hb : bs[k]? = some b) : ∃ b', (overwrite name v bs)[k]? = some b' ∧ b.Becomes b' := by
  induction bs generalizing k with
  | nil => cases hb
  | cons first rest ih =>
      rw [overwrite]
      rw [List.find?_cons] at hfirst
      by_cases hname : first.name = name
      -- The first binding is the one that is overwritten.
      · rw [if_pos hname]
        rw [beq_iff_eq.2 hname] at hfirst
        cases k with
        | zero =>
            obtain rfl : first = b := Option.some.inj hb
            exact ⟨_, rfl, rfl, rfl, fun hconst => absurd hconst (hfirst first rfl)⟩
        | succ k => exact ⟨b, hb, .refl b⟩
      · rw [if_neg hname]
        rw [beq_eq_false_iff_ne.2 hname] at hfirst
        cases k with
        | zero => exact ⟨b, hb, .refl b⟩
        | succ k => exact ih hfirst hb

end Binding

/-! ### Scopes -/

namespace Scope

variable {α : Type} {s s' s'' : Scope α}

/-- A scope later on: inside the same scope, with every binding at its place. -/
structure Extends (s s' : Scope α) : Prop where
  parent : s'.parent = s.parent
  bindings : ∀ (k : ℕ) b, s.bindings[k]? = some b → ∃ b', s'.bindings[k]? = some b' ∧ b.Becomes b'

theorem Extends.refl (s : Scope α) : s.Extends s :=
  ⟨rfl, fun _ b hb => ⟨b, hb, .refl b⟩⟩

theorem Extends.trans (h : s.Extends s') (h' : s'.Extends s'') : s.Extends s'' := by
  refine ⟨h'.parent.trans h.parent, fun k b hb => ?_⟩
  obtain ⟨b', hb', hbecomes⟩ := h.bindings k b hb
  obtain ⟨b'', hb'', hbecomes'⟩ := h'.bindings k b' hb'
  exact ⟨b'', hb'', hbecomes.trans hbecomes'⟩

theorem extends_add (s : Scope α) (b : Binding α) : s.Extends (s.add b) := by
  refine ⟨rfl, fun k b' hb' => ⟨b', ?_, .refl b'⟩⟩
  rw [add, List.getElem?_append_left (List.getElem?_eq_some_iff.1 hb').1]
  exact hb'

theorem extends_overwrite {name : String} {b : Binding α} (hfind : s.find? name = some b)
    (hb : b.kind ≠ .const_) (v : α) : s.Extends (s.overwrite name v) := by
  refine ⟨rfl, fun k b' hb' => Binding.becomes_overwrite (fun b'' hb'' => ?_) hb'⟩
  rwa [Option.some.inj (hb''.symm.trans hfind)]

end Scope

namespace Arena

variable {α : Type} {a a' a'' : Arena α}

/-- Scopes later on: all that were there, and maybe more. -/
def Extends (a a' : Arena α) : Prop :=
  ∀ id s, a.scope? id = some s → ∃ s', a'.scope? id = some s' ∧ s.Extends s'

theorem Extends.refl (a : Arena α) : a.Extends a :=
  fun _ s hs => ⟨s, hs, .refl s⟩

theorem Extends.trans (h : a.Extends a') (h' : a'.Extends a'') : a.Extends a'' := by
  intro id s hs
  obtain ⟨s', hs', hextends⟩ := h id s hs
  obtain ⟨s'', hs'', hextends'⟩ := h' id s' hs'
  exact ⟨s'', hs'', hextends.trans hextends'⟩

theorem isSome_scope? {id : ScopeId} : (a.scope? id).isSome ↔ id.index < a.size := by
  rw [Option.isSome_iff_exists]
  exact ⟨fun ⟨s, hs⟩ => (Array.getElem?_eq_some_iff.1 hs).1,
    fun h => ⟨_, Array.getElem?_eq_getElem h⟩⟩

/-- No scope has gone. -/
theorem Extends.size_le (h : a.Extends a') : a.size ≤ a'.size := by
  by_contra hlt
  have hgone : (a.scope? ⟨a'.size⟩).isSome := isSome_scope?.2 (Nat.lt_of_not_le hlt)
  obtain ⟨s, hs⟩ := Option.isSome_iff_exists.1 hgone
  obtain ⟨s', hs', -⟩ := h _ s hs
  exact Nat.lt_irrefl _ (isSome_scope?.1 (Option.isSome_of_mem hs'))

theorem extends_newScope (parent : ScopeId) : a.Extends (a.newScope parent).2 := by
  intro id s hs
  have hne : id.index ≠ a.size :=
    Nat.ne_of_lt (isSome_scope?.1 (Option.isSome_of_mem hs))
  exact ⟨s, by rw [scope?_newScope, if_neg hne, hs], .refl s⟩

/-- One scope changes to a later one. -/
theorem extends_modify {id : ScopeId} {f : Scope α → Scope α}
    (hf : ∀ s, a.scope? id = some s → s.Extends (f s)) : a.Extends (a.modify id f) := by
  intro other s hs
  rw [scope?_modify]
  by_cases hindex : id.index = other.index
  · rw [if_pos hindex, hs]
    obtain rfl : id = other := congrArg ScopeId.mk hindex
    exact ⟨f s, rfl, hf s hs⟩
  · rw [if_neg hindex]
    exact ⟨s, hs, .refl s⟩

/-! #### Declarations and assignments -/

/-- The scope that a name is found in has a binding of that name. -/
theorem find?_of_resolve? {id holder : ScopeId} {name : String} {b : Binding α}
    (h : a.resolve? id name = some (holder, b)) :
    ∃ s, a.scope? holder = some s ∧ s.find? name = some b := by
  obtain ⟨other, -, hfound⟩ := List.exists_of_findSome?_eq_some h
  obtain ⟨b', hb', heq⟩ := Option.map_eq_some_iff.1 hfound
  cases heq
  exact Option.bind_eq_some_iff.1 hb'

/-- A kind that may be declared again is not that of a constant. -/
theorem ne_const_of_isRedeclarable {kind other : BindingKind}
    (h : (kind.isRedeclarable && other.isRedeclarable) = true) : kind ≠ .const_ := by
  rintro rfl
  cases h

section

variable (id : ScopeId) (name : String) (v : α)

theorem extends_declare (kind : BindingKind) : a.Extends (a.declare id name v kind).2 := by
  simp only [Arena.declare]
  split
  · exact .refl a
  next s hs =>
    split
    · exact extends_modify fun s _ => s.extends_add _
    next b hb =>
      split
      next hagain =>
        refine extends_modify fun s' hs' => ?_
        obtain rfl := Option.some.inj (hs.symm.trans hs')
        exact Scope.extends_overwrite hb (ne_const_of_isRedeclarable hagain) v
      next => exact .refl a

theorem extends_assign : a.Extends (a.assign id name v).2 := by
  simp only [Arena.assign]
  split
  · exact .refl a
  next holder b hresolve =>
    split
    · exact .refl a
    next hkind =>
      obtain ⟨s, hs, hfind⟩ := find?_of_resolve? hresolve
      refine extends_modify fun s' hs' => ?_
      obtain rfl := Option.some.inj (hs.symm.trans hs')
      exact Scope.extends_overwrite hfind hkind v

end

/-! #### Names -/

/-- The names bound in a scope, in the order of their declaration. -/
def names (a : Arena α) (id : ScopeId) : List String :=
  (a.bindings id).map Binding.name

/-- No scope binds a name twice. -/
def Distinct (a : Arena α) : Prop :=
  ∀ id, (a.names id).Nodup

theorem names_initial (id : ScopeId) : (initial : Arena α).names id = [] := by
  simp only [names, bindings, initial, scope?]
  rw [List.getElem?_toArray, List.getElem?_singleton]
  split
  next s hs =>
    split at hs
    · cases hs
      rfl
    · cases hs
  · rfl

theorem distinct_initial : (initial : Arena α).Distinct := by
  intro id
  rw [names_initial]
  exact List.nodup_nil

theorem names_of_scope? {id : ScopeId} {s : Scope α} (h : a.scope? id = some s) :
    a.names id = s.bindings.map Binding.name := by
  rw [names, bindings, h]

/-- At first no scope binds anything. -/
theorem all_initial (P : α → Prop) : initial.All P := by
  intro id s hs b hb
  have hnames := @names_initial α id
  rw [names_of_scope? hs, List.map_eq_nil_iff] at hnames
  rw [hnames] at hb
  cases hb

theorem names_newScope (parent id : ScopeId) :
    (a.newScope parent).2.names id = a.names id := by
  rw [names, names, bindings, bindings, scope?_newScope]
  split_ifs with hindex
  · have hnone : a.scope? id = none := Array.getElem?_eq_none (Nat.le_of_eq hindex.symm)
    rw [hnone]
  · rfl

theorem names_modify {id : ScopeId} {f : Scope α → Scope α}
    (hf : ∀ s, (f s).bindings.map Binding.name = s.bindings.map Binding.name) (other : ScopeId) :
    (a.modify id f).names other = a.names other := by
  rw [names, names, bindings, bindings, scope?_modify]
  split_ifs with hindex
  · cases a.scope? other with
    | none => rfl
    | some s => exact hf s
  · rfl

theorem names_overwrite (id : ScopeId) (name : String) (v : α) (other : ScopeId) :
    (a.modify id fun s => s.overwrite name v).names other = a.names other :=
  names_modify (fun s => Binding.map_name_overwrite name v s.bindings) other

theorem names_assign (id : ScopeId) (name : String) (v : α) (other : ScopeId) :
    (a.assign id name v).2.names other = a.names other := by
  simp only [Arena.assign]
  split
  · rfl
  · split
    · rfl
    · exact names_overwrite _ name v other

/-- A name that is new in the scope is added to its names, behind all others. Nothing else
changes. -/
theorem names_declare (id : ScopeId) (name : String) (v : α) (kind : BindingKind)
    (other : ScopeId) :
    (a.declare id name v kind).2.names other =
      if other = id ∧ id.index < a.size ∧ name ∉ a.names id then a.names id ++ [name]
      else a.names other := by
  simp only [Arena.declare]
  split
  next hs =>
    have hout : ¬id.index < a.size := fun hlt => by
      rw [← isSome_scope?, hs] at hlt
      cases hlt
    rw [if_neg fun h => hout h.2.1]
  next s hs =>
    have hid : id.index < a.size := isSome_scope?.1 (Option.isSome_of_mem hs)
    split
    next hfind =>
      have hnew : name ∉ a.names id := by
        rw [names_of_scope? hs]
        intro hmem
        obtain ⟨b, hb, hname⟩ := List.mem_map.1 hmem
        exact List.find?_eq_none.1 hfind b hb (beq_iff_eq.2 hname)
      by_cases hother : other = id
      · have hadd : (a.modify id fun s => s.add ⟨name, v, kind⟩).scope? id =
            some (s.add ⟨name, v, kind⟩) := by
          rw [scope?_modify, if_pos rfl, hs]
          rfl
        rw [if_pos ⟨hother, hid, hnew⟩, hother, names_of_scope? hadd, names_of_scope? hs, Scope.add,
          List.map_append]
        rfl
      · rw [if_neg fun h => hother h.1, names, names, bindings_modify_of_ne a hother]
    next b hb =>
      have hname := List.find?_some hb
      have hold : name ∈ a.names id := by
        rw [names_of_scope? hs]
        exact List.mem_map.2 ⟨b, List.mem_of_find?_eq_some hb, beq_iff_eq.1 hname⟩
      have hsame : (if other = id ∧ id.index < a.size ∧ name ∉ a.names id then a.names id ++ [name]
          else a.names other) = a.names other := if_neg fun h => h.2.2 hold
      rw [hsame]
      split
      · exact names_overwrite id name v other
      · rfl

theorem Distinct.newScope (h : a.Distinct) (parent : ScopeId) :
    (a.newScope parent).2.Distinct := by
  intro id
  rw [names_newScope]
  exact h id

theorem Distinct.assign (h : a.Distinct) (id : ScopeId) (name : String) (v : α) :
    (a.assign id name v).2.Distinct := by
  intro other
  rw [names_assign]
  exact h other

theorem Distinct.declare (h : a.Distinct) (id : ScopeId) (name : String) (v : α)
    (kind : BindingKind) : (a.declare id name v kind).2.Distinct := by
  intro other
  rw [names_declare]
  split_ifs with hnew
  · rw [← List.concat_eq_append]
    exact List.Nodup.concat hnew.2.2 (h id)
  · exact h other

theorem Distinct.bindParameters (scope : ScopeId) (names : List String) :
    ∀ (values : List Value) (a : Arena Value), a.Distinct →
      (Act.bindParameters a scope names values).Distinct := by
  intro values a ha
  exact bindParameters_induction ha fun b name v _ hb => hb.declare scope name v _

end Arena

theorem Arena.extends_bindParameters (scope : ScopeId) (names : List String) :
    ∀ (values : List Value) (a : Arena Value),
      a.Extends (Act.bindParameters a scope names values) := by
  intro values a
  refine bindParameters_induction (.refl a) fun b name v _ hb => ?_
  exact hb.trans (extends_declare scope name v _)

/-! ### Heaps -/

/-- Both cells are arrays, or both are objects. -/
def Cell.SameKind {α : Type} : Cell α → Cell α → Prop
  | .array _, .array _ => True
  | .object _, .object _ => True
  | _, _ => False

theorem Cell.SameKind.refl {α : Type} (cell : Cell α) : cell.SameKind cell := by
  cases cell <;> trivial

theorem Cell.SameKind.trans {α : Type} {c c' c'' : Cell α} (h : c.SameKind c')
    (h' : c'.SameKind c'') : c.SameKind c'' := by
  cases c <;> cases c' <;> cases c'' <;> trivial

/-- The keys of an object. An array has none. -/
def Cell.keys {α : Type} : Cell α → List String
  | .array _ => []
  | .object entries => entries.map Prod.fst

namespace Heap

variable {α : Type} {h h' h'' : Heap α}

/-- A heap later on: all cells that were there, each of its kind, and maybe more. -/
def Extends (h h' : Heap α) : Prop :=
  ∀ r cell, h.get? r = some cell → ∃ cell', h'.get? r = some cell' ∧ cell.SameKind cell'

theorem Extends.refl (h : Heap α) : h.Extends h :=
  fun _ cell hcell => ⟨cell, hcell, .refl cell⟩

theorem Extends.trans (hfirst : h.Extends h') (hsecond : h'.Extends h'') : h.Extends h'' := by
  intro r cell hcell
  obtain ⟨cell', hcell', hsame⟩ := hfirst r cell hcell
  obtain ⟨cell'', hcell'', hsame'⟩ := hsecond r cell' hcell'
  exact ⟨cell'', hcell'', hsame.trans hsame'⟩

/-- No cell has gone. -/
theorem Extends.size_le (hextends : h.Extends h') : h.size ≤ h'.size := by
  by_contra hlt
  obtain ⟨cell', hcell', -⟩ := hextends ⟨h'.size⟩ _
    (Array.getElem?_eq_getElem (Nat.lt_of_not_le hlt))
  exact Nat.lt_irrefl _ (Array.getElem?_eq_some_iff.1 hcell').1

theorem Extends.items? (hextends : h.Extends h') {r : Ref} (hr : (h.items? r).isSome) :
    (h'.items? r).isSome := by
  rw [Heap.items?] at hr ⊢
  split at hr
  next items hcell =>
    obtain ⟨cell', hcell', hsame⟩ := hextends r _ hcell
    rw [hcell']
    cases cell' with
    | array items' => rfl
    | object entries => cases hsame
  next => cases hr

theorem Extends.entries? (hextends : h.Extends h') {r : Ref} (hr : (h.entries? r).isSome) :
    (h'.entries? r).isSome := by
  rw [Heap.entries?] at hr ⊢
  split at hr
  next entries hcell =>
    obtain ⟨cell', hcell', hsame⟩ := hextends r _ hcell
    rw [hcell']
    cases cell' with
    | array items => cases hsame
    | object entries' => rfl
  next => cases hr

theorem extends_allocate (cell : Cell α) : h.Extends (h.allocate cell).2 := by
  intro r other hother
  have hne : r.index ≠ h.size := Nat.ne_of_lt (Array.getElem?_eq_some_iff.1 hother).1
  exact ⟨other, by rw [get?_allocate_eq, if_neg hne, hother], .refl other⟩

theorem isSome_entries?_newObject (entries : List (String × α)) :
    ((h.newObject entries).2.entries? (h.newObject entries).1).isSome := by
  rw [Heap.entries?, newObject, get?_allocate]
  rfl

theorem extends_modify (r : Ref) {f : Cell α → Cell α}
    (hf : ∀ cell : Cell α, cell.SameKind (f cell)) :
    h.Extends (h.modify r f) := by
  intro other cell hcell
  rw [get?_modify]
  split_ifs
  · exact ⟨f cell, by rw [hcell]; rfl, hf cell⟩
  · exact ⟨cell, hcell, .refl cell⟩

section

variable (r : Ref)

theorem extends_setProperty (name : String) (v : α) : h.Extends (h.setProperty r name v) :=
  extends_modify r fun cell => by cases cell <;> trivial

theorem extends_setItem (fill : α) (position : ℕ) (v : α) :
    h.Extends (h.setItem r fill position v) :=
  extends_modify r fun cell => by cases cell <;> trivial

theorem extends_pushItems (values : List α) : h.Extends (h.pushItems r values) :=
  extends_modify r fun cell => by cases cell <;> trivial

end

/-! #### Keys -/

/-- A key that is not there yet comes behind all others. -/
theorem keys_setEntry (key : String) (v : α) (entries : List (String × α)) :
    (setEntry key v entries).map Prod.fst =
      if key ∈ entries.map Prod.fst then entries.map Prod.fst
      else entries.map Prod.fst ++ [key] := by
  induction entries with
  | nil => rfl
  | cons first rest ih =>
      obtain ⟨k, w⟩ := first
      rw [setEntry]
      by_cases hkey : k = key
      · rw [if_pos hkey, if_pos (by rw [← hkey]; exact List.mem_cons_self ..)]
        rfl
      · rw [if_neg hkey, List.map_cons, List.map_cons, ih]
        by_cases hmem : key ∈ rest.map Prod.fst
        · rw [if_pos hmem, if_pos (List.mem_cons_of_mem _ hmem)]
        · rw [if_neg hmem, if_neg]
          · rfl
          · exact List.not_mem_cons_of_ne_of_not_mem (Ne.symm hkey) hmem

theorem nodup_setEntry {entries : List (String × α)} (hnodup : (entries.map Prod.fst).Nodup)
    (key : String) (v : α) : ((setEntry key v entries).map Prod.fst).Nodup := by
  rw [keys_setEntry]
  split_ifs with hkey
  · exact hnodup
  · rw [← List.concat_eq_append]
    exact List.Nodup.concat hkey hnodup

/-- No object has a key twice. -/
def Distinct (h : Heap α) : Prop :=
  ∀ r cell, h.get? r = some cell → cell.keys.Nodup

theorem Distinct.allocate (hdistinct : h.Distinct) {cell : Cell α} (hcell : cell.keys.Nodup) :
    (h.allocate cell).2.Distinct := by
  intro r other hother
  rw [get?_allocate_eq] at hother
  split at hother
  · cases hother
    exact hcell
  · exact hdistinct r other hother

theorem Distinct.modify (hdistinct : h.Distinct) (r : Ref) {f : Cell α → Cell α}
    (hf : ∀ cell : Cell α, cell.keys.Nodup → (f cell).keys.Nodup) : (h.modify r f).Distinct := by
  intro other cell hcell
  rw [get?_modify] at hcell
  split at hcell
  · obtain ⟨cell', hcell', rfl⟩ := Option.map_eq_some_iff.1 hcell
    exact hf cell' (hdistinct other cell' hcell')
  · exact hdistinct other cell hcell

section

variable (hdistinct : h.Distinct) (r : Ref)

include hdistinct

theorem Distinct.setProperty (name : String) (v : α) : (h.setProperty r name v).Distinct := by
  refine hdistinct.modify r fun cell hcell => ?_
  cases cell with
  | array items => exact hcell
  | object entries => exact nodup_setEntry hcell name v

theorem Distinct.setItem (fill : α) (position : ℕ) (v : α) :
    (h.setItem r fill position v).Distinct :=
  hdistinct.modify r fun cell hcell => by cases cell <;> exact hcell

theorem Distinct.pushItems (values : List α) : (h.pushItems r values).Distinct :=
  hdistinct.modify r fun cell hcell => by cases cell <;> exact hcell

end

end Heap

/-- The keys of an object that is made are all different. -/
theorem nodup_collectEntries (heap : Heap Value) :
    ∀ (values : List Value) (entries : List (String × Value)), (entries.map Prod.fst).Nodup →
      ((Act.collectEntries heap entries values).map Prod.fst).Nodup
  | [], _, h => h
  | [_], _, h => h
  | _ :: _ :: rest, _, h => nodup_collectEntries heap rest _ (Heap.nodup_setEntry h _ _)

end Tracepoint
