/-
Actions never meet a defect.

A value that refers to an array refers to a cell that holds one.  Every action keeps this true of
all that a store holds and yields only such values; so an action that is given such values ends in
a fault of the program, if it ends in one at all.

Of functions of the script an action knows nothing.  They have some property, which is the same
before and after.

Main definitions:

* `Value.Known` — what a value refers to is there;
* `Store.Valid`, `Store.Grows` — all values of a store are known; a store comes after another;
* `Act.Sound` — an action on a store ends without a defect and keeps the store valid.

Main results:

* `Act.sound_read`, `Act.sound_assign`, `Act.sound_setIndex`, `Act.sound_callNative` and one such
  lemma for every other action.
-/

import Tracepoint.Proofs.Store.Contents

set_option relaxedAutoImplicit false
set_option autoImplicit false

namespace Tracepoint

/-! ### Known values -/

/-- What a value refers to is there. Functions of the script have the property `F`. -/
def Value.Known (F : Closure → Prop) (heap : Heap Value) : Value → Prop
  | .array r => (heap.items? r).isSome
  | .native (.push _ r) => (heap.items? r).isSome
  | .function f => F f
  | _ => True

theorem Value.Known.mono {F F' : Closure → Prop} {heap heap' : Heap Value} {v : Value}
    (h : v.Known F heap) (hF : ∀ f, F f → F' f) (hheap : heap.SameArrays heap') :
    v.Known F' heap' := by
  cases v with
  | array r => exact hheap r h
  | native f =>
      cases f with
      | console name => trivial
      | push identity r => exact hheap r h
  | function f => exact hF f h
  | _ => trivial

theorem Constant.known_toValue (F : Closure → Prop) (heap : Heap Value) (c : Constant) :
    c.toValue.Known F heap := by
  cases c <;> trivial

/-- The fault is one that only code which was not compiled from a program can meet. -/
def Fault.IsDefect : Fault → Prop
  | .internal _ => True
  | _ => False

namespace Store

/-- All values of a store are known. -/
structure Valid (F : Closure → Prop) (s : Store) : Prop where
  scopes : s.scopes.All (Value.Known F s.heap)
  heap : s.heap.All (Value.Known F s.heap)
  intrinsics : ∀ e ∈ s.intrinsics, Value.Known F s.heap e.2

/-- A store comes after another one. -/
structure Grows (s s' : Store) : Prop where
  scopes : s.scopes.SameParents s'.scopes
  heap : s.heap.SameArrays s'.heap
  fresh : s.fresh ≤ s'.fresh

variable {F F' : Closure → Prop} {s s' s'' : Store}

theorem Grows.refl (s : Store) : s.Grows s :=
  ⟨.refl _, .refl _, Nat.le_refl _⟩

theorem Grows.trans (h : s.Grows s') (h' : s'.Grows s'') : s.Grows s'' :=
  ⟨h.scopes.trans h'.scopes, h.heap.trans h'.heap, Nat.le_trans h.fresh h'.fresh⟩

theorem Valid.mono (h : s.Valid F) (hF : ∀ f, F f → F' f) : s.Valid F' := by
  have hknown : ∀ v, Value.Known F s.heap v → Value.Known F' s.heap v := fun v hv =>
    hv.mono hF (.refl _)
  exact ⟨h.scopes.mono hknown, h.heap.mono hknown, fun e he => hknown e.2 (h.intrinsics e he)⟩

theorem Valid.withScopes (h : s.Valid F) {scopes : Arena Value}
    (hall : scopes.All (Value.Known F s.heap)) : Valid F { s with scopes } :=
  ⟨hall, h.heap, h.intrinsics⟩

theorem Valid.withHeap (h : s.Valid F) {heap : Heap Value} (hsame : s.heap.SameArrays heap)
    (hall : heap.All (Value.Known F s.heap)) : Valid F { s with heap } := by
  have hknown : ∀ v, Value.Known F s.heap v → Value.Known F heap v := fun v hv =>
    hv.mono (fun _ hf => hf) hsame
  exact ⟨h.scopes.mono hknown, hall.mono hknown, fun e he => hknown e.2 (h.intrinsics e he)⟩

/-- What a program finds is known. -/
theorem valid_start (F : Closure → Prop) : start.Valid F := by
  constructor
  · intro id s hs b hb
    -- The only scope is the global one, and it is empty.
    have hid : s = ⟨[], none⟩ := by
      simp only [start, Arena.initial, Arena.scope?] at hs
      rw [List.getElem?_toArray, List.getElem?_singleton] at hs
      split at hs
      · cases hs
        rfl
      · cases hs
    rw [hid] at hb
    cases hb
  · refine Heap.All.allocate ?_ ?_
    · intro r cell hcell
      cases hcell
    -- The properties of the console are native functions.
    · intro e he
      obtain ⟨name, -, rfl⟩ := List.mem_map.1 he
      trivial
  · intro e he
    cases List.mem_singleton.1 he
    trivial

theorem Valid.lookup? (h : s.Valid F) {scope : ScopeId} {name : String} {v : Value}
    (hv : s.lookup? scope name = some v) : v.Known F s.heap := by
  rw [Store.lookup?] at hv
  split at hv
  next w hw =>
    cases hv
    exact h.scopes.access scope name hw
  next => exact Heap.all_valueOf? h.intrinsics hv

end Store

/-! ### Sound actions -/

namespace Act

variable {F : Closure → Prop} {α β : Type} {s : Store}

/-- An action on a store ends without a defect. The store that it leaves is valid, and of its
result `P` holds there. -/
def Sound (F : Closure → Prop) (s : Store) (act : Act α) (P : Store → α → Prop) : Prop :=
  match act s with
  | .ok a s' => s'.Valid F ∧ s.Grows s' ∧ P s' a
  | .error e _ => ¬e.IsDefect

/-- The result is known. -/
def Yields (F : Closure → Prop) (s : Store) (v : Value) : Prop :=
  v.Known F s.heap

section

variable {x : Act α} {f : α → Act β} {P : Store → α → Prop} {Q : Store → β → Prop}

theorem Sound.bind (hx : Sound F s x P)
    (hf : ∀ a s', s'.Valid F → s.Grows s' → P s' a → Sound F s' (f a) Q) :
    Sound F s (x >>= f) Q := by
  simp only [Sound, Bind.bind, EStateM.bind] at hx ⊢
  cases hrun : x s with
  | error e s' =>
      rw [hrun] at hx
      exact hx
  | ok a s' =>
      rw [hrun] at hx
      obtain ⟨hvalid, hgrows, hP⟩ := hx
      have hrest := hf a s' hvalid hgrows hP
      simp only [Sound] at hrest ⊢
      cases hrun' : f a s' with
      | error e s'' =>
          rw [hrun'] at hrest
          exact hrest
      | ok b s'' =>
          rw [hrun'] at hrest
          exact ⟨hrest.1, hgrows.trans hrest.2.1, hrest.2.2⟩

theorem Sound.pure (hs : s.Valid F) {a : α} (h : P s a) : Sound F s (pure a) P :=
  ⟨hs, .refl s, h⟩

theorem Sound.throw {e : Fault} (h : ¬e.IsDefect) : Sound F s (throw e) P :=
  h

theorem Sound.get_bind {f : Store → Act β} (h : Sound F s (f s) Q) : Sound F s (get >>= f) Q :=
  h

theorem Sound.onScopes (hs : s.Valid F) {g : Arena Value → α × Arena Value}
    (hall : (g s.scopes).2.All (Value.Known F s.heap))
    (hsame : s.scopes.SameParents (g s.scopes).2)
    (hP : P { s with scopes := (g s.scopes).2 } (g s.scopes).1) : Sound F s (onScopes g) P :=
  ⟨hs.withScopes hall, ⟨hsame, .refl _, Nat.le_refl _⟩, hP⟩

theorem Sound.onHeap (hs : s.Valid F) {g : Heap Value → α × Heap Value}
    (hall : (g s.heap).2.All (Value.Known F s.heap)) (hsame : s.heap.SameArrays (g s.heap).2)
    (hP : P { s with heap := (g s.heap).2 } (g s.heap).1) : Sound F s (onHeap g) P :=
  ⟨hs.withHeap hsame hall, ⟨.refl _, hsame, Nat.le_refl _⟩, hP⟩

theorem Sound.newIdentity (hs : s.Valid F) {P : Store → ℕ → Prop}
    (hP : P { s with fresh := s.fresh + 1 } s.fresh) : Sound F s newIdentity P :=
  ⟨⟨hs.scopes, hs.heap, hs.intrinsics⟩, ⟨.refl _, .refl _, Nat.le_succ _⟩, hP⟩

end

/-! ### Scopes -/

section

variable (scope : ScopeId) (name : String)

theorem sound_read (hs : s.Valid F) : Sound F s (read scope name) (Yields F) := by
  refine .get_bind ?_
  split
  next v hv => exact .pure hs (hs.lookup? hv)
  next => exact .throw id

theorem sound_declare (hs : s.Valid F) (kind : BindingKind) {v : Value} (hv : v.Known F s.heap) :
    Sound F s (declare scope name v kind) fun _ _ => True := by
  refine Sound.bind (P := fun _ _ => True) (.onScopes hs ?_ ?_ trivial) fun result s' hs' _ _ => ?_
  · exact hs.scopes.declare scope name kind hv
  · exact Arena.sameParents_declare scope name kind v
  · split
    · exact .pure hs' trivial
    · exact .throw id

theorem sound_assign (hs : s.Valid F) {v : Value} (hv : v.Known F s.heap) :
    Sound F s (assign scope name v) fun _ _ => True := by
  refine Sound.bind (P := fun _ _ => True) (.onScopes hs ?_ ?_ trivial) fun result s' hs' _ _ => ?_
  · exact hs.scopes.assign scope name hv
  · exact Arena.sameParents_assign scope name v
  · split
    · exact .pure hs' trivial
    · exact .throw id
    · exact .throw id

theorem sound_openScope (hs : s.Valid F) :
    Sound F s (openScope scope) fun s' inner => s'.scopes.parent? inner = some scope :=
  .onScopes hs (hs.scopes.newScope scope) (Arena.sameParents_newScope scope)
    (Arena.parent?_newScope scope)

theorem sound_openCall (hs : s.Valid F) (parameters : List String) {arguments : List Value}
    (harguments : ∀ v ∈ arguments, v.Known F s.heap) :
    Sound F s (openCall scope parameters arguments) fun _ _ => True := by
  refine .onScopes hs ?_ ?_ trivial
  · exact (hs.scopes.newScope scope).bindParameters trivial _ parameters arguments _ harguments
  · exact (Arena.sameParents_newScope scope).trans
      (Arena.sameParents_bindParameters _ parameters arguments _)

end

/-! ### Values that are made -/

theorem sound_newArray (hs : s.Valid F) {items : List Value}
    (hitems : ∀ v ∈ items, v.Known F s.heap) : Sound F s (newArray items) (Yields F) := by
  refine Sound.bind (P := fun s' r => (s'.heap.items? r).isSome) (.onHeap hs ?_ ?_ ?_) ?_
  · exact hs.heap.allocate fun v hv => hitems v (List.mem_toArray.1 hv)
  · exact Heap.sameArrays_allocate _
  · exact Heap.isSome_items?_newArray _
  · exact fun r s' hs' _ hr => .pure hs' hr

theorem all_collectEntries {P : Value → Prop} (heap : Heap Value) :
    ∀ (values : List Value) (entries : List (String × Value)), (∀ e ∈ entries, P e.2) →
      (∀ v ∈ values, P v) → ∀ e ∈ collectEntries heap entries values, P e.2
  | [], _, hentries, _ => hentries
  | [_], _, hentries, _ => hentries
  | key :: value :: rest, entries, hentries, hvalues => by
      have hvalue := hvalues value (List.mem_cons_of_mem _ (List.mem_cons_self ..))
      have hrest := fun v hv => hvalues v (List.mem_cons_of_mem _ (List.mem_cons_of_mem _ hv))
      exact all_collectEntries heap rest _ (Heap.all_setEntry hvalue hentries) hrest

theorem sound_newObject (hs : s.Valid F) {values : List Value}
    (hvalues : ∀ v ∈ values, v.Known F s.heap) : Sound F s (newObject values) (Yields F) := by
  refine Sound.bind (P := fun _ _ => True) (.onHeap hs ?_ ?_ trivial) ?_
  · exact hs.heap.allocate (all_collectEntries s.heap values [] (fun _ he => by cases he) hvalues)
  · exact Heap.sameArrays_allocate _
  · exact fun r s' hs' _ _ => .pure hs' trivial

/-! ### Operators -/

/-- The result refers to nothing, and the fault is none of the code. -/
def IsPlain : Except Fault Value → Prop
  | .ok v => ∀ F heap, v.Known F heap
  | .error e => ¬e.IsDefect

theorem isPlain_arithmetic (symbol : String) (f : Float → Float → Float) (v w : Value) :
    IsPlain (Value.arithmetic symbol f v w) := by
  rw [Value.arithmetic.eq_def]
  split
  · exact fun _ _ => trivial
  · exact id

theorem isPlain_compare (symbol : String) (f : Float → Float → Bool) (g : String → String → Bool)
    (v w : Value) : IsPlain (Value.compare symbol f g v w) := by
  rw [Value.compare.eq_def]
  split
  · exact fun _ _ => trivial
  · exact fun _ _ => trivial
  · exact id

theorem isPlain_add (heap : Heap Value) (v w : Value) : IsPlain (Value.add heap v w) := by
  rw [Value.add.eq_def]
  split
  · exact fun _ _ => trivial
  · exact fun _ _ => trivial
  · exact fun _ _ => trivial
  · exact id

theorem isPlain_apply (heap : Heap Value) (op : Operation) (v w : Value) :
    IsPlain (op.apply heap v w) := by
  cases op with
  | add => exact isPlain_add heap v w
  | subtract => exact isPlain_arithmetic _ _ v w
  | multiply => exact isPlain_arithmetic _ _ v w
  | divide => exact isPlain_arithmetic _ _ v w
  | modulo => exact isPlain_arithmetic _ _ v w
  | less => exact isPlain_compare _ _ _ v w
  | lessEqual => exact isPlain_compare _ _ _ v w
  | greater => exact isPlain_compare _ _ _ v w
  | greaterEqual => exact isPlain_compare _ _ _ v w
  | equals => exact fun _ _ => trivial
  | strictEquals => exact fun _ _ => trivial

theorem isPlain_negate (v : Value) : IsPlain v.negate := by
  cases v with
  | number x => exact fun _ _ => trivial
  | _ => exact id

theorem Sound.plain (hs : s.Valid F) {r : Except Fault Value} (h : IsPlain r) :
    Sound F s (orFault r) (Yields F) := by
  cases r with
  | ok v => exact .pure hs (h F s.heap)
  | error e => exact .throw h

theorem sound_operate (hs : s.Valid F) (op : Operation) (v w : Value) :
    Sound F s (operate op v w) (Yields F) :=
  .get_bind (.plain hs (isPlain_apply s.heap op v w))

theorem sound_negate (hs : s.Valid F) (v : Value) : Sound F s (negate v) (Yields F) :=
  .plain hs (isPlain_negate v)

/-! ### Calls -/

theorem sound_callNative (hs : s.Valid F) {f : Native} {arguments : List Value}
    (hf : (Value.native f).Known F s.heap) (harguments : ∀ v ∈ arguments, v.Known F s.heap) :
    Sound F s (callNative f arguments) fun s' result => Yields F s' result.1 := by
  cases f with
  | console name => exact .get_bind (.pure hs trivial)
  | push identity target =>
      refine Sound.bind (P := fun s' _ => (s'.heap.items? target).isSome) (.onHeap hs ?_ ?_ ?_) ?_
      · exact hs.heap.pushItems target harguments
      · exact Heap.sameArrays_pushItems target arguments
      · exact Heap.sameArrays_pushItems target arguments target hf
      intro _ s' hs' _ htarget
      refine .get_bind ?_
      -- The target is still an array, so it has a length.
      obtain ⟨items, hitems⟩ := Option.isSome_iff_exists.1 htarget
      rw [Heap.length?, hitems]
      exact .pure hs' trivial

/-! ### Properties and items -/

theorem sound_itemAt (hs : s.Valid F) (r : Ref) (position : ℕ) :
    Sound F s (itemAt r position) (Yields F) := by
  refine .get_bind (.pure hs ?_)
  cases hv : (s.heap.items? r).bind fun items => items[position]? with
  | none => trivial
  | some v =>
      obtain ⟨items, hitems, hitem⟩ := Option.bind_eq_some_iff.1 hv
      exact hs.heap.item r hitems hitem

theorem sound_getProperty (hs : s.Valid F) {v : Value} (hv : v.Known F s.heap) (name : String) :
    Sound F s (getProperty v name) (Yields F) := by
  cases v with
  | undefined => exact .throw id
  | null => exact .throw id
  | object r =>
      refine .get_bind (.pure hs ?_)
      cases hproperty : s.heap.property? r name with
      | none => trivial
      | some w => exact hs.heap.property r hproperty
  | array r =>
      simp only [getProperty]
      split
      · exact .get_bind (.pure hs trivial)
      split
      -- The function that is made refers to the array.
      · refine Sound.bind (P := fun s' _ => (s'.heap.items? r).isSome) (.newIdentity hs hv) ?_
        exact fun _ s' hs' _ hr => .pure hs' hr
      split
      · exact sound_itemAt hs r _
      · exact .pure hs trivial
  | string text =>
      refine .pure hs ?_
      split <;> trivial
  | _ => exact .pure hs trivial

theorem sound_getIndex (hs : s.Valid F) {v : Value} (hv : v.Known F s.heap) (index : Value) :
    Sound F s (getIndex v index) (Yields F) := by
  refine .get_bind ?_
  split
  · exact sound_itemAt hs _ _
  · split
    · exact .pure hs trivial
    · exact .pure hs trivial
  · exact sound_getProperty hs hv _

theorem sound_setItem (hs : s.Valid F) {r : Ref} (hr : (s.heap.items? r).isSome) (position : ℕ)
    {v : Value} (hv : v.Known F s.heap) : Sound F s (setItem r position v) fun _ _ => True := by
  obtain ⟨items, hitems⟩ := Option.isSome_iff_exists.1 hr
  refine .get_bind ?_
  rw [Heap.length?, hitems]
  simp only [Option.map_some]
  split
  · exact .throw id
  · refine .onHeap hs ?_ ?_ trivial
    · exact hs.heap.setItem r position trivial hv
    · exact Heap.sameArrays_setItem r _ position v

theorem sound_setProperty (hs : s.Valid F) {object v : Value} (hobject : object.Known F s.heap)
    (name : String) (hv : v.Known F s.heap) :
    Sound F s (setProperty object name v) fun _ _ => True := by
  cases object with
  | undefined => exact .throw id
  | null => exact .throw id
  | object r =>
      simp only [setProperty]
      refine .onHeap hs ?_ ?_ trivial
      · exact hs.heap.setProperty r name hv
      · exact Heap.sameArrays_setProperty r name v
  | array r =>
      simp only [setProperty]
      split
      · exact sound_setItem hs hobject _ hv
      · exact .throw id
  | _ => exact .throw id

theorem sound_setIndex (hs : s.Valid F) {object v : Value} (hobject : object.Known F s.heap)
    (index : Value) (hv : v.Known F s.heap) :
    Sound F s (setIndex object index v) fun _ _ => True := by
  refine .get_bind ?_
  split
  · exact sound_setItem hs hobject _ hv
  · exact .throw id
  · exact sound_setProperty hs hobject _ hv

end Act

end Tracepoint
