/-
No action leaves a reference that leads nowhere.

A value stands if what it refers to is there and is what the value takes it for: an array, an
object, or the scope that a function was made in.  Whatever an action is given, as long as all of
it stands, all that the store holds stands behind it as well, and so does its result.  This is
also true of the actions that end in a fault.

An action that opens no scope and declares nothing is quiet: every scope binds the same names
behind it.

Main definitions:

* `Value.Stands` — what a value refers to is there;
* `Store.Intact` — all values of a store stand, scopes are nested, names and keys are distinct;
* `Store.Leads` — a later store;
* `Act.Keeps` — an action leads from an intact store to an intact one, in whatever it ends.

Main results:

* `Act.keeps_setIndex`, `Act.keeps_callNative` and one such lemma for every other action.
-/

import Tracepoint.Proofs.Store.Nesting
import Tracepoint.Proofs.Store.Permanence

set_option relaxedAutoImplicit false
set_option autoImplicit false

namespace Tracepoint

/-! ### Values that stand -/

/-- What a value refers to is there, and is what the value takes it for. Functions of the script
have the property `F`. -/
def Value.Stands (F : Closure → Prop) (heap : Heap Value) : Value → Prop
  | .array r => (heap.items? r).isSome
  | .object r => (heap.entries? r).isSome
  | .native (.push _ r) => (heap.items? r).isSome
  | .function f => F f
  | _ => True

theorem Value.Stands.mono {F F' : Closure → Prop} {heap heap' : Heap Value} {v : Value}
    (h : v.Stands F heap) (hF : ∀ f, F f → F' f) (hheap : heap.Extends heap') :
    v.Stands F' heap' := by
  cases v with
  | array r => exact hheap.items? h
  | object r => exact hheap.entries? h
  | native f =>
      cases f with
      | console name => trivial
      | push identity r => exact hheap.items? h
  | function f => exact hF f h
  | _ => trivial

/-- A value that is neither a container nor a function. -/
def Value.IsScalar : Value → Prop
  | .array _ | .object _ | .function _ | .native _ => False
  | _ => True

theorem Value.IsScalar.stands {v : Value} (h : v.IsScalar) (F : Closure → Prop)
    (heap : Heap Value) : v.Stands F heap := by
  cases v with
  | array r => cases h
  | object r => cases h
  | function f => cases h
  | native f => cases h
  | _ => trivial

theorem Constant.isScalar_toValue (c : Constant) : c.toValue.IsScalar := by
  cases c <;> trivial

/-! ### Results of operators -/

/-- The result, if there is one, is a scalar. -/
def Scalar (r : Except Fault Value) : Prop :=
  ∀ v, r = .ok v → v.IsScalar

theorem Scalar.ok {v : Value} (h : v.IsScalar) : Scalar (.ok v) := by
  rintro _ ⟨⟩
  exact h

theorem Scalar.error (e : Fault) : Scalar (.error e) := by
  rintro _ ⟨⟩

theorem scalar_arithmetic (symbol : String) (f : Float → Float → Float) (v w : Value) :
    Scalar (v.arithmetic symbol f w) := by
  rw [Value.arithmetic.eq_def]
  split
  · exact .ok trivial
  · exact .error _

theorem scalar_compare (symbol : String) (f : Float → Float → Bool) (g : String → String → Bool)
    (v w : Value) : Scalar (v.compare symbol f g w) := by
  rw [Value.compare.eq_def]
  split
  · exact .ok trivial
  · exact .ok trivial
  · exact .error _

theorem scalar_add (heap : Heap Value) (v w : Value) : Scalar (v.add heap w) := by
  rw [Value.add.eq_def]
  split
  · exact .ok trivial
  · exact .ok trivial
  · exact .ok trivial
  · exact .error _

theorem scalar_apply (heap : Heap Value) (op : Operation) (v w : Value) :
    Scalar (op.apply heap v w) := by
  cases op with
  | add => exact scalar_add heap v w
  | less => exact scalar_compare _ _ _ v w
  | lessEqual => exact scalar_compare _ _ _ v w
  | greater => exact scalar_compare _ _ _ v w
  | greaterEqual => exact scalar_compare _ _ _ v w
  | equals => exact .ok trivial
  | strictEquals => exact .ok trivial
  | _ => exact scalar_arithmetic _ _ v w

theorem scalar_negate (v : Value) : Scalar v.negate := by
  cases v with
  | number x => exact .ok trivial
  | _ => exact .error _

/-! ### Stores -/

namespace Store

variable {quiet : Prop} {G : Proto → Prop} {s s' s'' : Store}

/-- What a value refers to is there in a store; its function sees a scope of the store. -/
def Backs (G : Proto → Prop) (s : Store) (v : Value) : Prop :=
  v.Stands (Closure.Rooted G s.scopes.size) s.heap

/-- All values of a store stand. -/
structure Intact (G : Proto → Prop) (s : Store) : Prop where
  scopes : s.scopes.All (s.Backs G)
  heap : s.heap.All (s.Backs G)
  intrinsics : ∀ e ∈ s.intrinsics, s.Backs G e.2
  global : Arena.global.index < s.scopes.size
  nested : s.scopes.Nested
  names : s.scopes.Distinct
  keys : s.heap.Distinct

/-- A store later on. If nothing was declared in between, scopes bind the same names. -/
structure Leads (quiet : Prop) (s s' : Store) : Prop where
  scopes : s.scopes.Extends s'.scopes
  heap : s.heap.Extends s'.heap
  intrinsics : s'.intrinsics = s.intrinsics
  names : quiet → ∀ id, s'.scopes.names id = s.scopes.names id

theorem Leads.refl (quiet : Prop) (s : Store) : s.Leads quiet s :=
  ⟨.refl _, .refl _, rfl, fun _ _ => rfl⟩

theorem Leads.trans (h : s.Leads quiet s') (h' : s'.Leads quiet s'') : s.Leads quiet s'' :=
  ⟨h.scopes.trans h'.scopes, h.heap.trans h'.heap, h'.intrinsics.trans h.intrinsics,
    fun hquiet id => (h'.names hquiet id).trans (h.names hquiet id)⟩

theorem Leads.mono {quiet' : Prop} (h : s.Leads quiet s') (hquiet : quiet' → quiet) :
    s.Leads quiet' s' :=
  ⟨h.scopes, h.heap, h.intrinsics, fun h' => h.names (hquiet h')⟩

theorem Leads.backs (h : s.Leads quiet s') {v : Value} (hv : s.Backs G v) : s'.Backs G v :=
  hv.mono (Closure.Rooted.mono h.scopes.size_le) h.heap

/-- What a program finds stands. -/
theorem intact_start (G : Proto → Prop) : start.Intact G where
  scopes := Arena.all_initial _
  heap := by
    refine Heap.All.allocate ?_ ?_
    · intro r cell hcell
      cases hcell
    -- The properties of the console are native functions.
    · intro e he
      obtain ⟨name, -, rfl⟩ := List.mem_map.1 he
      trivial
  intrinsics := by
    intro e he
    cases List.mem_singleton.1 he
    exact Heap.isSome_entries?_newObject _
  global := Nat.one_pos
  nested := Arena.nested_initial
  names := Arena.distinct_initial
  keys := by
    refine Heap.Distinct.allocate ?_ ?_
    · intro r cell hcell
      cases hcell
    · decide

theorem Intact.lookup? (h : s.Intact G) {scope : ScopeId} {name : String} {v : Value}
    (hv : s.lookup? scope name = some v) : s.Backs G v := by
  rw [Store.lookup?] at hv
  split at hv
  next w hw =>
    cases hv
    exact h.scopes.access scope name hw
  next => exact Heap.all_valueOf? h.intrinsics hv

end Store

/-! ### Actions -/

namespace Act

variable {α β : Type} {quiet : Prop} {G : Proto → Prop} {s : Store}

/-- The store that an action leaves is intact and comes after the old one, also if it ends in a
fault; and of its result `P` holds there. -/
def Keeps (quiet : Prop) (G : Proto → Prop) (s : Store) (act : Act α) (P : Store → α → Prop) :
    Prop :=
  match act s with
  | .ok a s' => s'.Intact G ∧ s.Leads quiet s' ∧ P s' a
  | .error _ s' => s'.Intact G ∧ s.Leads quiet s'

section

variable {x : Act α} {f : α → Act β} {P : Store → α → Prop} {Q : Store → β → Prop}

theorem Keeps.bind (hx : Keeps quiet G s x P)
    (hf : ∀ a s', s'.Intact G → s.Leads quiet s' → P s' a → Keeps quiet G s' (f a) Q) :
    Keeps quiet G s (x >>= f) Q := by
  simp only [Keeps, Bind.bind, EStateM.bind] at hx ⊢
  cases hrun : x s with
  | error e s' =>
      rw [hrun] at hx
      exact hx
  | ok a s' =>
      rw [hrun] at hx
      obtain ⟨hintact, hleads, hP⟩ := hx
      have hrest := hf a s' hintact hleads hP
      simp only [Keeps] at hrest ⊢
      cases hrun' : f a s' with
      | error e s'' =>
          rw [hrun'] at hrest
          exact ⟨hrest.1, hleads.trans hrest.2⟩
      | ok b s'' =>
          rw [hrun'] at hrest
          exact ⟨hrest.1, hleads.trans hrest.2.1, hrest.2.2⟩

theorem Keeps.pure (hs : s.Intact G) {a : α} (h : P s a) : Keeps quiet G s (pure a) P :=
  ⟨hs, .refl quiet s, h⟩

theorem Keeps.throw (hs : s.Intact G) (e : Fault) : Keeps quiet G s (throw e) P :=
  ⟨hs, .refl quiet s⟩

theorem Keeps.get_bind {f : Store → Act β} (h : Keeps quiet G s (f s) Q) :
    Keeps quiet G s (get >>= f) Q :=
  h

theorem Keeps.newIdentity (hs : s.Intact G) {P : Store → ℕ → Prop}
    (hP : P { s with fresh := s.fresh + 1 } s.fresh) : Keeps quiet G s newIdentity P :=
  ⟨⟨hs.scopes, hs.heap, hs.intrinsics, hs.global, hs.nested, hs.names, hs.keys⟩,
    ⟨.refl _, .refl _, rfl, fun _ _ => rfl⟩, hP⟩

/-- The scopes change to later ones. -/
theorem Keeps.onScopes (hs : s.Intact G) {g : Arena Value → α × Arena Value}
    (hextends : s.scopes.Extends (g s.scopes).2) (hall : (g s.scopes).2.All (s.Backs G))
    (hnested : (g s.scopes).2.Nested) (hdistinct : (g s.scopes).2.Distinct)
    (hnames : quiet → ∀ id, (g s.scopes).2.names id = s.scopes.names id)
    (hP : P { s with scopes := (g s.scopes).2 } (g s.scopes).1) :
    Keeps quiet G s (onScopes g) P := by
  have hleads : s.Leads quiet { s with scopes := (g s.scopes).2 } :=
    ⟨hextends, .refl _, rfl, hnames⟩
  have hbacks : ∀ v, s.Backs G v → Store.Backs G { s with scopes := (g s.scopes).2 } v :=
    fun v hv => hleads.backs hv
  exact ⟨⟨hall.mono hbacks, hs.heap.mono hbacks, fun e he => hbacks e.2 (hs.intrinsics e he),
    Nat.lt_of_lt_of_le hs.global hextends.size_le, hnested, hdistinct, hs.keys⟩, hleads, hP⟩

/-- The heap changes to a later one. -/
theorem Keeps.onHeap (hs : s.Intact G) {g : Heap Value → α × Heap Value}
    (hextends : s.heap.Extends (g s.heap).2) (hall : (g s.heap).2.All (s.Backs G))
    (hdistinct : (g s.heap).2.Distinct)
    (hP : P { s with heap := (g s.heap).2 } (g s.heap).1) : Keeps quiet G s (onHeap g) P := by
  have hleads : s.Leads quiet { s with heap := (g s.heap).2 } :=
    ⟨.refl _, hextends, rfl, fun _ _ => rfl⟩
  have hbacks : ∀ v, s.Backs G v → Store.Backs G { s with heap := (g s.heap).2 } v :=
    fun v hv => hleads.backs hv
  exact ⟨⟨hs.scopes.mono hbacks, hall.mono hbacks, fun e he => hbacks e.2 (hs.intrinsics e he),
    hs.global, hs.nested, hs.names, hdistinct⟩, hleads, hP⟩

end

theorem Keeps.scalar (hs : s.Intact G) {r : Except Fault Value} (h : Scalar r) :
    Keeps quiet G s (orFault r) (Store.Backs G) := by
  cases r with
  | ok v => exact .pure hs ((h v rfl).stands _ _)
  | error e => exact .throw hs e

/-! #### Scopes -/

section

variable (scope : ScopeId) (name : String)

theorem keeps_read (hs : s.Intact G) : Keeps quiet G s (read scope name) (Store.Backs G) := by
  refine .get_bind ?_
  split
  next v hv => exact .pure hs (hs.lookup? hv)
  next => exact .throw hs _

theorem keeps_declare (hs : s.Intact G) {v : Value} (hv : s.Backs G v) (kind : BindingKind) :
    Keeps False G s (declare scope name v kind) fun _ _ => True := by
  refine Keeps.bind (P := fun _ _ => True) (.onScopes hs ?_ ?_ ?_ ?_ False.elim trivial)
    fun result s' hs' _ _ => ?_
  · exact Arena.extends_declare scope name v kind
  · exact hs.scopes.declare scope name kind hv
  · exact (Arena.keeps_declare scope name v kind).nested hs.nested
  · exact hs.names.declare scope name v kind
  · split
    · exact .pure hs' trivial
    · exact .throw hs' _

theorem keeps_assign (hs : s.Intact G) {v : Value} (hv : s.Backs G v) :
    Keeps quiet G s (assign scope name v) fun _ _ => True := by
  refine Keeps.bind (P := fun _ _ => True) (.onScopes hs ?_ ?_ ?_ ?_ ?_ trivial)
    fun result s' hs' _ _ => ?_
  · exact Arena.extends_assign scope name v
  · exact hs.scopes.assign scope name hv
  · exact (Arena.keeps_assign scope name v).nested hs.nested
  · exact hs.names.assign scope name v
  · exact fun _ id => Arena.names_assign scope name v id
  · split
    · exact .pure hs' trivial
    · exact .throw hs' _
    · exact .throw hs' _

end

/-- The scope that is opened is one of the store. -/
theorem keeps_openScope (hs : s.Intact G) {scope : ScopeId}
    (hscope : scope.index < s.scopes.size) :
    Keeps False G s (openScope scope) fun s' inner => inner.index < s'.scopes.size := by
  refine .onScopes hs ?_ ?_ ?_ ?_ False.elim ?_
  · exact Arena.extends_newScope scope
  · exact hs.scopes.newScope scope
  · exact hs.nested.newScope hscope
  · exact hs.names.newScope scope
  · exact Nat.lt_of_lt_of_eq (Nat.lt_succ_self _) (Arena.size_newScope scope).symm

/-- The scope of a call is one of the store. -/
theorem keeps_openCall (hs : s.Intact G) {scope : ScopeId} (hscope : scope.index < s.scopes.size)
    (parameters : List String) {arguments : List Value}
    (harguments : ∀ v ∈ arguments, s.Backs G v) :
    Keeps False G s (openCall scope parameters arguments) fun s' inner =>
      inner.index < s'.scopes.size := by
  have hbound := Arena.extends_bindParameters (s.scopes.newScope scope).1 parameters arguments
    (s.scopes.newScope scope).2
  refine .onScopes hs ?_ ?_ ?_ ?_ False.elim ?_
  · exact (Arena.extends_newScope scope).trans hbound
  · exact (hs.scopes.newScope scope).bindParameters trivial _ parameters arguments _ harguments
  · exact (Arena.keeps_bindParameters _ parameters arguments _).nested (hs.nested.newScope hscope)
  · exact Arena.Distinct.bindParameters _ parameters arguments _ (hs.names.newScope scope)
  · refine Nat.lt_of_lt_of_le ?_ hbound.size_le
    exact Nat.lt_of_lt_of_eq (Nat.lt_succ_self _) (Arena.size_newScope scope).symm

/-! #### Values that are made -/

theorem keeps_newArray (hs : s.Intact G) {items : List Value}
    (hitems : ∀ v ∈ items, s.Backs G v) :
    Keeps quiet G s (newArray items) (Store.Backs G) := by
  refine Keeps.bind (P := fun s' r => (s'.heap.items? r).isSome) (.onHeap hs ?_ ?_ ?_ ?_) ?_
  · exact Heap.extends_allocate _
  · exact hs.heap.allocate fun v hv => hitems v (List.mem_toArray.1 hv)
  · exact hs.keys.allocate List.nodup_nil
  · exact Heap.isSome_items?_newArray _
  · exact fun r s' hs' _ hr => .pure hs' hr

theorem keeps_newObject (hs : s.Intact G) {values : List Value}
    (hvalues : ∀ v ∈ values, s.Backs G v) :
    Keeps quiet G s (newObject values) (Store.Backs G) := by
  refine Keeps.bind (P := fun s' r => (s'.heap.entries? r).isSome) (.onHeap hs ?_ ?_ ?_ ?_) ?_
  · exact Heap.extends_allocate _
  · exact hs.heap.allocate (all_collectEntries s.heap values [] (fun _ he => by cases he) hvalues)
  · exact hs.keys.allocate (nodup_collectEntries s.heap values [] List.nodup_nil)
  · exact Heap.isSome_entries?_newObject _
  · exact fun r s' hs' _ hr => .pure hs' hr

theorem keeps_newFunction (hs : s.Intact G) {p : Proto} {scope : ScopeId} (hp : G p)
    (hscope : scope.index < s.scopes.size) :
    Keeps quiet G s (newFunction p scope) (Store.Backs G) := by
  refine Keeps.bind (P := fun s' _ => scope.index < s'.scopes.size) (.newIdentity hs hscope) ?_
  exact fun _ s' hs' _ hscope' => .pure hs' ⟨hp, hscope'⟩

/-! #### Operators and calls -/

theorem keeps_operate (hs : s.Intact G) (op : Operation) (v w : Value) :
    Keeps quiet G s (operate op v w) (Store.Backs G) :=
  .get_bind (.scalar hs (scalar_apply s.heap op v w))

theorem keeps_negate (hs : s.Intact G) (v : Value) :
    Keeps quiet G s (negate v) (Store.Backs G) :=
  .scalar hs (scalar_negate v)

theorem keeps_callNative (hs : s.Intact G) (f : Native) {arguments : List Value}
    (harguments : ∀ v ∈ arguments, s.Backs G v) :
    Keeps quiet G s (callNative f arguments) fun s' result => s'.Backs G result.1 := by
  cases f with
  | console name => exact .get_bind (.pure hs trivial)
  | push identity target =>
      refine Keeps.bind (P := fun _ _ => True) (.onHeap hs ?_ ?_ ?_ trivial) ?_
      · exact Heap.extends_pushItems target arguments
      · exact hs.heap.pushItems target harguments
      · exact hs.keys.pushItems target arguments
      intro _ s' hs' _ _
      refine .get_bind ?_
      split
      · exact .throw hs' _
      · exact .pure hs' trivial

/-! #### Properties and items -/

theorem keeps_itemAt (hs : s.Intact G) (r : Ref) (position : ℕ) :
    Keeps quiet G s (itemAt r position) (Store.Backs G) := by
  refine .get_bind (.pure hs ?_)
  cases hv : (s.heap.items? r).bind fun items => items[position]? with
  | none => trivial
  | some v =>
      obtain ⟨items, hitems, hitem⟩ := Option.bind_eq_some_iff.1 hv
      exact hs.heap.item r hitems hitem

theorem keeps_getProperty (hs : s.Intact G) {v : Value} (hv : s.Backs G v) (name : String) :
    Keeps quiet G s (getProperty v name) (Store.Backs G) := by
  cases v with
  | undefined => exact .throw hs _
  | null => exact .throw hs _
  | object r =>
      refine .get_bind (.pure hs ?_)
      cases hproperty : s.heap.property? r name with
      | none => trivial
      | some w => exact hs.heap.property r hproperty
  | array r =>
      simp only [getProperty]
      split
      · exact .get_bind (.pure hs trivial)
      split
      -- The function that is made refers to the array.
      · refine Keeps.bind (P := fun s' _ => (s'.heap.items? r).isSome) (.newIdentity hs hv) ?_
        exact fun _ s' hs' _ hr => .pure hs' hr
      split
      · exact keeps_itemAt hs r _
      · exact .pure hs trivial
  | string text =>
      refine .pure hs ?_
      split <;> trivial
  | _ => exact .pure hs trivial

theorem keeps_getIndex (hs : s.Intact G) {v : Value} (hv : s.Backs G v) (index : Value) :
    Keeps quiet G s (getIndex v index) (Store.Backs G) := by
  refine .get_bind ?_
  split
  · exact keeps_itemAt hs _ _
  · split
    · exact .pure hs trivial
    · exact .pure hs trivial
  · exact keeps_getProperty hs hv _

theorem keeps_setItem (hs : s.Intact G) (r : Ref) (position : ℕ) {v : Value}
    (hv : s.Backs G v) : Keeps quiet G s (setItem r position v) fun _ _ => True := by
  refine .get_bind ?_
  split
  · exact .throw hs _
  · split
    · exact .throw hs _
    · refine .onHeap hs ?_ ?_ ?_ trivial
      · exact Heap.extends_setItem r _ position v
      · exact hs.heap.setItem r position trivial hv
      · exact hs.keys.setItem r _ position v

theorem keeps_setProperty (hs : s.Intact G) (object : Value) (name : String) {v : Value}
    (hv : s.Backs G v) : Keeps quiet G s (setProperty object name v) fun _ _ => True := by
  cases object with
  | object r =>
      simp only [setProperty]
      refine .onHeap hs ?_ ?_ ?_ trivial
      · exact Heap.extends_setProperty r name v
      · exact hs.heap.setProperty r name hv
      · exact hs.keys.setProperty r name v
  | array r =>
      simp only [setProperty]
      split
      · exact keeps_setItem hs r _ hv
      · exact .throw hs _
  | _ => exact .throw hs _

theorem keeps_setIndex (hs : s.Intact G) (object index : Value) {v : Value}
    (hv : s.Backs G v) : Keeps quiet G s (setIndex object index v) fun _ _ => True := by
  refine .get_bind ?_
  split
  · exact keeps_setItem hs _ _ hv
  · exact .throw hs _
  · exact keeps_setProperty hs _ _ hv

end Act

end Tracepoint
