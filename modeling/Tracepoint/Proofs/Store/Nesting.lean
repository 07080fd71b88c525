/-
Scopes inside scopes.

A scope is opened inside one that is there already.  So the scopes around a scope come before it in
the arena, and going outwards from a scope never leads back to it.  For this the scope that a
function sees has to be there as well, wherever that function is held.

Main definitions:

* `Arena.Nested` — every scope comes after the one around it;
* `Closure.Rooted`, `Store.Rooted` — all functions of a store see scopes that are there;
* `Act.KeepsScopes` — no scope goes in an action, and scopes stay nested;
* `Act.Roots` — an action leaves a store in which all of this still holds.

Main results:

* `Arena.Above.unique` — **the number of steps outwards from one scope to another is determined**;
* `Act.keepsScopes_declare`, `Act.keepsScopes_openCall` and one such lemma for every other action;
* `Act.Roots.of_sound` — what is sound and keeps the scopes keeps a store rooted;
* `Act.roots_openScope`, `Act.roots_openCall`, `Act.roots_newFunction` — what is made of scopes.
-/

import Tracepoint.Proofs.Store.Soundness

set_option relaxedAutoImplicit false
set_option autoImplicit false

namespace Tracepoint

/-! ### Arenas -/

namespace Arena

variable {α : Type} {a : Arena α}

/-- Every scope comes after the one around it. -/
def Nested (a : Arena α) : Prop :=
  ∀ id parent, a.parent? id = some parent → parent.index < id.index

theorem nested_initial : (initial : Arena α).Nested := by
  intro id parent hparent
  simp only [initial, parent?, scope?] at hparent
  rw [List.getElem?_toArray, List.getElem?_singleton] at hparent
  split at hparent
  · cases hparent
  · cases hparent

theorem Nested.le_of_above (h : a.Nested) {count : ℕ} {inner outer : ScopeId}
    (habove : a.Above count inner outer) : outer.index + count ≤ inner.index := by
  induction count generalizing inner with
  | zero =>
      obtain rfl : inner = outer := habove
      exact Nat.le_refl _
  | succ count ih =>
      obtain ⟨middle, hmiddle, hrest⟩ := habove
      have hlt := h inner middle hmiddle
      have hle := ih hrest
      omega

/-- **The number of steps outwards from one scope to another is determined.** -/
theorem Above.unique (hnested : a.Nested) {m n : ℕ} {inner outer : ScopeId}
    (hm : a.Above m inner outer) (hn : a.Above n inner outer) : m = n := by
  induction m generalizing n inner with
  | zero =>
      obtain rfl : inner = outer := hm
      have hle := hnested.le_of_above hn
      omega
  | succ m ih =>
      obtain ⟨middle, hmiddle, hrest⟩ := id hm
      cases n with
      | zero =>
          obtain rfl : inner = outer := hn
          have hle := hnested.le_of_above hm
          omega
      | succ n =>
          obtain ⟨middle', hmiddle', hrest'⟩ := hn
          obtain rfl := Option.some.inj (hmiddle.symm.trans hmiddle')
          rw [ih hrest hrest']

theorem size_newScope (parent : ScopeId) : (a.newScope parent).2.size = a.size + 1 :=
  Array.size_push _

theorem Nested.newScope (h : a.Nested) {parent : ScopeId} (hparent : parent.index < a.size) :
    (a.newScope parent).2.Nested := by
  intro id outer houter
  rw [parent?, scope?_newScope] at houter
  split at houter
  next hid =>
    obtain rfl : parent = outer := Option.some.inj houter
    rw [hid]
    exact hparent
  next => exact h id outer houter

theorem Nested.modify (h : a.Nested) (id : ScopeId) {f : Scope α → Scope α}
    (hf : ∀ s, (f s).parent = s.parent) : (a.modify id f).Nested := by
  intro other parent hparent
  rw [parent?, scope?_modify] at hparent
  refine h other parent ?_
  split at hparent
  · obtain ⟨s, hs, hsome⟩ := Option.bind_eq_some_iff.1 hparent
    obtain ⟨s', hs', rfl⟩ := Option.map_eq_some_iff.1 hs
    rw [parent?, hs']
    exact (hf s').symm.trans hsome
  · exact hparent

/-- No scope has gone, and scopes are nested if they were. -/
structure Keeps (a a' : Arena α) : Prop where
  size : a.size ≤ a'.size
  nested : a.Nested → a'.Nested

theorem Keeps.refl (a : Arena α) : a.Keeps a :=
  ⟨Nat.le_refl _, id⟩

theorem Keeps.trans {a' a'' : Arena α} (h : a.Keeps a') (h' : a'.Keeps a'') : a.Keeps a'' :=
  ⟨Nat.le_trans h.size h'.size, fun hnested => h'.nested (h.nested hnested)⟩

theorem keeps_newScope {parent : ScopeId} (hparent : parent.index < a.size) :
    a.Keeps (a.newScope parent).2 :=
  ⟨Nat.le_trans (Nat.le_succ _) (Nat.le_of_eq (size_newScope parent).symm),
    fun h => h.newScope hparent⟩

theorem keeps_modify (id : ScopeId) {f : Scope α → Scope α} (hf : ∀ s, (f s).parent = s.parent) :
    a.Keeps (a.modify id f) :=
  ⟨Nat.le_of_eq (a.size_modify id f).symm, fun h => h.modify id hf⟩

section

variable (id : ScopeId) (name : String) (v : α)

theorem keeps_declare (kind : BindingKind) : a.Keeps (a.declare id name v kind).2 := by
  simp only [Arena.declare]
  split
  · exact .refl a
  · split
    · exact keeps_modify id fun _ => rfl
    · split
      · exact keeps_modify id fun _ => rfl
      · exact .refl a

theorem keeps_assign : a.Keeps (a.assign id name v).2 := by
  simp only [Arena.assign]
  split
  · exact .refl a
  · split
    · exact .refl a
    · exact keeps_modify _ fun _ => rfl

end

theorem keeps_bindParameters (scope : ScopeId) (names : List String) :
    ∀ (values : List Value) (a : Arena Value),
      a.Keeps (Act.bindParameters a scope names values) := by
  intro values a
  refine bindParameters_induction (.refl a) fun b name v _ hb => ?_
  exact hb.trans (keeps_declare scope name v _)

end Arena

/-! ### Functions and their scopes -/

/-- The code of the function is of a certain kind, and the scope it sees is one of `size` scopes. -/
def Closure.Rooted (G : Proto → Prop) (size : ℕ) (f : Closure) : Prop :=
  G f.proto ∧ f.scope.index < size

theorem Closure.Rooted.mono {G : Proto → Prop} {m n : ℕ} (hle : m ≤ n) (f : Closure)
    (h : f.Rooted G m) : f.Rooted G n :=
  ⟨h.1, Nat.lt_of_lt_of_le h.2 hle⟩

namespace Store

variable {G : Proto → Prop} {s s' s'' : Store}

/-- A value in a store is known, and its function sees a scope that is there. -/
def Holds (G : Proto → Prop) (s : Store) (v : Value) : Prop :=
  v.Known (Closure.Rooted G s.scopes.size) s.heap

/-- All values of a store are known, and scopes are nested. -/
structure Rooted (G : Proto → Prop) (s : Store) : Prop where
  valid : s.Valid (Closure.Rooted G s.scopes.size)
  nested : s.scopes.Nested

theorem rooted_start (G : Proto → Prop) : start.Rooted G :=
  ⟨valid_start _, Arena.nested_initial⟩

/-- A store comes after another one, and no scope has gone. -/
structure Before (s s' : Store) : Prop where
  grows : s.Grows s'
  size : s.scopes.size ≤ s'.scopes.size

theorem Before.refl (s : Store) : s.Before s :=
  ⟨.refl s, Nat.le_refl _⟩

theorem Before.holds (h : s.Before s') {v : Value} (hv : s.Holds G v) : s'.Holds G v :=
  hv.mono (Closure.Rooted.mono h.size) h.grows.heap

end Store

/-! ### Actions -/

namespace Act

variable {α β : Type} {G : Proto → Prop} {s : Store} {P : Store → α → Prop}

/-- No scope goes in the action, and scopes are nested behind it if they were. -/
def KeepsScopes (s : Store) (act : Act α) : Prop :=
  ∀ a s', act s = .ok a s' → s.scopes.Keeps s'.scopes

theorem KeepsScopes.pure (s : Store) (a : α) : KeepsScopes s (pure a) := by
  intro b s' h
  cases h
  exact .refl _

theorem KeepsScopes.throw (s : Store) (e : Fault) : KeepsScopes s (throw e : Act α) :=
  fun _ _ h => nomatch h

theorem KeepsScopes.bind {x : Act α} {f : α → Act β} (hx : KeepsScopes s x)
    (hf : ∀ s a, KeepsScopes s (f a)) : KeepsScopes s (x >>= f) := by
  intro b s'' h
  simp only [Bind.bind, EStateM.bind] at h
  cases hrun : x s with
  | error e s' =>
      rw [hrun] at h
      cases h
  | ok a s' =>
      rw [hrun] at h
      exact (hx a s' hrun).trans (hf s' a b s'' h)

theorem KeepsScopes.get_bind {f : Store → Act α} (hf : KeepsScopes s (f s)) :
    KeepsScopes s (get >>= f) :=
  hf

theorem KeepsScopes.onScopes {g : Arena Value → α × Arena Value}
    (h : s.scopes.Keeps (g s.scopes).2) : KeepsScopes s (onScopes g) := by
  intro a s' hact
  cases hact
  exact h

theorem KeepsScopes.onHeap (s : Store) (g : Heap Value → α × Heap Value) :
    KeepsScopes s (onHeap g) := by
  intro a s' hact
  cases hact
  exact .refl _

theorem KeepsScopes.newIdentity (s : Store) : KeepsScopes s newIdentity := by
  intro a s' hact
  cases hact
  exact .refl _

theorem KeepsScopes.orFault (s : Store) (r : Except Fault α) : KeepsScopes s (orFault r) := by
  cases r with
  | ok a => exact .pure s a
  | error e => exact .throw s e

section

variable (s : Store)

/-! #### Scopes -/

section

variable (scope : ScopeId) (name : String)

theorem keepsScopes_read : KeepsScopes s (read scope name) := by
  refine .get_bind ?_
  split
  · exact .pure s _
  · exact .throw s _

theorem keepsScopes_declare (v : Value) (kind : BindingKind) :
    KeepsScopes s (declare scope name v kind) := by
  refine (KeepsScopes.onScopes (Arena.keeps_declare scope name v kind)).bind fun s result => ?_
  split
  · exact .pure s _
  · exact .throw s _

theorem keepsScopes_assign (v : Value) : KeepsScopes s (assign scope name v) := by
  refine (KeepsScopes.onScopes (Arena.keeps_assign scope name v)).bind fun s result => ?_
  split
  · exact .pure s _
  · exact .throw s _
  · exact .throw s _

end

theorem keepsScopes_openScope {scope : ScopeId} (hscope : scope.index < s.scopes.size) :
    KeepsScopes s (openScope scope) :=
  .onScopes (Arena.keeps_newScope hscope)

theorem keepsScopes_openCall {scope : ScopeId} (hscope : scope.index < s.scopes.size)
    (parameters : List String) (arguments : List Value) :
    KeepsScopes s (openCall scope parameters arguments) :=
  .onScopes ((Arena.keeps_newScope hscope).trans
    (Arena.keeps_bindParameters _ parameters arguments _))

/-! #### Values -/

theorem keepsScopes_newArray (items : List Value) : KeepsScopes s (newArray items) :=
  (KeepsScopes.onHeap s _).bind fun s _ => .pure s _

theorem keepsScopes_newObject (values : List Value) : KeepsScopes s (newObject values) :=
  (KeepsScopes.onHeap s _).bind fun s _ => .pure s _

theorem keepsScopes_operate (op : Operation) (v w : Value) : KeepsScopes s (operate op v w) :=
  .get_bind (.orFault s _)

theorem keepsScopes_callNative (f : Native) (arguments : List Value) :
    KeepsScopes s (callNative f arguments) := by
  cases f with
  | console name => exact .get_bind (.pure s _)
  | push identity target =>
      refine (KeepsScopes.onHeap s _).bind fun s _ => .get_bind ?_
      split
      · exact .throw s _
      · exact .pure s _

theorem keepsScopes_itemAt (r : Ref) (position : ℕ) : KeepsScopes s (itemAt r position) :=
  .get_bind (.pure s _)

theorem keepsScopes_getProperty (v : Value) (name : String) :
    KeepsScopes s (getProperty v name) := by
  cases v with
  | undefined => exact .throw s _
  | null => exact .throw s _
  | object r => exact .get_bind (.pure s _)
  | array r =>
      simp only [getProperty]
      split
      · exact .get_bind (.pure s _)
      split
      · exact (KeepsScopes.newIdentity s).bind fun s _ => .pure s _
      split
      · exact keepsScopes_itemAt s r _
      · exact .pure s _
  | _ => exact .pure s _

theorem keepsScopes_getIndex (v index : Value) : KeepsScopes s (getIndex v index) := by
  refine .get_bind ?_
  split
  · exact keepsScopes_itemAt s _ _
  · split
    · exact .pure s _
    · exact .pure s _
  · exact keepsScopes_getProperty s _ _

theorem keepsScopes_setItem (r : Ref) (position : ℕ) (v : Value) :
    KeepsScopes s (setItem r position v) := by
  refine .get_bind ?_
  split
  · exact .throw s _
  · split
    · exact .throw s _
    · exact .onHeap s _

theorem keepsScopes_setProperty (object : Value) (name : String) (v : Value) :
    KeepsScopes s (setProperty object name v) := by
  cases object with
  | object r =>
      simp only [setProperty]
      exact .onHeap s _
  | array r =>
      simp only [setProperty]
      split
      · exact keepsScopes_setItem s r _ v
      · exact .throw s _
  | _ => exact .throw s _

theorem keepsScopes_setIndex (object index v : Value) :
    KeepsScopes s (setIndex object index v) := by
  refine .get_bind ?_
  split
  · exact keepsScopes_setItem s _ _ v
  · exact .throw s _
  · exact keepsScopes_setProperty s _ _ v

end

/-! ### Actions that keep a store rooted -/

/-- The store that an action leaves is rooted and comes after the old one, and of its result `P`
holds there. -/
def Roots (G : Proto → Prop) (s : Store) (act : Act α) (P : Store → α → Prop) : Prop :=
  ∀ a s', act s = .ok a s' → s'.Rooted G ∧ s.Before s' ∧ P s' a

/-- What is sound and keeps the scopes keeps a store rooted. -/
theorem Roots.of_sound {act : Act α} (hs : s.Rooted G)
    (hsound : Sound (Closure.Rooted G s.scopes.size) s act P) (hkeeps : KeepsScopes s act) :
    Roots G s act P := by
  intro a s' hact
  have hkept := hkeeps a s' hact
  rw [Sound, hact] at hsound
  obtain ⟨hvalid, hgrows, hP⟩ := hsound
  exact ⟨⟨hvalid.mono (Closure.Rooted.mono hkept.size), hkept.nested hs.nested⟩,
    ⟨hgrows, hkept.size⟩, hP⟩

theorem Roots.pure (hs : s.Rooted G) {a : α} (h : P s a) : Roots G s (pure a) P :=
  .of_sound hs (.pure hs.valid h) (.pure s a)

/-- A result that the old store would know is held by the new one. -/
theorem Roots.holds {act : Act α} {value : α → Value}
    (h : Roots G s act fun s' a => Yields (Closure.Rooted G s.scopes.size) s' (value a)) :
    Roots G s act fun s' a => s'.Holds G (value a) := by
  intro v s' hact
  obtain ⟨hrooted, hbefore, hv⟩ := h v s' hact
  exact ⟨hrooted, hbefore, hv.mono (Closure.Rooted.mono hbefore.size) (.refl _)⟩

theorem roots_openScope (hs : s.Rooted G) {scope : ScopeId} (hscope : scope.index < s.scopes.size) :
    Roots G s (openScope scope) fun s' inner =>
      s'.scopes.parent? inner = some scope ∧ inner.index < s'.scopes.size := by
  intro inner s' hact
  obtain ⟨hrooted, hbefore, hparent⟩ := Roots.of_sound hs (sound_openScope scope hs.valid)
    (keepsScopes_openScope s hscope) inner s' hact
  refine ⟨hrooted, hbefore, hparent, ?_⟩
  cases hact
  exact Nat.lt_of_lt_of_eq (Nat.lt_succ_self _) (Arena.size_newScope scope).symm

theorem roots_openCall (hs : s.Rooted G) {scope : ScopeId} (hscope : scope.index < s.scopes.size)
    (parameters : List String) {arguments : List Value}
    (harguments : ∀ v ∈ arguments, s.Holds G v) :
    Roots G s (openCall scope parameters arguments) fun s' inner =>
      inner.index < s'.scopes.size := by
  intro inner s' hact
  obtain ⟨hrooted, hbefore, -⟩ := Roots.of_sound hs
    (sound_openCall scope hs.valid parameters harguments)
    (keepsScopes_openCall s hscope parameters arguments) inner s' hact
  refine ⟨hrooted, hbefore, ?_⟩
  cases hact
  have hsize := (Arena.keeps_bindParameters (s.scopes.newScope scope).1 parameters arguments
    (s.scopes.newScope scope).2).size
  rw [Arena.size_newScope] at hsize
  exact hsize

theorem roots_newFunction (hs : s.Rooted G) {scope : ScopeId} {p : Proto}
    (hscope : scope.index < s.scopes.size) (hp : G p) :
    Roots G s (newFunction p scope) fun s' v => s'.Holds G v := by
  intro v s' hact
  cases hact
  exact ⟨⟨⟨hs.valid.scopes, hs.valid.heap, hs.valid.intrinsics⟩, hs.nested⟩,
    ⟨⟨.refl _, .refl _, Nat.le_succ _⟩, Nat.le_refl _⟩, hp, hscope⟩

end Act

end Tracepoint
