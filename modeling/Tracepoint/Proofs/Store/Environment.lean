/-
Scopes are an environment.

A scope knows the scope around it, and the scopes around it make up its chain.  A name means the
binding in the nearest scope of the chain that has one of that name.  Scopes share the scopes around
them, so one write may be seen from many scopes, and from some of them it is not seen because a
nearer scope has a binding of that name too.

What a scope sees is said here without the walk along the chain: a binding is the nearest one if
its scope is so many steps outwards and no scope on fewer steps has the name.  After a write, a
scope that sees the written binding sees the new value, and every other scope and name sees what it
saw before.

Main definitions:

* `Arena.Nearest`, `Arena.Unbound` — the binding that a name means, and that it means none;
* `Arena.Differs`, `Arena.Answers` — what is written, and what is read after that;
* `Arena.Assigns`, `Arena.Declares` — everything that an assignment and a declaration do;
* `Arena.Given` — the arenas that come of opening scopes, declaring and assigning.

Main results:

* `Arena.Lawful.resolve?_eq_some_iff`, `Arena.Lawful.resolve?_eq_none_iff` — what a name means;
* `Arena.Lawful.answers` — reading behind a write;
* `Arena.Lawful.assigns`, `Arena.Lawful.declares` — assignments and declarations;
* `Arena.scopes_form_environment` — **scopes are an environment**.
-/

import Tracepoint.Proofs.Store.Chains

set_option relaxedAutoImplicit false
set_option autoImplicit false

namespace Tracepoint

/-! ### Bindings -/

namespace Binding

variable {α : Type} {b : Binding α} {bs : List (Binding α)}

/-- Where no name comes twice, the first binding of a name is the only one. -/
theorem find?_eq_some_iff (hbs : (bs.map Binding.name).Nodup) {name : String} :
    bs.find? (fun b => b.name == name) = some b ↔ b ∈ bs ∧ b.name = name := by
  constructor
  · intro hfind
    have hname := List.find?_some hfind
    exact ⟨List.mem_of_find?_eq_some hfind, beq_iff_eq.1 hname⟩
  · rintro ⟨hb, rfl⟩
    cases hfind : bs.find? (fun b' => b'.name == b.name) with
    | none => exact absurd (beq_self_eq_true b.name) (List.find?_eq_none.1 hfind b hb)
    | some b' =>
        have hname := List.find?_some hfind
        rw [List.inj_on_of_nodup_map hbs (List.mem_of_find?_eq_some hfind) hb (beq_iff_eq.1 hname)]

theorem find?_eq_none_iff {name : String} :
    bs.find? (fun b => b.name == name) = none ↔ name ∉ bs.map Binding.name := by
  rw [List.find?_eq_none, List.mem_map]
  simp only [beq_iff_eq, not_exists, not_and]

/-- Where no name comes twice, a binding is overwritten at its place. -/
theorem overwrite_eq_set (hbs : (bs.map Binding.name).Nodup) {place : ℕ}
    (hb : bs[place]? = some b) (v : α) :
    overwrite b.name v bs = bs.set place { b with value := v } := by
  induction bs generalizing place with
  | nil => cases hb
  | cons first rest ih =>
      obtain ⟨hfirst, hrest⟩ := List.nodup_cons.1 hbs
      cases place with
      | zero =>
          obtain rfl : first = b := Option.some.inj hb
          rw [overwrite, if_pos rfl, List.set_cons_zero]
      | succ place =>
          have hmem : b.name ∈ rest.map Binding.name :=
            List.mem_map_of_mem (List.mem_of_getElem? hb)
          rw [overwrite, if_neg (ne_of_mem_of_not_mem hmem hfirst).symm, ih hrest hb,
            List.set_cons_succ]

end Binding

namespace Arena

variable {α : Type} {a a' : Arena α}

/-! ### What a name means -/

/-- Scopes are nested, and none binds a name twice. -/
structure Lawful (a : Arena α) : Prop where
  nested : a.Nested
  distinct : a.Distinct

/-- The binding that a name means in a scope: the scope `holder` has it, and of the scopes that are
fewer steps outwards none has the name. -/
structure Nearest (a : Arena α) (id : ScopeId) (name : String) (holder : ScopeId)
    (b : Binding α) : Prop where
  held : b ∈ a.bindings holder
  named : b.name = name
  first : ∃ steps, a.Above steps id holder ∧
    ∀ fewer < steps, ∀ nearer, a.Above fewer id nearer → name ∉ a.names nearer

/-- No scope on the way outwards has the name. -/
def Unbound (a : Arena α) (id : ScopeId) (name : String) : Prop :=
  ∀ steps outer, a.Above steps id outer → name ∉ a.names outer

theorem mem_names_of_mem {id : ScopeId} {b : Binding α} (hb : b ∈ a.bindings id) :
    b.name ∈ a.names id :=
  List.mem_map_of_mem hb

section

variable {id holder holder' : ScopeId} {name : String} {b b' : Binding α}

theorem Nearest.mem_names (h : a.Nearest id name holder b) : name ∈ a.names holder :=
  h.named ▸ mem_names_of_mem h.held

theorem Nearest.not_unbound (h : a.Nearest id name holder b) : ¬a.Unbound id name := by
  intro hunbound
  obtain ⟨steps, habove, -⟩ := h.first
  exact hunbound steps holder habove h.mem_names

/-- A name means one binding only. -/
theorem Nearest.unique (hdistinct : a.Distinct) (h : a.Nearest id name holder b)
    (h' : a.Nearest id name holder' b') : holder = holder' ∧ b = b' := by
  obtain ⟨steps, habove, hfirst⟩ := h.first
  obtain ⟨steps', habove', hfirst'⟩ := h'.first
  have hge : ¬steps' < steps := fun hlt => hfirst steps' hlt holder' habove' h'.mem_names
  have hle : ¬steps < steps' := fun hlt => hfirst' steps hlt holder habove h.mem_names
  obtain rfl : steps = steps' := by omega
  obtain rfl := habove.outer_unique habove'
  have hname : b.name = b'.name := h.named.trans h'.named.symm
  exact ⟨rfl, List.inj_on_of_nodup_map (hdistinct holder) h.held h'.held hname⟩

/-- A binding of the scope itself is the nearest one. -/
theorem nearest_self (hb : b ∈ a.bindings id) : a.Nearest id b.name id b :=
  ⟨hb, rfl, 0, rfl, fun _ hfewer => absurd hfewer (Nat.not_lt_zero _)⟩

theorem resolve?_eq (a : Arena α) (id : ScopeId) (name : String) :
    a.resolve? id name = (a.chain id).findSome? fun holder =>
      ((a.bindings holder).find? fun b => b.name == name).map (holder, ·) := by
  rw [resolve?]
  congr 1
  funext holder
  rw [bindings]
  cases a.scope? holder with
  | none => rfl
  | some s => rfl

/-- A name resolves only in a scope that is there. -/
theorem lt_size_of_resolve? (hresolve : a.resolve? id name = some (holder, b)) :
    id.index < a.size := by
  rw [resolve?_eq] at hresolve
  obtain ⟨outer, houter, -⟩ := List.exists_of_findSome?_eq_some hresolve
  exact lt_size_of_mem_chain houter

namespace Lawful

variable (h : a.Lawful)

include h

/-- What a name resolves to is its nearest binding. -/
theorem nearest_of_resolve? (hresolve : a.resolve? id name = some (holder, b)) :
    a.Nearest id name holder b := by
  have hid := lt_size_of_resolve? hresolve
  rw [resolve?_eq, List.findSome?_eq_some_iff] at hresolve
  obtain ⟨nearer, outer, rest, hchain, hfound, hnone⟩ := hresolve
  obtain ⟨b', hb', heq⟩ := Option.map_eq_some_iff.1 hfound
  cases heq
  obtain ⟨hmem, hname⟩ := (Binding.find?_eq_some_iff (h.distinct holder)).1 hb'
  refine ⟨hmem, hname, nearer.length, ?_, fun fewer hfewer scope hscope => ?_⟩
  · rw [← h.nested.getElem?_chain hid, hchain, List.getElem?_append_right (Nat.le_refl _),
      Nat.sub_self, List.getElem?_cons_zero]
  · rw [← h.nested.getElem?_chain hid, hchain, List.getElem?_append_left hfewer] at hscope
    exact Binding.find?_eq_none_iff.1
      (Option.map_eq_none_iff.1 (hnone scope (List.mem_of_getElem? hscope)))

/-- A name resolves to nothing if no scope on the way outwards has it. -/
theorem resolve?_eq_none_iff (hid : id.index < a.size) :
    a.resolve? id name = none ↔ a.Unbound id name := by
  rw [resolve?_eq, List.findSome?_eq_none_iff]
  constructor
  · intro hnone steps outer habove
    have hmem := List.mem_of_getElem? ((h.nested.getElem?_chain hid steps outer).2 habove)
    exact Binding.find?_eq_none_iff.1 (Option.map_eq_none_iff.1 (hnone outer hmem))
  · intro hunbound outer hmem
    obtain ⟨steps, hsteps⟩ := List.mem_iff_getElem?.1 hmem
    have habove := (h.nested.getElem?_chain hid steps outer).1 hsteps
    exact Option.map_eq_none_iff.2 (Binding.find?_eq_none_iff.2 (hunbound steps outer habove))

/-- A name resolves to its nearest binding. -/
theorem resolve?_eq_some_iff (hid : id.index < a.size) :
    a.resolve? id name = some (holder, b) ↔ a.Nearest id name holder b := by
  refine ⟨h.nearest_of_resolve?, fun hnearest => ?_⟩
  cases hresolve : a.resolve? id name with
  | none => exact absurd ((h.resolve?_eq_none_iff hid).1 hresolve) hnearest.not_unbound
  | some found =>
      obtain ⟨rfl, rfl⟩ := hnearest.unique h.distinct (h.nearest_of_resolve? hresolve)
      rfl

/-- A name has the value of its nearest binding. -/
theorem access_eq_some_iff (hid : id.index < a.size) {v : α} :
    a.access id name = some v ↔ ∃ holder b, a.Nearest id name holder b ∧ b.value = v := by
  rw [access, Option.map_eq_some_iff]
  constructor
  · rintro ⟨⟨holder, b⟩, hresolve, hv⟩
    exact ⟨holder, b, h.nearest_of_resolve? hresolve, hv⟩
  · rintro ⟨holder, b, hnearest, hv⟩
    exact ⟨(holder, b), (h.resolve?_eq_some_iff hid).2 hnearest, hv⟩

theorem access_eq_none_iff (hid : id.index < a.size) :
    a.access id name = none ↔ a.Unbound id name := by
  rw [access, Option.map_eq_none_iff, h.resolve?_eq_none_iff hid]

end Lawful

end

/-! ### Writes -/

/-- Only the bindings of one scope differ: there they are now `bs`. -/
structure Differs (a a' : Arena α) (holder : ScopeId) (bs : List (Binding α)) : Prop where
  size : a'.size = a.size
  parents : ∀ id, a'.parent? id = a.parent? id
  others : ∀ id, id ≠ holder → a'.bindings id = a.bindings id
  written : a'.bindings holder = bs

/-- In a scope a name has a new value, which is that of one binding. From every other scope, and
under every other name, the same is read as before, or it is that binding that is read. -/
def Answers (a a' : Arena α) (id : ScopeId) (name : String) (v : α) : Prop :=
  a'.access id name = some v ∧
    ∃ holder b, a'.Nearest id name holder b ∧ b.value = v ∧
      ∀ other name', a'.access other name' = a.access other name' ∨
        name' = name ∧ a'.Nearest other name holder b

section

variable {id holder : ScopeId} {name : String} {s : Scope α} {b : Binding α}
  {bs : List (Binding α)}

theorem differs_modify (hs : a.scope? holder = some s) {f : Scope α → Scope α}
    (hf : ∀ s, (f s).parent = s.parent) : a.Differs (a.modify holder f) holder (f s).bindings where
  size := a.size_modify holder f
  parents id := by
    rw [parent?, parent?, scope?_modify]
    split_ifs
    · cases a.scope? id with
      | none => rfl
      | some s => exact hf s
    · rfl
  others id hid := a.bindings_modify_of_ne hid f
  written := by
    rw [bindings, scope?_modify, if_pos rfl, hs]
    rfl

namespace Differs

variable {other holder' : ScopeId} {name' : String} {b' : Binding α}
  (hdiffers : a.Differs a' holder bs)
  (hbs : ∀ name ∈ a.names holder, name ∈ bs.map Binding.name)

include hdiffers hbs

/-- No scope loses a name. -/
theorem mem_names (hname : name ∈ a.names id) : name ∈ a'.names id := by
  by_cases hid : id = holder
  · subst hid
    rw [names, hdiffers.written]
    exact hbs name hname
  · rw [names, hdiffers.others id hid]
    exact hname

/-- A name that means nothing after the write meant nothing before. -/
theorem unbound (hunbound : a'.Unbound other name') : a.Unbound other name' :=
  fun steps outer habove hname =>
    hunbound steps outer ((above_congr hdiffers.parents).2 habove) (hdiffers.mem_names hbs hname)

/-- A binding that was there before and is the nearest one after the write was so before. -/
theorem nearest (hnearest : a'.Nearest other name' holder' b')
    (hheld : b' ∈ a.bindings holder') : a.Nearest other name' holder' b' := by
  obtain ⟨steps, habove, hfirst⟩ := hnearest.first
  refine ⟨hheld, hnearest.named, steps, (above_congr hdiffers.parents).1 habove, ?_⟩
  intro fewer hfewer nearer hnearer hname
  exact hfirst fewer hfewer nearer ((above_congr hdiffers.parents).2 hnearer)
    (hdiffers.mem_names hbs hname)

end Differs

/-- What is read behind a write of one binding. -/
theorem Lawful.answers (h : a.Lawful) (h' : a'.Lawful) (hdiffers : a.Differs a' holder bs)
    (hbs : ∀ name ∈ a.names holder, name ∈ bs.map Binding.name)
    (hold : ∀ b' ∈ bs, b' ∈ a.bindings holder ∨ b' = b)
    (hid : id.index < a.size) (hb : a'.Nearest id name holder b) :
    a.Answers a' id name b.value := by
  refine ⟨(h'.access_eq_some_iff (hdiffers.size ▸ hid)).2 ⟨holder, b, hb, rfl⟩, holder, b, hb, rfl,
    fun other name' => ?_⟩
  cases hresolve : a'.resolve? other name' with
  | none =>
      have hbefore : a.resolve? other name' = none := by
        cases hbefore : a.resolve? other name' with
        | none => rfl
        | some found =>
            have hother := lt_size_of_resolve? hbefore
            have hunbound := (h'.resolve?_eq_none_iff (hdiffers.size ▸ hother)).1 hresolve
            rw [(h.resolve?_eq_none_iff hother).2 (hdiffers.unbound hbs hunbound)] at hbefore
            cases hbefore
      exact .inl (by rw [access, access, hresolve, hbefore])
  | some found =>
      obtain ⟨holder', b'⟩ := found
      have hnearest := h'.nearest_of_resolve? hresolve
      have hother : other.index < a.size := hdiffers.size ▸ lt_size_of_resolve? hresolve
      -- The binding that is read afterwards was there before, or it is the one that was written.
      have hheld : b' ∈ a.bindings holder' ∨ holder' = holder ∧ b' = b := by
        by_cases hholder : holder' = holder
        · subst hholder
          exact (hold b' (hdiffers.written ▸ hnearest.held)).imp_right (⟨rfl, ·⟩)
        · exact .inl (hdiffers.others holder' hholder ▸ hnearest.held)
      rcases hheld with hheld | ⟨rfl, rfl⟩
      · have hbefore := (h.resolve?_eq_some_iff hother).2 (hdiffers.nearest hbs hnearest hheld)
        exact .inl (by rw [access, access, hresolve, hbefore])
      · have hname : name' = name := hnearest.named.symm.trans hb.named
        exact .inr ⟨hname, hname ▸ hnearest⟩

/-! #### A new value -/

/-- Names and what lies around a scope stay as they are when a binding is overwritten. -/
theorem Lawful.overwrite (h : a.Lawful) (holder : ScopeId) (name : String) (v : α) :
    (a.modify holder fun s => s.overwrite name v).Lawful where
  nested := h.nested.modify holder fun _ => rfl
  distinct id := by
    rw [names_overwrite]
    exact h.distinct id

theorem Lawful.differs_overwrite (h : a.Lawful) {place : ℕ}
    (hb : (a.bindings holder)[place]? = some b) (v : α) :
    a.Differs (a.modify holder fun s => s.overwrite b.name v) holder
      ((a.bindings holder).set place { b with value := v }) := by
  cases hs : a.scope? holder with
  | none =>
      rw [bindings, hs] at hb
      cases hb
  | some s =>
      rw [← Binding.overwrite_eq_set (h.distinct holder) hb, bindings, hs]
      exact differs_modify hs fun _ => rfl

/-- What is read behind a new value for the nearest binding. -/
theorem Lawful.answers_overwrite (h : a.Lawful) (hid : id.index < a.size)
    (hnearest : a.Nearest id name holder b) (v : α) :
    a.Answers (a.modify holder fun s => s.overwrite name v) id name v := by
  obtain rfl := hnearest.named
  obtain ⟨place, hplace⟩ := List.mem_iff_getElem?.1 hnearest.held
  have hdiffers := h.differs_overwrite hplace v
  have hnames : ∀ other, (a.modify holder fun s => s.overwrite b.name v).names other =
      a.names other := names_overwrite holder b.name v
  have hplace' : place < (a.bindings holder).length := (List.getElem?_eq_some_iff.1 hplace).1
  refine h.answers (b := { b with value := v }) (h.overwrite holder b.name v) hdiffers
    (fun other hother => ?_) (fun b' hb' => List.mem_or_eq_of_mem_set hb') hid ?_
  · rw [← hdiffers.written]
    rw [← hnames holder] at hother
    exact hother
  · obtain ⟨steps, habove, hfirst⟩ := hnearest.first
    refine ⟨?_, rfl, steps, (above_congr hdiffers.parents).2 habove, ?_⟩
    · rw [hdiffers.written]
      exact List.mem_set hplace' _
    · intro fewer hfewer nearer hnearer
      rw [hnames]
      exact hfirst fewer hfewer nearer ((above_congr hdiffers.parents).1 hnearer)

/-! #### A new binding -/

theorem Lawful.answers_add (h : a.Lawful) (hs : a.scope? id = some s) {kind : BindingKind} {v : α}
    (h' : (a.modify id fun s => s.add ⟨name, v, kind⟩).Lawful) :
    a.Differs (a.modify id fun s => s.add ⟨name, v, kind⟩) id
        (a.bindings id ++ [⟨name, v, kind⟩]) ∧
      a.Answers (a.modify id fun s => s.add ⟨name, v, kind⟩) id name v := by
  have hdiffers : a.Differs (a.modify id fun s => s.add ⟨name, v, kind⟩) id
      (a.bindings id ++ [⟨name, v, kind⟩]) := by
    rw [bindings, hs]
    exact differs_modify hs fun _ => rfl
  have hid : id.index < a.size := isSome_scope?.1 (Option.isSome_of_mem hs)
  refine ⟨hdiffers, h.answers (b := ⟨name, v, kind⟩) h' hdiffers (fun other hother => ?_)
    (fun b' hb' => ?_) hid (nearest_self (b := ⟨name, v, kind⟩) ?_)⟩
  · rw [List.map_append]
    exact List.mem_append_left _ hother
  · exact (List.mem_append.1 hb').imp_right List.mem_singleton.1
  · rw [hdiffers.written]
    exact List.mem_append_right _ (List.mem_singleton.2 rfl)

end

/-! ### Assignments and declarations -/

section

variable {e : ScopeError}

/-- A refused assignment changes nothing. -/
theorem assign_refused {id : ScopeId} {name : String} {v : α}
    (h : (a.assign id name v).1 = .error e) : (a.assign id name v).2 = a := by
  simp only [assign] at h ⊢
  split at h
  · rfl
  next holder b hresolve =>
    split_ifs at h with hkind
    rw [if_pos hkind]

/-- A refused declaration changes nothing. -/
theorem declare_refused {id : ScopeId} {name : String} {v : α} {kind : BindingKind}
    (h : (a.declare id name v kind).1 = .error e) : (a.declare id name v kind).2 = a := by
  simp only [declare] at h ⊢
  split at h
  · rfl
  next s hs =>
    split at h
    next => cases h
    next b hb =>
      split_ifs at h with hagain
      rw [if_neg hagain]

end

/-- What comes of an assignment. It fails where the name means nothing or a constant. Otherwise the
nearest binding has the new value. -/
structure Assigns (a : Arena α) (id : ScopeId) (name : String) (v : α)
    (outcome : Except ScopeError Unit × Arena α) : Prop where
  undeclared : outcome.1 = .error .undeclared ↔ a.Unbound id name
  constant : outcome.1 = .error .assignToConstant ↔
    ∃ holder b, a.Nearest id name holder b ∧ b.kind = .const_
  never : outcome.1 ≠ .error .alreadyDeclared
  refused : ∀ e, outcome.1 = .error e → outcome.2 = a
  written : outcome.1 = .ok () → ∃ (holder : ScopeId) (b : Binding α) (place : ℕ),
    a.Nearest id name holder b ∧ (a.bindings holder)[place]? = some b ∧
      a.Differs outcome.2 holder ((a.bindings holder).set place { b with value := v })
  answers : outcome.1 = .ok () → a.Answers outcome.2 id name v

/-- What comes of a declaration. It fails where the scope has the name already and the one kind or
the other allows no second declaration. Otherwise the scope has one more binding, or the binding
that it has of the name has the new value. -/
structure Declares (a : Arena α) (id : ScopeId) (name : String) (v : α) (kind : BindingKind)
    (outcome : Except ScopeError Unit × Arena α) : Prop where
  fails : (∃ e, outcome.1 = .error e) ↔ ∃ b ∈ a.bindings id, b.name = name ∧
    ((b.kind = .let_ ∨ b.kind = .const_) ∨ kind = .let_ ∨ kind = .const_)
  only : ∀ e, outcome.1 = .error e → e = .alreadyDeclared
  refused : ∀ e, outcome.1 = .error e → outcome.2 = a
  written : outcome.1 = .ok () →
    name ∉ a.names id ∧ a.Differs outcome.2 id (a.bindings id ++ [⟨name, v, kind⟩]) ∨
      ∃ (b : Binding α) (place : ℕ), (a.bindings id)[place]? = some b ∧ b.name = name ∧
        a.Differs outcome.2 id ((a.bindings id).set place { b with value := v })
  answers : outcome.1 = .ok () → a.Answers outcome.2 id name v

/-- The kinds that forbid a second declaration. -/
theorem isRedeclarable_eq_false_iff {kind : BindingKind} :
    kind.isRedeclarable = false ↔ kind = .let_ ∨ kind = .const_ := by
  cases kind <;> decide

namespace Lawful

/-- A name has one binding in a scope, so the kinds that matter are the kind of that binding and the
new one. -/
theorem forbidden_iff (h : a.Lawful) {id : ScopeId} {b : Binding α} (hb : b ∈ a.bindings id)
    (kind : BindingKind) :
    (∃ b' ∈ a.bindings id, b'.name = b.name ∧
        ((b'.kind = .let_ ∨ b'.kind = .const_) ∨ kind = .let_ ∨ kind = .const_)) ↔
      (b.kind.isRedeclarable && kind.isRedeclarable) = false := by
  rw [Bool.and_eq_false_iff, isRedeclarable_eq_false_iff, isRedeclarable_eq_false_iff]
  constructor
  · rintro ⟨b', hb', hname, hkind⟩
    obtain rfl : b' = b := List.inj_on_of_nodup_map (h.distinct id) hb' hb hname
    exact hkind
  · exact fun hkind => ⟨b, hb, rfl, hkind⟩

variable {id : ScopeId} (h : a.Lawful) (hid : id.index < a.size) (name : String) (v : α)

include h hid

theorem assigns : a.Assigns id name v (a.assign id name v) := by
  have hrefused : ∀ e, (a.assign id name v).1 = .error e → (a.assign id name v).2 = a :=
    fun e he => assign_refused he
  cases hresolve : a.resolve? id name with
  | none =>
      have hunbound := (h.resolve?_eq_none_iff hid).1 hresolve
      have hassign : a.assign id name v = (.error .undeclared, a) := by rw [assign, hresolve]
      rw [hassign] at hrefused ⊢
      refine {
        undeclared := iff_of_true rfl hunbound
        constant := iff_of_false (by simp) ?_
        never := by simp
        refused := hrefused
        written := by simp
        answers := by simp }
      rintro ⟨holder, b, hnearest, -⟩
      exact hnearest.not_unbound hunbound
  | some found =>
      obtain ⟨holder, b⟩ := found
      have hnearest := h.nearest_of_resolve? hresolve
      by_cases hkind : b.kind = .const_
      · have hassign : a.assign id name v = (.error .assignToConstant, a) := by
          rw [assign, hresolve]
          exact if_pos hkind
        rw [hassign] at hrefused ⊢
        exact {
          undeclared := iff_of_false (by simp) hnearest.not_unbound
          constant := iff_of_true rfl ⟨holder, b, hnearest, hkind⟩
          never := by simp
          refused := hrefused
          written := by simp
          answers := by simp }
      · have hassign : a.assign id name v =
            (.ok (), a.modify holder fun s => s.overwrite name v) := by
          rw [assign, hresolve]
          exact if_neg hkind
        obtain ⟨place, hplace⟩ := List.mem_iff_getElem?.1 hnearest.held
        rw [hassign] at hrefused ⊢
        refine {
          undeclared := iff_of_false (by simp) hnearest.not_unbound
          constant := iff_of_false (by simp) ?_
          never := by simp
          refused := hrefused
          written := fun _ => ⟨holder, b, place, hnearest, hplace,
            hnearest.named ▸ h.differs_overwrite hplace v⟩
          answers := fun _ => h.answers_overwrite hid hnearest v }
        rintro ⟨holder', b', hnearest', hkind'⟩
        obtain ⟨-, rfl⟩ := hnearest.unique h.distinct hnearest'
        exact hkind hkind'

theorem declares (kind : BindingKind) :
    a.Declares id name v kind (a.declare id name v kind) := by
  have hrefused : ∀ e, (a.declare id name v kind).1 = .error e →
      (a.declare id name v kind).2 = a := fun e he => declare_refused he
  obtain ⟨s, hs⟩ := Option.isSome_iff_exists.1 (isSome_scope?.2 hid)
  have hbindings : a.bindings id = s.bindings := by rw [bindings, hs]
  cases hfind : s.find? name with
  | none =>
      have hnew : name ∉ a.names id := by
        rw [names, hbindings]
        exact Binding.find?_eq_none_iff.1 hfind
      have hdeclare : a.declare id name v kind =
          (.ok (), a.modify id fun s => s.add ⟨name, v, kind⟩) := by
        simp only [declare, hs, hfind]
      have hlawful : (a.modify id fun s => s.add ⟨name, v, kind⟩).Lawful := by
        have hdistinct := h.distinct.declare id name v kind
        rw [hdeclare] at hdistinct
        exact ⟨h.nested.modify id fun _ => rfl, hdistinct⟩
      obtain ⟨hdiffers, hanswers⟩ := h.answers_add hs hlawful
      rw [hdeclare] at hrefused ⊢
      refine {
        fails := iff_of_false (by simp) ?_
        only := by simp
        refused := hrefused
        written := fun _ => .inl ⟨hnew, hdiffers⟩
        answers := fun _ => hanswers }
      rintro ⟨b, hb, rfl, -⟩
      exact hnew (mem_names_of_mem hb)
  | some b =>
      have hheld : b ∈ a.bindings id ∧ b.name = name := by
        rw [← Binding.find?_eq_some_iff (h.distinct id), hbindings]
        exact hfind
      obtain ⟨hmem, rfl⟩ := hheld
      have hforbidden := h.forbidden_iff hmem kind
      by_cases hagain : (b.kind.isRedeclarable && kind.isRedeclarable) = true
      · have hdeclare : a.declare id b.name v kind =
            (.ok (), a.modify id fun s => s.overwrite b.name v) := by
          simp only [declare, hs, hfind, hagain, if_true]
        obtain ⟨place, hplace⟩ := List.mem_iff_getElem?.1 hmem
        rw [hdeclare] at hrefused ⊢
        exact {
          fails := iff_of_false (by simp)
            (by rw [hforbidden, hagain]; exact Bool.noConfusion)
          only := by simp
          refused := hrefused
          written := fun _ => .inr ⟨b, place, hplace, rfl, h.differs_overwrite hplace v⟩
          answers := fun _ => h.answers_overwrite hid (nearest_self hmem) v }
      · have hdeclare : a.declare id b.name v kind = (.error .alreadyDeclared, a) := by
          simp only [declare, hs, hfind]
          exact if_neg hagain
        rw [hdeclare] at hrefused ⊢
        exact {
          fails := iff_of_true ⟨_, rfl⟩ (hforbidden.2 (Bool.eq_false_iff.2 hagain))
          only := fun _ heq => (Except.error.inj heq).symm
          refused := hrefused
          written := by simp
          answers := by simp }

end Lawful

/-! ### The arenas of a run -/

/-- The arenas that come of opening scopes, declaring and assigning, whatever these result in, with
the scopes that may be named there: those that the arena has given out. -/
inductive Given : List ScopeId → Arena α → Prop
  | initial : Given [global] initial
  | newScope {ids : List ScopeId} {a : Arena α} {parent : ScopeId} (h : Given ids a)
      (hparent : parent ∈ ids) : Given ((a.newScope parent).1 :: ids) (a.newScope parent).2
  | declare {ids : List ScopeId} {a : Arena α} {id : ScopeId} (h : Given ids a) (hid : id ∈ ids)
      (name : String) (v : α) (kind : BindingKind) : Given ids (a.declare id name v kind).2
  | assign {ids : List ScopeId} {a : Arena α} {id : ScopeId} (h : Given ids a) (hid : id ∈ ids)
      (name : String) (v : α) : Given ids (a.assign id name v).2

namespace Given

variable {ids : List ScopeId}

/-- A scope that the arena has given out is there. -/
theorem lt_size (h : a.Given ids) : ∀ id ∈ ids, id.index < a.size := by
  induction h with
  | initial =>
      intro id hid
      obtain rfl := List.mem_singleton.1 hid
      exact Nat.zero_lt_one
  | newScope h hparent ih =>
      intro id hid
      rw [size_newScope]
      rcases List.mem_cons.1 hid with rfl | hid
      · exact Nat.lt_succ_self _
      · exact Nat.lt_succ_of_lt (ih id hid)
  | declare h hid name v kind ih =>
      exact fun other hother => Nat.lt_of_lt_of_le (ih other hother) (keeps_declare ..).size
  | assign h hid name v ih =>
      exact fun other hother => Nat.lt_of_lt_of_le (ih other hother) (keeps_assign ..).size

theorem lawful (h : a.Given ids) : a.Lawful := by
  induction h with
  | initial => exact ⟨nested_initial, distinct_initial⟩
  | newScope h hparent ih =>
      exact ⟨ih.nested.newScope (h.lt_size _ hparent), ih.distinct.newScope _⟩
  | declare h hid name v kind ih =>
      exact ⟨(keeps_declare ..).nested ih.nested, ih.distinct.declare _ _ _ _⟩
  | assign h hid name v ih =>
      exact ⟨(keeps_assign ..).nested ih.nested, ih.distinct.assign _ _ _⟩

end Given

/-- **Scopes are an environment.** After opening scopes, declaring and assigning in any order, with
any results: every scope lies inside an earlier one, and the walk outwards from a scope ends; a name
has the value of its nearest binding, and none if it has no binding on the way outwards; and
assigning and declaring do what `Assigns` and `Declares` say. -/
theorem scopes_form_environment {ids : List ScopeId} (h : a.Given ids) :
    (∀ id parent, a.parent? id = some parent → parent.index < id.index) ∧
      ∀ id ∈ ids,
        (∀ (steps : ℕ) outer, (a.chain id)[steps]? = some outer ↔ a.Above steps id outer) ∧
        (a.chain id).length ≤ id.index + 1 ∧
        ∀ name,
          (∀ v, a.access id name = some v ↔ ∃ holder b, a.Nearest id name holder b ∧ b.value = v) ∧
          (a.access id name = none ↔ a.Unbound id name) ∧
          ∀ v, a.Assigns id name v (a.assign id name v) ∧
            ∀ kind, a.Declares id name v kind (a.declare id name v kind) := by
  have hlawful := h.lawful
  refine ⟨hlawful.nested, fun id hmem => ?_⟩
  have hid := h.lt_size id hmem
  exact ⟨hlawful.nested.getElem?_chain hid, hlawful.nested.length_chain_le hid,
    fun name => ⟨fun v => hlawful.access_eq_some_iff hid, hlawful.access_eq_none_iff hid,
      fun v => ⟨hlawful.assigns hid name v, hlawful.declares hid name v⟩⟩⟩

/-- A scope shadows a variable of the scope around it, and an assignment writes the nearer one. -/
theorem scopes_form_environment_shadowed :
    let outer : Arena Value := (initial.declare global "x" .null .var_).2
    let a := ((outer.newScope global).2.declare ⟨1⟩ "x" .undefined .let_).2
    a.Given [⟨1⟩, global] ∧ (a.assign ⟨1⟩ "x" (.bool true)).1 = .ok () ∧
      a.Answers (a.assign ⟨1⟩ "x" (.bool true)).2 ⟨1⟩ "x" (.bool true) ∧
      (a.assign ⟨1⟩ "x" (.bool true)).2.access global "x" = some .null := by
  intro outer a
  have hinitial : (initial : Arena Value).Given [global] := .initial
  have hglobal := hinitial.declare (List.mem_singleton.2 rfl) "x" .null .var_
  have hgiven : a.Given [⟨1⟩, global] :=
    (hglobal.newScope (List.mem_singleton.2 rfl)).declare (List.mem_cons_self ..) "x" .undefined
      .let_
  have hassign := (((scopes_form_environment hgiven).2 ⟨1⟩ (List.mem_cons_self ..)).2.2 "x").2.2
    (.bool true)
  have hok : (a.assign ⟨1⟩ "x" (.bool true)).1 = .ok () := by decide
  exact ⟨hgiven, hok, hassign.1.answers hok, rfl⟩

end Arena

end Tracepoint
