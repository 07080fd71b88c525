/-
Snapshots show what the program would read.

A snapshot walks from the scope of the running frame outwards and passes over names that it has
already.  A program reads a name by walking the same way to the first scope that binds it.  So a
snapshot has the names that the program could read, each once, and for each the copy of the very
value that would be read.

Main definitions:

* `unshadowed` — the variables of which no earlier one has the name;
* `copyVariable` — the copy of a variable;
* `Machine.namesInSight`, `Machine.sight` — what the program could read, and what it would read.

Main results:

* `Arena.find?_chain` — the value of a name is that of the first binding of the name on the chain;
* `copyScopes_eq` — a snapshot copies the variables that are not shadowed, one after the other;
* `snapshot_shows_sight` — **a snapshot shows what the program would read**.
-/

import Tracepoint.Proofs.Machine.Integrity
import Tracepoint.Proofs.Store.Chains
import Tracepoint.Session.Snapshot

set_option relaxedAutoImplicit false
set_option autoImplicit false

namespace Tracepoint

/-! ### Variables in sight -/

namespace Arena

/-- The value of a name is that of the first binding on the chain that has the name. -/
theorem find?_chain {α : Type} (a : Arena α) (id : ScopeId) (name : String) :
    ((a.chain id).flatMap fun holder => (a.bindings holder).map fun b => (b.name, b.value)).find?
      (fun e => e.1 == name) = (a.access id name).map (name, ·) := by
  rw [List.find?_flatMap, access, resolve?, Option.map_map, List.map_findSome?]
  congr 1
  funext holder
  rw [List.find?_map, bindings, Function.comp_apply, Option.map_map]
  cases a.scope? holder with
  | none => rfl
  | some s =>
      refine Option.map_congr fun b hb => ?_
      have hname := List.find?_some hb
      obtain rfl : b.name = name := beq_iff_eq.1 hname
      rfl

end Arena

/-! ### Variables that are not shadowed -/

section

variable {υ : Type}

/-- The variables of which neither an earlier one nor `seen` has the name. -/
def unshadowed (seen : List String) : List (String × υ) → List (String × υ)
  | [] => []
  | (name, v) :: rest =>
    if name ∈ seen then unshadowed seen rest else (name, v) :: unshadowed (seen ++ [name]) rest

/-- A variable is not shadowed only if it is the first one of its name. -/
theorem find?_of_mem_unshadowed {seen : List String} {entries : List (String × υ)}
    {e : String × υ} (he : e ∈ unshadowed seen entries) :
    e.1 ∉ seen ∧ entries.find? (fun e' => e'.1 == e.1) = some e := by
  induction entries generalizing seen with
  | nil => cases he
  | cons first rest ih =>
      obtain ⟨name, v⟩ := first
      rw [unshadowed] at he
      split_ifs at he with hname
      · obtain ⟨hnew, hfind⟩ := ih he
        have hne : name ≠ e.1 := fun heq => hnew (heq ▸ hname)
        exact ⟨hnew, by rw [List.find?_cons, beq_eq_false_iff_ne.2 hne]; exact hfind⟩
      · rcases List.mem_cons.1 he with rfl | he
        · exact ⟨hname, by rw [List.find?_cons, beq_self_eq_true]⟩
        · obtain ⟨hnew, hfind⟩ := ih he
          rw [List.mem_append, List.mem_singleton, not_or] at hnew
          have hne : name ≠ e.1 := Ne.symm hnew.2
          exact ⟨hnew.1, by rw [List.find?_cons, beq_eq_false_iff_ne.2 hne]; exact hfind⟩

theorem nodup_unshadowed (seen : List String) (entries : List (String × υ)) :
    ((unshadowed seen entries).map Prod.fst).Nodup := by
  induction entries generalizing seen with
  | nil => exact List.nodup_nil
  | cons first rest ih =>
      obtain ⟨name, v⟩ := first
      rw [unshadowed]
      split_ifs with hname
      · exact ih seen
      · refine List.nodup_cons.2 ⟨fun hmem => ?_, ih _⟩
        obtain ⟨e, he, heq⟩ := List.mem_map.1 hmem
        refine (find?_of_mem_unshadowed he).1 ?_
        rw [heq]
        exact List.mem_append_right _ (List.mem_singleton.2 rfl)

/-- The names of the variables that are not shadowed are all names, each at its first place. -/
theorem names_unshadowed (seen : List String) (entries : List (String × υ)) :
    (unshadowed seen entries).map Prod.fst =
      ((entries.map Prod.fst).filter fun name => name ∉ seen).eraseDups := by
  induction entries generalizing seen with
  | nil => rfl
  | cons first rest ih =>
      obtain ⟨name, v⟩ := first
      rw [unshadowed, List.map_cons, List.filter_cons]
      by_cases hname : name ∈ seen
      · rw [if_pos hname, ih, if_neg (by simpa using hname)]
      · rw [if_neg hname, List.map_cons, ih, if_pos (by simpa using hname), List.eraseDups_cons,
          List.filter_filter]
        congr 2
        refine List.filter_congr fun other _ => ?_
        by_cases hother : other = name
        · simp [hother]
        · simp [hother]

/-- What is not shadowed are the names, each with the first value of that name. -/
theorem unshadowed_eq (entries : List (String × υ)) :
    unshadowed [] entries =
      (entries.map Prod.fst).eraseDups.filterMap fun name =>
        entries.find? fun e => e.1 == name := by
  have hnames := names_unshadowed [] entries
  have hall : (entries.map Prod.fst).filter (fun name => name ∉ ([] : List String)) =
      entries.map Prod.fst := List.filter_eq_self.2 fun name _ => decide_eq_true List.not_mem_nil
  rw [hall] at hnames
  rw [← hnames, List.filterMap_map]
  have hfirst : ∀ e ∈ unshadowed [] entries,
      ((fun name => entries.find? fun e => e.1 == name) ∘ Prod.fst) e = some e :=
    fun e he => (find?_of_mem_unshadowed he).2
  rw [List.filterMap_congr hfirst, List.filterMap_some]

end

/-! ### Copies of variables -/

section

variable {υ : Type} (limits : Limits) (marshal : υ → Marshalled υ)

/-- The copy of a variable. -/
def copyVariable (e : String × υ) : Copying (String × Shown) := do
  let copied ← copy limits marshal limits.depth [] e.2
  return (e.1, copied)

/-- A scope adds the copies of its variables that are not shadowed. -/
theorem copyScope_eq (entries : List (String × υ)) (shown : Snapshot) :
    copyScope limits marshal entries shown = do
      let copies ← (unshadowed (shown.map Prod.fst) entries).mapM (copyVariable limits marshal)
      return shown ++ copies := by
  induction entries generalizing shown with
  | nil => simp [copyScope, unshadowed]
  | cons first rest ih =>
      obtain ⟨name, v⟩ := first
      have hfind : (shown.find? name).isSome = true ↔ name ∈ shown.map Prod.fst := by
        simp [Snapshot.find?, List.find?_isSome]
      rw [copyScope, unshadowed]
      by_cases hname : name ∈ shown.map Prod.fst
      · rw [if_pos (hfind.2 hname), if_pos hname, ih]
      · rw [if_neg (mt hfind.1 hname), if_neg hname, List.mapM_cons, copyVariable]
        simp only [ih, List.map_append, List.map_cons, List.map_nil, bind_assoc, pure_bind,
          List.append_assoc, List.singleton_append]

theorem copyScope_append (entries entries' : List (String × υ)) (shown : Snapshot) :
    copyScope limits marshal (entries ++ entries') shown =
      copyScope limits marshal entries shown >>= copyScope limits marshal entries' := by
  induction entries generalizing shown with
  | nil => rw [List.nil_append, copyScope, pure_bind]
  | cons first rest ih =>
      obtain ⟨name, v⟩ := first
      rw [List.cons_append, copyScope, copyScope]
      split_ifs
      · exact ih shown
      · simp only [ih, bind_assoc]

/-- Scopes are copied like one scope with all their variables. -/
theorem copyScopes_eq (scopes : List (List (String × υ))) (shown : Snapshot) :
    copyScopes limits marshal scopes shown = copyScope limits marshal scopes.flatten shown := by
  induction scopes generalizing shown with
  | nil => rfl
  | cons scope outer ih =>
      rw [copyScopes, List.flatten_cons, copyScope_append]
      simp only [ih]

/-- Copies keep the names of the variables. -/
theorem names_mapM_copyVariable (entries : List (String × υ)) (left : ℕ) :
    ((entries.mapM (copyVariable limits marshal)).run left).1.map Prod.fst =
      entries.map Prod.fst := by
  induction entries generalizing left with
  | nil => rfl
  | cons first rest ih =>
      rw [List.mapM_cons]
      exact congrArg (first.1 :: ·) (ih _)

end

/-! ### What a program would read -/

namespace Machine

variable {m : Machine}

/-- The names in sight: those of inner scopes first, those of one scope in the order of their
declaration. A name that an inner scope has is left out of the outer ones. -/
def namesInSight (m : Machine) : List String :=
  ((m.scopes.chain m.currentScope).flatMap m.scopes.names).eraseDups

/-- The names in sight with the values that the program would read. -/
def sight (m : Machine) : List (String × Value) :=
  m.namesInSight.filterMap fun name => (m.scopes.access m.currentScope name).map (name, ·)

theorem flatten_scopeBindings (m : Machine) :
    m.scopeBindings.flatten = (m.scopes.chain m.currentScope).flatMap fun id =>
      (m.scopes.bindings id).map fun b => (b.name, b.value) :=
  rfl

theorem names_scopeBindings (m : Machine) :
    m.scopeBindings.flatten.map Prod.fst =
      (m.scopes.chain m.currentScope).flatMap m.scopes.names := by
  rw [flatten_scopeBindings, List.map_flatMap]
  congr 1
  funext id
  rw [List.map_map]
  rfl

/-- The variables that are not shadowed are those that the program would read. -/
theorem unshadowed_scopeBindings (m : Machine) :
    unshadowed [] m.scopeBindings.flatten = m.sight := by
  rw [unshadowed_eq, names_scopeBindings, flatten_scopeBindings]
  simp only [Arena.find?_chain]
  rfl

theorem names_sight (m : Machine) : m.sight.map Prod.fst = m.namesInSight := by
  rw [← unshadowed_scopeBindings, names_unshadowed, names_scopeBindings]
  simp [namesInSight]

theorem nodup_namesInSight (m : Machine) : m.namesInSight.Nodup := by
  rw [← names_sight, ← unshadowed_scopeBindings]
  exact nodup_unshadowed [] _

/-- Exactly the names in sight can be read. -/
theorem mem_namesInSight (m : Machine) (name : String) :
    name ∈ m.namesInSight ↔ (m.scopes.access m.currentScope name).isSome := by
  have hfind := m.scopes.find?_chain m.currentScope name
  rw [namesInSight, List.mem_eraseDups, ← names_scopeBindings, ← Option.isSome_map, ← hfind,
    ← flatten_scopeBindings, List.find?_isSome]
  simp only [List.mem_map, beq_iff_eq]

/-- Behind the end of a program the global scope is in sight. -/
theorem currentScope_of_halt (h : m.nextInstr? = some .halt) :
    m.step.1.currentScope = Arena.global := by
  rcases m.step_cases with ⟨hnone, -⟩ | ⟨frame, callers, i, next, -, hnext, hstep⟩
  · rw [h] at hnone
    cases hnone
  · obtain rfl : i = .halt := Option.some.inj (hnext.symm.trans h)
    rw [hstep]
    rfl

end Machine

/-- The scopes of a machine are copied like what is in sight. -/
theorem copyScopes_sight (limits : Limits) (m : Machine) :
    copyScopes limits m.marshal m.scopeBindings [] =
      m.sight.mapM (copyVariable limits m.marshal) := by
  have hcopies := copyScopes_eq limits m.marshal m.scopeBindings []
  rw [copyScope_eq, List.map_nil, m.unshadowed_scopeBindings] at hcopies
  exact hcopies.trans (bind_pure _)

theorem snapshot_eq (limits : Limits) (m : Machine) :
    snapshot Script.interpreter limits m =
      ((m.sight.mapM (copyVariable limits m.marshal)).run limits.nodes).1 :=
  congrArg (fun copying : Copying Snapshot => (copying.run limits.nodes).1)
    (copyScopes_sight limits m)

/-- The names of a snapshot are the names in sight. -/
theorem names_snapshot (limits : Limits) (m : Machine) :
    (snapshot Script.interpreter limits m).map Prod.fst = m.namesInSight := by
  rw [snapshot_eq, names_mapM_copyVariable, m.names_sight]

/-- **A snapshot shows what the program would read.** However far a machine has gone on the run of
a program, a snapshot of it has the copies of the variables in sight, which are made one after the
other; each is the copy of the value that the program would read. Its names are the names in
sight: they are distinct, they are those that can be read, and they come scope by scope on the walk
outwards from the running frame, or from nothing but the global scope behind the end. -/
theorem snapshot_shows_sight (program : Program) (n : ℕ) (limits : Limits) :
    let m := machineAfter program n
    let shown := snapshot Script.interpreter limits m
    shown = ((m.sight.mapM (copyVariable limits m.marshal)).run limits.nodes).1 ∧
    shown.map Prod.fst = m.namesInSight ∧
    m.namesInSight.Nodup ∧
    (∀ name, name ∈ m.namesInSight ↔ (m.scopes.access m.currentScope name).isSome) ∧
    (∀ k id, (m.scopes.chain m.currentScope)[k]? = some id ↔
      m.scopes.Above k m.currentScope id) ∧
    (m.nextInstr? = some .halt → (machineAfter program (n + 1)).currentScope = Arena.global) := by
  intro m shown
  have hintact : m.Intact fun _ => True := intact_machineAfter program n
  refine ⟨snapshot_eq limits m, names_snapshot limits m, m.nodup_namesInSight,
    m.mem_namesInSight, ?_, fun hhalt => ?_⟩
  · exact hintact.store.nested.getElem?_chain hintact.currentScope
  · rw [machineAfter_succ]
    exact Machine.currentScope_of_halt hhalt

end Tracepoint
