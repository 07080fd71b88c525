/-
Bindings are permanent.

A scope never loses what was declared in it.  Later on every binding is at its place, under its
name and of its kind, whether it was written in between, from this scope or from a closure that
sees it, or declared again; and a constant still has its value.  Declaring, assigning and calling
are the only instructions that touch scopes, and what each of them does to one scope makes it a
later one; the runs of programs follow from that, also behind faults.

Main results:

* `Arena.Extends.binding`, `Arena.Extends.parent?` — bindings and parents in later scopes;
* `bindings_stay` — **bindings are permanent, and constants never change**.
-/

import Tracepoint.Proofs.Machine.Integrity

set_option relaxedAutoImplicit false
set_option autoImplicit false

namespace Tracepoint

namespace Arena

variable {α : Type} {a a' : Arena α}

/-- A binding at its place in a later scope. -/
theorem Extends.binding (h : a.Extends a') {id : ScopeId} {place : ℕ} {b : Binding α}
    (hb : (a.bindings id)[place]? = some b) :
    ∃ b', (a'.bindings id)[place]? = some b' ∧ b.Becomes b' := by
  cases hs : a.scope? id with
  | none =>
      -- A scope that is not there binds nothing.
      simp [bindings, hs] at hb
  | some s =>
      obtain ⟨s', hs', hextends⟩ := h id s hs
      simp only [bindings, hs] at hb
      simp only [bindings, hs']
      exact hextends.bindings place b hb

/-- A scope stays inside the scope that it was opened in. -/
theorem Extends.parent? (h : a.Extends a') {id : ScopeId} (hid : id.index < a.size) :
    a'.parent? id = a.parent? id := by
  obtain ⟨s, hs⟩ := Option.isSome_iff_exists.1 (isSome_scope?.2 hid)
  obtain ⟨s', hs', hextends⟩ := h id s hs
  rw [Arena.parent?, Arena.parent?, hs, hs']
  exact hextends.parent

end Arena

/-- **Bindings are permanent, and constants never change.** However far a machine has gone on the
run of a program, also behind faults, and however much further it goes: every binding is later on
found at its place in its scope, of its name and kind, and of its value if it is constant; no scope
binds a name twice; and every scope stays inside the one it was opened in. -/
theorem bindings_stay (program : Program) (n more : ℕ) :
    let before := (machineAfter program n).scopes
    let after := (machineAfter program (n + more)).scopes
    (∀ id (place : ℕ) b, (before.bindings id)[place]? = some b →
        ∃ b' : Binding Value, (after.bindings id)[place]? = some b' ∧ b'.name = b.name ∧
          b'.kind = b.kind ∧ (b.kind = .const_ → b'.value = b.value)) ∧
      (∀ id, ((after.bindings id).map Binding.name).Nodup) ∧
      ∀ id, id.index < before.size →
        id.index < after.size ∧ after.parent? id = before.parent? id := by
  intro before after
  have hextends : before.Extends after :=
    (leads_machineAfter program (Nat.le_add_right n more)).store.scopes
  refine ⟨fun id place b hb => ?_, (intact_machineAfter program (n + more)).store.names,
    fun id hid => ⟨Nat.lt_of_lt_of_le hid hextends.size_le, hextends.parent? hid⟩⟩
  obtain ⟨b', hb', hbecomes⟩ := hextends.binding hb
  exact ⟨b', hb', hbecomes.name, hbecomes.kind, hbecomes.value⟩

end Tracepoint
