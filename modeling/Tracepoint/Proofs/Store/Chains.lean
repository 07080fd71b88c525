/-
Chains of scopes.

A scope lies inside the scope around it, and that one inside another, up to a scope that lies inside
none.  These scopes are the chain of the first one.  As every scope comes after the one around it, a
chain ends, and no walk outwards leads beyond its end.

Main results:

* `Arena.Nested.getElem?_chain` — a chain is the walk from a scope outwards, up to its end;
* `Arena.Nested.length_chain_le` — it is no longer than the scope is far from the first one;
* `Arena.Above.outer_unique` — a number of steps outwards leads to one scope only.
-/

import Tracepoint.Proofs.Store.Nesting
import Tracepoint.Proofs.Store.Permanence

set_option relaxedAutoImplicit false
set_option autoImplicit false

namespace Tracepoint

namespace Arena

variable {α : Type} {a a' : Arena α}

theorem Nested.getElem?_chainFrom (h : a.Nested) {fuel : ℕ} {id : ScopeId}
    (hfuel : id.index < fuel) (hid : id.index < a.size) (k : ℕ) (outer : ScopeId) :
    (a.chainFrom fuel id)[k]? = some outer ↔ a.Above k id outer := by
  induction fuel generalizing id k with
  | zero => cases hfuel
  | succ fuel ih =>
      obtain ⟨s, hs⟩ := Option.isSome_iff_exists.1 (isSome_scope?.2 hid)
      have hparent : a.parent? id = s.parent := by rw [parent?, hs]; rfl
      rw [chainFrom, hs]
      simp only
      cases hp : s.parent with
      | none =>
          rw [hp] at hparent
          cases k with
          | zero => exact Option.some_inj
          | succ k =>
              refine ⟨fun hget => ?_, ?_⟩
              · rw [List.getElem?_eq_none (Nat.le_add_left 1 k)] at hget
                cases hget
              · rintro ⟨middle, hmiddle, -⟩
                rw [hparent] at hmiddle
                cases hmiddle
      | some p =>
          rw [hp] at hparent
          have hlt := h id p hparent
          cases k with
          | zero => exact Option.some_inj
          | succ k =>
              rw [List.getElem?_cons_succ, ih (by omega) (Nat.lt_trans hlt hid)]
              constructor
              · intro habove
                exact ⟨p, hparent, habove⟩
              · rintro ⟨middle, hmiddle, habove⟩
                obtain rfl := Option.some.inj (hparent.symm.trans hmiddle)
                exact habove

/-- A chain is the walk from a scope outwards, up to its end. -/
theorem Nested.getElem?_chain (h : a.Nested) {id : ScopeId} (hid : id.index < a.size) (k : ℕ)
    (outer : ScopeId) : (a.chain id)[k]? = some outer ↔ a.Above k id outer :=
  h.getElem?_chainFrom hid hid k outer

/-- The global scope lies inside no other. -/
theorem Nested.chain_global (h : a.Nested) (hglobal : global.index < a.size) :
    a.chain global = [global] := by
  obtain ⟨s, hs⟩ := Option.isSome_iff_exists.1 (isSome_scope?.2 hglobal)
  obtain ⟨size, hsize⟩ := Nat.exists_eq_succ_of_ne_zero (Nat.ne_of_gt hglobal)
  rw [chain, hsize, chainFrom, hs]
  simp only
  cases hparent : s.parent with
  | none => rfl
  | some outer =>
      have hlt := h global outer (by rw [parent?, hs]; exact hparent)
      exact absurd hlt (Nat.not_lt_zero _)


/-- Only a scope that is there has a chain. -/
theorem lt_size_of_mem_chain {id holder : ScopeId} (h : holder ∈ a.chain id) :
    id.index < a.size := by
  by_contra hid
  have hnone : a.scope? id = none := by
    rw [← Option.not_isSome_iff_eq_none, isSome_scope?]
    exact hid
  have hchain : a.chain id = [] := by
    rw [chain]
    cases a.size with
    | zero => rfl
    | succ fuel => rw [chainFrom, hnone]
  rw [hchain] at h
  cases h

/-- The walk outwards ends, since every scope lies inside an earlier one. -/
theorem Nested.length_chain_le (h : a.Nested) {id : ScopeId} (hid : id.index < a.size) :
    (a.chain id).length ≤ id.index + 1 := by
  by_contra hlong
  have hlt : id.index + 1 < (a.chain id).length := Nat.lt_of_not_le hlong
  have habove := (h.getElem?_chain hid _ _).1 (List.getElem?_eq_getElem hlt)
  have hle := h.le_of_above habove
  omega

theorem Above.outer_unique {steps : ℕ} {inner outer outer' : ScopeId}
    (h : a.Above steps inner outer) (h' : a.Above steps inner outer') : outer = outer' := by
  induction steps generalizing inner with
  | zero => exact h.symm.trans h'
  | succ steps ih =>
      obtain ⟨middle, hmiddle, hrest⟩ := h
      obtain ⟨middle', hmiddle', hrest'⟩ := h'
      obtain rfl := Option.some.inj (hmiddle.symm.trans hmiddle')
      exact ih hrest hrest'

theorem above_congr (hparents : ∀ id, a'.parent? id = a.parent? id) {steps : ℕ}
    {inner outer : ScopeId} : a'.Above steps inner outer ↔ a.Above steps inner outer := by
  induction steps generalizing inner with
  | zero => exact Iff.rfl
  | succ steps ih => simp only [Above, hparents, ih]

end Arena

end Tracepoint
