/-
What copying costs.

A shown value is a tree, and each of its nodes that stands for a value was copied.  The steps of
copying use up one of the values that may still be copied for each of these nodes, and nothing for
the nodes that stand for what is not shown.

Main definitions:

* `Shown.nodes`, `Shown.copies` — the nodes of a shown value, and how many of them are copies;
* `Limits.hiddenItems`, `Limits.hiddenEntries` — how a container is shown behind its first entries;
* `Copying.Gives` — what holds of the result, however many values may still be copied;
* `Copying.Spends` — the size of the result is what the steps cost;
* `Copying.Yields` — where enough values may still be copied, the result is always the same.

Main results:

* `Copying.Gives.mapM`, `Copying.Spends.mapM`, `Copying.Yields.mapM` — each of the three for steps
  in a row.
-/

import Mathlib.Algebra.GroupWithZero.Nat
import Mathlib.Data.List.Forall2
import Tracepoint.Session.Snapshot

set_option relaxedAutoImplicit false
set_option autoImplicit false

namespace Tracepoint

/-! ### Nodes of shown values -/

namespace Shown

/-- Stands for a number of entries that are not shown. -/
def summary (count : ℕ) : Shown :=
  placeholder ("... " ++ toString count ++ " more items")

theorem hidden?_eq (limit count : ℕ) :
    hidden? limit count = if limit < count then some (summary (count - limit)) else none := rfl

/-- The text of a summary, whatever is counted. -/
def isSummaryText (text : String) : Bool :=
  "... ".toList.isPrefixOf text.toList && " more items".toList.isSuffixOf text.toList

/-- A node that stands for a value: neither for one that was not copied, nor for entries that are
not shown. -/
def isCopy : Shown → Bool
  | placeholder text => text != "[...]" && !isSummaryText text
  | _ => true

/-- A node that has others inside it. -/
def isContainer : Shown → Bool
  | array _ | object _ => true
  | _ => false

mutual

/-- All nodes of a shown value, each one in front of those inside it. -/
def nodes : Shown → List Shown
  | array items => array items :: itemNodes items
  | object entries => object entries :: entryNodes entries
  | s => [s]

/-- The nodes of some items. -/
def itemNodes : List Shown → List Shown
  | [] => []
  | item :: rest => item.nodes ++ itemNodes rest

/-- The nodes of some entries. -/
def entryNodes : List (String × Shown) → List Shown
  | [] => []
  | (_, value) :: rest => value.nodes ++ entryNodes rest

end

theorem itemNodes_eq (items : List Shown) : itemNodes items = items.flatMap nodes := by
  induction items with
  | nil => rfl
  | cons item rest ih => simp [itemNodes, ih]

theorem entryNodes_eq (entries : List (String × Shown)) :
    entryNodes entries = entries.flatMap fun e => e.2.nodes := by
  induction entries with
  | nil => rfl
  | cons entry rest ih => simp [entryNodes, ih]

theorem nodes_array (items : List Shown) :
    (array items).nodes = array items :: items.flatMap nodes := by
  rw [nodes, itemNodes_eq]

theorem nodes_object (entries : List (String × Shown)) :
    (object entries).nodes = object entries :: entries.flatMap fun e => e.2.nodes := by
  rw [nodes, entryNodes_eq]

theorem nodes_of_leaf {s : Shown} (h : s.isContainer = false) : s.nodes = [s] := by
  cases s with
  | array items => cases h
  | object entries => cases h
  | _ => rfl

theorem nodes_placeholder (text : String) : (placeholder text).nodes = [placeholder text] := rfl

/-- The number of nodes that stand for values. -/
def copies (s : Shown) : ℕ :=
  s.nodes.countP isCopy

theorem copies_array (items : List Shown) : (array items).copies = (items.map copies).sum + 1 := by
  rw [copies, nodes_array, List.countP_cons_of_pos rfl, List.countP_flatMap]
  rfl

theorem copies_object (entries : List (String × Shown)) :
    (object entries).copies = (entries.map fun e => e.2.copies).sum + 1 := by
  rw [copies, nodes_object, List.countP_cons_of_pos rfl, List.countP_flatMap]
  rfl

theorem copies_of_leaf {s : Shown} (h : s.isContainer = false) :
    s.copies = if s.isCopy then 1 else 0 := by
  rw [copies, nodes_of_leaf h, List.countP_singleton]

theorem copies_elided : elided.copies = 0 := by
  decide

theorem isSummaryText_summary (count : ℕ) :
    isSummaryText ("... " ++ toString count ++ " more items") = true := by
  rw [isSummaryText, String.toList_append, String.toList_append, Bool.and_eq_true]
  constructor
  · rw [List.isPrefixOf_iff_prefix, List.append_assoc]
    exact List.prefix_append _ _
  · rw [List.isSuffixOf_iff_suffix]
    exact List.suffix_append _ _

theorem copies_summary (count : ℕ) : (summary count).copies = 0 := by
  rw [summary, copies_of_leaf rfl, isCopy, isSummaryText_summary, Bool.not_true, Bool.and_false]
  rfl

theorem summary_ne_elided (count : ℕ) : summary count ≠ elided := by
  intro h
  have hcopy := congrArg (fun s : Shown => match s with
    | placeholder text => isSummaryText text
    | _ => false) h
  simp only [summary, elided, isSummaryText_summary] at hcopy
  exact absurd hcopy (by decide)

end Shown

namespace Limits

/-- How a container of `count` entries is shown behind its first items. -/
def hiddenItems (limits : Limits) (count : ℕ) : List Shown :=
  (Shown.hidden? limits.items count).toList

/-- How a container of `count` entries is shown behind its first properties. -/
def hiddenEntries (limits : Limits) (count : ℕ) : List (String × Shown) :=
  (limits.hiddenItems count).map fun hidden => (hiddenKey, hidden)

theorem hiddenItems_eq (limits : Limits) (count : ℕ) :
    limits.hiddenItems count =
      if limits.items < count then [Shown.summary (count - limits.items)] else [] := by
  rw [hiddenItems, Shown.hidden?_eq]
  split <;> rfl

theorem map_snd_append (limits : Limits) (copies : List (String × Shown)) (count : ℕ) :
    (copies ++ limits.hiddenEntries count).map Prod.snd =
      copies.map Prod.snd ++ limits.hiddenItems count := by
  rw [List.map_append, hiddenEntries, List.map_map]
  congr 1
  exact List.map_id _

/-- Entries that are not shown cost nothing. -/
theorem copies_hiddenItems (limits : Limits) (count : ℕ) :
    ((limits.hiddenItems count).map Shown.copies).sum = 0 := by
  rw [hiddenItems_eq]
  split
  · simp [Shown.copies_summary]
  · rfl

theorem copies_hiddenEntries (limits : Limits) (count : ℕ) :
    ((limits.hiddenEntries count).map fun e => e.2.copies).sum = 0 := by
  rw [hiddenEntries, List.map_map]
  exact limits.copies_hiddenItems count

/-- Entries that are not shown are not elided. -/
theorem elided_not_mem_hiddenItems (limits : Limits) (count : ℕ) :
    Shown.elided ∉ (limits.hiddenItems count).flatMap Shown.nodes := by
  rw [hiddenItems_eq]
  split
  · simpa [Shown.summary, Shown.nodes_placeholder] using
      (Shown.summary_ne_elided (count - limits.items)).symm
  · exact List.not_mem_nil

end Limits

/-! ### Steps of copying -/

namespace Copying

variable {α β : Type}

theorem mapM_congr {f g : α → Copying β} {xs : List α} (h : ∀ x ∈ xs, f x = g x) :
    xs.mapM f = xs.mapM g := by
  induction xs with
  | nil => rfl
  | cons x xs ih =>
      have hrest := ih fun y hy => h y (List.mem_cons_of_mem _ hy)
      rw [List.mapM_cons, List.mapM_cons, h x List.mem_cons_self, hrest]

/-- Whatever number of values may still be copied, `P` holds of the result. -/
def Gives (x : Copying α) (P : α → Prop) : Prop :=
  ∀ left, P (x.run left).1

theorem Gives.pure {P : α → Prop} {a : α} (h : P a) : Gives (pure a) P :=
  fun _ => h

theorem Gives.map {P : α → Prop} {Q : β → Prop} {x : Copying α} {f : α → β} (hx : Gives x P)
    (hf : ∀ a, P a → Q (f a)) : Gives (do let a ← x; return f a) Q :=
  fun left => hf _ (hx left)

theorem Gives.mapM {f : α → Copying β} {P : α → β → Prop} {xs : List α}
    (h : ∀ x ∈ xs, Gives (f x) (P x)) :
    Gives (xs.mapM f) fun ys => ys.length = xs.length ∧
      ∀ (k : ℕ) x y, xs[k]? = some x → ys[k]? = some y → P x y := by
  induction xs with
  | nil => exact fun left => ⟨rfl, fun k x y hx => by simp at hx⟩
  | cons x xs ih =>
      intro left
      have hfirst := h x List.mem_cons_self left
      have hrest := ih (fun y hy => h y (List.mem_cons_of_mem _ hy)) ((f x).run left).2
      rw [List.mapM_cons]
      refine ⟨congrArg (· + 1) hrest.1, ?_⟩
      intro k a b ha hb
      cases k with
      | zero =>
          cases ha
          cases hb
          exact hfirst
      | succ k => exact hrest.2 k a b ha hb

/-- A copy at a place is that of the value at this place. -/
theorem getElem?_take_of_getElem? {xs : List α} {ys : List β} {n k : ℕ} {x : α} {y : β}
    (hlength : ys.length = (xs.take n).length) (hy : ys[k]? = some y) (hx : xs[k]? = some x) :
    (xs.take n)[k]? = some x := by
  have hk : k < ys.length := (List.getElem?_eq_some_iff.1 hy).1
  rw [List.length_take] at hlength
  rw [List.getElem?_take_of_lt (by omega)]
  exact hx

/-- Entries that agree in their keys one by one agree in the list of their keys. -/
theorem map_fst_eq {γ : Type} {xs : List (α × β)} {ys : List (α × γ)}
    (hlength : ys.length = xs.length)
    (h : ∀ (k : ℕ) x y, xs[k]? = some x → ys[k]? = some y → y.1 = x.1) :
    ys.map Prod.fst = xs.map Prod.fst := by
  refine List.ext_getElem (by simpa using hlength) fun k hk hk' => ?_
  rw [List.length_map] at hk hk'
  rw [List.getElem_map, List.getElem_map]
  exact h k _ _ (List.getElem?_eq_getElem hk') (List.getElem?_eq_getElem hk)

/-- As many copies as entries, where the keys are those of the first entries. -/
theorem length_of_keys {γ : Type} {xs : List (α × β)} {ys : List (α × γ)} {n : ℕ}
    (hkeys : ys.map Prod.fst = (xs.take n).map Prod.fst) : ys.length = min n xs.length := by
  have hlength := congrArg List.length hkeys
  rwa [List.length_map, List.length_map, List.length_take] at hlength

theorem Gives.spend {P : Shown → Prop} {x : Copying Shown} (helided : P .elided)
    (hx : Gives x P) : Gives (spend x) P := by
  intro left
  cases left with
  | zero => exact helided
  | succ left => exact hx left

/-- The size of the result and the number of values that may still be copied behind the steps are
together `paid` more than the number before them. -/
def Spends (paid : ℕ) (x : Copying α) (size : α → ℕ) : Prop :=
  ∀ left, size (x.run left).1 + (x.run left).2 = left + paid

theorem Spends.pure {paid : ℕ} {size : α → ℕ} {a : α} (h : size a = paid) :
    Spends paid (pure a) size := by
  intro left
  have hsum : size a + left = left + paid := by omega
  exact hsum

theorem Spends.map {size : α → ℕ} {size' : β → ℕ} {x : Copying α} {f : α → β} {paid : ℕ}
    (hx : Spends 0 x size) (hf : ∀ a, size' (f a) = size a + paid) :
    Spends paid (do let a ← x; return f a) size' := by
  intro left
  have hleft := hx left
  have hsize := hf (x.run left).1
  have hsum : size' (f (x.run left).1) + (x.run left).2 = left + paid := by omega
  exact hsum

theorem Spends.mapM {size : β → ℕ} {f : α → Copying β} {xs : List α}
    (h : ∀ x ∈ xs, Spends 0 (f x) size) :
    Spends 0 (xs.mapM f) fun ys => (ys.map size).sum := by
  induction xs with
  | nil => exact fun left => Nat.zero_add left
  | cons x xs ih =>
      intro left
      have hfirst := h x List.mem_cons_self left
      have hrest : (((xs.mapM f).run ((f x).run left).2).1.map size).sum +
          ((xs.mapM f).run ((f x).run left).2).2 = ((f x).run left).2 :=
        ih (fun y hy => h y (List.mem_cons_of_mem _ hy)) ((f x).run left).2
      rw [List.mapM_cons]
      have hsum : size ((f x).run left).1 +
          ((((xs.mapM f).run ((f x).run left).2).1.map size).sum) +
          ((xs.mapM f).run ((f x).run left).2).2 = left := by omega
      exact hsum

/-- A value that is copied is one of those that may be copied. -/
theorem Spends.spend {size : Shown → ℕ} {x : Copying Shown} (helided : size .elided = 0)
    (hx : Spends 1 x size) : Spends 0 (spend x) size := by
  intro left
  cases left with
  | zero => exact (Nat.add_zero _).trans helided
  | succ left => exact hx left

/-- Where at least `size` values may still be copied, the steps lead to `a` and copy as many. -/
def Yields (x : Copying α) (a : α) (size : ℕ) : Prop :=
  ∀ left, size ≤ left → x.run left = (a, left - size)

theorem Yields.pure (a : α) : Yields (pure a) a 0 :=
  fun _ _ => rfl

theorem Yields.map {x : Copying α} {a : α} {size : ℕ} {f : α → β} (h : Yields x a size) :
    Yields (do let a ← x; return f a) (f a) size := by
  intro left hle
  simp only [StateT.run_bind, h left hle]
  rfl

theorem Yields.spend {x : Copying Shown} {shown : Shown} {size : ℕ} (h : Yields x shown size) :
    Yields (spend x) shown (size + 1) := by
  intro left hle
  cases left with
  | zero => cases hle
  | succ left =>
      rw [Nat.add_sub_add_right]
      exact h left (Nat.le_of_succ_le_succ hle)

theorem Yields.mapM {P : α → β → Prop} (size : β → ℕ) {f : α → Copying β} {xs : List α}
    (h : ∀ x ∈ xs, ∃ y, P x y ∧ Yields (f x) y (size y)) :
    ∃ ys, ys.length = xs.length ∧
      (∀ (k : ℕ) x y, xs[k]? = some x → ys[k]? = some y → P x y) ∧
      Yields (xs.mapM f) ys (ys.map size).sum := by
  induction xs with
  | nil => exact ⟨[], rfl, fun k x y hx => by simp at hx, .pure []⟩
  | cons x xs ih =>
      obtain ⟨y, hy, hfirst⟩ := h x List.mem_cons_self
      obtain ⟨ys, hlength, hys, hrest⟩ := ih fun z hz => h z (List.mem_cons_of_mem _ hz)
      refine ⟨y :: ys, congrArg (· + 1) hlength, fun k a b ha hb => ?_, fun left hle => ?_⟩
      · cases k with
        | zero =>
            cases ha
            cases hb
            exact hy
        | succ k => exact hys k a b ha hb
      · rw [List.map_cons, List.sum_cons] at hle ⊢
        rw [List.mapM_cons]
        change (((f x).run left).1 :: ((xs.mapM f).run ((f x).run left).2).1,
          ((xs.mapM f).run ((f x).run left).2).2) = _
        rw [hfirst left (by omega), hrest (left - size y) (by omega), Nat.sub_sub]

end Copying

end Tracepoint
