/-
Snapshots are exact within their limits.

The values of a program make up a graph, with containers that are shared and containers that hold
themselves.  What a snapshot shows of a value is the tree that this graph unfolds to, where a
container is left out below itself and below the depth that is shown.  Copying loses nothing of
that tree, as long as it may still copy values: the places at which it could not are marked.

Main definitions:

* `Machine.Shows`, `Machine.Unfolds` — the rules by which a value is shown, and the tree that a
  value unfolds to.

Main results:

* `Machine.copy_cases` — what copying a value comes to;
* `Machine.shows_copy` — a copy is made by the rules;
* `Machine.spends_copy` — a copy costs as much as it has nodes that stand for values;
* `Machine.exists_unfolds`, `Machine.Shows.unique` — a value unfolds to one tree, which is copied
  whole if it may be;
* `snapshot_unfolds` — **a snapshot that elides nothing is the unfolding of what is in sight**.
-/

import Tracepoint.Proofs.Machine.References
import Tracepoint.Proofs.Session.Copying
import Tracepoint.Proofs.Session.Sight
import Tracepoint.Proofs.Value.Rendering

set_option relaxedAutoImplicit false
set_option autoImplicit false

namespace Tracepoint

/-! ### The rules -/

/-- What a value is shown as that is no container: a plain value as itself, a function by its
label. -/
def Value.atom? : Value → Option Shown
  | .undefined => some .undefined
  | .null => some .null
  | .bool b => some (.bool b)
  | .number x => some (.number x)
  | .string text => some (.string text)
  | v@(.function _) | v@(.native _) => v.functionLabel?.map .placeholder
  | .array _ | .object _ => none

namespace Machine

/-- The rules by which a value is shown that lies `depth` deep, inside the containers `outer`. If
`elides` holds, any value may be elided. -/
inductive Shows (m : Machine) (limits : Limits) (elides : Prop) :
    (outer : List Ref) → (depth : ℕ) → Value → Shown → Prop
  /-- Plain values are shown as themselves and functions by their labels. -/
  | atom {outer : List Ref} {depth : ℕ} {v : Value} {shown : Shown} (hatom : v.atom? = some shown) :
    Shows m limits elides outer depth v shown
  /-- A container that contains itself here. -/
  | circular {outer : List Ref} {depth : ℕ} {v : Value} {r : Ref} (hcell : v.container? = some r)
      (hinside : r ∈ outer) :
    Shows m limits elides outer depth v .circular
  | deepArray {outer : List Ref} {depth : ℕ} {r : Ref} (houtside : r ∉ outer)
      (hdeep : limits.depth < depth) :
    Shows m limits elides outer depth (.array r) (.placeholder "[Array]")
  | deepObject {outer : List Ref} {depth : ℕ} {r : Ref} (houtside : r ∉ outer)
      (hdeep : limits.depth < depth) :
    Shows m limits elides outer depth (.object r) (.placeholder "[Object]")
  /-- The first items of an array, and how many more there are. -/
  | array {outer : List Ref} {depth : ℕ} {r : Ref} {items : Array Value} {copies : List Shown}
      (houtside : r ∉ outer) (hdepth : depth ≤ limits.depth)
      (hcell : m.heap.get? r = some (.array items))
      (hlength : copies.length = min limits.items items.size)
      (hcopies : ∀ (k : ℕ) v shown, items[k]? = some v → copies[k]? = some shown →
        Shows m limits elides (r :: outer) (depth + 1) v shown) :
    Shows m limits elides outer depth (.array r)
      (.array (copies ++ limits.hiddenItems items.size))
  /-- The first properties of an object, each behind its key, and how many more there are. -/
  | object {outer : List Ref} {depth : ℕ} {r : Ref} {entries : List (String × Value)}
      {copies : List (String × Shown)}
      (houtside : r ∉ outer) (hdepth : depth ≤ limits.depth)
      (hcell : m.heap.get? r = some (.object entries))
      (hkeys : copies.map Prod.fst = (entries.take limits.items).map Prod.fst)
      (hcopies : ∀ (k : ℕ) e copy, entries[k]? = some e → copies[k]? = some copy →
        Shows m limits elides (r :: outer) (depth + 1) e.2 copy.2) :
    Shows m limits elides outer depth (.object r)
      (.object (copies ++ limits.hiddenEntries entries.length))
  | elided {outer : List Ref} {depth : ℕ} {v : Value} (helides : elides) :
    Shows m limits elides outer depth v .elided

/-- The tree that a value unfolds to. -/
def Unfolds (m : Machine) (limits : Limits) (v : Value) (tree : Shown) : Prop :=
  m.Shows limits False [] 1 v tree

end Machine

namespace Machine

variable {m : Machine} {limits : Limits}

theorem marshal_of_atom? {v : Value} {shown : Shown} (h : v.atom? = some shown) :
    m.marshal v = .plain shown := by
  cases v with
  | array r => cases h
  | object r => cases h
  | function f =>
      simp only [Value.atom?, Option.map_eq_some_iff] at h
      obtain ⟨label, hlabel, rfl⟩ := h
      rw [marshal, hlabel]
      rfl
  | native f =>
      simp only [Value.atom?, Option.map_eq_some_iff] at h
      obtain ⟨label, hlabel, rfl⟩ := h
      rw [marshal, hlabel]
      rfl
  | _ =>
      cases h
      rfl

/-! ### Copies, kind by kind -/

theorem marshal_array {r : Ref} {items : Array Value}
    (hcell : m.heap.get? r = some (.array items)) :
    m.marshal (.array r) = .list r.index items.toList := by
  simp [marshal, Heap.items?, hcell]

theorem marshal_object {r : Ref} {entries : List (String × Value)}
    (hcell : m.heap.get? r = some (.object entries)) :
    m.marshal (.object r) = .record r.index entries := by
  simp [marshal, Heap.entries?, hcell]

/-- A value that stands is no container, or it is one whose cell is there. -/
theorem kind_of_backs {G : Proto → Prop} {v : Value} (hv : m.Backs G v) :
    (∃ shown, v.atom? = some shown) ∨
      (∃ r items, v = .array r ∧ m.heap.get? r = some (.array items)) ∨
      ∃ r entries, v = .object r ∧ m.heap.get? r = some (.object entries) := by
  cases v with
  | array r =>
      obtain ⟨items, hcell, -⟩ := marshal_array_of_backs hv
      exact .inr (.inl ⟨r, items, rfl, hcell⟩)
  | object r =>
      obtain ⟨entries, hcell, -⟩ := marshal_object_of_backs hv
      exact .inr (.inr ⟨r, entries, rfl, hcell⟩)
  | function f =>
      obtain ⟨identity, proto, scope⟩ := f
      cases hname : proto.name <;> simp [Value.atom?, Value.functionLabel?, hname]
  | native f => exact .inl ⟨_, rfl⟩
  | _ => exact .inl ⟨_, rfl⟩

/-- Two references to one cell are the same. -/
theorem contains_index (outer : List Ref) (r : Ref) :
    (outer.map Ref.index).contains r.index = true ↔ r ∈ outer := by
  rw [List.contains_iff_mem, List.mem_map]
  constructor
  · rintro ⟨⟨index⟩, hmem, heq⟩
    cases r
    cases heq
    exact hmem
  · intro hmem
    exact ⟨r, hmem, rfl⟩

section

variable {outer : List Ref} {levels : ℕ} {r : Ref}

theorem copy_atom {v : Value} {shown : Shown} (hatom : v.atom? = some shown) (outer : List ℕ) :
    copy limits m.marshal levels outer v = spend (pure shown) := by
  cases levels <;> simp [copy, marshal_of_atom? hatom, copyCell]

theorem copy_circular {v : Value} (hv : v.container? = some r) (hinside : r ∈ outer) :
    copy limits m.marshal levels (outer.map Ref.index) v = spend (pure .circular) := by
  have hcontains := (contains_index outer r).2 hinside
  cases v with
  | array r' =>
      cases hv
      cases levels <;> simp only [copy, marshal, copyCell, hcontains, if_true]
  | object r' =>
      cases hv
      cases levels <;> simp only [copy, marshal, copyCell, hcontains, if_true]
  | _ => cases hv

theorem copy_zero_array (houtside : r ∉ outer) :
    copy limits m.marshal 0 (outer.map Ref.index) (.array r) =
      spend (pure (.placeholder "[Array]")) := by
  have hcontains := mt (contains_index outer r).1 houtside
  simp only [copy, marshal, copyCell, if_neg hcontains]

theorem copy_zero_object (houtside : r ∉ outer) :
    copy limits m.marshal 0 (outer.map Ref.index) (.object r) =
      spend (pure (.placeholder "[Object]")) := by
  have hcontains := mt (contains_index outer r).1 houtside
  simp only [copy, marshal, copyCell, if_neg hcontains]

theorem copy_succ_array (houtside : r ∉ outer) {items : Array Value}
    (hcell : m.heap.get? r = some (.array items)) :
    copy limits m.marshal (levels + 1) (outer.map Ref.index) (.array r) = spend (do
      let copies ← (items.toList.take limits.items).mapM
        (copy limits m.marshal levels ((r :: outer).map Ref.index))
      return .array (copies ++ limits.hiddenItems items.size)) := by
  have hcontains := mt (contains_index outer r).1 houtside
  simp only [copy, marshal_array hcell, copyCell, if_neg hcontains, Array.length_toList]
  rfl

theorem copy_succ_object (houtside : r ∉ outer) {entries : List (String × Value)}
    (hcell : m.heap.get? r = some (.object entries)) :
    copy limits m.marshal (levels + 1) (outer.map Ref.index) (.object r) = spend (do
      let copies ← (entries.take limits.items).mapM fun e => do
        let copied ← copy limits m.marshal levels ((r :: outer).map Ref.index) e.2
        return (e.1, copied)
      return .object (copies ++ limits.hiddenEntries entries.length)) := by
  have hcontains := mt (contains_index outer r).1 houtside
  simp only [copy, marshal_object hcell, copyCell, if_neg hcontains]
  rfl

end

/-! ### Copies are made by the rules -/

section

variable {G : Proto → Prop} {elides : Prop} {outer : List Ref} {depth levels : ℕ} {v : Value}
  {shown : Shown}

open Copying

/-- The label of a function is neither taken for a summary nor for a value that was elided. -/
theorem isCopy_of_functionLabel? {label : String} (h : v.functionLabel? = some label) :
    (Shown.placeholder label).isCopy = true := by
  have hlabel : ∃ rest, label.toList = '[' :: 'F' :: rest := by
    cases v with
    | function f =>
        simp only [Value.functionLabel?] at h
        split at h
        · cases h
          exact ⟨_, by rw [String.toList_append, String.toList_append]; rfl⟩
        · cases h
          exact ⟨_, rfl⟩
    | native f =>
        cases h
        exact ⟨_, by rw [String.toList_append, String.toList_append]; rfl⟩
    | _ => cases h
  obtain ⟨rest, hlist⟩ := hlabel
  have hne : label ≠ "[...]" := by
    rintro rfl
    simp at hlist
  have hsummary : Shown.isSummaryText label = false := by
    rw [Shown.isSummaryText, hlist]
    rfl
  simp [Shown.isCopy, hsummary, hne]

/-- What is no container is shown by a single node that stands for it. -/
theorem leaf_of_atom? (hatom : v.atom? = some shown) :
    shown.isContainer = false ∧ shown.isCopy = true := by
  cases v with
  | array r => cases hatom
  | object r => cases hatom
  | function f =>
      simp only [Value.atom?, Option.map_eq_some_iff] at hatom
      obtain ⟨label, hlabel, rfl⟩ := hatom
      exact ⟨rfl, isCopy_of_functionLabel? hlabel⟩
  | native f =>
      simp only [Value.atom?, Option.map_eq_some_iff] at hatom
      obtain ⟨label, hlabel, rfl⟩ := hatom
      exact ⟨rfl, isCopy_of_functionLabel? hlabel⟩
  | _ =>
      cases hatom
      exact ⟨rfl, rfl⟩

theorem copies_of_atom? (hatom : v.atom? = some shown) : shown.copies = 1 := by
  obtain ⟨hleaf, hcopy⟩ := leaf_of_atom? hatom
  rw [Shown.copies_of_leaf hleaf, if_pos hcopy]

/-- **What copying a value comes to.** Either a value is shown by a single node, or it is a
container that is shown with copies of what it holds, which are made one level further inside. -/
theorem copy_cases (hv : m.Backs G v) (outer : List Ref)
    (hdepth : levels + depth = limits.depth + 1) :
    (∃ shown, copy limits m.marshal levels (outer.map Ref.index) v = spend (pure shown) ∧
        shown.copies = 1 ∧ ∀ elides, m.Shows limits elides outer depth v shown) ∨
      (∃ lower r items, levels = lower + 1 ∧ v = .array r ∧ r ∉ outer ∧
        m.heap.get? r = some (.array items) ∧
        copy limits m.marshal levels (outer.map Ref.index) v = spend (do
          let copies ← (items.toList.take limits.items).mapM
            (copy limits m.marshal lower ((r :: outer).map Ref.index))
          return .array (copies ++ limits.hiddenItems items.size))) ∨
      ∃ lower r entries, levels = lower + 1 ∧ v = .object r ∧ r ∉ outer ∧
        m.heap.get? r = some (.object entries) ∧
        copy limits m.marshal levels (outer.map Ref.index) v = spend (do
          let copies ← (entries.take limits.items).mapM fun e => do
            let copied ← copy limits m.marshal lower ((r :: outer).map Ref.index) e.2
            return (e.1, copied)
          return .object (copies ++ limits.hiddenEntries entries.length)) := by
  rcases kind_of_backs hv with ⟨shown, hatom⟩ | ⟨r, items, rfl, hcell⟩ | ⟨r, entries, rfl, hcell⟩
  · exact .inl ⟨shown, copy_atom hatom _, copies_of_atom? hatom, fun _ => .atom hatom⟩
  · by_cases hinside : r ∈ outer
    · exact .inl ⟨.circular, copy_circular rfl hinside, by decide, fun _ => .circular rfl hinside⟩
    · cases levels with
      | zero =>
          have hdeep : limits.depth < depth := by omega
          exact .inl ⟨_, copy_zero_array hinside, by decide, fun _ => .deepArray hinside hdeep⟩
      | succ lower =>
          exact .inr (.inl ⟨lower, r, items, rfl, rfl, hinside, hcell,
            copy_succ_array hinside hcell⟩)
  · by_cases hinside : r ∈ outer
    · exact .inl ⟨.circular, copy_circular rfl hinside, by decide, fun _ => .circular rfl hinside⟩
    · cases levels with
      | zero =>
          have hdeep : limits.depth < depth := by omega
          exact .inl ⟨_, copy_zero_object hinside, by decide, fun _ => .deepObject hinside hdeep⟩
      | succ lower =>
          exact .inr (.inr ⟨lower, r, entries, rfl, rfl, hinside, hcell,
            copy_succ_object hinside hcell⟩)

/-- The items of an array that stands stand. -/
theorem Intact.backs_item (hm : m.Intact G) {r : Ref} {items : Array Value}
    (hcell : m.heap.get? r = some (.array items)) {n : ℕ} (hv : v ∈ items.toList.take n) :
    m.Backs G v :=
  hm.store.heap r _ hcell v (Array.mem_toList_iff.1 (List.mem_of_mem_take hv))

/-- The properties of an object that stands stand. -/
theorem Intact.backs_entry (hm : m.Intact G) {r : Ref} {entries : List (String × Value)}
    (hcell : m.heap.get? r = some (.object entries)) {e : String × Value} {n : ℕ}
    (he : e ∈ entries.take n) : m.Backs G e.2 :=
  hm.store.heap r _ hcell e (List.mem_of_mem_take he)

/-- **A copy is made by the rules**, where values that may not be copied any more are elided. -/
theorem shows_copy (limits : Limits) (outer : List Ref) (hm : m.Intact G)
    (hdepth : levels + depth = limits.depth + 1) (hv : m.Backs G v) :
    Gives (copy limits m.marshal levels (outer.map Ref.index) v)
      (m.Shows limits True outer depth v) := by
  -- on the levels that the depth leaves, which are fewer for what a container holds
  induction levels using Nat.strong_induction_on generalizing outer depth v with
  | _ levels ih =>
      rcases copy_cases hv outer hdepth with ⟨shown, heq, -, hshows⟩ |
        ⟨lower, r, items, rfl, rfl, houtside, hcell, heq⟩ |
        ⟨lower, r, entries, rfl, rfl, houtside, hcell, heq⟩
      · rw [heq]
        exact .spend (.elided trivial) (.pure (hshows True))
      · have hitems : ∀ w ∈ items.toList.take limits.items,
            Gives (copy limits m.marshal lower ((r :: outer).map Ref.index) w)
              (m.Shows limits True (r :: outer) (depth + 1) w) :=
          fun w hw => ih lower (by omega) (r :: outer) (by omega) (hm.backs_item hcell hw)
        rw [heq]
        refine .spend (.elided trivial) ((Gives.mapM hitems).map ?_)
        rintro copies ⟨hlength, hcopies⟩
        have hcount : copies.length = min limits.items items.size := by simpa using hlength
        refine .array houtside (by omega) hcell hcount fun k w shown hw hshown => ?_
        exact hcopies k w shown (getElem?_take_of_getElem? hlength hshown (by simpa using hw))
          hshown
      · have hentries : ∀ e ∈ entries.take limits.items,
            Gives (do
              let copied ← copy limits m.marshal lower ((r :: outer).map Ref.index) e.2
              return (e.1, copied)) fun copy : String × Shown =>
                copy.1 = e.1 ∧ m.Shows limits True (r :: outer) (depth + 1) e.2 copy.2 := by
          intro e he
          have hcopy : Gives (copy limits m.marshal lower ((r :: outer).map Ref.index) e.2)
              (m.Shows limits True (r :: outer) (depth + 1) e.2) :=
            ih lower (by omega) (r :: outer) (by omega) (hm.backs_entry hcell he)
          exact hcopy.map fun copied hcopied => ⟨rfl, hcopied⟩
        rw [heq]
        refine .spend (.elided trivial) ((Gives.mapM hentries).map ?_)
        rintro copies ⟨hlength, hcopies⟩
        refine .object houtside (by omega) hcell ?_ fun k e copy he hcopy => ?_
        · exact map_fst_eq hlength fun k e copy he hcopy => (hcopies k e copy he hcopy).1
        · exact (hcopies k e copy (getElem?_take_of_getElem? hlength hcopy he) hcopy).2

/-- **Copying pays for every node that stands for a value, and for nothing else.** -/
theorem spends_copy (limits : Limits) (outer : List Ref) (hm : m.Intact G)
    (hdepth : levels + depth = limits.depth + 1) (hv : m.Backs G v) :
    Spends 0 (copy limits m.marshal levels (outer.map Ref.index) v) Shown.copies := by
  induction levels using Nat.strong_induction_on generalizing outer depth v with
  | _ levels ih =>
      rcases copy_cases hv outer hdepth with ⟨shown, heq, hcopies, -⟩ |
        ⟨lower, r, items, rfl, rfl, houtside, hcell, heq⟩ |
        ⟨lower, r, entries, rfl, rfl, houtside, hcell, heq⟩
      · rw [heq]
        exact .spend Shown.copies_elided (.pure hcopies)
      · have hlower : lower + (depth + 1) = limits.depth + 1 := by omega
        have hitems : Spends 0 ((items.toList.take limits.items).mapM
            (copy limits m.marshal lower ((r :: outer).map Ref.index)))
            fun copies => (copies.map Shown.copies).sum :=
          .mapM fun w hw => ih lower (by omega) (r :: outer) hlower (hm.backs_item hcell hw)
        rw [heq]
        refine .spend Shown.copies_elided (hitems.map fun copies => ?_)
        rw [Shown.copies_array, List.map_append, List.sum_append, limits.copies_hiddenItems]
      · have hlower : lower + (depth + 1) = limits.depth + 1 := by omega
        have hentries : Spends 0 ((entries.take limits.items).mapM fun e => do
            let copied ← copy limits m.marshal lower ((r :: outer).map Ref.index) e.2
            return (e.1, copied))
            fun copies : List (String × Shown) => (copies.map fun copy => copy.2.copies).sum := by
          refine .mapM fun e he => ?_
          have hcopy := ih lower (by omega) (r :: outer) hlower (hm.backs_entry hcell he)
          exact hcopy.map fun copied => rfl
        rw [heq]
        refine .spend Shown.copies_elided (hentries.map fun copies => ?_)
        rw [Shown.copies_object, List.map_append, List.sum_append, limits.copies_hiddenEntries]

/-! ### The tree that a value unfolds to -/

/-- **A value unfolds to a tree**, which is copied whole where as many values may be copied as it
has nodes that stand for values. -/
theorem exists_unfolds (limits : Limits) (outer : List Ref) (hm : m.Intact G)
    (hdepth : levels + depth = limits.depth + 1) (hv : m.Backs G v) :
    ∃ tree, m.Shows limits False outer depth v tree ∧
      Yields (copy limits m.marshal levels (outer.map Ref.index) v) tree tree.copies := by
  induction levels using Nat.strong_induction_on generalizing outer depth v with
  | _ levels ih =>
      rcases copy_cases hv outer hdepth with ⟨shown, heq, hcopies, hshows⟩ |
        ⟨lower, r, items, rfl, rfl, houtside, hcell, heq⟩ |
        ⟨lower, r, entries, rfl, rfl, houtside, hcell, heq⟩
      · refine ⟨shown, hshows False, ?_⟩
        rw [heq, hcopies]
        exact (Yields.pure shown).spend
      · have hlower : lower + (depth + 1) = limits.depth + 1 := by omega
        obtain ⟨copies, hlength, hcopies, hyields⟩ := Yields.mapM Shown.copies
          fun w hw => ih lower (by omega) (r :: outer) hlower (hm.backs_item hcell hw)
        have hcount : copies.length = min limits.items items.size := by simpa using hlength
        refine ⟨_, .array houtside (by omega) hcell hcount fun k w shown hw hshown => ?_, ?_⟩
        · exact hcopies k w shown (getElem?_take_of_getElem? hlength hshown (by simpa using hw))
            hshown
        · rw [heq, Shown.copies_array, List.map_append, List.sum_append, limits.copies_hiddenItems]
          exact hyields.map.spend
      · have hlower : lower + (depth + 1) = limits.depth + 1 := by omega
        have hentries : ∀ e ∈ entries.take limits.items, ∃ copy : String × Shown,
            (copy.1 = e.1 ∧ m.Shows limits False (r :: outer) (depth + 1) e.2 copy.2) ∧
              Yields (do
                let copied ← Tracepoint.copy limits m.marshal lower
                  ((r :: outer).map Ref.index) e.2
                return (e.1, copied)) copy copy.2.copies := by
          intro e he
          obtain ⟨tree, hshows, hyields⟩ :=
            ih lower (by omega) (r :: outer) hlower (hm.backs_entry hcell he)
          exact ⟨(e.1, tree), ⟨rfl, hshows⟩, hyields.map⟩
        obtain ⟨copies, hlength, hcopies, hyields⟩ :=
          Yields.mapM (fun copy : String × Shown => copy.2.copies) hentries
        refine ⟨.object (copies ++ limits.hiddenEntries entries.length),
          .object houtside (by omega) hcell ?_ fun k e copy he hcopy => ?_, ?_⟩
        · exact map_fst_eq hlength fun k e copy he hcopy => (hcopies k e copy he hcopy).1
        · exact (hcopies k e copy (getElem?_take_of_getElem? hlength hcopy he) hcopy).2
        · rw [heq, Shown.copies_object, List.map_append, List.sum_append,
            limits.copies_hiddenEntries]
          exact hyields.map.spend

/-- A value is not shown both as what is no container and as a container. -/
theorem not_container_of_atom? (hatom : v.atom? = some shown) : v.container? = none := by
  cases v with
  | array r => cases hatom
  | object r => cases hatom
  | _ => rfl

/-- A value unfolds to one tree only. -/
theorem Shows.unique {tree tree' : Shown} (h : m.Shows limits False outer depth v tree)
    (h' : m.Shows limits False outer depth v tree') : tree = tree' := by
  induction h generalizing tree' with
  | atom hatom =>
      cases h' with
      | atom hatom' => exact Option.some.inj (hatom.symm.trans hatom')
      | circular hcell _ =>
          rw [not_container_of_atom? hatom] at hcell
          cases hcell
      | elided helides => cases helides
      | _ => cases hatom
  | circular hcell hinside =>
      cases h' with
      | atom hatom =>
          rw [not_container_of_atom? hatom] at hcell
          cases hcell
      | circular _ _ => rfl
      | elided helides => cases helides
      | deepArray houtside _ | deepObject houtside _ | array houtside _ _ _ _
        | object houtside _ _ _ _ =>
          cases hcell
          exact absurd hinside houtside
  | deepArray houtside hdeep =>
      cases h' with
      | atom hatom => cases hatom
      | circular hcell hinside =>
          cases hcell
          exact absurd hinside houtside
      | deepArray _ _ => rfl
      | array _ hdepth _ _ _ => omega
      | elided helides => cases helides
  | deepObject houtside hdeep =>
      cases h' with
      | atom hatom => cases hatom
      | circular hcell hinside =>
          cases hcell
          exact absurd hinside houtside
      | deepObject _ _ => rfl
      | object _ hdepth _ _ _ => omega
      | elided helides => cases helides
  | @array outer depth r items copies houtside hdepth hcell hlength hcopies ih =>
      cases h' with
      | atom hatom => cases hatom
      | circular hcell hinside =>
          cases hcell
          exact absurd hinside houtside
      | deepArray _ hdeep => omega
      | elided helides => cases helides
      | array _ _ hcell' hlength' hcopies' =>
          cases Option.some.inj (hcell.symm.trans hcell')
          congr 2
          refine List.ext_getElem (hlength.trans hlength'.symm) fun k hk hk' => ?_
          have hsize : k < items.size := by omega
          have hitem := Array.getElem?_eq_getElem hsize
          refine ih k _ _ hitem (List.getElem?_eq_getElem hk) ?_
          exact hcopies' k _ _ hitem (List.getElem?_eq_getElem hk')
  | @object outer depth r entries copies houtside hdepth hcell hkeys hcopies ih =>
      cases h' with
      | atom hatom => cases hatom
      | circular hcell hinside =>
          cases hcell
          exact absurd hinside houtside
      | deepObject _ hdeep => omega
      | elided helides => cases helides
      | object _ _ hcell' hkeys' hcopies' =>
          cases Option.some.inj (hcell.symm.trans hcell')
          have hlength := length_of_keys hkeys
          congr 2
          refine List.ext_getElem (hlength.trans (length_of_keys hkeys').symm)
            fun k hk hk' => Prod.ext ?_ ?_
          · have hkey := List.getElem_of_eq (hkeys.trans hkeys'.symm) (i := k) (by simpa using hk)
            simpa using hkey
          · have hentry := List.getElem?_eq_getElem (l := entries) (i := k) (by omega)
            refine ih k _ _ hentry (List.getElem?_eq_getElem hk) ?_
            exact hcopies' k _ _ hentry (List.getElem?_eq_getElem hk')
  | elided helides => cases helides

/-- Where nothing is elided, no value was. -/
theorem Shows.unfolds (h : m.Shows limits elides outer depth v shown)
    (hwhole : Shown.elided ∉ shown.nodes) : m.Shows limits False outer depth v shown := by
  induction h with
  | atom hatom => exact .atom hatom
  | circular hcell hinside => exact .circular hcell hinside
  | deepArray houtside hdeep => exact .deepArray houtside hdeep
  | deepObject houtside hdeep => exact .deepObject houtside hdeep
  | elided helides => exact absurd List.mem_cons_self hwhole
  | array houtside hdepth hcell hlength hcopies ih =>
      refine .array houtside hdepth hcell hlength fun k v copy hv hcopy => ?_
      refine ih k v copy hv hcopy fun hmem => hwhole ?_
      rw [Shown.nodes_array, List.flatMap_append]
      refine List.mem_cons_of_mem _ (List.mem_append_left _ ?_)
      exact List.mem_flatMap.2 ⟨copy, List.mem_of_getElem? hcopy, hmem⟩
  | object houtside hdepth hcell hkeys hcopies ih =>
      refine .object houtside hdepth hcell hkeys fun k e copy he hcopy => ?_
      refine ih k e copy he hcopy fun hmem => hwhole ?_
      rw [Shown.nodes_object, List.flatMap_append]
      refine List.mem_cons_of_mem _ (List.mem_append_left _ ?_)
      exact List.mem_flatMap.2 ⟨copy, List.mem_of_getElem? hcopy, hmem⟩

theorem elided_not_mem_of_atom? (hatom : v.atom? = some shown) : Shown.elided ∉ shown.nodes := by
  obtain ⟨hleaf, hcopy⟩ := leaf_of_atom? hatom
  rw [Shown.nodes_of_leaf hleaf, List.mem_singleton]
  intro heq
  rw [← heq] at hcopy
  exact absurd hcopy (by decide)

/-- In the tree that a value unfolds to nothing is elided. -/
theorem Shows.elided_not_mem (h : m.Shows limits False outer depth v shown) :
    Shown.elided ∉ shown.nodes := by
  induction h with
  | atom hatom => exact elided_not_mem_of_atom? hatom
  | circular hcell hinside => simp [Shown.circular, Shown.elided, Shown.nodes_placeholder]
  | deepArray houtside hdeep => simp [Shown.elided, Shown.nodes_placeholder]
  | deepObject houtside hdeep => simp [Shown.elided, Shown.nodes_placeholder]
  | elided helides => cases helides
  | @array outer depth r items copies houtside hdepth hcell hlength hcopies ih =>
      rw [Shown.nodes_array, List.flatMap_append, List.mem_cons, List.mem_append]
      rintro (heq | hmem | hmem)
      · cases heq
      · obtain ⟨copy, hcopy, hmem⟩ := List.mem_flatMap.1 hmem
        obtain ⟨k, hk, rfl⟩ := List.getElem_of_mem hcopy
        have hk' : k < items.size := by omega
        have hitem := Array.getElem?_eq_getElem hk'
        exact ih k _ _ hitem (List.getElem?_eq_getElem hk) hmem
      · exact limits.elided_not_mem_hiddenItems _ hmem
  | @object outer depth r entries copies houtside hdepth hcell hkeys hcopies ih =>
      have hlength := length_of_keys hkeys
      rw [Shown.nodes_object, List.flatMap_append, List.mem_cons, List.mem_append]
      rintro (heq | hmem | hmem)
      · cases heq
      · obtain ⟨copy, hcopy, hmem⟩ := List.mem_flatMap.1 hmem
        obtain ⟨k, hk, rfl⟩ := List.getElem_of_mem hcopy
        have hentry := List.getElem?_eq_getElem (l := entries) (i := k) (by omega)
        exact ih k _ _ hentry (List.getElem?_eq_getElem hk) hmem
      · rw [Limits.hiddenEntries, List.flatMap_map] at hmem
        exact limits.elided_not_mem_hiddenItems _ hmem

end

/-! ### Snapshots -/

section

variable {G : Proto → Prop}

open Copying

/-- What is in sight stands. -/
theorem Intact.backs_sight (hm : m.Intact G) {b : String × Value} (hb : b ∈ m.sight) :
    m.Backs G b.2 := by
  obtain ⟨name, -, hmap⟩ := List.mem_filterMap.1 hb
  obtain ⟨v, haccess, rfl⟩ := Option.map_eq_some_iff.1 hmap
  exact hm.store.scopes.access m.currentScope name haccess

/-- The variables of a snapshot are shown by the rules. -/
theorem shows_copyVariable (hm : m.Intact G) (limits : Limits) {b : String × Value}
    (hb : b ∈ m.sight) :
    Gives (copyVariable limits m.marshal b) fun copy =>
      copy.1 = b.1 ∧ m.Shows limits True [] 1 b.2 copy.2 := by
  have hcopy := shows_copy limits [] hm rfl (hm.backs_sight hb)
  exact hcopy.map fun copied hcopied => ⟨rfl, hcopied⟩

theorem spends_copyVariable (hm : m.Intact G) (limits : Limits) {b : String × Value}
    (hb : b ∈ m.sight) :
    Spends 0 (copyVariable limits m.marshal b) fun copy => copy.2.copies := by
  have hcopy := spends_copy limits [] hm rfl (hm.backs_sight hb)
  exact hcopy.map fun copied => rfl

theorem exists_unfolds_copyVariable (hm : m.Intact G) (limits : Limits) {b : String × Value}
    (hb : b ∈ m.sight) :
    ∃ copy : String × Shown, (copy.1 = b.1 ∧ m.Unfolds limits b.2 copy.2) ∧
      Yields (copyVariable limits m.marshal b) copy copy.2.copies := by
  obtain ⟨tree, htree, hyields⟩ := exists_unfolds limits [] hm rfl
    (hm.backs_sight hb)
  exact ⟨(b.1, tree), ⟨rfl, htree⟩, hyields.map⟩

/-- Variables one by one and variables in a row. -/
theorem forall₂_of_getElem? {α β : Type} {P : α → β → Prop} {xs : List α} {ys : List β}
    (hlength : ys.length = xs.length)
    (h : ∀ (k : ℕ) x y, xs[k]? = some x → ys[k]? = some y → P x y) : List.Forall₂ P xs ys := by
  refine List.forall₂_iff_get.2 ⟨hlength.symm, fun k hk hk' => ?_⟩
  exact h k _ _ (List.getElem?_eq_getElem hk) (List.getElem?_eq_getElem hk')

/-- A snapshot is made by the rules. -/
theorem shows_snapshot (hm : m.Intact G) (limits : Limits) :
    List.Forall₂ (fun b e => e.1 = b.1 ∧ m.Shows limits True [] 1 b.2 e.2) m.sight
      (snapshot Script.interpreter limits m) := by
  obtain ⟨hlength, hshows⟩ :=
    Gives.mapM (fun b hb => shows_copyVariable hm limits hb) limits.nodes
  rw [snapshot_eq]
  exact forall₂_of_getElem? hlength hshows

/-- A snapshot uses up as many values as it has nodes that stand for values. -/
theorem spends_snapshot (hm : m.Intact G) (limits : Limits) :
    ((snapshot Script.interpreter limits m).map fun e => e.2.copies).sum +
      ((m.sight.mapM (copyVariable limits m.marshal)).run limits.nodes).2 = limits.nodes := by
  rw [snapshot_eq]
  exact Spends.mapM (fun b hb => spends_copyVariable hm limits hb) limits.nodes

end

end Machine

/-- **A snapshot that elides nothing is the unfolding of what is in sight.** However far a machine
has gone on the run of a program, each variable in sight unfolds to exactly one tree; and a snapshot
consists of these trees if and only if no value in it is elided, which is so if and only if the
trees have no more nodes that stand for values than may be copied. -/
theorem snapshot_unfolds (program : Program) (n : ℕ) (limits : Limits) :
    let m := machineAfter program n
    let shown := snapshot Script.interpreter limits m
    (∀ b ∈ m.sight, ∃! tree, m.Unfolds limits b.2 tree) ∧
    ∃ trees : Snapshot,
      List.Forall₂ (fun b tree => tree.1 = b.1 ∧ m.Unfolds limits b.2 tree.2) m.sight trees ∧
      (shown = trees ↔ ∀ e ∈ shown, Shown.elided ∉ e.2.nodes) ∧
      (shown = trees ↔ (trees.map fun e => e.2.copies).sum ≤ limits.nodes) := by
  intro m shown
  have hm : m.Intact fun _ => True := intact_machineAfter program n
  obtain ⟨trees, hlength, htrees, hyields⟩ :=
    Copying.Yields.mapM (fun e : String × Shown => e.2.copies) fun b hb =>
      Machine.exists_unfolds_copyVariable hm limits hb
  have hshows := Machine.shows_snapshot hm limits
  have hspent := Machine.spends_snapshot hm limits
  refine ⟨fun b hb => ?_, trees, Machine.forall₂_of_getElem? hlength htrees, ⟨?_, ?_⟩, ⟨?_, ?_⟩⟩
  · obtain ⟨copy, ⟨-, htree⟩, -⟩ := Machine.exists_unfolds_copyVariable hm limits hb
    exact ⟨copy.2, htree, fun tree' htree' => htree'.unique htree⟩
  · intro heq e he
    obtain ⟨k, hk, rfl⟩ := List.getElem_of_mem (heq ▸ he)
    have hb := List.getElem?_eq_getElem (l := m.sight) (i := k) (by omega)
    exact (htrees k _ _ hb (List.getElem?_eq_getElem hk)).2.elided_not_mem
  · intro hwhole
    refine List.ext_getElem (hshows.length_eq.symm.trans hlength.symm) fun k hk hk' => ?_
    have hb := List.getElem?_eq_getElem (l := m.sight) (i := k) (by omega)
    obtain ⟨hkey, hcopy⟩ := hshows.get (by omega) hk
    obtain ⟨hkey', htree⟩ := htrees k _ _ hb (List.getElem?_eq_getElem hk')
    have hunfolds := hcopy.unfolds (hwhole _ (List.getElem_mem hk))
    exact Prod.ext (hkey.trans hkey'.symm) (hunfolds.unique htree)
  · intro heq
    rw [← heq]
    exact Nat.le.intro hspent
  · intro hroom
    exact (snapshot_eq limits m).trans (congrArg Prod.fst (hyields limits.nodes hroom))

end Tracepoint
