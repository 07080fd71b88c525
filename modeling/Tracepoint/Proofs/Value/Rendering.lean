/-
Texts of values, by rules.

The arrays and objects of a heap make up a graph, in which a container may be shared, may lead back
to itself, or may lead nowhere.  A value has two texts, and each is told here by rules that know of
nothing but the containers around a value: what contains itself is marked on the console and left
out in concatenations.  The rules give every value exactly one text in every heap.  On the console
the depth ends the walk.  In concatenations nothing does but that the arrays around a value are
different cells, and of these there are only so many.

Main definitions:

* `Value.container?`, `Value.leafText?` — the cell of a container, and the text of what is none;
* `Value.PlainText`, `Value.InspectedText` — the rules, in concatenations and on the console;
* `Value.WrittenAt` — the places that are come to in a concatenation;
* `Value.ContainerText`, `Value.MarkedExactly` — what is written for a container, and which marks.

Main results:

* `Heap.length_le_of_nodup` — no more cells lie inside each other than there are;
* `Value.PlainText.unique`, `Value.InspectedText.unique` — a value has at most one text;
* `Value.plainText_textWithin` — the levels that are given are enough;
* `Value.InspectedText.container` — what is written for a container;
* `Value.texts_by_rules` — **each value has the text of the rules, and containers are marked exactly
  as the rules say**.
-/

import Mathlib.Data.List.Nodup
import Mathlib.Data.List.Perm.Subperm
import Mathlib.Data.List.Range
import Tracepoint.Value.Render

set_option relaxedAutoImplicit false
set_option autoImplicit false

namespace Tracepoint

/-! ### Cells inside each other -/

/-- **No more cells lie inside each other than there are**, if they are all different. -/
theorem Heap.length_le_of_nodup {α : Type} {heap : Heap α} {outer : List Ref} (hnodup : outer.Nodup)
    (hcells : ∀ r ∈ outer, (heap.get? r).isSome) : outer.length ≤ heap.size := by
  have hinjective : Function.Injective Ref.index := by
    rintro ⟨index⟩ ⟨index'⟩ heq
    exact congrArg Ref.mk heq
  have hindices : (outer.map Ref.index).Nodup := List.Nodup.map hinjective hnodup
  have hsubset : outer.map Ref.index ⊆ List.range heap.size := by
    intro index hindex
    obtain ⟨r, hr, rfl⟩ := List.mem_map.1 hindex
    obtain ⟨cell, hcell⟩ := Option.isSome_iff_exists.1 (hcells r hr)
    exact List.mem_range.2 (Array.getElem?_eq_some_iff.1 hcell).1
  have hle := (hindices.subperm hsubset).length_le
  rwa [List.length_map, List.length_range] at hle

/-- The items of an array. What is no array has none. -/
def Heap.itemsOf {α : Type} (heap : Heap α) (r : Ref) : List α :=
  ((heap.items? r).getD #[]).toList

/-- What has items is a cell. -/
theorem Heap.isSome_get?_of_mem {α : Type} {heap : Heap α} {r : Ref} {v : α}
    (h : v ∈ heap.itemsOf r) : (heap.get? r).isSome := by
  cases hcell : heap.get? r with
  | none => simp [itemsOf, items?, hcell] at h
  | some cell => rfl

namespace Value

/-! ### The rules -/

/-- The cell of a container. -/
def container? : Value → Option Ref
  | .array r | .object r => some r
  | _ => none

/-- The text of a value that is no container: functions have a label, strings stand as they are. -/
def leafText? : Value → Option String
  | .undefined => some "undefined"
  | .null => some "null"
  | .bool true => some "true"
  | .bool false => some "false"
  | .number x => some (consoleNumber.render x)
  | .string text => some text
  | v@(.function _) | v@(.native _) => v.functionLabel?
  | .array _ | .object _ => none

/-- The rules by which a value is written in concatenations inside the arrays `outer`. -/
inductive PlainText (heap : Heap Value) : (outer : List Ref) → Value → String → Prop
  | leaf {outer : List Ref} {v : Value} {text : String} (hleaf : v.leafText? = some text) :
    PlainText heap outer v text
  | object {outer : List Ref} {r : Ref} : PlainText heap outer (.object r) "[object Object]"
  /-- An array adds nothing inside itself. -/
  | inside {outer : List Ref} {r : Ref} (hinside : r ∈ outer) : PlainText heap outer (.array r) ""
  /-- The items of an array between commas. Those that stand for no value are left empty. -/
  | array {outer : List Ref} {r : Ref} {parts : List String} (houtside : r ∉ outer)
      (hlength : parts.length = (heap.itemsOf r).length)
      (hempty : ∀ (k : ℕ) v part, (heap.itemsOf r)[k]? = some v → parts[k]? = some part →
        v.isNullish = true → part = "")
      (hparts : ∀ (k : ℕ) v part, (heap.itemsOf r)[k]? = some v → parts[k]? = some part →
        v.isNullish = false → PlainText heap (r :: outer) v part) :
    PlainText heap outer (.array r) (",".intercalate parts)

/-- The text of a key with the text of its value. -/
def propertyText (entry : String × Value) (part : String) : String :=
  inspectKey entry.1 ++ ": " ++ part

/-- The rules by which a value is written on the console inside the containers `outer`, of which
there are as many as the value lies deep. -/
inductive InspectedText (heap : Heap Value) : (outer : List Ref) → Value → String → Prop
  | string {outer : List Ref} {text : String} :
    InspectedText heap outer (.string text) (Text.single.quote text)
  | leaf {outer : List Ref} {v : Value} {text : String} (hleaf : v.leafText? = some text)
      (hstring : ∀ s, v ≠ .string s) : InspectedText heap outer v text
  /-- A container inside itself. -/
  | circular {outer : List Ref} {v : Value} {r : Ref} (hv : v.container? = some r)
      (hinside : r ∈ outer) : InspectedText heap outer v "[Circular]"
  /-- A reference that leads nowhere. -/
  | dangling {outer : List Ref} {v : Value} {r : Ref} (hv : v.container? = some r)
      (houtside : r ∉ outer) (hcell : heap.get? r = none) :
    InspectedText heap outer v "[Dangling]"
  | emptyArray {outer : List Ref} {v : Value} {r : Ref} (hv : v.container? = some r)
      (houtside : r ∉ outer) (hcell : heap.get? r = some (.array #[])) :
    InspectedText heap outer v "[]"
  | emptyObject {outer : List Ref} {v : Value} {r : Ref} (hv : v.container? = some r)
      (houtside : r ∉ outer) (hcell : heap.get? r = some (.object [])) :
    InspectedText heap outer v "\x7b\x7d"
  | deepArray {outer : List Ref} {v : Value} {r : Ref} {items : Array Value}
      (hv : v.container? = some r) (houtside : r ∉ outer)
      (hcell : heap.get? r = some (.array items)) (hitems : items ≠ #[])
      (hdeep : 2 < outer.length) : InspectedText heap outer v "[Array]"
  | deepObject {outer : List Ref} {v : Value} {r : Ref} {entries : List (String × Value)}
      (hv : v.container? = some r) (houtside : r ∉ outer)
      (hcell : heap.get? r = some (.object entries)) (hentries : entries ≠ [])
      (hdeep : 2 < outer.length) : InspectedText heap outer v "[Object]"
  /-- All items of an array, in order. -/
  | array {outer : List Ref} {v : Value} {r : Ref} {items : Array Value} {parts : List String}
      (hv : v.container? = some r) (houtside : r ∉ outer)
      (hcell : heap.get? r = some (.array items)) (hitems : items ≠ #[])
      (hdepth : outer.length ≤ 2) (hlength : parts.length = items.size)
      (hparts : ∀ (k : ℕ) w part, items[k]? = some w → parts[k]? = some part →
        InspectedText heap (r :: outer) w part) :
    InspectedText heap outer v ("[ " ++ ", ".intercalate parts ++ " ]")
  /-- All properties of an object, in order, each behind its key. -/
  | object {outer : List Ref} {v : Value} {r : Ref} {entries : List (String × Value)}
      {parts : List String} (hv : v.container? = some r) (houtside : r ∉ outer)
      (hcell : heap.get? r = some (.object entries)) (hentries : entries ≠ [])
      (hdepth : outer.length ≤ 2) (hlength : parts.length = entries.length)
      (hparts : ∀ (k : ℕ) e part, entries[k]? = some e → parts[k]? = some part →
        InspectedText heap (r :: outer) e.2 part) :
    InspectedText heap outer v
      ("\x7b " ++ ", ".intercalate (List.zipWith propertyText entries parts) ++ " \x7d")

/-- In the text of `v` in a concatenation, `w` is come to inside the arrays `outer`. -/
inductive WrittenAt (heap : Heap Value) (v : Value) : (outer : List Ref) → Value → Prop
  | start : WrittenAt heap v [] v
  | item {outer : List Ref} {r : Ref} {w : Value} (h : WrittenAt heap v outer (.array r))
      (houtside : r ∉ outer) (hitem : w ∈ heap.itemsOf r) (hvalue : w.isNullish = false) :
    WrittenAt heap v (r :: outer) w

variable {heap : Heap Value} {outer : List Ref} {levels : ℕ} {v : Value} {r : Ref} {s t : String}

/-! ### Leaves -/

theorem exists_leafText? (h : v.container? = none) : ∃ text, v.leafText? = some text := by
  cases v with
  | array r => cases h
  | object r => cases h
  | bool b => cases b <;> exact ⟨_, rfl⟩
  | function f =>
      simp only [leafText?, functionLabel?]
      split
      · exact ⟨_, rfl⟩
      · exact ⟨_, rfl⟩
  | _ => exact ⟨_, rfl⟩

theorem container?_of_leafText? (h : v.leafText? = some t) : v.container? = none := by
  cases v with
  | array r => cases h
  | object r => cases h
  | _ => rfl

/-- The plain text of what is no container does not depend on where it stands. -/
theorem textWithin_of_leafText? (h : v.leafText? = some t) (heap : Heap Value) (levels : ℕ)
    (outer : List Ref) : textWithin heap levels outer v = t := by
  cases v with
  | array r => cases h
  | object r => cases h
  | bool b =>
      cases b
      · cases levels <;> exact Option.some.inj h
      · cases levels <;> exact Option.some.inj h
  | function f =>
      have hlabel : (function f).functionLabel?.getD "" = t := by
        rw [show (function f).functionLabel? = some t from h, Option.getD_some]
      cases levels <;> exact hlabel
  | native f =>
      have hlabel : (native f).functionLabel?.getD "" = t := by
        rw [show (native f).functionLabel? = some t from h, Option.getD_some]
      cases levels <;> exact hlabel
  | _ => cases levels <;> exact Option.some.inj h

/-- So does its text on the console, strings apart. -/
theorem inspectWithin_of_leafText? (h : v.leafText? = some t) (hstring : ∀ s, v ≠ .string s)
    (heap : Heap Value) (levels : ℕ) (outer : List Ref) :
    inspectWithin heap levels outer v = t := by
  have htext : v.text heap = t := textWithin_of_leafText? h heap heap.size []
  cases v with
  | array r => cases h
  | object r => cases h
  | string text => exact absurd rfl (hstring text)
  | function f =>
      have hlabel : (function f).functionLabel?.getD ((function f).text heap) = t := by
        rw [show (function f).functionLabel? = some t from h, Option.getD_some]
      cases levels <;> exact hlabel
  | native f =>
      have hlabel : (native f).functionLabel?.getD ((native f).text heap) = t := by
        rw [show (native f).functionLabel? = some t from h, Option.getD_some]
      cases levels <;> exact hlabel
  | _ => cases levels <;> exact htext

/-! ### In concatenations -/

theorem textWithin_object (heap : Heap Value) (levels : ℕ) (outer : List Ref) (r : Ref) :
    textWithin heap levels outer (.object r) = "[object Object]" := by
  cases levels <;> rfl

theorem textWithin_inside (heap : Heap Value) (levels : ℕ) (hinside : r ∈ outer) :
    textWithin heap levels outer (.array r) = "" := by
  cases levels with
  | zero => rfl
  | succ levels => rw [textWithin, if_pos (List.contains_iff_mem.2 hinside)]

/-- The parts of the text of an array. -/
theorem textWithin_array (heap : Heap Value) (levels : ℕ) (houtside : r ∉ outer) :
    textWithin heap (levels + 1) outer (.array r) =
      ",".intercalate ((heap.itemsOf r).map fun item =>
        if item.isNullish then "" else textWithin heap levels (r :: outer) item) := by
  rw [textWithin, if_neg (mt List.contains_iff_mem.1 houtside)]
  rfl

/-- What is no array, or an array inside itself, is written on its own. -/
theorem plainText_of_stops (levels : ℕ) (hstops : ∀ r, v = .array r → r ∈ outer) :
    PlainText heap outer v (textWithin heap levels outer v) := by
  cases hv : v.container? with
  | none =>
      obtain ⟨text, hleaf⟩ := exists_leafText? hv
      rw [textWithin_of_leafText? hleaf]
      exact .leaf hleaf
  | some r =>
      cases v with
      | object r =>
          rw [textWithin_object]
          exact .object
      | array r =>
          have hinside := hstops r rfl
          rw [textWithin_inside heap levels hinside]
          exact .inside hinside
      | _ => cases hv

/-- **With a level left for each cell that is not around a value, its plain text is written by the
rules.** -/
theorem plainText_textWithin (hnodup : outer.Nodup) (hcells : ∀ r ∈ outer, (heap.get? r).isSome)
    (hlevels : heap.size ≤ levels + outer.length) (v : Value) :
    PlainText heap outer v (textWithin heap levels outer v) := by
  induction levels generalizing outer v with
  | zero =>
      by_cases hstops : ∀ r, v = .array r → r ∈ outer
      · exact plainText_of_stops 0 hstops
      push Not at hstops
      obtain ⟨r, rfl, houtside⟩ := hstops
      -- All cells are around the value, so it is a reference that leads to no items.
      have hitems : heap.itemsOf r = [] := by
        by_contra hne
        obtain ⟨w, hw⟩ := List.exists_mem_of_ne_nil _ hne
        have hle := Heap.length_le_of_nodup (List.nodup_cons.2 ⟨houtside, hnodup⟩)
          (List.forall_mem_cons.2 ⟨Heap.isSome_get?_of_mem hw, hcells⟩)
        rw [List.length_cons] at hle
        omega
      refine .array houtside (show ([] : List String).length = _ from ?_) ?_ ?_
      · simp [hitems]
      · intro k w part _ hpart
        simp at hpart
      · intro k w part _ hpart
        simp at hpart
  | succ levels ih =>
      by_cases hstops : ∀ r, v = .array r → r ∈ outer
      · exact plainText_of_stops (levels + 1) hstops
      push Not at hstops
      obtain ⟨r, rfl, houtside⟩ := hstops
      rw [textWithin_array heap levels houtside]
      refine .array houtside (List.length_map _) ?_ ?_
      · intro k w part hw hpart hnullish
        rw [List.getElem?_map, hw, Option.map_some, if_pos hnullish] at hpart
        exact (Option.some.inj hpart).symm
      · intro k w part hw hpart hvalue
        rw [List.getElem?_map, hw, Option.map_some, hvalue] at hpart
        obtain rfl := Option.some.inj hpart
        have hcell := Heap.isSome_get?_of_mem (List.mem_of_getElem? hw)
        refine ih (List.nodup_cons.2 ⟨houtside, hnodup⟩)
          (List.forall_mem_cons.2 ⟨hcell, hcells⟩) ?_ w
        rw [List.length_cons]
        omega

/-- **A value has one plain text.** -/
theorem PlainText.unique (h : PlainText heap outer v s) (h' : PlainText heap outer v t) :
    s = t := by
  induction h generalizing t with
  | leaf hleaf =>
      cases h' with
      | leaf hleaf' => exact Option.some.inj (hleaf.symm.trans hleaf')
      | object => cases hleaf
      | inside _ => cases hleaf
      | array _ _ _ _ => cases hleaf
  | object =>
      cases h' with
      | leaf hleaf => cases hleaf
      | object => rfl
  | inside hinside =>
      cases h' with
      | leaf hleaf => cases hleaf
      | inside _ => rfl
      | array houtside _ _ _ => exact absurd hinside houtside
  | @array outer r parts houtside hlength hempty hparts ih =>
      cases h' with
      | leaf hleaf => cases hleaf
      | inside hinside => exact absurd hinside houtside
      | @array _ _ parts' _ hlength' hempty' hparts' =>
          suffices parts = parts' by rw [this]
          refine List.ext_getElem (hlength.trans hlength'.symm) ?_
          intro k hk hk'
          obtain ⟨w, hitem⟩ : ∃ w, (heap.itemsOf r)[k]? = some w :=
            ⟨_, List.getElem?_eq_getElem (hlength ▸ hk)⟩
          have hpart := List.getElem?_eq_getElem hk
          have hpart' := List.getElem?_eq_getElem hk'
          cases hnullish : w.isNullish with
          | true =>
              rw [hempty k w _ hitem hpart hnullish, hempty' k w _ hitem hpart' hnullish]
          | false => exact ih k w _ hitem hpart hnullish (hparts' k w _ hitem hpart' hnullish)

/-- The arrays around a place are different cells. -/
theorem WrittenAt.cells {w : Value} (h : WrittenAt heap v outer w) :
    outer.Nodup ∧ ∀ r ∈ outer, (heap.get? r).isSome := by
  induction h with
  | start => exact ⟨List.nodup_nil, by simp⟩
  | item h houtside hitem hvalue ih =>
      constructor
      · exact List.nodup_cons.2 ⟨houtside, ih.1⟩
      · exact List.forall_mem_cons.2 ⟨Heap.isSome_get?_of_mem hitem, ih.2⟩

/-! ### On the console -/

theorem inspectWithin_container (heap : Heap Value) (outer : List Ref)
    (hv : v.container? = some r) :
    inspectWithin heap 0 outer v = inspectCell heap outer r none ∧
      ∀ levels, inspectWithin heap (levels + 1) outer v =
        inspectCell heap outer r (some (inspectWithin heap levels (r :: outer))) := by
  cases v with
  | array r' =>
      cases hv
      exact ⟨rfl, fun _ => rfl⟩
  | object r' =>
      cases hv
      exact ⟨rfl, fun _ => rfl⟩
  | _ => cases hv

/-- A container with nothing in it that could be written out is marked. -/
theorem inspectedText_marked (hv : v.container? = some r) (inside? : Option (Value → String))
    (hmarked : r ∈ outer ∨ heap.get? r = none ∨ heap.get? r = some (.array #[]) ∨
      heap.get? r = some (.object [])) :
    InspectedText heap outer v (inspectCell heap outer r inside?) := by
  rw [inspectCell]
  split
  next hinside => exact .circular hv (List.contains_iff_mem.1 hinside)
  next houtside =>
    have houtside : r ∉ outer := mt List.contains_iff_mem.2 houtside
    rcases hmarked with hinside | hcell | hcell | hcell
    · exact absurd hinside houtside
    · rw [hcell]
      exact .dangling hv houtside hcell
    · rw [hcell]
      exact .emptyArray hv houtside hcell
    · rw [hcell]
      exact .emptyObject hv houtside hcell

/-- What a container holds that is not marked. -/
theorem exists_contents (hopen : ¬(r ∈ outer ∨ heap.get? r = none ∨
    heap.get? r = some (.array #[]) ∨ heap.get? r = some (.object []))) :
    r ∉ outer ∧ ((∃ items, heap.get? r = some (.array items) ∧ items ≠ #[]) ∨
      ∃ entries, heap.get? r = some (.object entries) ∧ entries ≠ []) := by
  simp only [not_or] at hopen
  obtain ⟨houtside, hsome, harray, hobject⟩ := hopen
  refine ⟨houtside, ?_⟩
  cases hcell : heap.get? r with
  | none => exact absurd hcell hsome
  | some cell =>
      cases cell with
      | array items =>
          refine .inl ⟨items, rfl, ?_⟩
          rintro rfl
          exact harray hcell
      | object entries =>
          refine .inr ⟨entries, rfl, ?_⟩
          rintro rfl
          exact hobject hcell

theorem inspectCell_array {items : Array Value} (houtside : r ∉ outer)
    (hcell : heap.get? r = some (.array items)) (hitems : items ≠ #[]) :
    inspectCell heap outer r none = "[Array]" ∧ ∀ inside, inspectCell heap outer r (some inside) =
      "[ " ++ ", ".intercalate (items.toList.map inside) ++ " ]" := by
  have hempty : items.isEmpty = false := by simpa using hitems
  have hcontains := mt List.contains_iff_mem.1 houtside
  constructor
  · simp only [inspectCell, if_neg hcontains, hcell, hempty, Bool.false_eq_true, if_false]
  · intro inside
    simp only [inspectCell, if_neg hcontains, hcell, hempty, Bool.false_eq_true, if_false]

theorem inspectCell_object {entries : List (String × Value)} (houtside : r ∉ outer)
    (hcell : heap.get? r = some (.object entries)) (hentries : entries ≠ []) :
    inspectCell heap outer r none = "[Object]" ∧ ∀ inside, inspectCell heap outer r (some inside) =
      "\x7b " ++ ", ".intercalate
        (List.zipWith propertyText entries (entries.map fun e => inside e.2)) ++ " \x7d" := by
  have hempty : entries.isEmpty = false := List.isEmpty_eq_false_iff.2 hentries
  have hcontains := mt List.contains_iff_mem.1 houtside
  constructor
  · simp only [inspectCell, if_neg hcontains, hcell, hempty, Bool.false_eq_true, if_false]
  · intro inside
    simp only [inspectCell, if_neg hcontains, hcell, hempty, Bool.false_eq_true, if_false,
      List.zipWith_map_right, List.zipWith_self]
    rfl

/-- What is no container, or one that is marked, is written on its own. -/
theorem inspectedText_of_stops (levels : ℕ)
    (hstops : ∀ r, v.container? = some r → r ∈ outer ∨ heap.get? r = none ∨
      heap.get? r = some (.array #[]) ∨ heap.get? r = some (.object [])) :
    InspectedText heap outer v (inspectWithin heap levels outer v) := by
  cases hv : v.container? with
  | none =>
      by_cases hstring : ∃ s, v = .string s
      · obtain ⟨s, rfl⟩ := hstring
        cases levels <;> exact .string
      · obtain ⟨text, hleaf⟩ := exists_leafText? hv
        have hstring : ∀ s, v ≠ .string s := fun s hs => hstring ⟨s, hs⟩
        rw [inspectWithin_of_leafText? hleaf hstring]
        exact .leaf hleaf hstring
  | some r =>
      obtain ⟨hzero, hsucc⟩ := inspectWithin_container heap outer hv
      cases levels with
      | zero =>
          rw [hzero]
          exact inspectedText_marked hv none (hstops r hv)
      | succ levels =>
          rw [hsucc]
          exact inspectedText_marked hv _ (hstops r hv)

/-- **The text on the console is written by the rules**, if the levels that are left and the
containers around the value make up three. -/
theorem inspectedText_inspectWithin (hlevels : levels + outer.length = 3) (v : Value) :
    InspectedText heap outer v (inspectWithin heap levels outer v) := by
  induction levels generalizing outer v with
  | zero =>
      by_cases hstops : ∀ r, v.container? = some r → r ∈ outer ∨ heap.get? r = none ∨
        heap.get? r = some (.array #[]) ∨ heap.get? r = some (.object [])
      · exact inspectedText_of_stops 0 hstops
      push Not at hstops
      obtain ⟨r, hv, hopen⟩ := hstops
      rw [(inspectWithin_container heap outer hv).1]
      have hdeep : 2 < outer.length := by omega
      obtain ⟨houtside, ⟨items, hcell, hitems⟩ | ⟨entries, hcell, hentries⟩⟩ :=
        exists_contents (by simpa using hopen)
      · rw [(inspectCell_array houtside hcell hitems).1]
        exact .deepArray hv houtside hcell hitems hdeep
      · rw [(inspectCell_object houtside hcell hentries).1]
        exact .deepObject hv houtside hcell hentries hdeep
  | succ levels ih =>
      by_cases hstops : ∀ r, v.container? = some r → r ∈ outer ∨ heap.get? r = none ∨
        heap.get? r = some (.array #[]) ∨ heap.get? r = some (.object [])
      · exact inspectedText_of_stops (levels + 1) hstops
      push Not at hstops
      obtain ⟨r, hv, hopen⟩ := hstops
      rw [(inspectWithin_container heap outer hv).2]
      have hdepth : outer.length ≤ 2 := by omega
      have hinner : levels + (r :: outer).length = 3 := by
        rw [List.length_cons]
        omega
      obtain ⟨houtside, ⟨items, hcell, hitems⟩ | ⟨entries, hcell, hentries⟩⟩ :=
        exists_contents (by simpa using hopen)
      · rw [(inspectCell_array houtside hcell hitems).2]
        refine .array hv houtside hcell hitems hdepth (by simp) ?_
        intro k w part hw hpart
        rw [List.getElem?_map, Array.getElem?_toList, hw] at hpart
        obtain rfl := Option.some.inj hpart
        exact ih hinner w
      · rw [(inspectCell_object houtside hcell hentries).2]
        refine .object hv houtside hcell hentries hdepth (by simp) ?_
        intro k e part he hpart
        rw [List.getElem?_map, he] at hpart
        obtain rfl := Option.some.inj hpart
        exact ih hinner e.2

/-- What is written for a container: it is marked, or else what it holds is written out. -/
def ContainerText (heap : Heap Value) (outer : List Ref) (r : Ref) (t : String) : Prop :=
  if r ∈ outer then t = "[Circular]"
  else
    match heap.get? r with
    | none => t = "[Dangling]"
    | some (.array items) =>
      if items = #[] then t = "[]"
      else if 2 < outer.length then t = "[Array]"
      else ∃ parts : List String, parts.length = items.size ∧
        (∀ (k : ℕ) w part, items[k]? = some w → parts[k]? = some part →
          InspectedText heap (r :: outer) w part) ∧
        t = "[ " ++ ", ".intercalate parts ++ " ]"
    | some (.object entries) =>
      if entries = [] then t = "\x7b\x7d"
      else if 2 < outer.length then t = "[Object]"
      else ∃ parts : List String, parts.length = entries.length ∧
        (∀ (k : ℕ) e part, entries[k]? = some e → parts[k]? = some part →
          InspectedText heap (r :: outer) e.2 part) ∧
        t = "\x7b " ++ ", ".intercalate (List.zipWith propertyText entries parts) ++ " \x7d"

/-- **What the rules write for a container.** -/
theorem InspectedText.container (h : InspectedText heap outer v t) (hv : v.container? = some r) :
    ContainerText heap outer r t := by
  cases h with
  | string => cases hv
  | leaf hleaf _ => cases (container?_of_leafText? hleaf).symm.trans hv
  | circular hv' hinside =>
      cases hv'.symm.trans hv
      simp only [ContainerText, if_pos hinside]
  | dangling hv' houtside hcell =>
      cases hv'.symm.trans hv
      simp only [ContainerText, if_neg houtside, hcell]
  | emptyArray hv' houtside hcell =>
      cases hv'.symm.trans hv
      simp only [ContainerText, if_neg houtside, hcell, if_true]
  | emptyObject hv' houtside hcell =>
      cases hv'.symm.trans hv
      simp only [ContainerText, if_neg houtside, hcell, if_true]
  | deepArray hv' houtside hcell hitems hdeep =>
      cases hv'.symm.trans hv
      simp only [ContainerText, if_neg houtside, hcell, if_neg hitems, if_pos hdeep]
  | deepObject hv' houtside hcell hentries hdeep =>
      cases hv'.symm.trans hv
      simp only [ContainerText, if_neg houtside, hcell, if_neg hentries, if_pos hdeep]
  | array hv' houtside hcell hitems hdepth hlength hparts =>
      cases hv'.symm.trans hv
      simp only [ContainerText, if_neg houtside, hcell, if_neg hitems, if_neg hdepth.not_gt]
      exact ⟨_, hlength, hparts, rfl⟩
  | object hv' houtside hcell hentries hdepth hlength hparts =>
      cases hv'.symm.trans hv
      simp only [ContainerText, if_neg houtside, hcell, if_neg hentries, if_neg hdepth.not_gt]
      exact ⟨_, hlength, hparts, rfl⟩

/-- **A value has one text on the console.** -/
theorem InspectedText.unique (h : InspectedText heap outer v s)
    (h' : InspectedText heap outer v t) : s = t := by
  induction h generalizing t with
  | string =>
      cases h' with
      | string => rfl
      | leaf _ hstring => exact absurd rfl (hstring _)
      | _ => contradiction
  | leaf hleaf hstring =>
      have hv := container?_of_leafText? hleaf
      cases h' with
      | string => exact absurd rfl (hstring _)
      | leaf hleaf' _ => exact Option.some.inj (hleaf.symm.trans hleaf')
      | _ => simp_all
  | circular hv hinside =>
      have htext := h'.container hv
      simp only [ContainerText, if_pos hinside] at htext
      exact htext.symm
  | dangling hv houtside hcell =>
      have htext := h'.container hv
      simp only [ContainerText, if_neg houtside, hcell] at htext
      exact htext.symm
  | emptyArray hv houtside hcell =>
      have htext := h'.container hv
      simp only [ContainerText, if_neg houtside, hcell, if_true] at htext
      exact htext.symm
  | emptyObject hv houtside hcell =>
      have htext := h'.container hv
      simp only [ContainerText, if_neg houtside, hcell, if_true] at htext
      exact htext.symm
  | deepArray hv houtside hcell hitems hdeep =>
      have htext := h'.container hv
      simp only [ContainerText, if_neg houtside, hcell, if_neg hitems, if_pos hdeep] at htext
      exact htext.symm
  | deepObject hv houtside hcell hentries hdeep =>
      have htext := h'.container hv
      simp only [ContainerText, if_neg houtside, hcell, if_neg hentries, if_pos hdeep] at htext
      exact htext.symm
  | @array outer v r items parts hv houtside hcell hitems hdepth hlength hparts ih =>
      have htext := h'.container hv
      simp only [ContainerText, if_neg houtside, hcell, if_neg hitems, if_neg hdepth.not_gt]
        at htext
      obtain ⟨parts', hlength', hparts', rfl⟩ := htext
      suffices parts = parts' by rw [this]
      refine List.ext_getElem (hlength.trans hlength'.symm) ?_
      intro k hk hk'
      have hitem := Array.getElem?_eq_getElem (hlength ▸ hk)
      exact ih k _ _ hitem (List.getElem?_eq_getElem hk)
        (hparts' k _ _ hitem (List.getElem?_eq_getElem hk'))
  | @object outer v r entries parts hv houtside hcell hentries hdepth hlength hparts ih =>
      have htext := h'.container hv
      simp only [ContainerText, if_neg houtside, hcell, if_neg hentries, if_neg hdepth.not_gt]
        at htext
      obtain ⟨parts', hlength', hparts', rfl⟩ := htext
      suffices parts = parts' by rw [this]
      refine List.ext_getElem (hlength.trans hlength'.symm) ?_
      intro k hk hk'
      have hentry := List.getElem?_eq_getElem (hlength ▸ hk)
      exact ih k _ _ hentry (List.getElem?_eq_getElem hk)
        (hparts' k _ _ hentry (List.getElem?_eq_getElem hk'))

/-! ### Marks -/

/-- The containers that are marked, each by its mark and no other by it. -/
structure MarkedExactly (heap : Heap Value) (outer : List Ref) (r : Ref) (t : String) : Prop where
  circular : t = "[Circular]" ↔ r ∈ outer
  dangling : t = "[Dangling]" ↔ r ∉ outer ∧ heap.get? r = none
  emptyArray : t = "[]" ↔ r ∉ outer ∧ heap.get? r = some (.array #[])
  emptyObject : t = "\x7b\x7d" ↔ r ∉ outer ∧ heap.get? r = some (.object [])
  deepArray : t = "[Array]" ↔ r ∉ outer ∧ 2 < outer.length ∧
    ∃ items, heap.get? r = some (.array items) ∧ items ≠ #[]
  deepObject : t = "[Object]" ↔ r ∉ outer ∧ 2 < outer.length ∧
    ∃ entries, heap.get? r = some (.object entries) ∧ entries ≠ []

/-- What is written out has a blank behind its bracket, as no mark does. -/
theorem written_ne_mark {start mark : String} (hstart : start ∈ ["[ ", "\x7b "])
    (hmark : mark ∈ ["[Circular]", "[Dangling]", "[]", "\x7b\x7d", "[Array]", "[Object]"])
    (text stop : String) :
    start ++ text ++ stop ≠ mark := by
  have hstarts : ∀ start ∈ ["[ ", "\x7b "], start.toList[1]? = some ' ' := by decide
  have hmarks : ∀ mark ∈ ["[Circular]", "[Dangling]", "[]", "\x7b\x7d", "[Array]", "[Object]"],
      mark.toList[1]? ≠ some ' ' := by decide
  rintro rfl
  apply hmarks _ hmark
  have hblank := hstarts start hstart
  rw [String.toList_append, String.toList_append, List.append_assoc,
    List.getElem?_append_left (List.getElem?_eq_some_iff.1 hblank).1]
  exact hblank

theorem ContainerText.markedExactly (h : ContainerText heap outer r t) :
    MarkedExactly heap outer r t := by
  rw [ContainerText] at h
  split at h
  next hinside =>
    subst h
    constructor <;> simp [hinside]
  next houtside =>
    split at h
    next hcell =>
      subst h
      constructor <;> simp [houtside, hcell]
    next items hcell =>
      split at h
      next hitems =>
        subst h hitems
        constructor <;> simp [houtside, hcell]
      next hitems =>
        split at h
        next hdeep =>
          subst h
          constructor <;> simp [houtside, hcell, hitems, hdeep]
        next hdepth =>
          obtain ⟨parts, -, -, rfl⟩ := h
          constructor <;> simp [houtside, hcell, hitems, hdepth, written_ne_mark]
    next entries hcell =>
      split at h
      next hentries =>
        subst h hentries
        constructor <;> simp [houtside, hcell]
      next hentries =>
        split at h
        next hdeep =>
          subst h
          constructor <;> simp [houtside, hcell, hentries, hdeep]
        next hdepth =>
          obtain ⟨parts, -, -, rfl⟩ := h
          constructor <;> simp [houtside, hcell, hentries, hdepth, written_ne_mark]

/-! ### All values -/

/-- **Each value has the text of the rules, and containers are marked exactly as the rules say.** In
every heap a value has one text on the console and one in concatenations, those that the rules give;
a container on the console is written in the first of the ways that apply, and by a mark only where
that is the way; and in a concatenation nothing lies inside more arrays than there are cells, which
are all different. -/
theorem texts_by_rules (heap : Heap Value) (v : Value) :
    (∀ t, v.inspect heap = t ↔ InspectedText heap [] v t) ∧
    (∀ outer w r t, InspectedText heap outer w t → w.container? = some r →
      ContainerText heap outer r t ∧ MarkedExactly heap outer r t) ∧
    (∀ t, v.text heap = t ↔ PlainText heap [] v t) ∧
    ∀ outer w, WrittenAt heap v outer w → outer.Nodup ∧ outer.length ≤ heap.size := by
  have hinspected : InspectedText heap [] v (v.inspect heap) :=
    inspectedText_inspectWithin (by rfl) v
  have hplain : PlainText heap [] v (v.text heap) :=
    plainText_textWithin List.nodup_nil (by simp) (by simp) v
  refine ⟨?_, ?_, ?_, ?_⟩
  · intro t
    constructor
    · rintro rfl
      exact hinspected
    · exact hinspected.unique
  · intro outer w r t h hv
    exact ⟨h.container hv, (h.container hv).markedExactly⟩
  · intro t
    constructor
    · rintro rfl
      exact hplain
    · exact hplain.unique
  · intro outer w h
    obtain ⟨hnodup, hcells⟩ := h.cells
    exact ⟨hnodup, Heap.length_le_of_nodup hnodup hcells⟩

/-- An array that holds itself twice, and a reference that leads nowhere. -/
example : (array ⟨0⟩).inspect ⟨#[.array #[.array ⟨0⟩, .null, .object ⟨7⟩]]⟩ =
    "[ [Circular], null, [Dangling] ]" := by
  decide +kernel

end Value

end Tracepoint
