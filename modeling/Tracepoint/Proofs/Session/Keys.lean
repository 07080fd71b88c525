/-
The keys of what a snapshot shows of an object.

The keys of an object are distinct, and a snapshot shows the first of them in their order.  What is
not shown is counted under a key of its own, `hiddenKey`.  A script may use this key too, and then
what is shown has it twice: readers of a snapshot that take it for a record lose a property.

Main definitions:

* `Limits.shownKeys` — the keys under which an object with some keys is shown.

Main results:

* `Limits.duplicate_shownKeys` — the only key that may be shown twice is that of the summary;
* `Machine.Shows.entries_at` — the entries of an object at a place;
* `snapshot_keys` — **the keys of a shown object are distinct unless it has a property with the key
  of the summary, which is shown while others are not**;
* `repeated_key_of_hiddenKey` — an object that is shown with a key twice.
-/

import Mathlib.Data.List.Duplicate
import Tracepoint.Proofs.Session.Extent

set_option relaxedAutoImplicit false
set_option autoImplicit false

namespace Tracepoint

/-- The keys of a node. -/
def Shown.keys : Shown → List String
  | object entries => entries.map Prod.fst
  | _ => []

namespace Limits

/-- The keys under which an object with the keys `own` is shown: the first ones, and that of the
summary if there are more. -/
def shownKeys (limits : Limits) (own : List String) : List String :=
  own.take limits.items ++ if limits.items < own.length then [hiddenKey] else []

theorem map_fst_hiddenEntries (limits : Limits) (count : ℕ) :
    (limits.hiddenEntries count).map Prod.fst =
      if limits.items < count then [hiddenKey] else [] := by
  rw [hiddenEntries, hiddenItems_eq]
  split
  · rfl
  · rfl

/-- **The only key that may be shown twice is that of the summary.** -/
theorem duplicate_shownKeys (limits : Limits) {own : List String} (hown : own.Nodup)
    (key : String) :
    (limits.shownKeys own).Duplicate key ↔
      key = hiddenKey ∧ limits.items < own.length ∧ hiddenKey ∈ own.take limits.items := by
  have htake : (own.take limits.items).Nodup := hown.sublist (List.take_sublist _ _)
  rw [shownKeys]
  by_cases hmore : limits.items < own.length
  · rw [if_pos hmore, List.duplicate_iff_two_le_count, List.count_append, List.count_singleton,
      htake.count]
    by_cases hkey : key = hiddenKey
    · subst hkey
      by_cases hmem : hiddenKey ∈ own.take limits.items
      · simp [hmem, hmore]
      · simp [hmem]
    · have hne : (hiddenKey == key) = false := beq_eq_false_iff_ne.2 (Ne.symm hkey)
      rw [hne]
      constructor
      · intro htwo
        split at htwo <;> simp at htwo
      · rintro ⟨heq, -⟩
        exact absurd heq hkey
  · rw [if_neg hmore, List.append_nil]
    constructor
    · intro hduplicate
      exact absurd htake hduplicate.not_nodup
    · rintro ⟨-, hlt, -⟩
      exact absurd hlt hmore

theorem nodup_shownKeys (limits : Limits) {own : List String} (hown : own.Nodup) :
    (limits.shownKeys own).Nodup ↔
      ¬(limits.items < own.length ∧ hiddenKey ∈ own.take limits.items) := by
  rw [List.nodup_iff_forall_not_duplicate]
  constructor
  · intro hnone hclash
    exact hnone hiddenKey ((limits.duplicate_shownKeys hown hiddenKey).2 ⟨rfl, hclash⟩)
  · intro hnone key hduplicate
    exact hnone ((limits.duplicate_shownKeys hown key).1 hduplicate).2

end Limits

namespace Machine

variable {m : Machine} {limits : Limits} {elides : Prop} {v : Value} {shown : Shown}

/-- An object at a place is shown under the keys of the object that is there. -/
theorem Shows.entries_at (h : m.Shows limits elides [] 1 v shown) {place : List ℕ}
    {entries : List (String × Shown)} (hnode : shown.at? place = some (.object entries)) :
    ∃ r own, m.at? v place = some (.object r) ∧ m.heap.get? r = some (.object own) ∧
      entries.map Prod.fst = limits.shownKeys (own.map Prod.fst) := by
  obtain ⟨w, hw, hplace⟩ := h.at? (.nil m) hnode
  rcases hplace with ⟨hidden, hsummary⟩ | ⟨outer, -, -, hshows⟩
  · cases hsummary
  · cases hshows with
    | atom hatom => cases (leaf_of_atom? hatom).1
    | @object _ _ r own copies _ _ hcell hkeys _ =>
        refine ⟨r, own, hw, hcell, ?_⟩
        rw [List.map_append, hkeys, limits.map_fst_hiddenEntries, Limits.shownKeys, List.map_take,
          List.length_map]

end Machine

/-- **The keys of a shown object are those of the object, as far as they are shown, and that of the
summary.** However far a machine has gone on the run of a program, and whatever the limits are, each
object in a snapshot is shown under the first keys of the object at its place, which has each key
once, and under the key of the summary if there are more. No other key is shown twice, and this
one only if the object has it too and shows it. -/
theorem snapshot_keys (program : Program) (n : ℕ) (limits : Limits) :
    let m := machineAfter program n
    List.Forall₂ (fun b e => e.1 = b.1 ∧ ∀ place entries, e.2.at? place = some (.object entries) →
      ∃ r own, m.at? b.2 place = some (.object r) ∧ m.heap.get? r = some (.object own) ∧
        (own.map Prod.fst).Nodup ∧
        entries.map Prod.fst = limits.shownKeys (own.map Prod.fst) ∧
        (∀ key, (entries.map Prod.fst).Duplicate key → key = hiddenKey) ∧
        ((entries.map Prod.fst).Nodup ↔
          ¬(limits.items < own.length ∧ hiddenKey ∈ (own.map Prod.fst).take limits.items)))
      m.sight (snapshot Script.interpreter limits m) := by
  intro m
  have hm : m.Intact fun _ => True := intact_machineAfter program n
  refine (Machine.shows_snapshot hm limits).imp ?_
  rintro b e ⟨hname, hshows⟩
  refine ⟨hname, fun place entries hnode => ?_⟩
  obtain ⟨r, own, hvalue, hcell, hkeys⟩ := hshows.entries_at hnode
  have hown : (own.map Prod.fst).Nodup := hm.consistent.keys r own hcell
  refine ⟨r, own, hvalue, hcell, hown, hkeys, fun key hduplicate => ?_, ?_⟩
  · rw [hkeys] at hduplicate
    exact ((limits.duplicate_shownKeys hown key).1 hduplicate).1
  · rw [hkeys, limits.nodup_shownKeys hown, List.length_map]

/-- What is known of a program whose snapshot, after some steps, shows one object under some keys. -/
theorem exists_object_of_keys {source : String} {limits : Limits} {n : ℕ} {key : String}
    {keys : List String}
    (h : (parse source).toOption.map (fun program =>
      (snapshot Script.interpreter limits (machineAfter program n)).map fun e => e.2.keys) =
        some [key :: keys]) :
    ∃ program, parse source = .ok program ∧ ∃ name entries,
      snapshot Script.interpreter limits (machineAfter program n) = [(name, .object entries)] ∧
        entries.map Prod.fst = key :: keys := by
  cases hparse : parse source with
  | error e =>
      rw [hparse] at h
      cases h
  | ok program =>
      rw [hparse] at h
      obtain ⟨⟨name, shown⟩, hsnapshot, hkeys⟩ := List.map_eq_singleton_iff.1 (Option.some.inj h)
      cases shown with
      | object entries => exact ⟨program, rfl, name, entries, hsnapshot, hkeys⟩
      | _ => cases hkeys

/-- An object with two properties, of which one is shown. Its keys stay apart, since neither of them
is that of the summary. -/
theorem snapshot_keys_apart :
    ∃ program, parse "let o = \x7b a: true, b: null \x7d;\no;" = .ok program ∧
      ∃ name entries r own,
        snapshot Script.interpreter { items := 1 } (machineAfter program 7) =
          [(name, .object entries)] ∧
        (machineAfter program 7).heap.get? r = some (.object own) ∧
        (own.map Prod.fst).Nodup ∧
        entries.map Prod.fst = Limits.shownKeys { items := 1 } (own.map Prod.fst) ∧
        entries.map Prod.fst = ["a", hiddenKey] ∧
        ¬(1 < own.length ∧ hiddenKey ∈ (own.map Prod.fst).take 1) := by
  have hseen : (parse "let o = \x7b a: true, b: null \x7d;\no;").toOption.map (fun program =>
      (snapshot Script.interpreter { items := 1 } (machineAfter program 7)).map fun e => e.2.keys) =
        some [["a", hiddenKey]] := by decide +kernel
  obtain ⟨program, hparse, name, entries, hsnapshot, hentries⟩ := exists_object_of_keys hseen
  have hall := snapshot_keys program 7 { items := 1 }
  simp only [hsnapshot, List.forall₂_cons_right_iff] at hall
  obtain ⟨b, rest, ⟨-, hshown⟩, -, -⟩ := hall
  obtain ⟨r, own, -, hcell, hown, hkeys, -, hnodup⟩ := hshown [] entries rfl
  refine ⟨program, hparse, name, entries, r, own, hsnapshot, hcell, hown, hkeys, hentries, ?_⟩
  refine hnodup.1 ?_
  rw [hentries]
  decide

/-- An object that has the key of the summary, of whose two properties one is shown: in front of the
second line its snapshot has this key twice. -/
theorem repeated_key_of_hiddenKey :
    ∃ program, parse "let o = \x7b \"...\": true, b: null \x7d;\no;" = .ok program ∧
      ∃ e ∈ snapshot Script.interpreter { items := 1 } (machineAfter program 7),
        ∃ entries, e.2.at? [] = some (.object entries) ∧ ¬ (entries.map Prod.fst).Nodup := by
  have hseen : (parse "let o = \x7b \"...\": true, b: null \x7d;\no;").toOption.map (fun program =>
      (snapshot Script.interpreter { items := 1 } (machineAfter program 7)).map fun e => e.2.keys) =
        some [["...", "..."]] := by
    decide +kernel
  obtain ⟨program, hparse, name, entries, hsnapshot, hentries⟩ := exists_object_of_keys hseen
  refine ⟨program, hparse, (name, .object entries), ?_, entries, rfl, ?_⟩
  · rw [hsnapshot]
    exact List.mem_singleton_self _
  · rw [hentries]
    decide

end Tracepoint
