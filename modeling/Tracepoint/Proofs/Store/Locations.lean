/-
Where values are kept in containers.

A value that is written into a container is kept at a location: at a position of an array or under a
key of an object.  A container and an index name a location, and different ones may name the same:
an array has its items under their positions and under the names that spell them.  All that can be
read at a location is the value that is kept there.  A write changes what is kept at one location
and nothing at any other.

Main definitions:

* `Location`, `Value.location?` — locations, and the one that an index names;
* `Heap.valueAt` — what is kept at a location;
* `Heap.Written`, `Heap.Reshaped` — what a write does to a heap and to the container;
* `Store.Writes` — an action has written at a location and done nothing else;
* `Value.Denotes` — the value is a number that is a position.

Main results:

* `Act.getIndex_of_location?`, `Act.getProperty_of_location?` — what is read is what is kept there;
* `Heap.written_setItem`, `Heap.written_setProperty` — **a write changes one location**;
* `Act.writes_setIndex`, `Act.writes_setProperty` — every write that succeeds is of this kind;
* `Act.setIndex_array_error_iff` — the writes into arrays that fail.
-/

import Tracepoint.Proofs.Store.Atomicity
import Tracepoint.Proofs.Store.References

set_option relaxedAutoImplicit false
set_option autoImplicit false

namespace Tracepoint

/-! ### Items and entries -/

section

variable {α : Type}

/-- What is at a position after an item was written: the item at its own position, the old items
below the old end, and the filling between the old end and the item. -/
theorem getElem?_setItemAt (fill v : α) (items : Array α) (position q : ℕ) :
    (setItemAt fill items position v)[q]? =
      if q = position then some v else if q < items.size then items[q]?
      else if q < position then some fill else none := by
  by_cases hposition : position < items.size
  · rw [setItemAt, if_pos hposition, Array.getElem?_setIfInBounds]
    by_cases hq : q = position
    · rw [if_pos hq, if_pos hq.symm, if_pos hposition]
    · rw [if_neg hq, if_neg (Ne.symm hq)]
      split_ifs with hlt hbelow
      · rfl
      · omega
      · exact Array.getElem?_eq_none (Nat.le_of_not_lt hlt)
  · have hsize : (items ++ Array.replicate (position - items.size) fill).size = position := by
      rw [Array.size_append, Array.size_replicate]
      omega
    rw [setItemAt, if_neg hposition, Array.getElem?_push, hsize]
    split_ifs with hq hlt hbelow
    · rfl
    · rw [Array.getElem?_append_left hlt]
    · rw [Array.getElem?_append_right (Nat.le_of_not_lt hlt), Array.getElem?_replicate,
        if_pos (by omega)]
    · exact Array.getElem?_eq_none (by omega)

theorem size_setItemAt (fill v : α) (items : Array α) (position : ℕ) :
    (setItemAt fill items position v).size = max items.size (position + 1) := by
  rw [setItemAt]
  split_ifs with hposition
  · rw [Array.size_setIfInBounds]
    omega
  · rw [Array.size_push, Array.size_append, Array.size_replicate]
    omega

theorem Heap.valueOf?_cons (name k : String) (w : α) (rest : List (String × α)) :
    valueOf? name ((k, w) :: rest) = if k = name then some w else valueOf? name rest := by
  rw [valueOf?, List.find?_cons]
  by_cases hk : k = name
  · simp only [if_pos hk, beq_iff_eq.2 hk, Option.map_some]
  · simp only [if_neg hk, beq_eq_false_iff_ne.2 hk, valueOf?]

/-- The value of a key after one was written. -/
theorem Heap.valueOf?_setEntry (key : String) (v : α) (entries : List (String × α))
    (name : String) :
    valueOf? name (setEntry key v entries) =
      if name = key then some v else valueOf? name entries := by
  induction entries with
  | nil =>
      rw [setEntry, valueOf?_cons]
      by_cases hname : name = key
      · rw [if_pos hname.symm, if_pos hname]
      · rw [if_neg (Ne.symm hname), if_neg hname]
  | cons first rest ih =>
      obtain ⟨k, w⟩ := first
      rw [setEntry]
      by_cases hk : k = key
      · rw [if_pos hk, valueOf?_cons, valueOf?_cons, hk]
        by_cases hname : name = key
        · rw [if_pos hname.symm, if_pos hname]
        · rw [if_neg (Ne.symm hname), if_neg hname, if_neg (Ne.symm hname)]
      · rw [if_neg hk, valueOf?_cons, valueOf?_cons, ih]
        by_cases hname : k = name
        · rw [if_pos hname, if_pos hname, if_neg (hname ▸ hk)]
        · rw [if_neg hname, if_neg hname]

end

/-! ### Locations -/

/-- Where a value is kept in a container. -/
inductive Location
  | item (r : Ref) (position : ℕ)
  | property (r : Ref) (key : String)
  /-- Under a name that spells no position of the array. Nothing is ever kept there. -/
  | blank (r : Ref) (name : String)

namespace Location

/-- The container. -/
def container : Location → Ref
  | item r _ | property r _ | blank r _ => r

/-- Where a name leads in an array. The length of an array and its function are kept nowhere. -/
def ofName? (r : Ref) (name : String) : Option Location :=
  if name = "length" ∨ name = "push" then none
  else
    match positionNamed? name with
    | some position => some (item r position)
    | none => some (blank r name)

end Location

/-- The location that a key names in a container. -/
def Value.location? : Value → Key → Option Location
  | .array r, .position n => some (.item r n)
  | .array r, .name text => Location.ofName? r text
  | .object r, key => some (.property r key.text)
  | _, _ => none

/-- What is kept at a location. Nothing counts as the undefined value. -/
def Heap.valueAt (h : Heap Value) : Location → Value
  | .item r position => ((h.items? r).bind fun items => items[position]?).getD .undefined
  | .property r key => (h.property? r key).getD .undefined
  | .blank _ _ => .undefined

/-! #### Positions -/

/-- The value is a number that is whole and not negative. -/
def Value.Denotes (v : Value) (n : ℕ) : Prop :=
  ∃ x, v = .number x ∧ Decimal.whole? x = some (n : Int)

theorem Value.Denotes.unique {v : Value} {m n : ℕ} (hm : v.Denotes m) (hn : v.Denotes n) :
    m = n := by
  obtain ⟨x, rfl, hx⟩ := hm
  obtain ⟨y, hy, hwhole⟩ := hn
  cases hy
  exact Int.ofNat.inj (Option.some.inj (hx.symm.trans hwhole))

/-- The values that are positions. Numbers too large count as the largest one. -/
theorem Value.key_eq_position_iff {heap : Heap Value} {k : Value} {position : ℕ} :
    k.key heap = .position position ↔
      ∃ n, k.Denotes n ∧ position = min n (positionBound - 1) := by
  cases k with
  | number x =>
      rw [Value.key, positionOf?]
      constructor
      · intro hkey
        split at hkey
        next n hn =>
          split at hn
          next whole hwhole =>
            split_ifs at hn with hle
            obtain rfl := Option.some.inj hn
            cases hkey
            exact ⟨whole.toNat, ⟨x, rfl, by rw [hwhole, Int.toNat_of_nonneg hle]⟩, rfl⟩
          next => cases hn
        next => cases hkey
      · rintro ⟨n, ⟨y, hy, hwhole⟩, rfl⟩
        cases hy
        rw [hwhole]
        simp only
        rw [if_pos (Int.natCast_nonneg n), Int.toNat_natCast]
  | _ =>
      constructor
      · intro hkey
        cases hkey
      · rintro ⟨n, ⟨y, hy, -⟩, -⟩
        cases hy

theorem Value.Denotes.key {k : Value} {n : ℕ} (h : k.Denotes n) (heap : Heap Value) :
    k.key heap = .position (min n (positionBound - 1)) :=
  key_eq_position_iff.2 ⟨n, h, rfl⟩

/-- Every other value is the name that its plain text is. -/
theorem Value.key_of_not_denotes {k : Value} (h : ∀ n, ¬k.Denotes n) (heap : Heap Value) :
    k.key heap = .name (k.text heap) := by
  cases hkey : k.key heap with
  | position p =>
      obtain ⟨n, hn, -⟩ := key_eq_position_iff.1 hkey
      exact absurd hn (h n)
  | name text =>
      cases k with
      | number x =>
          rw [key] at hkey
          split at hkey
          next => cases hkey
          next => exact hkey.symm
      | _ => exact hkey.symm

/-! ### Reading -/

namespace Act

/-- What is read under a name is what is kept there. -/
theorem getProperty_of_location? {s : Store} {c : Value} {name : String} {l : Location}
    (hl : c.location? (.name name) = some l) : getProperty c name s = .ok (s.heap.valueAt l) s := by
  cases c with
  | array r =>
      rw [Value.location?, Location.ofName?] at hl
      split_ifs at hl with hnone
      obtain ⟨hlength, hpush⟩ := not_or.1 hnone
      rw [getProperty]
      simp only [if_neg hlength, if_neg hpush]
      split at hl
      next position hposition =>
        cases hl
        rw [hposition]
        rfl
      next hposition =>
        cases hl
        rw [hposition]
        rfl
  | object r =>
      cases hl
      rfl
  | _ => cases hl

theorem getIndex_eq (c k : Value) (s : Store) :
    getIndex c k s =
      (match c, k.key s.heap with
        | .array r, .position n => itemAt r n
        | .string text, .position n =>
          match Text.unitAt? text n with
          | some unit => return .string unit
          | none => return .undefined
        | c, key => getProperty c key.text : Act Value) s :=
  rfl

/-- What is read at an index is what is kept there. -/
theorem getIndex_of_location? {s : Store} {c k : Value} {l : Location}
    (hl : c.location? (k.key s.heap) = some l) : getIndex c k s = .ok (s.heap.valueAt l) s := by
  rw [getIndex_eq]
  cases hkey : k.key s.heap with
  | position n =>
      rw [hkey] at hl
      cases c with
      | array r =>
          cases hl
          rfl
      | object r => exact getProperty_of_location? hl
      | _ => cases hl
  | name text =>
      rw [hkey] at hl
      cases c with
      | array r => exact getProperty_of_location? hl
      | object r => exact getProperty_of_location? hl
      | _ => cases hl

end Act

/-! ### Writing -/

/-- What a write at a location does to the container: an array ends behind the item at the earliest,
and is filled with undefined values up to it; an object has the key in its old place or behind all
others. -/
def Heap.Reshaped (h h' : Heap Value) : Location → Prop
  | .item r position => ∃ items items', h.items? r = some items ∧ h'.items? r = some items' ∧
      items'.size = max items.size (position + 1) ∧
        ∀ q, items.size ≤ q → q < position → items'[q]? = some .undefined
  | .property r key => ∃ entries entries', h.entries? r = some entries ∧
      h'.entries? r = some entries' ∧
        entries'.map Prod.fst =
          if key ∈ entries.map Prod.fst then entries.map Prod.fst
          else entries.map Prod.fst ++ [key]
  | .blank _ _ => False

/-- A value was written at a location. What is kept at all others is the same. -/
structure Heap.Written (h : Heap Value) (l : Location) (v : Value) (h' : Heap Value) : Prop where
  value : h'.valueAt l = v
  others : ∀ other, other ≠ l → h'.valueAt other = h.valueAt other
  cells : ∀ r, r ≠ l.container → h'.get? r = h.get? r
  reshaped : h.Reshaped h' l

namespace Heap

variable {h : Heap Value} {r : Ref}

/-- A write into an array changes the item, and else only what lies behind the old end. -/
theorem written_setItem {items : Array Value} (hitems : h.items? r = some items) (position : ℕ)
    (v : Value) : h.Written (.item r position) v (h.setItem r .undefined position v) := by
  have hcell : h.get? r = some (.array items) := by
    rw [items?] at hitems
    split at hitems
    next other hother =>
      cases hitems
      exact hother
    next => cases hitems
  have hcell' : (h.setItem r .undefined position v).get? r =
      some (.array (setItemAt .undefined items position v)) := by
    rw [setItem, get?_modify, if_pos rfl, hcell]
    rfl
  have hcells : ∀ other, other ≠ r →
      (h.setItem r .undefined position v).get? other = h.get? other :=
    fun other hother => h.get?_modify_of_ne hother _
  have hitems' : (h.setItem r .undefined position v).items? r =
      some (setItemAt .undefined items position v) := by rw [items?, hcell']
  refine ⟨?_, fun other hother => ?_, hcells, items, _, hitems, hitems', size_setItemAt .., ?_⟩
  · rw [valueAt, hitems', Option.bind_some, getElem?_setItemAt, if_pos rfl, Option.getD_some]
  · cases other with
    | blank other name => rfl
    | property other key =>
        have hentries : (h.setItem r .undefined position v).entries? other = h.entries? other := by
          by_cases heq : other = r
          · rw [heq, entries?, entries?, hcell', hcell]
          · rw [entries?, entries?, hcells other heq]
        rw [valueAt, valueAt, property?, property?, hentries]
    | item other q =>
        by_cases heq : other = r
        · subst heq
          have hq : q ≠ position := fun hq => hother (by rw [hq])
          rw [valueAt, valueAt, hitems', hitems, Option.bind_some, Option.bind_some,
            getElem?_setItemAt, if_neg hq]
          split_ifs with hlt hbelow
          · rfl
          -- What was behind the old end was nothing.
          · rw [Array.getElem?_eq_none (Nat.le_of_not_lt hlt)]
            rfl
          · rw [Array.getElem?_eq_none (Nat.le_of_not_lt hlt)]
        · rw [valueAt, valueAt, items?, items?, hcells other heq]
  · intro q hle hlt
    rw [getElem?_setItemAt, if_neg (Nat.ne_of_lt hlt), if_neg (Nat.not_lt.2 hle), if_pos hlt]

/-- A write into an object changes the value of one key. -/
theorem written_setProperty {entries : List (String × Value)}
    (hentries : h.entries? r = some entries) (key : String) (v : Value) :
    h.Written (.property r key) v (h.setProperty r key v) := by
  have hcell : h.get? r = some (.object entries) := by
    rw [entries?] at hentries
    split at hentries
    next other hother =>
      cases hentries
      exact hother
    next => cases hentries
  have hcell' : (h.setProperty r key v).get? r = some (.object (setEntry key v entries)) := by
    rw [setProperty, get?_modify, if_pos rfl, hcell]
    rfl
  have hcells : ∀ other, other ≠ r → (h.setProperty r key v).get? other = h.get? other :=
    fun other hother => h.get?_modify_of_ne hother _
  have hentries' : (h.setProperty r key v).entries? r = some (setEntry key v entries) := by
    rw [entries?, hcell']
  refine ⟨?_, fun other hother => ?_, hcells, entries, _, hentries, hentries', keys_setEntry ..⟩
  · rw [valueAt, property?, hentries', Option.bind_some, valueOf?_setEntry, if_pos rfl,
      Option.getD_some]
  · cases other with
    | blank other name => rfl
    | item other q =>
        have hitems : (h.setProperty r key v).items? other = h.items? other := by
          by_cases heq : other = r
          · rw [heq, items?, items?, hcell', hcell]
          · rw [items?, items?, hcells other heq]
        rw [valueAt, valueAt, hitems]
    | property other name =>
        by_cases heq : other = r
        · subst heq
          have hname : name ≠ key := fun hname => hother (by rw [hname])
          rw [valueAt, valueAt, property?, property?, hentries', hentries, Option.bind_some,
            Option.bind_some, valueOf?_setEntry, if_neg hname]
        · rw [valueAt, valueAt, property?, property?, entries?, entries?, hcells other heq]

end Heap

/-! #### Keys behind a write -/

theorem Value.text_string (heap : Heap Value) (s : String) : (string s).text heap = s := by
  rw [text]
  cases heap.size <;> rfl

/-- The plain text of a value is read off the arrays alone. -/
theorem Value.textWithin_congr {h h' : Heap Value} (hitems : ∀ r, h'.items? r = h.items? r)
    (levels : ℕ) (outer : List Ref) (v : Value) :
    textWithin h' levels outer v = textWithin h levels outer v := by
  induction levels generalizing outer v with
  | zero => cases v <;> rfl
  | succ levels ih =>
      cases v with
      | array r => simp only [textWithin, hitems, ih]
      | _ => rfl

theorem Value.key_congr {h h' : Heap Value} (hitems : ∀ r, h'.items? r = h.items? r)
    (hsize : h'.size = h.size) (k : Value) : k.key h' = k.key h := by
  have htext : ∀ v : Value, v.text h' = v.text h := fun v => by
    rw [text, text, hsize, textWithin_congr hitems]
  cases k <;> simp only [key, htext]

/-- An index is the same key behind a write of a property. -/
theorem Heap.key_setProperty (h : Heap Value) (r : Ref) (key : String) (v k : Value) :
    k.key (h.setProperty r key v) = k.key h := by
  refine k.key_congr (fun other => ?_) (h.size_modify r _)
  rw [items?, items?, get?_modify]
  split_ifs
  · cases h.get? other with
    | none => rfl
    | some cell => cases cell <;> rfl
  · rfl

/-! #### Actions -/

/-- What an action did is that it wrote a value at a location. -/
def Store.Writes (s : Store) (l : Location) (v : Value) (s' : Store) : Prop :=
  ∃ heap, s' = { s with heap } ∧ s.heap.Written l v heap

namespace Act

variable {s s' : Store} {r : Ref} {position : ℕ} {v : Value}

theorem setItem_eq {items : Array Value} (hitems : s.heap.items? r = some items) :
    setItem r position v s =
      if items.size + growthLimit ≤ position then
        .error (.invalidIndex (toString position)) s
      else .ok () { s with heap := s.heap.setItem r .undefined position v } := by
  have hlength : s.heap.length? r = some items.size := by rw [Heap.length?, hitems]; rfl
  refine (run_get _ s).trans ?_
  rw [hlength]
  simp only
  split_ifs
  · rfl
  · rfl

theorem writes_setItem (hr : (s.heap.items? r).isSome)
    (hset : setItem r position v s = .ok () s') : s.Writes (.item r position) v s' := by
  obtain ⟨items, hitems⟩ := Option.isSome_iff_exists.1 hr
  rw [setItem_eq hitems] at hset
  split_ifs at hset
  cases hset
  exact ⟨_, rfl, Heap.written_setItem hitems position v⟩

theorem setIndex_eq (c k v : Value) (s : Store) :
    setIndex c k v s =
      (match c, k.key s.heap with
        | .array r, .position n => setItem r n v
        | .array _, .name key => throw (.invalidIndex key)
        | c, key => setProperty c key.text v : Act Unit) s :=
  rfl

section

variable {F : Closure → Prop} {c : Value} (hc : c.Stands F s.heap)

include hc

/-- A property that is written is one that can be read. -/
theorem writes_setProperty {name : String} (hset : setProperty c name v s = .ok () s') :
    ∃ l, c.location? (.name name) = some l ∧ s.Writes l v s' := by
  cases c with
  | object r =>
      cases hset
      obtain ⟨entries, hentries⟩ := Option.isSome_iff_exists.1 hc
      exact ⟨_, rfl, _, rfl, Heap.written_setProperty hentries name v⟩
  | array r =>
      cases hposition : positionNamed? name with
      | some position =>
          simp only [setProperty, hposition] at hset
          refine ⟨.item r position, ?_, writes_setItem hc hset⟩
          rw [Value.location?, Location.ofName?, hposition, if_neg]
          rintro (rfl | rfl)
          · cases hposition
          · cases hposition
      | none =>
          simp only [setProperty, hposition] at hset
          cases hset
  | _ => cases hset

/-- What is written at an index can be read at this index, before and after. -/
theorem writes_setIndex {k : Value} (hset : setIndex c k v s = .ok () s') :
    ∃ l, c.location? (k.key s.heap) = some l ∧ c.location? (k.key s'.heap) = some l ∧
      s.Writes l v s' := by
  rw [setIndex_eq] at hset
  cases hkey : k.key s.heap with
  | position n =>
      rw [hkey] at hset
      cases c with
      | array r =>
          have hafter : k.key s'.heap = .position n :=
            Value.key_eq_position_iff.2 (Value.key_eq_position_iff.1 hkey)
          rw [hafter]
          exact ⟨_, rfl, rfl, writes_setItem hc hset⟩
      | object r =>
          have hafter : k.key s'.heap = .position n :=
            Value.key_eq_position_iff.2 (Value.key_eq_position_iff.1 hkey)
          rw [hafter]
          obtain ⟨l, hl, hwrites⟩ := writes_setProperty hc hset
          exact ⟨l, hl, hl, hwrites⟩
      | _ => cases hset
  | name text =>
      rw [hkey] at hset
      cases c with
      | object r =>
          obtain ⟨l, hl, hwrites⟩ := writes_setProperty hc hset
          cases hset
          refine ⟨l, hl, ?_, hwrites⟩
          change Value.location? _ (k.key (s.heap.setProperty r text v)) = _
          rw [Heap.key_setProperty, hkey]
          exact hl
      | _ => cases hset

end

/-! #### Writes into arrays -/

variable {items : Array Value} (hitems : s.heap.items? r = some items) {k : Value}

include hitems

theorem setIndex_array :
    setIndex (.array r) k v s =
      match k.key s.heap with
      | .position n =>
        if items.size + growthLimit ≤ n then .error (.invalidIndex (toString n)) s
        else .ok () { s with heap := s.heap.setItem r .undefined n v }
      | .name text => .error (.invalidIndex text) s := by
  rw [setIndex_eq]
  cases k.key s.heap with
  | position n => exact setItem_eq hitems
  | name text => rfl

/-- **The writes into arrays that fail**: those whose index is no position, and those too far behind
the end. -/
theorem setIndex_array_error_iff :
    (∃ text, setIndex (.array r) k v s = .error (.invalidIndex text) s) ↔
      (∀ n, ¬k.Denotes n) ∨
        ∃ n, k.Denotes n ∧ items.size + growthLimit ≤ min n (positionBound - 1) := by
  rw [setIndex_array hitems]
  cases hkey : k.key s.heap with
  | position p =>
      obtain ⟨n, hn, rfl⟩ := Value.key_eq_position_iff.1 hkey
      simp only
      split_ifs with hfar
      · exact iff_of_true ⟨_, rfl⟩ (.inr ⟨n, hn, hfar⟩)
      · refine iff_of_false ?_ ?_
        · rintro ⟨text, ⟨⟩⟩
        rintro (hnone | ⟨n', hn', hfar'⟩)
        · exact hnone n hn
        · exact hfar (hn'.unique hn ▸ hfar')
  | name text =>
      refine iff_of_true ⟨text, rfl⟩ (.inl fun n hn => ?_)
      have hposition := hn.key s.heap
      rw [hkey] at hposition
      cases hposition

end Act

end Tracepoint
