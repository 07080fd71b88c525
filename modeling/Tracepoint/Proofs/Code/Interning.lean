/-
Constants that are shared.

Constants are added to a pool by two calls, one for any constant and one for texts.  Each call gives
a position.  A constant never moves: its position yields it from then on, whatever is added later.
Equal texts share one position, by whichever call they are added, and every other constant gets a
new one.

A pool need not search its constants for a text.  It may keep a table of the texts beside them, and
give words for positions.  Then table and constants have to agree after every call, or one text
would be found under the position of another.  A handle is a position cut to a word of 32 bits:
behind more than `2 ^ 32` calls it could be the handle of two constants, and no pool promises
anything there.

Main definitions:

* `Addition` — the calls that add a constant;
* `Pool.after`, `Pool.given` — the pool behind some calls, and the position that the next one gives;
* `Interns` — **what the calls of a pool promise**;
* `IndexedPool` — a pool with a table of its texts, which gives words;
* `IndexedPool.Indexes` — table and constants agree.

Main results:

* `Pool.push_cases` — all that adding a constant can do;
* `Pool.interns` — **constants never move, and texts share their positions**;
* `IndexedPool.Indexes.add` — every call keeps the table in agreement with the constants;
* `constants_interned` — **both pools do the same**, and what they promise.
-/

import Mathlib
import Tracepoint.Code.Pool

set_option relaxedAutoImplicit false
set_option autoImplicit false

namespace Tracepoint

/-! ### Calls -/

/-- The text, if the constant is one. -/
def Constant.text? : Constant → Option String
  | string text => some text
  | _ => none

theorem Constant.isText_iff {c : Constant} {text : String} :
    c.isText text = true ↔ c = .string text := by
  cases c <;> simp [isText]

/-- Calls that add a constant: any constant, or a text. -/
inductive Addition
  | constant (c : Constant)
  | text (text : String)

/-- The constant that a call adds. -/
def Addition.added : Addition → Constant
  | constant c => c
  | text t => .string t

/-- What the calls of a pool promise: the handle that `given before call` is for a call behind
others leads to the constant that was added, behind all calls; two calls give the same handle if and
only if both add the same text; and a handle that no call gave leads to nothing. -/
structure Interns {H : Type} (given : List Addition → Addition → H)
    (get? : List Addition → H → Option Constant) (text? : List Addition → H → Option String)
    (calls : List Addition) : Prop where
  yields : ∀ before call later, calls = before ++ call :: later →
    get? calls (given before call) = some call.added ∧
      text? calls (given before call) = call.added.text?
  shares : ∀ before first between second later,
    calls = before ++ first :: (between ++ second :: later) →
      (given before first = given (before ++ first :: between) second ↔
        ∃ text, first.added = .string text ∧ second.added = .string text)
  unused : ∀ handle, (∀ before call later, calls = before ++ call :: later →
    given before call ≠ handle) → get? calls handle = none ∧ text? calls handle = none

/-! ### Searching for texts -/

namespace Pool

/-- Carries out a call. Gives the position of the constant. -/
def add (p : Pool) : Addition → ℕ × Pool
  | .constant c => p.push c
  | .text text => p.intern text

/-- The pool behind some calls. -/
def after (calls : List Addition) : Pool :=
  calls.foldl (fun p call => (p.add call).2) .empty

/-- The position that a call gives behind others. -/
def given (before : List Addition) (call : Addition) : ℕ :=
  ((after before).add call).1

variable {p : Pool} {c : Constant} {k : ℕ} {calls before later : List Addition} {call : Addition}

theorem text?_eq (p : Pool) (k : ℕ) : p.text? k = (p.get? k).bind Constant.text? := by
  unfold text?
  cases h : p.get? k with
  | none => rfl
  | some c => cases c <;> rfl

/-- Both calls add a constant in the same way. -/
theorem add_eq_push (p : Pool) (call : Addition) : p.add call = p.push call.added := by
  cases call <;> rfl

theorem after_concat (calls : List Addition) (call : Addition) :
    after (calls ++ [call]) = ((after calls).add call).2 := by
  simp [after]

theorem get?_isSome_iff : (p.get? k).isSome ↔ k < p.constants.size := by
  simp [get?]

/-- **All that adding a constant can do.** A text that is there already is found, and nothing
changes; everything else is put at the end. -/
theorem push_cases (p : Pool) (c : Constant) :
    (∃ text position, c = .string text ∧ p.get? position = some c ∧ p.push c = (position, p)) ∨
    (∀ text, c = .string text → ∀ k, p.get? k ≠ some c) ∧ p.push c = p.append c := by
  cases c with
  | string text =>
      change _ ∨ _ ∧ p.intern text = _
      cases hfind : p.constants.findIdx? (Constant.isText text) with
      | some position =>
          obtain ⟨hlt, htext, -⟩ := Array.findIdx?_eq_some_iff_getElem.1 hfind
          refine Or.inl ⟨text, position, rfl, ?_, ?_⟩
          · rw [get?, Array.getElem?_eq_getElem hlt, Constant.isText_iff.1 htext]
          · change p.intern text = _
            simp only [intern, hfind]
      | none =>
          refine Or.inr ⟨?_, ?_⟩
          · intro _ _ k hk
            have hall := Array.findIdx?_eq_none_iff.1 hfind
            have hfalse := hall _ (Array.mem_of_getElem? hk)
            simp [Constant.isText] at hfalse
          · simp only [intern, hfind]
  | number _ => exact Or.inr ⟨by simp, rfl⟩
  | bool _ => exact Or.inr ⟨by simp, rfl⟩
  | null => exact Or.inr ⟨by simp, rfl⟩
  | undefined => exact Or.inr ⟨by simp, rfl⟩

theorem get?_of_append {k : ℕ} (p : Pool) (c : Constant) :
    (p.append c).2.get? k = if k = p.constants.size then some c else p.get? k := by
  simp [append, get?, Array.getElem?_push]

/-- A constant stays where it is when another one is added. -/
theorem get?_add (call : Addition) (h : p.get? k = some c) :
    (p.add call).2.get? k = some c := by
  rw [add_eq_push]
  rcases p.push_cases call.added with ⟨_, _, -, -, hpush⟩ | ⟨-, hpush⟩
  · rw [hpush]
    exact h
  · have hlt : k < p.constants.size := by simpa [h] using get?_isSome_iff (p := p) (k := k)
    rw [hpush, get?_of_append, if_neg (by omega)]
    exact h

/-- **A constant never moves.** -/
theorem get?_after_append (later : List Addition) (h : (after calls).get? k = some c) :
    (after (calls ++ later)).get? k = some c := by
  induction later using List.reverseRecOn with
  | nil => simpa using h
  | append_singleton later call ih =>
      rw [← List.append_assoc, after_concat]
      exact get?_add call ih

theorem get?_given (before : List Addition) (call : Addition) (later : List Addition) :
    (after (before ++ call :: later)).get? (given before call) = some call.added := by
  have hadd := (after before).get?_push call.added
  rw [← add_eq_push, ← after_concat] at hadd
  have hlater := get?_after_append later hadd
  rw [List.append_assoc, List.singleton_append] at hlater
  exact hlater

/-! ### Texts that are there once -/

/-- Every text is in a pool once. -/
def Distinct (p : Pool) : Prop :=
  ∀ text i j, p.get? i = some (.string text) → p.get? j = some (.string text) → i = j

theorem Distinct.add (h : p.Distinct) (call : Addition) : (p.add call).2.Distinct := by
  rw [add_eq_push]
  rcases p.push_cases call.added with ⟨_, _, -, -, hpush⟩ | ⟨hnew, hpush⟩
  · rw [hpush]
    exact h
  · intro text i j hi hj
    rw [hpush, get?_of_append] at hi hj
    by_cases hilast : i = p.constants.size
    · rw [if_pos hilast] at hi
      by_cases hjlast : j = p.constants.size
      · omega
      · rw [if_neg hjlast, ← hi] at hj
        exact absurd hj (hnew text (Option.some.inj hi) j)
    · rw [if_neg hilast] at hi
      by_cases hjlast : j = p.constants.size
      · rw [if_pos hjlast] at hj
        rw [← hj] at hi
        exact absurd hi (hnew text (Option.some.inj hj) i)
      · rw [if_neg hjlast] at hj
        exact h text i j hi hj

theorem distinct_after (calls : List Addition) : (after calls).Distinct := by
  induction calls using List.reverseRecOn with
  | nil =>
      intro text i j hi
      simp [after, empty, get?] at hi
  | append_singleton calls call ih =>
      rw [after_concat]
      exact ih.add call

/-! ### Positions that are given -/

theorem size_add_le (p : Pool) (call : Addition) :
    (p.add call).2.constants.size ≤ p.constants.size + 1 := by
  rw [add_eq_push]
  rcases p.push_cases call.added with ⟨_, _, -, -, hpush⟩ | ⟨-, hpush⟩
  · simp [hpush]
  · simp [hpush, append]

/-- There are no more constants than calls. -/
theorem size_after_le (calls : List Addition) : (after calls).constants.size ≤ calls.length := by
  induction calls using List.reverseRecOn with
  | nil => simp [after, empty]
  | append_singleton calls call ih =>
      have hadd := size_add_le (after calls) call
      rw [after_concat, List.length_append, List.length_singleton]
      omega

theorem given_lt_size (before : List Addition) (call : Addition) (later : List Addition) :
    given before call < (after (before ++ call :: later)).constants.size := by
  rw [← get?_isSome_iff, get?_given]
  rfl

theorem given_lt_length (before : List Addition) (call : Addition) (later : List Addition) :
    given before call < (before ++ call :: later).length :=
  Nat.lt_of_lt_of_le (given_lt_size before call later) (size_after_le _)

/-- A constant that is no text gets the position behind all others. -/
theorem given_eq_size (h : ∀ text, call.added ≠ .string text) :
    given before call = (after before).constants.size := by
  rw [given, add_eq_push]
  rcases (after before).push_cases call.added with ⟨text, _, htext, -, -⟩ | ⟨-, hpush⟩
  · exact absurd htext (h text)
  · rw [hpush, append]

/-- Every position in use was given. -/
theorem exists_given (h : k < (after calls).constants.size) :
    ∃ before call later, calls = before ++ call :: later ∧ given before call = k := by
  induction calls using List.reverseRecOn with
  | nil => simp [after, empty] at h
  | append_singleton calls call ih =>
      by_cases hold : k < (after calls).constants.size
      · obtain ⟨before, first, later, rfl, hgiven⟩ := ih hold
        exact ⟨before, first, later ++ [call], by simp, hgiven⟩
      · -- The constant is new, so it is the one that the last call added.
        refine ⟨calls, call, [], rfl, ?_⟩
        rw [after_concat, add_eq_push] at h
        rw [given, add_eq_push]
        rcases (after calls).push_cases call.added with ⟨_, _, -, -, hpush⟩ | ⟨-, hpush⟩
        · rw [hpush] at h
          exact absurd h hold
        · rw [hpush, append] at h ⊢
          simp only [Array.size_push] at h
          omega

/-- **Constants never move, and texts share their positions.** -/
theorem interns (calls : List Addition) :
    Interns given (fun calls => (after calls).get?) (fun calls => (after calls).text?) calls where
  yields := by
    rintro before call later rfl
    refine ⟨get?_given before call later, ?_⟩
    rw [text?_eq, get?_given, Option.bind_some]
  shares := by
    rintro before first between second later rfl
    have hfirst := get?_given before first (between ++ second :: later)
    have hsecond := get?_given (before ++ first :: between) second later
    rw [List.append_assoc, List.cons_append] at hsecond
    constructor
    · intro heq
      have hadded : first.added = second.added := by
        rw [heq, hsecond] at hfirst
        exact (Option.some.inj hfirst).symm
      by_cases htext : ∃ text, second.added = .string text
      · obtain ⟨text, htext⟩ := htext
        exact ⟨text, hadded.trans htext, htext⟩
      · have hnew : given (before ++ first :: between) second =
            (after (before ++ first :: between)).constants.size :=
          given_eq_size (not_exists.1 htext)
        have hold := given_lt_size before first between
        omega
    · rintro ⟨text, htext, htext'⟩
      rw [htext] at hfirst
      rw [htext'] at hsecond
      exact distinct_after _ text _ _ hfirst hsecond
  unused := by
    intro k hk
    have hnone : (after calls).get? k = none := by
      rw [← Option.not_isSome_iff_eq_none, get?_isSome_iff]
      intro hlt
      obtain ⟨before, call, later, hcalls, hgiven⟩ := exists_given hlt
      exact hk before call later hcalls hgiven
    exact ⟨hnone, by rw [text?_eq, hnone, Option.bind_none]⟩

end Pool

/-! ### A table of texts -/

/-- The constants by position, with a table of the texts. -/
structure IndexedPool where
  constants : Array Constant
  handles : Std.HashMap String UInt32

namespace IndexedPool

/-- No constants. -/
def empty : IndexedPool :=
  ⟨#[], ∅⟩

/-- The constant that a word leads to. -/
def get? (p : IndexedPool) (handle : UInt32) : Option Constant :=
  p.constants[handle.toNat]?

/-- The text that a word leads to, if it leads to one. -/
def text? (p : IndexedPool) (handle : UInt32) : Option String :=
  match p.get? handle with
  | some (.string text) => some text
  | _ => none

/-- Adds a constant at the end. -/
def append (p : IndexedPool) (c : Constant) : UInt32 × IndexedPool :=
  (UInt32.ofNat p.constants.size, { p with constants := p.constants.push c })

/-- The word for a text, which is added to constants and table if the table does not have it. -/
def intern (p : IndexedPool) (text : String) : UInt32 × IndexedPool :=
  match p.handles[text]? with
  | some handle => (handle, p)
  | none =>
    let (handle, q) := p.append (.string text)
    (handle, { q with handles := q.handles.insert text handle })

/-- The word for a constant. -/
def push (p : IndexedPool) : Constant → UInt32 × IndexedPool
  | .string text => p.intern text
  | c => p.append c

/-- Carries out a call. -/
def add (p : IndexedPool) : Addition → UInt32 × IndexedPool
  | .constant c => p.push c
  | .text text => p.intern text

/-- The pool behind some calls. -/
def after (calls : List Addition) : IndexedPool :=
  calls.foldl (fun p call => (p.add call).2) .empty

/-- The word that a call gives behind others. -/
def given (before : List Addition) (call : Addition) : UInt32 :=
  ((after before).add call).1

/-- The constants are those of a pool without table, and the table leads to each text in it. -/
structure Indexes (p : IndexedPool) (q : Pool) : Prop where
  constants : p.constants = q.constants
  handles : ∀ text, p.handles[text]? =
    (q.constants.findIdx? (Constant.isText text)).map UInt32.ofNat

variable {p : IndexedPool} {q : Pool}

theorem text?_eq (p : IndexedPool) (handle : UInt32) :
    p.text? handle = (p.get? handle).bind Constant.text? := by
  unfold text?
  cases h : p.get? handle with
  | none => rfl
  | some c => cases c <;> rfl

theorem add_eq_push (p : IndexedPool) (call : Addition) : p.add call = p.push call.added := by
  cases call <;> rfl

/-- A constant that is no text is appended, and no text is found elsewhere. -/
theorem Indexes.append {c : Constant} (h : p.Indexes q) (hc : ∀ text, c ≠ .string text) :
    (p.append c).1 = UInt32.ofNat (q.append c).1 ∧ (p.append c).2.Indexes (q.append c).2 := by
  have hsize : p.constants.size = q.constants.size := congrArg Array.size h.constants
  refine ⟨congrArg UInt32.ofNat hsize, congrArg (·.push c) h.constants, ?_⟩
  intro text
  have hfalse : c.isText text = false := by
    rw [← Bool.not_eq_true, Constant.isText_iff]
    exact hc text
  simp [IndexedPool.append, Pool.append, h.handles, Array.findIdx?_push, hfalse]

/-- A text is found by the table where it is found by a search, and the table is kept up. -/
theorem Indexes.intern (h : p.Indexes q) (text : String) :
    (p.intern text).1 = UInt32.ofNat (q.intern text).1 ∧
      (p.intern text).2.Indexes (q.intern text).2 := by
  have hsize : p.constants.size = q.constants.size := congrArg Array.size h.constants
  have hhandle := h.handles text
  cases hfind : q.constants.findIdx? (Constant.isText text) with
  | some position =>
      rw [hfind, Option.map_some] at hhandle
      simp only [IndexedPool.intern, Pool.intern, hhandle, hfind]
      exact ⟨trivial, h⟩
  | none =>
      rw [hfind, Option.map_none] at hhandle
      simp only [IndexedPool.intern, Pool.intern, hhandle, hfind, IndexedPool.append, Pool.append]
      refine ⟨congrArg UInt32.ofNat hsize, by simp only [h.constants], ?_⟩
      intro other
      simp only [Std.HashMap.getElem?_insert, Array.findIdx?_push, Constant.isText]
      by_cases hother : text = other
      · subst hother
        simp [hfind, hsize]
      · simp [hother, h.handles other]

/-- **Every call keeps the table in agreement with the constants**, and gives the word for the
position that a search gives. -/
theorem Indexes.add (h : p.Indexes q) (call : Addition) :
    (p.add call).1 = UInt32.ofNat (q.add call).1 ∧ (p.add call).2.Indexes (q.add call).2 := by
  rw [add_eq_push, Pool.add_eq_push]
  cases call.added with
  | string text => exact h.intern text
  | number _ => exact h.append (by simp)
  | bool _ => exact h.append (by simp)
  | null => exact h.append (by simp)
  | undefined => exact h.append (by simp)

theorem indexes_after (calls : List Addition) : (after calls).Indexes (Pool.after calls) := by
  induction calls using List.reverseRecOn with
  | nil => exact ⟨rfl, fun text => by simp [after, empty, Pool.after, Pool.empty]⟩
  | append_singleton calls call ih =>
      rw [Pool.after_concat, after, List.foldl_append]
      exact (ih.add call).2

theorem given_eq (before : List Addition) (call : Addition) :
    given before call = UInt32.ofNat (Pool.given before call) :=
  ((indexes_after before).add call).1

theorem get?_after (calls : List Addition) (handle : UInt32) :
    (after calls).get? handle = (Pool.after calls).get? handle.toNat := by
  rw [get?, Pool.get?, (indexes_after calls).constants]

theorem text?_after (calls : List Addition) (handle : UInt32) :
    (after calls).text? handle = (Pool.after calls).text? handle.toNat := by
  rw [text?_eq, Pool.text?_eq, get?_after]

/-- A word holds the position, if there are not more calls than words. -/
theorem toNat_given {before later : List Addition} {call : Addition}
    (h : (before ++ call :: later).length ≤ UInt32.size) :
    (given before call).toNat = Pool.given before call := by
  have hlt := Pool.given_lt_length before call later
  rw [given_eq]
  exact UInt32.toNat_ofNat_of_lt' (Nat.lt_of_lt_of_le hlt h)

/-- **So a pool with a table keeps the same promises**, as long as there are words enough. -/
theorem interns {calls : List Addition} (h : calls.length ≤ UInt32.size) :
    Interns given (fun calls => (after calls).get?) (fun calls => (after calls).text?) calls where
  yields := by
    rintro before call later rfl
    simp only [get?_after, text?_after, toNat_given h]
    exact (Pool.interns _).yields before call later rfl
  shares := by
    rintro before first between second later rfl
    have hsecond : ((before ++ first :: between) ++ second :: later).length ≤ UInt32.size := by
      simpa using h
    rw [← UInt32.toNat_inj, toNat_given h, toNat_given hsecond]
    exact (Pool.interns _).shares before first between second later rfl
  unused := by
    intro handle hhandle
    simp only [get?_after, text?_after]
    refine (Pool.interns calls).unused _ ?_
    rintro before call later rfl hgiven
    refine hhandle before call later rfl (UInt32.toNat_inj.1 ?_)
    rw [toNat_given h, hgiven]

end IndexedPool

/-! ### Both pools -/

/-- **Constants never move, and texts share their handles.** For every sequence of calls on an empty
pool, by both of the calls that add a constant: what a call gives leads to the constant that it
added, behind every later call too; two calls give the same if and only if they add the same text;
and what no call gave leads to nothing.  A pool that finds its texts by a table has the same
constants behind all calls, and gives the words for the positions; as long as there are not more
calls than words of 32 bits, so that no position is cut, it keeps the same promises. -/
theorem constants_interned :
    (∀ calls, Interns Pool.given (fun calls => (Pool.after calls).get?)
      (fun calls => (Pool.after calls).text?) calls) ∧
    (∀ calls call, (IndexedPool.after calls).constants = (Pool.after calls).constants ∧
      IndexedPool.given calls call = UInt32.ofNat (Pool.given calls call)) ∧
    ∀ calls : List Addition, calls.length ≤ UInt32.size →
      Interns IndexedPool.given (fun calls => (IndexedPool.after calls).get?)
        (fun calls => (IndexedPool.after calls).text?) calls :=
  ⟨Pool.interns, fun calls call => ⟨(IndexedPool.indexes_after calls).constants,
    IndexedPool.given_eq calls call⟩, fun _ => IndexedPool.interns⟩

/-- A name that is added by both calls, with another constant in between, has one handle, which
leads to it. -/
theorem constants_interned_twice :
    [Addition.text "a", .constant .null, .constant (.string "a")].length ≤ UInt32.size ∧
    IndexedPool.given [] (.text "a") =
      IndexedPool.given [.text "a", .constant .null] (.constant (.string "a")) ∧
    (IndexedPool.after [.text "a", .constant .null, .constant (.string "a")]).text?
      (IndexedPool.given [] (.text "a")) = some "a" := by
  have hlength : [Addition.text "a", .constant .null, .constant (.string "a")].length ≤
      UInt32.size := by decide
  have hinterns := constants_interned.2.2 _ hlength
  refine ⟨hlength, ?_, ?_⟩
  · exact (hinterns.shares [] _ [.constant .null] _ [] rfl).2 ⟨"a", rfl, rfl⟩
  · exact (hinterns.yields [] _ _ rfl).2

end Tracepoint
