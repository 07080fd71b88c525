/-
Numbers as keys of objects.

An object has its properties under names.  A number that is whole and not negative is turned into a
name on a way of its own: first into a position, of which there is a largest one, and that is
written in digits.  Every other value is turned into the text that it has in concatenations.  The two
ways meet as long as numbers are written as integers in concatenations too.  Above that a number and
its text are different properties, and numbers beyond the largest position are all the same.

Main definitions:

* `Value.nameIn` — the name of the property that an index is;
* `Machine.SameProperty` — two indices are one property of an object, for reading and for writing;
* `Machine.OtherProperty` — a write under one index leaves what is read under another one.

Main results:

* `Value.Denotes.nameIn`, `Value.Denotes.text_of_small`, `Value.Denotes.marked_text` — a number as
  a key and as text;
* `Machine.sameProperty_of_nameIn`, `Machine.otherProperty_of_nameIn` — indices are one property
  exactly if they have one name;
* `number_keys_and_texts` — **below `10 ^ 15` a number and its text are one property, above they are
  two; different numbers are different properties up to the largest position**.
-/

import Mathlib
import Tracepoint.Proofs.Machine.Locations
import Tracepoint.Proofs.Value.Integers

set_option relaxedAutoImplicit false
set_option autoImplicit false

namespace Tracepoint

/-! ### Names of properties -/

namespace Value

variable {heap : Heap Value} {k : Value} {n : ℕ}

/-- The name of the property that an index is in an object. -/
def nameIn (heap : Heap Value) (k : Value) : String :=
  (k.key heap).text

/-- A text is the property of this name. -/
@[simp] theorem nameIn_string (heap : Heap Value) (s : String) : (string s).nameIn heap = s := by
  rw [nameIn, key_of_not_denotes (not_denotes_string s), Key.text, text_string]

/-- A number that is a position is the property that has the position in digits as its name. -/
theorem Denotes.nameIn (h : k.Denotes n) (heap : Heap Value) :
    k.nameIn heap = toString (min n (positionBound - 1)) := by
  rw [Value.nameIn, h.key, Key.text]

/-- A small number is written in digits in concatenations too. -/
theorem Denotes.text_of_small (h : k.Denotes n) (hsmall : n < 10 ^ 15) (heap : Heap Value) :
    k.text heap = toString n := by
  obtain ⟨x, rfl, hx⟩ := h
  rw [text, textWithin, Decimal.Style.render_of_small hx]
  · rfl
  · exact hsmall

/-- A larger one has a point or an exponent there. -/
theorem Denotes.marked_text (h : k.Denotes n) (hlarge : 10 ^ 15 ≤ n) (heap : Heap Value) :
    Decimal.Marked (k.text heap) := by
  obtain ⟨x, rfl, hx⟩ := h
  rw [text, textWithin]
  refine Decimal.Style.marked_render hx hlarge ?_ (Or.inl (by decide))
  have hpositive : 0 < n := Nat.lt_of_lt_of_le (Nat.pow_pos (by decide)) hlarge
  exact Int.natCast_ne_zero.2 (Nat.pos_iff_ne_zero.1 hpositive)

/-- **A number and its text have one name** exactly if the number is small. -/
theorem Denotes.nameIn_eq_text_iff (h : k.Denotes n) (heap : Heap Value) :
    k.nameIn heap = k.text heap ↔ n < 10 ^ 15 := by
  rw [h.nameIn]
  constructor
  · intro hname
    by_contra hlarge
    have hmarked := h.marked_text (Nat.le_of_not_lt hlarge) heap
    exact Decimal.not_marked_toString _ (hname ▸ hmarked)
  · intro hsmall
    have hbound : 10 ^ 15 ≤ positionBound - 1 := by decide
    rw [h.text_of_small hsmall, Nat.min_eq_left (by omega)]

/-- Numbers have one name exactly if they are the same position. -/
theorem Denotes.nameIn_eq_iff {j : Value} {i : ℕ} (hj : j.Denotes i) (hk : k.Denotes n)
    (heap : Heap Value) :
    j.nameIn heap = k.nameIn heap ↔ min i (positionBound - 1) = min n (positionBound - 1) := by
  rw [hj.nameIn, hk.nameIn, Nat.toString_eq_repr, Nat.toString_eq_repr, Nat.repr_inj]

end Value

/-! ### Instructions -/

namespace Machine

/-- The operands of an instruction that reads at an index of an object. -/
def reading (m : Machine) (r : Ref) (k : Value) (rest : List Value) : Machine :=
  { m with stack := k :: .object r :: rest }

/-- The operands of an instruction that writes at an index of an object. -/
def writing (m : Machine) (r : Ref) (k v : Value) (rest : List Value) : Machine :=
  { m with stack := v :: k :: .object r :: rest }

/-- What an instruction leaves that pushes a value. -/
def leaving (m : Machine) (v : Value) (rest : List Value) : Machine :=
  { m with stack := v :: rest }

/-- Two indices are one property of an object: instructions read the same under them and do the same
when they write, and what is written under the one is read under the other. -/
structure SameProperty (m : Machine) (r : Ref) (k k' : Value) : Prop where
  reads : ∀ proto rest,
    execute proto .getIndex (m.reading r k rest) = execute proto .getIndex (m.reading r k' rest)
  writes : ∀ proto v rest,
    execute proto .setIndex (m.writing r k v rest) = execute proto .setIndex (m.writing r k' v rest)
  found : ∀ proto v rest, ∃ m' : Machine,
    execute proto .setIndex (m.writing r k v rest) = .ok [] (m'.leaving v rest) ∧
      ∀ rest', execute proto .getIndex (m'.reading r k' rest') = .ok [] (m'.leaving v rest')

/-- A write under one index of an object leaves what is read under another one. -/
def OtherProperty (m : Machine) (r : Ref) (k k' : Value) : Prop :=
  ∀ proto v rest, ∃ m' : Machine,
    execute proto .setIndex (m.writing r k v rest) = .ok [] (m'.leaving v rest) ∧
      ∀ rest', ∃ w,
        execute proto .getIndex (m.reading r k' rest') = .ok [] (m.leaving w rest') ∧
        execute proto .getIndex (m'.reading r k' rest') = .ok [] (m'.leaving w rest')

variable {m : Machine} {r : Ref} {k k' : Value}

/-- Operands are all that instructions are given. -/
theorem leaving_reading (m : Machine) (v : Value) (rest : List Value) (r : Ref) (k : Value)
    (rest' : List Value) : (m.leaving v rest).reading r k rest' = m.reading r k rest' := rfl

theorem leaving_leaving (m : Machine) (v : Value) (rest : List Value) (w : Value)
    (rest' : List Value) : (m.leaving v rest).leaving w rest' = m.leaving w rest' := rfl

theorem leaving_inj {v w : Value} {rest : List Value} {printed : List String}
    (h : (.ok printed (m.leaving v rest) : EStateM.Result Fault Machine (List String)) =
      .ok printed (m.leaving w rest)) : v = w := by
  cases h
  rfl

/-- What two values would be read as can not be what was read before. -/
theorem SameProperty.not_otherProperty (hsame : m.SameProperty r k k') :
    ¬m.OtherProperty r k k' := by
  intro hother
  have hproto : Proto := compileProgram []
  have hread : ∀ v, execute hproto .getIndex (m.reading r k' []) = .ok [] (m.leaving v []) := by
    intro v
    obtain ⟨m₁, hwrite₁, hread₁⟩ := hsame.found hproto v []
    obtain ⟨m₂, hwrite₂, hread₂⟩ := hother hproto v []
    obtain ⟨w, hbefore, hafter⟩ := hread₂ []
    have hleft : m₁.leaving v [] = m₂.leaving v [] := by
      have hwritten := hwrite₁.symm.trans hwrite₂
      injection hwritten
    have hreading : m₁.reading r k' [] = m₂.reading r k' [] := by
      rw [← m₁.leaving_reading v [], hleft, leaving_reading]
    have hleaving : m₁.leaving w [] = m₂.leaving w [] := by
      rw [← m₁.leaving_leaving v [], hleft, leaving_leaving]
    rw [← hreading, hread₁ [], ← hleaving] at hafter
    rw [hbefore, leaving_inj hafter]
  have hboth := (hread .null).symm.trans (hread .undefined)
  exact absurd (leaving_inj hboth) Value.noConfusion

/-- What is read at an index of an object is what is kept under its name. -/
theorem execute_reading (proto : Proto) (m : Machine) (r : Ref) (k : Value) (rest : List Value) :
    execute proto .getIndex (m.reading r k rest) =
      .ok [] (m.leaving (m.heap.valueAt (.property r (k.nameIn m.heap))) rest) :=
  (m.heap.reads_valueAt (.property r (k.nameIn m.heap))).index proto (m.reading r k rest) k
    (.object r) rest rfl rfl rfl

/-- What is written at an index of an object is kept under its name. -/
theorem execute_writing (proto : Proto) (m : Machine) (r : Ref) (k v : Value) (rest : List Value) :
    execute proto .setIndex (m.writing r k v rest) =
      .ok [] ({ m with heap := m.heap.setProperty r (k.nameIn m.heap) v }.leaving v rest) := by
  have hact : Act.setIndex (.object r) k v m.toStore =
      .ok () { m.toStore with heap := m.heap.setProperty r (k.nameIn m.heap) v } := by
    rw [Act.setIndex_eq]
    cases hkey : k.key m.heap <;> rw [Value.nameIn, hkey] <;> rfl
  rw [writing, execute_setIndex, hact]
  rfl

/-- The empty text and a value are joined to the text of the value. -/
theorem execute_joining (proto : Proto) (m : Machine) (k : Value) (rest : List Value) :
    execute proto (.operate .add) { m with stack := k :: .string "" :: rest } =
      .ok [] (m.leaving (.string (k.text m.heap)) rest) := by
  have hadd : Value.add m.heap (.string "") k = .ok (.string (k.text m.heap)) := by
    rw [Value.add, Value.text_string, String.empty_append]
  have hact : Act.operate .add (.string "") k m.toStore =
      .ok (.string (k.text m.heap)) m.toStore := by
    refine (Act.run_get _ _).trans ?_
    rw [Operation.apply, hadd]
    rfl
  have hrun := run_act (Act.operate .add (.string "") k)
    (fun v => do Exec.push v; return ([] : List String)) m.toStore m.frames rest m.halted
  rw [hact] at hrun
  exact hrun

section

variable (hr : (m.heap.entries? r).isSome)

include hr

/-- Indices that have one name are one property. -/
theorem sameProperty_of_nameIn (h : k.nameIn m.heap = k'.nameIn m.heap) :
    m.SameProperty r k k' := by
  obtain ⟨entries, hentries⟩ := Option.isSome_iff_exists.1 hr
  refine ⟨fun proto rest => ?_, fun proto v rest => ?_, fun proto v rest => ?_⟩
  · rw [execute_reading, execute_reading, h]
  · rw [execute_writing, execute_writing, h]
  · refine ⟨{ m with heap := m.heap.setProperty r (k.nameIn m.heap) v },
      execute_writing .., fun rest' => ?_⟩
    have hwritten := Heap.written_setProperty hentries (k.nameIn m.heap) v
    rw [execute_reading]
    simp only [Value.nameIn, Heap.key_setProperty] at h hwritten ⊢
    rw [← h, hwritten.value]

/-- Indices that have different names are different properties. -/
theorem otherProperty_of_nameIn (h : k.nameIn m.heap ≠ k'.nameIn m.heap) :
    m.OtherProperty r k k' := by
  obtain ⟨entries, hentries⟩ := Option.isSome_iff_exists.1 hr
  intro proto v rest
  refine ⟨{ m with heap := m.heap.setProperty r (k.nameIn m.heap) v },
    execute_writing .., fun rest' => ⟨_, execute_reading .., ?_⟩⟩
  have hwritten := Heap.written_setProperty hentries (k.nameIn m.heap) v
  rw [execute_reading]
  have hother : Location.property r (k'.nameIn m.heap) ≠ .property r (k.nameIn m.heap) :=
    fun heq => h (Location.property.inj heq).2.symm
  have hvalue := hwritten.others _ hother
  simp only [Value.nameIn, Heap.key_setProperty] at hvalue ⊢
  rw [hvalue]

end

end Machine

/-! ### Numbers and their texts -/

/-- **Below `10 ^ 15` a number and its text are one property of an object, above they are two.** Take
a machine with an object, and a number that is whole and not negative. Joining it to the empty text
gives a text, which is the same property of the object as the number if this is small; otherwise
what is written under the one is not read under the other. Different numbers are different
properties, unless both are too large to be positions. -/
theorem number_keys_and_texts (m : Machine) {r : Ref} (hr : (m.heap.entries? r).isSome) {k : Value}
    {n : ℕ} (hk : k.Denotes n) :
    ∃ t, (∀ proto rest, execute proto (.operate .add) { m with stack := k :: .string "" :: rest } =
        .ok [] (m.leaving (.string t) rest)) ∧
      (n < 10 ^ 15 → m.SameProperty r k (.string t)) ∧
      (10 ^ 15 ≤ n → m.OtherProperty r k (.string t) ∧ m.OtherProperty r (.string t) k) ∧
      ∀ j i, j.Denotes i →
        (min i (2 ^ 64 - 1) = min n (2 ^ 64 - 1) → m.SameProperty r j k) ∧
        (min i (2 ^ 64 - 1) ≠ min n (2 ^ 64 - 1) → m.OtherProperty r j k) := by
  have htext : (Value.string (k.text m.heap)).nameIn m.heap = k.text m.heap :=
    Value.nameIn_string m.heap _
  refine ⟨k.text m.heap, fun proto rest => m.execute_joining proto k rest, fun hsmall => ?_,
    fun hlarge => ?_, fun j i hj => ⟨fun hsame => ?_, fun hother => ?_⟩⟩
  · exact Machine.sameProperty_of_nameIn hr (((hk.nameIn_eq_text_iff _).2 hsmall).trans htext.symm)
  · have hne : k.nameIn m.heap ≠ (Value.string (k.text m.heap)).nameIn m.heap := by
      rw [htext]
      exact fun hname => Nat.not_lt.2 hlarge ((hk.nameIn_eq_text_iff _).1 hname)
    exact ⟨Machine.otherProperty_of_nameIn hr hne, Machine.otherProperty_of_nameIn hr hne.symm⟩
  · exact Machine.sameProperty_of_nameIn hr ((hj.nameIn_eq_iff hk _).2 hsame)
  · exact Machine.otherProperty_of_nameIn hr fun hname => hother ((hj.nameIn_eq_iff hk _).1 hname)

/-- A program that writes under a number into an object and reads under the text of the number:
`let o = {}; o[x] = true; o["" + x];`. -/
def keyedProgram (x : Float) : Program :=
  [.declare .let_ "o" (some (.object [])) 1,
    .expression (.assignIndex (.atom (.name "o") ⟨12, 1⟩ 1) (.atom (.number x) ⟨14, 1⟩ 1)
      (.atom (.bool true) ⟨19, 4⟩ 1)) 1,
    .expression (.index (.atom (.name "o") ⟨25, 1⟩ 1)
      (.binary .add (.atom (.string "") ⟨27, 2⟩ 1) (.atom (.number x) ⟨32, 1⟩ 1))) 1]

/-- The program comes to write into an object, whatever the number is. -/
theorem run_to_numberKey (x : Float) :
    (machineAfter (keyedProgram x) 6).nextInstr? = some .setIndex ∧
      (machineAfter (keyedProgram x) 6).stack = [.bool true, .number x, .object ⟨1⟩] ∧
        ((machineAfter (keyedProgram x) 6).heap.entries? ⟨1⟩).isSome := by
  refine ⟨?_, ?_, ?_⟩ <;> rw [keyedProgram] <;> cbv

/-- A number written with one digit is the same property as its text. -/
theorem number_keys_and_texts_seven :
    ∃ (m : Machine) (r : Ref) (k : Value) (t : String), k.Denotes 7 ∧ (m.heap.entries? r).isSome ∧
      (∀ proto rest, execute proto (.operate .add) { m with stack := k :: .string "" :: rest } =
        .ok [] (m.leaving (.string t) rest)) ∧ m.SameProperty r k (.string t) := by
  have hk : (Value.number (Literal.numberValue "7")).Denotes 7 := ⟨_, rfl, by decide +kernel⟩
  obtain ⟨-, -, hr⟩ := run_to_numberKey (Literal.numberValue "7")
  obtain ⟨t, hjoin, hsame, -⟩ := number_keys_and_texts _ hr hk
  exact ⟨_, _, _, t, hk, hr, hjoin, hsame (by decide)⟩

/-- From `10 ^ 15` on a number and its text are not the same property: what the program has written
under the number it does not read under the text. -/
theorem large_number_not_its_text :
    ∃ x, (Value.number x).Denotes (10 ^ 15) ∧
      (machineAfter (keyedProgram x) 6).nextInstr? = some .setIndex ∧
      (machineAfter (keyedProgram x) 6).stack = [.bool true, .number x, .object ⟨1⟩] ∧
      ¬(machineAfter (keyedProgram x) 6).SameProperty ⟨1⟩ (.number x)
        (.string ((Value.number x).text (machineAfter (keyedProgram x) 6).heap)) ∧
      (machineAfter (keyedProgram x) 12).nextInstr? = some .getIndex ∧
      (machineAfter (keyedProgram x) 12).stack.map (Value.text .empty) =
        ["1000000000000000.0", "[object Object]"] ∧
      (machineAfter (keyedProgram x) 13).stack.map Value.typeName = ["undefined"] := by
  have hx : (Value.number (Literal.numberValue "1000000000000000")).Denotes (10 ^ 15) :=
    ⟨_, rfl, by decide +kernel⟩
  obtain ⟨hnext, hstack, hr⟩ := run_to_numberKey (Literal.numberValue "1000000000000000")
  have hname : ∀ heap : Heap Value,
      (Value.number (Literal.numberValue "1000000000000000")).nameIn heap ≠
        (Value.string ((Value.number (Literal.numberValue "1000000000000000")).text heap)).nameIn
          heap := by
    intro heap hname
    rw [Value.nameIn_string, hx.nameIn_eq_text_iff] at hname
    exact absurd hname (by decide)
  refine ⟨_, hx, hnext, hstack, fun hsame => ?_, by decide +kernel, by decide +kernel,
    by decide +kernel⟩
  exact hsame.not_otherProperty (Machine.otherProperty_of_nameIn hr (hname _))

end Tracepoint
